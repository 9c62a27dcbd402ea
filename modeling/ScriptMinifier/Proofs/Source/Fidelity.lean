import ScriptMinifier.Proofs.Source.Collecting
import ScriptMinifier.Proofs.Source.Passages

/-! Blocks say what the script says.

A block is read from a passage of the script; `Extract` keeps the two together. The texts of
the extracts hold their literals one after the other (`holdEach_collectAll`), so the literals
are numbered through the script whatever kinds of block they stand in. Together with the cut
of the script into passages this says of every script that can be read what its blocks are
(`blocks_faithful`): with the literals put back they are the passages without comments, and
each literal has exactly one place. -/
namespace ScriptMinifier.Source

open Text (mark)
open Literal (placeholder indexLimit numbersIn)

/-! ### Extracts -/

/-- What a block keeps of its text: a native declaration has no blanks at its end. -/
def BlockKind.finish : BlockKind → Text → Text
  | native, t => Text.trimEnd t
  | _, t => t

/-- What a block says: the passage it encloses without comments, and for a native declaration
its keyword too, without blanks at the end. -/
def BlockKind.written (kind : BlockKind) (inner : Annotated) : Text :=
  match kind with
  | native => Text.trimEnd (kind.keyword ++ uncommented inner)
  | _ => uncommented inner

/-- The text of a block beside the passage it was read from. -/
structure Extract where
  kind : BlockKind
  inner : Annotated
  text : Text

namespace Extract

/-- The passage of an extract. -/
def passage (e : Extract) : BlockKind × Annotated := (e.kind, e.inner)

/-- What an extract says. -/
def written (e : Extract) : Text := e.kind.written e.inner

/-- The extracts of one kind. -/
def ofKind (kind : BlockKind) (es : List Extract) : List Extract := es.filter fun e => e.kind = kind

end Extract

/-- The extract that a region is, given the text it leaves. -/
def Region.extract? : Region → Text → Option Extract
  | outside _, _ => none
  | block kind body _, text => some ⟨kind, annotatedAll body, kind.finish text⟩

/-- The extracts among collected regions. -/
def extractsOf (collected : List (Region × Text)) : List Extract :=
  collected.filterMap fun x => x.1.extract? x.2

/-- Texts that hold their literals, one after the other. -/
inductive HoldEach (all : Literals) : List Nat → List Extract → Prop
  | nil : HoldEach all [] []
  | cons {ns ms : List Nat} {e : Extract} {es : List Extract}
      (first : Holds all ns e.text e.written)
      (rest : HoldEach all ms es) : HoldEach all (ns ++ ms) (e :: es)

namespace HoldEach

variable {all : Literals} {ns : List Nat} {es : List Extract}

theorem restore_eq (h : HoldEach all ns es) (hlimit : all.size ≤ indexLimit) {e : Extract}
    (he : e ∈ es) :
    all.restore e.text = e.written := by
  induction h with
  | nil => cases he
  | cons first _ ih =>
    rcases List.mem_cons.1 he with rfl | he
    · exact first.restore_eq hlimit
    · exact ih he

theorem numbersIn_eq (h : HoldEach all ns es) (hlimit : all.size ≤ indexLimit) :
    es.flatMap (fun e => numbersIn e.text) = ns := by
  induction h with
  | nil => rfl
  | cons first _ ih => rw [List.flatMap_cons, first.numbersIn_eq hlimit, ih]

theorem ofKind (h : HoldEach all ns es) (kind : BlockKind) :
    ∃ ms, HoldEach all ms (Extract.ofKind kind es) := by
  induction h with
  | nil => exact ⟨[], .nil⟩
  | @cons ns _ e es first _ ih =>
    obtain ⟨ms, hms⟩ := ih
    by_cases hkind : e.kind = kind
    · have hkeep : Extract.ofKind kind (e :: es) = e :: Extract.ofKind kind es := by
        simp [Extract.ofKind, hkind]
      rw [hkeep]
      exact ⟨ns ++ ms, .cons first hms⟩
    · have hdrop : Extract.ofKind kind (e :: es) = Extract.ofKind kind es := by
        simp [Extract.ofKind, hkind]
      rw [hdrop]
      exact ⟨ms, hms⟩

/-- Joining texts joins what they hold: one is empty just when the other is. -/
theorem foldl_joinGlobals {ms : List Nat} {held written : Text} (h : HoldEach all ns es)
    (hsofar : Holds all ms held written) :
    Holds all (ms ++ ns) ((es.map Extract.text).foldl joinGlobals held)
      ((es.map Extract.written).foldl joinGlobals written) := by
  induction h generalizing ms held written with
  | nil =>
    rw [List.append_nil]
    exact hsofar
  | @cons ns _ e es first _ ih =>
    rw [← List.append_assoc, List.map_cons, List.map_cons, List.foldl_cons, List.foldl_cons]
    apply ih
    by_cases hnil : held = []
    · have hwritten := hsofar.eq_nil_iff.1 hnil
      subst hnil hwritten
      rw [hsofar.eq_nil_of_nil]
      exact first
    · have hwritten : written ≠ [] := fun hw => hnil (hsofar.eq_nil_iff.2 hw)
      rw [joinGlobals, joinGlobals, if_neg hnil, if_neg hwritten]
      exact hsofar.append (.char (by decide) first)

end HoldEach

/-! ### Collecting regions -/

/-- The lexemes between the opening word of a block and its end. -/
def Region.body : Region → List Lexeme
  | outside _ => []
  | block _ body _ => body

/-- A region whose body is read to its end. -/
def Region.Readable (r : Region) : Prop := Lexed r.body ∧ ∀ l ∈ r.body, l.openPart? = none

/-- The literals of a region. -/
def Region.literals (r : Region) : List Text := literalsIn (annotatedAll r.body)

theorem texts_regionCollect {lits : Literals} {r : Region} (h : r.Readable) :
    (r.collect lits).2.texts = lits.texts ++ r.literals := by
  cases r with
  | outside l => simp [Region.collect, Region.literals, Region.body, literalsIn]
  | block kind body closed => cases kind <;> exact texts_collectBody h.1 h.2

theorem texts_collectAll {lits : Literals} {rs : List Region} (h : ∀ r ∈ rs, r.Readable) :
    (collectAll lits rs).2.texts = lits.texts ++ rs.flatMap Region.literals := by
  induction rs generalizing lits with
  | nil => simp [collectAll]
  | cons r rest ih =>
    rw [List.flatMap_cons, ← List.append_assoc, ← texts_regionCollect (h r List.mem_cons_self)]
    exact ih fun r' hr' => h r' (List.mem_cons_of_mem r hr')

/-- What a block leaves holds what it says. -/
theorem holds_block {all lits : Literals} {kind : BlockKind} {body : List Lexeme} {closed : Bool}
    (h : Region.Readable (.block kind body closed))
    (hall : (Region.collect lits (.block kind body closed)).2.texts <+: all.texts) :
    Holds all (List.range' lits.size (Region.literals (.block kind body closed)).length)
      (kind.finish (Region.collect lits (.block kind body closed)).1)
      (kind.written (annotatedAll body)) := by
  cases kind with
  | globals => exact holds_collectBody h.1 h.2 hall
  | function => exact holds_collectBody h.1 h.2 hall
  | native =>
    have hkeyword : Holds all [] BlockKind.native.keyword BlockKind.native.keyword :=
      .of_not_mem (by decide)
    exact (hkeyword.append (holds_collectBody h.1 h.2 hall)).trimEnd

theorem holdEach_collectAll {all lits : Literals} {rs : List Region} (h : ∀ r ∈ rs, r.Readable)
    (hall : (collectAll lits rs).2.texts <+: all.texts) :
    HoldEach all (List.range' lits.size (rs.flatMap Region.literals).length)
    (extractsOf (collectAll lits rs).1) := by
  induction rs generalizing lits with
  | nil => exact .nil
  | cons r rest ih =>
    have hr := h r List.mem_cons_self
    have hrest : ∀ r' ∈ rest, r'.Readable := fun r' hr' => h r' (List.mem_cons_of_mem r hr')
    have hmore :
        HoldEach all (List.range' (r.collect lits).2.size (rest.flatMap Region.literals).length)
        (extractsOf (collectAll (r.collect lits).2 rest).1) := ih hrest hall
    have hfirst : (r.collect lits).2.texts <+: all.texts := by
      refine List.IsPrefix.trans ?_ hall
      show _ <+: (collectAll (r.collect lits).2 rest).2.texts
      rw [texts_collectAll hrest]
      exact List.prefix_append ..
    have hsize : (r.collect lits).2.size = lits.size + r.literals.length := by
      simp [Literals.size, texts_regionCollect hr]
    rw [List.flatMap_cons, List.length_append, ← List.range'_append_1, ← hsize]
    cases r with
    | outside l => exact hmore
    | block kind body closed => exact .cons (holds_block hr hfirst) hmore

theorem map_fst_collectAll (lits : Literals) (rs : List Region) :
    (collectAll lits rs).1.map Prod.fst = rs := by
  induction rs generalizing lits with
  | nil => rfl
  | cons r rest ih => exact congrArg (r :: ·) (ih _)

theorem passages_extractsOf (collected : List (Region × Text)) :
    (extractsOf collected).map Extract.passage =
    (collected.map Prod.fst).filterMap Region.passage? := by
  induction collected with
  | nil => rfl
  | cons x rest ih =>
    obtain ⟨r, text⟩ := x
    cases r with
    | outside l => exact ih
    | block kind body closed => exact congrArg ((kind, annotatedAll body) :: ·) ih

theorem map_finish_textsOf (kind : BlockKind) (collected : List (Region × Text)) :
    (textsOf kind collected).map kind.finish =
    (Extract.ofKind kind (extractsOf collected)).map Extract.text := by
  induction collected with
  | nil => rfl
  | cons x rest ih =>
    obtain ⟨r, text⟩ := x
    cases r with
    | outside l => exact ih
    | block kind' body closed =>
      by_cases hkind : kind' = kind
      · subst hkind
        simpa [textsOf, extractsOf, Extract.ofKind, Region.extract?] using ih
      · simpa [textsOf, extractsOf, Extract.ofKind, Region.extract?, hkind] using ih

theorem flatMap_literals_regions (rs : List Region) :
    rs.flatMap Region.literals = (rs.filterMap Region.passage?).flatMap fun p =>
      literalsIn p.2 := by
  induction rs with
  | nil => rfl
  | cons r rest ih =>
    cases r with
    | outside l => exact ih
    | block kind body closed => exact congrArg (literalsIn (annotatedAll body) ++ ·) ih

/-! ### Scripts that can be read -/

/-- Only the last lexeme can be left open. -/
theorem Lexed.openPart_eq_none {ls : List Lexeme} (h : Lexed ls)
    (hlast : ∀ l ∈ ls.getLast?, l.openPart? = none) :
    ∀ l ∈ ls, l.openPart? = none := by
  induction ls with
  | nil => nofun
  | cons l rest ih =>
    intro l' hl'
    rcases List.mem_cons.1 hl' with rfl | hl'
    · cases h with
      | word => rfl
      | char => rfl
      | enclosed => rfl
      | unclosed _ hnil =>
        subst hnil
        exact hlast _ rfl
    · refine ih h.tail (fun last hmem => hlast last ?_) l' hl'
      rw [List.getLast?_cons, Option.mem_def.1 hmem]
      rfl

theorem Lexed.readable {ls : List Lexeme} (h : Lexed ls) (hopen : ∀ l ∈ ls, l.openPart? = none) :
    ∀ r ∈ regions ls, r.Readable := by
  intro r hr
  obtain ⟨before, after, hsplit⟩ := List.append_of_mem hr
  have hls := flatMap_lexemes_regions ls
  rw [hsplit, List.flatMap_append, List.flatMap_cons] at hls
  have hlexed : Lexed r.lexemes := by
    rw [← hls] at h
    exact h.right.left
  have hmem : ∀ l ∈ r.lexemes, l.openPart? = none := by
    intro l hl
    apply hopen
    rw [← hls]
    exact List.mem_append_right _ (List.mem_append_left _ hl)
  cases r with
  | outside l => exact ⟨.nil, nofun⟩
  | block kind body closed =>
    rw [Region.lexemes, List.cons_append] at hlexed hmem
    exact ⟨hlexed.tail.left,
      fun l hl => hmem l (List.mem_cons_of_mem _ (List.mem_append_left _ hl))⟩

/-- A script without an open end ends neither in a lexeme nor in a block that must be closed. -/
theorem openPart_of_openEnd {src : Text} (h : openEnd? src = none) :
    (∀ l ∈ (lexemes src).getLast?, l.openPart? = none) ∧
      ∀ r ∈ (regions (lexemes src)).getLast?, r.openPart? = none := by
  rw [openEnd?, Option.or_eq_none_iff] at h
  constructor
  · intro l hl
    have := h.1
    rw [Option.mem_def.1 hl, Option.bind_some, Option.map_eq_none_iff] at this
    exact this
  · intro r hr
    have := h.2
    rw [Option.mem_def.1 hr, Option.bind_some, Option.map_eq_none_iff] at this
    exact this

theorem length_le_byteLength (t : Text) : t.length ≤ Text.byteLength t := by
  induction t with
  | nil => exact Nat.le_refl 0
  | cons c rest ih =>
    have := Char.utf8Size_pos c
    rw [List.length_cons, Text.byteLength_cons]
    omega

theorem length_literalsIn_le (s : Annotated) : (literalsIn s).length ≤ s.length := by
  fun_induction literalsIn s with
  | case1 => exact Nat.le_refl 0
  | case2 c rest ih =>
    rw [List.length_cons, List.length_cons]
    omega
  | case3 x rest _ ih =>
    rw [List.length_cons]
    omega

/-- A script has no more literals than characters. -/
theorem length_literals_regions (src : Text) :
    ((regions (lexemes src)).flatMap Region.literals).length ≤ src.length := by
  have hregion : ∀ r : Region, r.literals.length ≤ (annotatedAll r.lexemes).length := by
    intro r
    refine Nat.le_trans (length_literalsIn_le _) ?_
    cases r with
    | outside l => exact Nat.zero_le _
    | block kind body closed =>
      rw [Region.body, Region.lexemes, List.cons_append, annotatedAll_cons, annotatedAll_append]
      simp only [List.length_append]
      omega
  have hall : ∀ rs : List Region,
      (rs.flatMap Region.literals).length ≤ (annotatedAll (rs.flatMap Region.lexemes)).length := by
    intro rs
    induction rs with
    | nil => exact Nat.le_refl 0
    | cons r rest ih =>
      have := hregion r
      rw [List.flatMap_cons, List.flatMap_cons, annotatedAll_append]
      simp only [List.length_append]
      omega
  have hsrc : (annotatedAll (lexemes src)).length = src.length := by
    have := congrArg List.length (map_fst_annotate .code src)
    rwa [List.length_map, annotate_eq_annotatedAll] at this
  have := hall (regions (lexemes src))
  rwa [flatMap_lexemes_regions, hsrc] at this

section Collected

variable {src : Text}

theorem readable_regions (hmark : mark ∉ src) (hend : openEnd? src = none) :
    ∀ r ∈ regions (lexemes src), r.Readable := by
  have hlexed := lexed_lexemes hmark
  exact hlexed.readable (hlexed.openPart_eq_none (openPart_of_openEnd hend).1)

theorem texts_collected (hmark : mark ∉ src) (hend : openEnd? src = none) :
    (collected src).2.texts = (regions (lexemes src)).flatMap Region.literals :=
  texts_collectAll (readable_regions hmark hend)

/-- The table of a script whose length fits an index fits one too. -/
theorem size_collected_le (hmark : mark ∉ src) (hend : openEnd? src = none)
    (hsize : Text.byteLength src ≤ indexLimit) : (collected src).2.size ≤ indexLimit := by
  have := length_literals_regions src
  have := length_le_byteLength src
  rw [Literals.size, texts_collected hmark hend]
  omega

theorem holdEach_collected (hmark : mark ∉ src) (hend : openEnd? src = none) :
    HoldEach (collected src).2 (List.range (collected src).2.size)
    (extractsOf (collected src).1) := by
  rw [List.range_eq_range', Literals.size, texts_collected hmark hend]
  exact holdEach_collectAll (readable_regions hmark hend) (List.prefix_refl _)

theorem passages_collected (src : Text) :
    (extractsOf (collected src).1).map Extract.passage =
    (regions (lexemes src)).filterMap Region.passage? := by
  rw [passages_extractsOf, collected, map_fst_collectAll]

theorem cut_collected (hmark : mark ∉ src) (hend : openEnd? src = none) :
    Cut (annotate .code src) ((extractsOf (collected src).1).map Extract.passage) := by
  rw [annotate_eq_annotatedAll, passages_collected, ← List.nil_append (lexemes src)]
  exact cut_regions (lexed_lexemes hmark) nofun (openPart_of_openEnd hend).2

end Collected

/-! ### The blocks of a script -/

/-- The blocks of a script are extracts of it. -/
structure Faithful (src : Text) (b : Blocks) (es : List Extract) : Prop where
  /-- The extracts are the passages of the script's only cut. -/
  passages : ∀ ps, Cut (annotate .code src) ps ↔ ps = es.map Extract.passage
  functions : b.functions = (Extract.ofKind .function es).map Extract.text
  natives : b.natives = (Extract.ofKind .native es).map Extract.text
  globals : b.globals = ((Extract.ofKind .globals es).map Extract.text).foldl joinGlobals []
  /-- With its literals put back, an extract is its passage without comments. -/
  restored : ∀ e ∈ es, b.literals.restore e.text = e.written
  restored_globals :
    b.literals.restore b.globals = ((Extract.ofKind .globals es).map Extract.written).foldl
      joinGlobals []
  /-- Each literal of the table has one placeholder, in order. -/
  numbers : es.flatMap (fun e => numbersIn e.text) = List.range b.literals.size
  numbers_globals : numbersIn b.globals = (Extract.ofKind .globals es).flatMap fun e =>
    numbersIn e.text
  /-- The table holds the literals of the passages, in order. -/
  literals : b.literals.texts = es.flatMap fun e => literalsIn e.inner

/-- **The blocks of a script say what the script says.** For a script that can be read there
is one cut into passages, and the blocks are these passages: with the literals put back, each
is its passage without comments, and the literals of the table have one place each. The
length of a script is a number of 64 bits, as that of any text in memory. -/
theorem blocks_faithful {src : Text} {b : Blocks} (hmark : mark ∉ src)
    (hsize : Text.byteLength src ≤ indexLimit)
    (h : blocks src = .ok b) : ∃ es, Faithful src b es := by
  unfold blocks at h
  split at h
  · cases h
  rename_i hend
  cases h
  have hlimit := size_collected_le hmark hend hsize
  have hhold := holdEach_collected hmark hend
  have hcut := cut_collected hmark hend
  obtain ⟨ns, hns⟩ := hhold.ofKind .globals
  have hjoined := hns.foldl_joinGlobals .nil
  -- only native declarations are trimmed, so the other texts are taken as they are
  have hglobals : textsOf .globals (collected src).1 =
      (Extract.ofKind .globals (extractsOf (collected src).1)).map Extract.text := by
    rw [← map_finish_textsOf]
    exact (List.map_id _).symm
  refine ⟨extractsOf (collected src).1, ?_⟩
  constructor
  case passages => exact fun ps => ⟨fun hps => hps.unique hcut, fun hps => hps ▸ hcut⟩
  case functions =>
    rw [← map_finish_textsOf]
    exact (List.map_id _).symm
  case natives => exact map_finish_textsOf .native (collected src).1
  case globals => exact congrArg (List.foldl joinGlobals []) hglobals
  case restored => exact fun e he => hhold.restore_eq hlimit he
  case restored_globals =>
    rw [← hjoined.restore_eq hlimit]
    exact congrArg (fun ts => (collected src).2.restore (List.foldl joinGlobals [] ts)) hglobals
  case numbers => exact hhold.numbersIn_eq hlimit
  case numbers_globals =>
    rw [hns.numbersIn_eq hlimit, ← List.nil_append ns, ← hjoined.numbersIn_eq hlimit]
    exact congrArg (fun ts => numbersIn (List.foldl joinGlobals [] ts)) hglobals
  case literals =>
    have hmap :
        ((extractsOf (collected src).1).map Extract.passage).flatMap (fun p => literalsIn p.2) =
        (extractsOf (collected src).1).flatMap fun e => literalsIn e.inner := List.flatMap_map ..
    rw [← hmap, passages_collected, ← flatMap_literals_regions]
    exact texts_collected hmark hend

/-- A script with closing words in comments, comment signs in literals and escaped quotes. -/
def mixedScript : Text :=
  ("native N takes string a // endfunction\nfunction f \"//\\\"\" /* endfunction */ 'x'endfunction " ++
    "globals \"\"//\nendglobals").toList

/-- The blocks of that script. -/
def mixedBlocks : Blocks where
  globals := ' ' :: placeholder 2 ++ ['\n']
  functions := [" f ".toList ++ placeholder 0 ++ "   ".toList ++ placeholder 1]
  natives := ["native N takes string a".toList]
  literals := ⟨["\"//\\\"\"".toList, "'x'".toList, "\"\"".toList]⟩

theorem blocks_mixedScript : blocks mixedScript = .ok mixedBlocks := by
  have hruns : openEnd? mixedScript = none ∧
      Blocks.ofCollected (collected mixedScript).1 (collected mixedScript).2 = mixedBlocks := by
    unfold mixedScript
    rw [String.toList_append, String.toList_ofList, String.toList_ofList]
    decide +kernel
  obtain ⟨hend, hblocks⟩ := hruns
  rw [blocks, hend]
  exact congrArg Except.ok hblocks

theorem mixedScript_faithful :
    (mark ∉ mixedScript ∧ Text.byteLength mixedScript ≤ indexLimit ∧
      blocks mixedScript = .ok mixedBlocks) ∧
      ∃ es, Faithful mixedScript mixedBlocks es := by
  have hscript : mark ∉ mixedScript ∧ Text.byteLength mixedScript ≤ indexLimit := by
    unfold mixedScript
    rw [String.toList_append, String.toList_ofList, String.toList_ofList]
    decide +kernel
  obtain ⟨hmark, hsize⟩ := hscript
  exact ⟨⟨hmark, hsize, blocks_mixedScript⟩, blocks_faithful hmark hsize blocks_mixedScript⟩

end ScriptMinifier.Source
