import ScriptMinifier.Proofs.Literal.SealedProgram
import ScriptMinifier.Proofs.WordPasses

/-! Passes that keep a program sealed.

Folding, renaming and extracting replace whole words, and what they put in has no marks.
Dropping a local cuts a body at newlines only. Writing puts sealed parts side by side, makes
numerals short and closes up empty lines, so its text is sealed (`sealed_compact`), and with
the literals put back no mark is left (`mark_not_mem_emit`). -/
namespace ScriptMinifier

open Literal (indexLimit)
open Syntax (Declaration Function Native Parameter)
open Text (mark Segment)

/-! ### Folding -/

theorem sealed_replaceName {n : Nat} {name value t : Text} (hvalue : mark ∉ value)
    (h : Sealed n t) :
    Sealed n (Constant.replaceName name value t) := by
  refine h.replaceWords fun w r hr => ?_
  beta_reduce at hr
  split at hr
  · rw [← Option.some.inj hr]
    exact .of_not_mem hvalue
  · cases hr

theorem sealed_replaceInTurn {n : Nat} {pairs : List (Text × Text)}
    (hpairs : ∀ pair ∈ pairs, mark ∉ pair.2) {t : Text}
    (h : Sealed n t) : Sealed n (Constant.replaceInTurn pairs t) := by
  induction pairs generalizing t with
  | nil => exact h
  | cons pair rest ih =>
    rw [List.forall_mem_cons] at hpairs
    exact ih hpairs.2 (sealed_replaceName hpairs.1 h)

theorem mark_not_mem_of_plain {t : Text} (h : ∀ c ∈ t, Text.isPlain c = true) : mark ∉ t :=
  fun hmem => absurd (h mark hmem) (by decide)

theorem sealed_fold {p : Program} (h : p.Sealed) : (Constant.fold p).Sealed := by
  constructor
  · exact h.literals
  · intro d hd
    obtain ⟨retained, hsub, heq⟩ := Constant.declarations_fold p
    rw [heq] at hd
    obtain ⟨d', hd', rfl⟩ := List.mem_map.1 hd
    have hsealed := h.declarations d' (hsub.subset hd')
    refine ⟨hsealed.type, hsealed.name, fun t ht => ?_⟩
    obtain ⟨u, hu, rfl⟩ := Option.map_eq_some_iff.1 ht
    refine sealed_replaceInTurn (fun pair hpair => ?_) (hsealed.value u hu)
    exact mark_not_mem_of_plain (Constant.all_isPlain_of_mem_foldedPairs hpair)
  · exact h.natives
  · intro f hf
    obtain ⟨f', hf', rfl⟩ := List.mem_map.1 hf
    have hsealed := h.functions f' hf'
    refine ⟨hsealed.name, hsealed.params, hsealed.result,
      hsealed.body.replaceWords fun w r hr => ?_⟩
    beta_reduce at hr
    split at hr
    · cases hr
    · exact .of_not_mem (mark_not_mem_of_plain (isPlain_of_foldedValues w r hr))

/-! ### Renaming -/

theorem GivesWords.mark_not_mem {names : Text.Renaming} (h : GivesWords names) {w new : Text}
    (hfind : names.find? w = some new) : mark ∉ new :=
  fun hmem => absurd ((h w new hfind).2 mark hmem) (by decide)

namespace Naming

theorem mark_not_mem_renamed {names : Text.Renaming} (h : GivesWords names) {name : Text}
    (hname : mark ∉ name) :
    mark ∉ renamed names name := by
  rw [renamed]
  cases hfind : names.find? name with
  | none => exact hname
  | some new => exact h.mark_not_mem hfind

theorem mark_not_mem_flatMap_text {segments : List Segment} (h : ∀ g ∈ segments, mark ∉ g.text) :
    mark ∉ segments.flatMap Segment.text := by
  intro hmem
  obtain ⟨g, hg, hmem⟩ := List.mem_flatMap.1 hmem
  exact h g hg hmem

theorem mark_not_mem_replaceFirstWord {names : Text.Renaming} (hnames : GivesWords names)
    {segments : List Segment}
    (h : ∀ g ∈ segments, mark ∉ g.text) : mark ∉ replaceFirstWord names segments := by
  induction segments with
  | nil => exact List.not_mem_nil
  | cons g rest ih =>
    rw [List.forall_mem_cons] at h
    cases g with
    | word w =>
      rw [replaceFirstWord, List.mem_append, not_or]
      exact ⟨mark_not_mem_renamed hnames h.1, mark_not_mem_flatMap_text h.2⟩
    | placeholder t =>
      rw [replaceFirstWord, List.mem_append, not_or]
      · exact ⟨h.1, ih h.2⟩
      · nofun
    | other t =>
      rw [replaceFirstWord, List.mem_append, not_or]
      · exact ⟨h.1, ih h.2⟩
      · nofun

theorem mark_not_mem_segments {t : Text} (h : mark ∉ t) : ∀ g ∈ Text.segments t, mark ∉ g.text := by
  intro g hg hmem
  apply h
  rw [← Text.flatMap_text_segments t]
  exact List.mem_flatMap.2 ⟨g, hg, hmem⟩

/-- Literals in which names are replaced have no marks, and there are as many as before. -/
theorem renameLiterals_clean {names : Text.Renaming} (hnames : GivesWords names) (ids : List Nat)
    {ls : Literals} (h : ∀ raw ∈ ls.texts, mark ∉ raw) :
    (∀ raw ∈ (renameLiterals names ids ls).texts, mark ∉ raw) ∧
    (renameLiterals names ids ls).size = ls.size := by
  induction ids generalizing ls with
  | nil => exact ⟨h, rfl⟩
  | cons id rest ih =>
    rw [renameLiterals, List.foldl_cons]
    split
    · rename_i lit hlit
      have hset : ∀ raw ∈ (ls.set id (replaceFirstWord names (Text.segments lit))).texts,
          mark ∉ raw := by
        intro raw hraw
        rcases List.mem_or_eq_of_mem_set hraw with hmem | rfl
        · exact h raw hmem
        · exact mark_not_mem_replaceFirstWord hnames
            (mark_not_mem_segments (h lit (List.mem_of_getElem? hlit)))
      obtain ⟨htexts, hsize⟩ := ih hset
      exact ⟨htexts, hsize.trans List.length_set⟩
    · exact ih h

theorem sealed_renameProgram {names : Text.Renaming} (hnames : GivesWords names) {p : Program}
    (h : p.Sealed) :
    (renameProgram names p).Sealed := by
  obtain ⟨htexts, hsize⟩ := renameLiterals_clean hnames (namingLiterals p) h.literals
  have hnew : ∀ w new, names.find? w = some new → ∀ n, Sealed n new :=
    fun w new hfind n => .of_not_mem (hnames.mark_not_mem hfind)
  constructor
  · exact htexts
  · intro d hd
    obtain ⟨d', hd', rfl⟩ := List.mem_map.1 hd
    have hsealed := h.declarations d' hd'
    refine ⟨hsealed.type, mark_not_mem_renamed hnames hsealed.name, fun t ht => ?_⟩
    obtain ⟨u, hu, rfl⟩ := Option.map_eq_some_iff.1 ht
    show Sealed (renameLiterals names (namingLiterals p) p.literals).size _
    rw [hsize]
    exact (hsealed.value u hu).replaceWords fun w r hr => hnew w r hr _
  · exact h.natives
  · intro f hf
    obtain ⟨f', hf', rfl⟩ := List.mem_map.1 hf
    have hsealed := h.functions f' hf'
    show Function.Sealed (renameLiterals names (namingLiterals p) p.literals).size _
    rw [hsize]
    refine ⟨mark_not_mem_renamed hnames hsealed.name, hsealed.params, hsealed.result,
      hsealed.body.replaceWords fun w r hr => ?_⟩
    beta_reduce at hr
    split at hr
    · cases hr
    · exact hnew w r hr _

theorem sealed_renameGlobals {p : Program} (h : p.Sealed) (pool : Pool) :
    (renameGlobals p pool).program.Sealed :=
  sealed_renameProgram (givesWords_newNames p pool) h

/-! ### Locals -/

theorem sealed_dropLocals {n : Nat} {body : Text} (h : Sealed n body) (names : List Text) :
    Sealed n (dropLocals names body) := by
  rw [dropLocals]
  split
  · exact h
  · exact .joined (by decide) fun line hline => h.lines line (List.mem_filter.1 hline).1

theorem sealed_renderAll {n : Nat} {qs : List Parameter}
    (h : ∀ q ∈ qs, mark ∉ q.type ∧ mark ∉ q.name) :
    Sealed n (Parameter.renderAll qs) := by
  rw [Parameter.renderAll]
  split
  · exact .of_not_mem (by decide)
  · refine .joined (by decide) fun t ht => ?_
    obtain ⟨q, hq, rfl⟩ := List.mem_map.1 ht
    exact (Sealed.of_not_mem (h q hq).1).append (.char (by decide) (.of_not_mem (h q hq).2))

theorem sealed_renameLocals {n : Nat} {f : Function} (h : f.Sealed n) :
    (renameLocals f).function.Sealed n := by
  unfold renameLocals
  split
  · exact h
  · rename_i params hparams
    have hnames := givesWords_deal ((Pool.new .locals).reserve
      ((Text.words (dropLocals (unusedLocals (params.map Parameter.name) f) f.body) ++ Text.words
        f.params).filter
        (!(localOrder (params.map Parameter.name) f).contains ·)))
          (localOrder (params.map Parameter.name) f)
    refine ⟨h.name, sealed_renderAll fun q hq => ?_, h.result, ?_⟩
    · obtain ⟨q', hq', rfl⟩ := List.mem_map.1 hq
      have hident := Parameter.isIdent_of_parseAll? hparams q' hq'
      exact ⟨Text.mark_not_mem_of_isIdent hident.1,
        mark_not_mem_renamed hnames (Text.mark_not_mem_of_isIdent hident.2)⟩
    · exact (sealed_dropLocals h.body _).replaceWords fun w r hr => .of_not_mem
        (hnames.mark_not_mem hr)

theorem clean_renameNative {n : Native} (h : n.Clean) : (renameNative n).Clean := by
  refine ⟨h.name, fun q hq => ?_, h.result⟩
  obtain ⟨k, hk, rfl⟩ := List.getElem_of_mem hq
  have hlen := hk
  simp only [renameNative, List.length_zipWith] at hlen
  simp only [renameNative, List.getElem_zipWith]
  have hname :=
    (Pool.isWord_of_mem_drawMany
      (List.getElem_mem (Nat.lt_of_lt_of_le hlen (Nat.min_le_right _ _)))).2
  refine ⟨(h.params _ (List.getElem_mem _)).1, fun hmark => ?_⟩
  exact absurd (List.all_eq_true.1 hname mark hmark) (by decide)

theorem sealed_renameAllLocals {p : Program} (h : p.Sealed) : (renameAllLocals p).Sealed := by
  constructor
  · exact h.literals
  · exact h.declarations
  · intro n hn
    obtain ⟨n', hn', rfl⟩ := List.mem_map.1 hn
    exact clean_renameNative (h.natives n' hn')
  · intro f hf
    obtain ⟨f', hf', rfl⟩ := List.mem_map.1 hf
    exact sealed_renameLocals (h.functions f' hf')

end Naming

/-! ### Truth values -/

namespace Output

open Naming (Pool)

theorem sealed_replaceWord {word name : Text} (hword : mark ∉ word) (hname : mark ∉ name)
    {p : Program} (h : p.Sealed) :
    (replaceWord word name p).Sealed := by
  have hreplaced : ∀ t, Sealed p.literals.size t →
      Sealed p.literals.size
        (Text.replaceWords (fun w => if w = word then some name else none) t) :=
    fun t ht => sealed_replaceName hname ht
  constructor
  · exact h.literals
  · refine List.forall_mem_cons.2
      ⟨⟨show mark ∉ "boolean".toList by decide, hname, fun t ht => ?_⟩, fun d hd => ?_⟩
    · rw [← Option.some.inj ht]
      exact .of_not_mem hword
    · obtain ⟨d', hd', rfl⟩ := List.mem_map.1 hd
      have hsealed := h.declarations d' hd'
      split
      · exact hsealed
      · refine ⟨hsealed.type, hsealed.name, fun t ht => ?_⟩
        obtain ⟨u, hu, rfl⟩ := Option.map_eq_some_iff.1 ht
        exact hreplaced u (hsealed.value u hu)
  · exact h.natives
  · intro f hf
    obtain ⟨f', hf', rfl⟩ := List.mem_map.1 hf
    have hsealed := h.functions f' hf'
    exact ⟨hsealed.name, hsealed.params, hsealed.result, hreplaced _ hsealed.body⟩

theorem mark_not_mem_draw (pool : Pool) : mark ∉ pool.draw.1 := by
  have hmem : pool.draw.1 ∈ (pool.drawMany 1).1 := List.mem_singleton.2 rfl
  intro hmark
  exact absurd (List.all_eq_true.1 (Pool.isWord_of_mem_drawMany hmem).2 mark hmark) (by decide)

theorem sealed_extractWords {words : List Text} (hwords : ∀ word ∈ words, mark ∉ word) {p : Program}
    (h : p.Sealed) (pool : Pool) : (extractWords p pool words).program.Sealed := by
  induction words generalizing p pool with
  | nil => exact h
  | cons word rest ih =>
    rw [List.forall_mem_cons] at hwords
    rw [extractWords]
    simp only
    split
    · exact ih hwords.2 h pool
    · exact ih hwords.2 (sealed_replaceWord hwords.1 (mark_not_mem_draw pool) h) pool.draw.2

theorem sealed_extractTruth {p : Program} (h : p.Sealed) (pool : Pool) :
    (extractTruth p pool).program.Sealed :=
  sealed_extractWords (by decide) h pool

/-! ### Writing -/

theorem sealed_flatMap_ended {α : Type} {n : Nat} {render : α → Text} {items : List α}
    (h : ∀ x ∈ items, Sealed n (render x)) :
    Sealed n (items.flatMap fun x => render x ++ ['\n']) := by
  rw [List.flatMap]
  apply Sealed.flatten
  intro t ht
  obtain ⟨x, hx, rfl⟩ := List.mem_map.1 ht
  exact (h x hx).append (.char (by decide) .nil)

theorem sealed_renderDeclaration {n : Nat} {d : Declaration} (h : d.Sealed n) :
    Sealed n d.render := by
  have hword (b : Bool) {w : Text} (hw : mark ∉ w) : Sealed n (if b then w else []) := by
    cases b
    · exact .nil
    · exact .of_not_mem hw
  refine .append (.append (.append (.append (.append ?_ ?_) ?_) ?_) ?_) ?_
  · exact hword d.constant (by decide)
  · exact .of_not_mem h.type
  · exact .of_not_mem (by decide)
  · exact hword d.array (by decide)
  · exact .of_not_mem h.name
  · split
    · rename_i c rest hvalue
      exact .char (by decide) (h.value _ hvalue)
    · exact .nil

theorem sealed_renderHeader {n : Nat} {keyword name params result : Text}
    (hkeyword : mark ∉ keyword) (hname : mark ∉ name)
    (hparams : Sealed n params) (hresult : mark ∉ result) :
    Sealed n (keyword ++ name ++ " takes ".toList ++ params ++ " returns ".toList ++ result) := by
  refine .append (.append (.append (.append (.append ?_ ?_) ?_) hparams) ?_) ?_
  · exact .of_not_mem hkeyword
  · exact .of_not_mem hname
  · exact .of_not_mem (by decide)
  · exact .of_not_mem (by decide)
  · exact .of_not_mem hresult

theorem sealed_renderFunction {n : Nat} {f : Function} (h : f.Sealed n) : Sealed n f.render := by
  refine .append (.append (sealed_renderHeader ?_ h.name h.params h.result) (.char ?_ h.body))
    (.of_not_mem ?_)
  all_goals decide

theorem sealed_renderNative {n : Nat} {native : Native} (h : native.Clean) :
    Sealed n native.render :=
  sealed_renderHeader (by decide) h.name (Naming.sealed_renderAll h.params) h.result

theorem sealed_assemble {p : Program} (h : p.Sealed) : Sealed p.literals.size (assemble p) := by
  have hglobals : Sealed p.literals.size (if p.declarations = [] then []
      else "globals".toList ++ ['\n'] ++ p.declarations.flatMap (fun d => d.render ++ ['\n']) ++
        ("endglobals".toList ++ ['\n'])) := by
    split
    · exact .nil
    · refine ((Sealed.of_not_mem (by decide)).append ?_).append (.of_not_mem (by decide))
      exact sealed_flatMap_ended fun d hd => sealed_renderDeclaration (h.declarations d hd)
  refine (hglobals.append ?_).append ?_
  · exact sealed_flatMap_ended fun n hn => sealed_renderNative (h.natives n hn)
  · exact sealed_flatMap_ended fun f hf => sealed_renderFunction (h.functions f hf)

/-- A numeral is written in digits or as a rawcode of plain characters. -/
theorem visible_of_mem_numeral {n : Nat} {c : Char} (h : c ∈ numeral n) : 0x21 ≤ c.toNat := by
  have hdigits : c ∈ Text.ofNat n → 0x21 ≤ c.toNat := by
    intro hmem
    have hdigit := Nat.isDigit_of_mem_toDigits (by decide) (by decide) hmem
    simp only [Char.isDigit, ge_iff_le, UInt32.le_iff_toNat_le, Bool.and_eq_true,
      decide_eq_true_eq] at hdigit
    exact Nat.le_trans (by decide) hdigit.1
  rw [numeral] at h
  split at h
  · cases hraw : Literal.rawcode? n with
    | none =>
      rw [hraw] at h
      exact hdigits h
    | some raw =>
      rw [hraw, Option.getD_some] at h
      rw [Literal.rawcode?] at hraw
      split at hraw
      · rename_i hplain
        rw [← Option.some.inj hraw] at h
        simp only [List.cons_append, List.mem_cons, List.mem_append, List.not_mem_nil, or_false,
          List.mem_map] at h
        rcases h with rfl | ⟨digit, hdigit, rfl⟩ | rfl
        · decide
        · have hrange := List.all_eq_true.1 hplain.2.2 digit hdigit
          simp only [Literal.isPlainDigit, Bool.and_eq_true, decide_eq_true_eq] at hrange
          rw [Char.ofNat, dif_pos (by simp [Nat.isValidChar]; omega)]
          exact hrange.1.1.1.1
        · decide
      · cases hraw
  · exact hdigits h

theorem mem_shortenWord {before after : Option Char} {w : Text} {c : Char}
    (h : c ∈ shortenWord before after w) :
    c ∈ w ∨ 0x21 ≤ c.toNat := by
  have hgetD : ∀ value : Option Nat, c ∈ (value.map numeral).getD w → c ∈ w ∨ 0x21 ≤ c.toNat := by
    intro value hmem
    cases value with
    | none => exact .inl hmem
    | some n => exact .inr (visible_of_mem_numeral hmem)
  rw [shortenWord] at h
  split at h
  · unfold shortenNumber at h
    repeat' split at h
    all_goals first | exact .inl h | exact hgetD _ h
  · exact .inl h

theorem mark_not_mem_numeral (n : Nat) : mark ∉ numeral n :=
  fun h => absurd (visible_of_mem_numeral h) (by decide)

theorem mark_not_mem_shortenWord (before after : Option Char) {w : Text} (hw : mark ∉ w) :
    mark ∉ shortenWord before after w :=
  fun h => (mem_shortenWord h).elim hw (absurd · (by decide))

theorem mark_not_mem_of_word_mem {t w : Text} (h : .word w ∈ Text.segments t) : mark ∉ w := by
  fun_induction Text.segments t with
  | case1 => cases h
  | case2 rest ih =>
    rcases List.mem_cons.1 h with heq | h
    · cases heq
    · exact ih h
  | case3 c rest _ hw ih =>
    rcases List.mem_cons.1 h with heq | h
    · rw [Segment.word.inj heq]
      exact fun hmem => absurd ((Text.exists_run hw rest).2 mark hmem) (by decide)
    · exact ih h
  | case4 c rest _ _ ih =>
    rcases List.mem_cons.1 h with heq | h
    · cases heq
    · exact ih h

theorem sealed_shortenSegments {n : Nat} (before : Option Char) {segments : List Segment}
    (h : ∀ g ∈ segments, Sealed n g.text) (hword : ∀ w, .word w ∈ segments → mark ∉ w) :
    Sealed n (shortenSegments before segments) := by
  fun_induction shortenSegments before segments with
  | case1 => exact .nil
  | case2 before t w rest hlast ih =>
    simp only [List.forall_mem_cons] at h
    refine .append ?_
      (ih h.2.2 fun u hu => hword u (List.mem_cons_of_mem _ (List.mem_cons_of_mem _ hu)))
    split
    · -- the dollar sign goes, and no placeholder ends in one
      obtain ⟨front, rfl⟩ := List.getLast?_eq_some_iff.1 hlast
      rw [List.dropLast_concat]
      exact (h.1.of_append_right (s := front) (by decide)).append
        (.of_not_mem (mark_not_mem_numeral _))
    · exact h.1.append h.2.1
  | case3 before t w rest hlast ih =>
    simp only [List.forall_mem_cons] at h
    have hw := hword w (List.mem_cons_of_mem _ List.mem_cons_self)
    refine .append (h.1.append (.of_not_mem (mark_not_mem_shortenWord _ _ hw)))
      (ih h.2.2 fun u hu => ?_)
    exact hword u (List.mem_cons_of_mem _ (List.mem_cons_of_mem _ hu))
  | case4 before w rest ih =>
    rw [List.forall_mem_cons] at h
    have hw := hword w List.mem_cons_self
    exact .append (.of_not_mem (mark_not_mem_shortenWord _ _ hw))
      (ih h.2 fun u hu => hword u (List.mem_cons_of_mem _ hu))
  | case5 before g rest _ _ ih =>
    rw [List.forall_mem_cons] at h
    exact h.1.append (ih h.2 fun u hu => hword u (List.mem_cons_of_mem _ hu))

theorem sealed_shortenNumerals {n : Nat} {t : Text} (h : Sealed n t) :
    Sealed n (shortenNumerals t) :=
  sealed_shortenSegments none h.segments fun _ hw => mark_not_mem_of_word_mem hw

theorem sealed_compact {p : Program} (h : p.Sealed) : Sealed p.literals.size (compact p) :=
  (sealed_shortenNumerals (sealed_assemble h)).collapseNewlines

theorem mark_not_mem_emit {p : Program} (h : p.Sealed) (hsize : p.literals.size ≤ indexLimit) :
    mark ∉ emit p :=
  (sealed_compact h).mark_not_mem_restore hsize h.literals

end Output

end ScriptMinifier
