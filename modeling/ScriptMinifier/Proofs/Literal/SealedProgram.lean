import ScriptMinifier.Proofs.Source.Fidelity
import ScriptMinifier.Proofs.Steps
import ScriptMinifier.Proofs.Substitution.Sealing

/-! Sealed programs.

A program is sealed when its bodies, parameter lists and values are, and nothing else in it
has a mark. A script without marks is read into a sealed program (`sealed_readProgram`):
reading cuts only at blanks, newlines and equals signs. Marking entries, counting and pruning
touch no text (`Program.Sealed.of_parts`), and inlining keeps a program sealed as it lifts the
literals of its tables (`Substitution.Tables.sealed_inline`). -/
namespace ScriptMinifier

open Text (mark isIdent)

/-! ### Sealed programs -/

namespace Syntax

/-- A declaration whose value is sealed and whose other parts have no marks. -/
structure Declaration.Sealed (n : Nat) (d : Declaration) : Prop where
  type : mark ∉ d.type
  name : mark ∉ d.name
  value : ∀ t ∈ d.value, ScriptMinifier.Sealed n t

/-- A function whose parameters and body are sealed and whose other parts have no marks. -/
structure Function.Sealed (n : Nat) (f : Function) : Prop where
  name : mark ∉ f.name
  params : ScriptMinifier.Sealed n f.params
  result : mark ∉ f.result
  body : ScriptMinifier.Sealed n f.body

/-- A native without marks. -/
structure Native.Clean (n : Native) : Prop where
  name : mark ∉ n.name
  params : ∀ q ∈ n.params, mark ∉ q.type ∧ mark ∉ q.name
  result : mark ∉ n.result

end Syntax

open Syntax (Declaration Function Native Parameter Header)

/-- A program in which every mark belongs to the placeholder of one of its literals, and whose
literals have no marks. -/
structure Program.Sealed (p : Program) : Prop where
  literals : ∀ raw ∈ p.literals.texts, mark ∉ raw
  declarations : ∀ d ∈ p.declarations, d.Sealed p.literals.size
  natives : ∀ n ∈ p.natives, n.Clean
  functions : ∀ f ∈ p.functions, f.Sealed p.literals.size

/-! ### Reading -/

theorem sealed_parseDeclaration {n : Nat} {line : Text} {d : Declaration} (hline : Sealed n line)
    (h : Declaration.parse? line = some d) : d.Sealed n := by
  obtain ⟨⟨left, -, hsides⟩, htype, hname, -⟩ := Declaration.parse?_eq_some h
  refine ⟨Text.mark_not_mem_of_isIdent (Syntax.isIdent_of_isDatatype htype),
    Text.mark_not_mem_of_isIdent hname,
    fun t ht => ?_⟩
  rcases hsides with ⟨-, hnone⟩ | ⟨value, rfl, hsome⟩
  · rw [hnone] at ht
    cases ht
  · rw [hsome, Option.mem_some_iff] at ht
    rw [← ht]
    exact (hline.of_append_cons (by decide)).2

theorem sealed_parseHeader {n : Nat} {t : Text} {fields : Header} (ht : Sealed n t)
    (h : Header.parse? t = some fields) : Sealed n fields.params := by
  obtain ⟨⟨name, params, result, hsplit, rfl⟩, -⟩ := Syntax.Header.parse?_eq_some h
  have htrim := ht.trim
  rw [hsplit] at htrim
  have hrest := (htrim.of_cut (by decide) (by decide)).2
  exact (hrest.of_cut (by decide) (by decide)).1.trim

theorem sealed_parseFunction {n : Nat} {block : Text} {f : Function} (hblock : Sealed n block)
    (h : Function.parse block = .ok f) : f.Sealed n := by
  obtain ⟨header, fields, hheader, -, hf, hsplit⟩ := Function.parse_eq_ok h
  have hident := (Syntax.Header.parse?_eq_some hheader).2
  have htrim := hblock.trim
  have hparts : Sealed n header ∧ Sealed n f.body := by
    rcases hsplit with ⟨hsplit, hbody⟩ | hsplit
    · rw [hsplit] at htrim
      rw [hbody]
      exact ⟨htrim, .nil⟩
    · rw [hsplit] at htrim
      exact htrim.of_append_cons (by decide)
  rw [hf]
  exact ⟨Text.mark_not_mem_of_isIdent hident.1, sealed_parseHeader hparts.1 hheader,
    Text.mark_not_mem_of_isIdent hident.2, hparts.2⟩

theorem clean_parseNative {t : Text} {n : Native} (h : Native.parse t = .ok n) : n.Clean := by
  obtain ⟨hname, hresult, hparams⟩ := Native.parse_eq_ok h
  refine ⟨Text.mark_not_mem_of_isIdent hname, fun q hq => ?_, Text.mark_not_mem_of_isIdent hresult⟩
  exact ⟨Text.mark_not_mem_of_isIdent (hparams q hq).1,
    Text.mark_not_mem_of_isIdent (hparams q hq).2⟩

/-- Blocks are sealed when the texts of globals and functions are. -/
structure Source.Blocks.Sealed (b : Source.Blocks) : Prop where
  literals : ∀ raw ∈ b.literals.texts, mark ∉ raw
  globals : ScriptMinifier.Sealed b.literals.size b.globals
  functions : ∀ t ∈ b.functions, ScriptMinifier.Sealed b.literals.size t

/-- Sealed blocks give a sealed program. -/
theorem sealed_ofBlocks {b : Source.Blocks} {p : Program} (hb : b.Sealed)
    (h : Program.ofBlocks b = .ok p) :
    p.Sealed := by
  obtain ⟨hliterals, hdeclarations, hnatives, hfunctions⟩ := Program.ofBlocks_eq_ok.1 h
  constructor
  · rw [hliterals]
    exact hb.literals
  · intro d hd
    rw [Declaration.parseAll_eq_ok] at hdeclarations
    obtain ⟨line, hline, hparse⟩ := exists_of_mem_right hdeclarations hd
    obtain ⟨raw, hraw, rfl⟩ := List.mem_map.1 (List.mem_filter.1 hline).1
    rw [hliterals]
    exact sealed_parseDeclaration (hb.globals.squeezeBlock.lines raw hraw).trim hparse
  · intro n hn
    obtain ⟨t, -, hparse⟩ := exists_of_mem_right hnatives hn
    exact clean_parseNative hparse
  · intro f hf
    obtain ⟨t, ht, hparse⟩ := exists_of_mem_right hfunctions hf
    rw [hliterals]
    exact sealed_parseFunction (hb.functions t ht).squeezeBlock hparse

namespace Source

theorem HoldEach.exists_holds {all : Literals} {ns : List Nat} {es : List Extract}
    (h : HoldEach all ns es) {e : Extract} (he : e ∈ es) : ∃ ms, Holds all ms e.text e.written := by
  induction h with
  | nil => cases he
  | cons first _ ih =>
    rcases List.mem_cons.1 he with rfl | he
    · exact ⟨_, first⟩
    · exact ih he

theorem mem_of_mem_literalsIn {s : Annotated} {lit : Text} (h : lit ∈ literalsIn s) :
    ∀ c ∈ lit, c ∈ s.map Prod.fst := by
  fun_induction literalsIn s with
  | case1 => cases h
  | case2 c rest ih =>
    rcases List.mem_cons.1 h with rfl | h
    · intro d hd
      rcases List.mem_cons.1 hd with rfl | hd
      · exact List.mem_cons_self
      · exact List.mem_cons_of_mem _ (((List.takeWhile_sublist _).map Prod.fst).subset hd)
    · exact fun d hd => List.mem_cons_of_mem _ (ih h d hd)
  | case3 x rest _ ih => exact fun d hd => List.mem_cons_of_mem _ (ih h d hd)

/-- The literals of a script are made of its characters. -/
theorem mem_of_mem_literals {src lit : Text}
    (h : lit ∈ (regions (lexemes src)).flatMap Region.literals) :
    ∀ c ∈ lit, c ∈ src := by
  obtain ⟨r, hr, hlit⟩ := List.mem_flatMap.1 h
  intro c hc
  have hbody : c ∈ (annotatedAll r.body).map Prod.fst := mem_of_mem_literalsIn hlit c hc
  have hsub : ∀ l ∈ r.body, l ∈ lexemes src := by
    intro l hl
    rw [← flatMap_lexemes_regions (lexemes src), List.mem_flatMap]
    refine ⟨r, hr, ?_⟩
    cases r with
    | outside => cases hl
    | block kind body closed => exact List.mem_cons_of_mem _ (List.mem_append_left _ hl)
  rw [← map_fst_annotate .code src, annotate_eq_annotatedAll]
  obtain ⟨x, hx, rfl⟩ := List.mem_map.1 hbody
  obtain ⟨l, hl, hxl⟩ := List.mem_flatMap.1 hx
  exact List.mem_map.2 ⟨x, List.mem_flatMap.2 ⟨l, hsub l hl, hxl⟩, rfl⟩

end Source

/-- A script without marks has sealed blocks. -/
theorem sealed_blocks {src : Text} {b : Source.Blocks} (hmark : mark ∉ src)
    (h : Source.blocks src = .ok b) :
    b.Sealed := by
  unfold Source.blocks at h
  split at h
  · cases h
  rename_i hend
  cases h
  have hhold := Source.holdEach_collected hmark hend
  have htexts (kind : Source.BlockKind) (hkind : kind.finish = id) :
      Source.textsOf kind (Source.collected src).1 =
      (Source.Extract.ofKind kind (Source.extractsOf (Source.collected src).1)).map
        Source.Extract.text := by
    rw [← Source.map_finish_textsOf, hkind, List.map_id]
  constructor
  · intro raw hraw hmem
    rw [Source.Blocks.ofCollected, Source.texts_collected hmark hend] at hraw
    exact hmark (Source.mem_of_mem_literals hraw mark hmem)
  · obtain ⟨ns, hns⟩ := hhold.ofKind .globals
    have hjoined := hns.foldl_joinGlobals .nil
    rw [← htexts .globals rfl] at hjoined
    exact Sealed.of_holds hjoined
  · intro t ht
    rw [Source.Blocks.ofCollected, htexts .function rfl] at ht
    obtain ⟨e, he, rfl⟩ := List.mem_map.1 ht
    obtain ⟨ns, hns⟩ := hhold.exists_holds (List.mem_filter.1 he).1
    exact Sealed.of_holds hns

theorem sealed_readProgram {src : Text} {p : Program} (hmark : mark ∉ src)
    (h : readProgram src = .ok p) :
    p.Sealed := by
  obtain ⟨b, hb, hp⟩ := readProgram_eq_ok.1 h
  exact sealed_ofBlocks (sealed_blocks hmark hb) hp

theorem size_readProgram_le {src : Text} {p : Program} (hmark : mark ∉ src)
    (h : readProgram src = .ok p) :
    p.literals.size ≤ src.length := by
  obtain ⟨b, hb, hp⟩ := readProgram_eq_ok.1 h
  rw [(Program.ofBlocks_eq_ok.1 hp).1]
  unfold Source.blocks at hb
  split at hb
  · cases hb
  rename_i hend
  cases hb
  rw [Source.Blocks.ofCollected, Literals.size, Source.texts_collected hmark hend]
  exact Source.length_literals_regions src

/-! ### Marking, counting and pruning

These steps drop functions and declarations and change flags and counts, and no text. -/

/-- Some parts of a program, with other uses and entries, and its literals. -/
structure Program.PartsOf (q p : Program) : Prop where
  literals : q.literals = p.literals
  natives : q.natives = p.natives
  declarations : ∀ d ∈ q.declarations, ∃ d' ∈ p.declarations, d = { d' with uses := d.uses }
  functions : ∀ f ∈ q.functions, ∃ f' ∈ p.functions,
    f = { f' with uses := f.uses, entry := f.entry }

namespace Program.PartsOf

variable {p q r : Program}

theorem trans (h : r.PartsOf q) (h' : q.PartsOf p) : r.PartsOf p := by
  refine ⟨h.literals.trans h'.literals, h.natives.trans h'.natives, fun d hd => ?_, fun f hf => ?_⟩
  · obtain ⟨d', hd', heq⟩ := h.declarations d hd
    obtain ⟨d'', hd'', heq'⟩ := h'.declarations d' hd'
    exact ⟨d'', hd'', by rw [heq, heq']⟩
  · obtain ⟨f', hf', heq⟩ := h.functions f hf
    obtain ⟨f'', hf'', heq'⟩ := h'.functions f' hf'
    exact ⟨f'', hf'', by rw [heq, heq']⟩

theorem sealed (h : q.PartsOf p) (hp : p.Sealed) : q.Sealed := by
  constructor
  · rw [h.literals]
    exact hp.literals
  · intro d hd
    obtain ⟨d', hd', heq⟩ := h.declarations d hd
    rw [heq, h.literals]
    exact ⟨(hp.declarations d' hd').type, (hp.declarations d' hd').name,
      (hp.declarations d' hd').value⟩
  · rw [h.natives]
    exact hp.natives
  · intro f hf
    obtain ⟨f', hf', heq⟩ := h.functions f hf
    rw [heq, h.literals]
    exact ⟨(hp.functions f' hf').name, (hp.functions f' hf').params, (hp.functions f' hf').result,
      (hp.functions f' hf').body⟩

end Program.PartsOf

theorem partsOf_markEntries (p : Program) (names : List Text) :
    (p.markEntries names).PartsOf p := by
  refine ⟨rfl, rfl, fun d hd => ⟨d, hd, rfl⟩, fun f hf => ?_⟩
  obtain ⟨f', hf', rfl⟩ := List.mem_map.1 hf
  exact ⟨f', hf', rfl⟩

theorem partsOf_countCalls (p : Program) : (Usage.countCalls p).PartsOf p := by
  refine ⟨rfl, rfl, fun d hd => ⟨d, hd, rfl⟩, fun f hf => ?_⟩
  obtain ⟨⟨f', k⟩, hf', rfl⟩ := List.mem_map.1 hf
  exact ⟨f', List.fst_mem_of_mem_zipIdx hf', rfl⟩

theorem partsOf_countDeclarationUses (p : Program) : (Usage.countDeclarationUses p).PartsOf p := by
  refine ⟨rfl, rfl, fun d hd => ?_, fun f hf => ⟨f, hf, rfl⟩⟩
  obtain ⟨⟨d', k⟩, hd', rfl⟩ := List.mem_map.1 hd
  exact ⟨d', List.fst_mem_of_mem_zipIdx hd', rfl⟩

theorem partsOf_prune (p : Program) : (Pruning.prune p).PartsOf p := by
  have hfunctions : (Pruning.dropFunctions (Usage.countCalls p)).PartsOf (Usage.countCalls p) :=
    ⟨rfl, rfl, fun d hd => ⟨d, hd, rfl⟩, fun f hf => ⟨f, (List.mem_filter.1 hf).1, rfl⟩⟩
  have hdeclarations : (Pruning.prune p).PartsOf (Pruning.countedUses p) :=
    ⟨rfl, rfl, fun d hd => ⟨d, (List.mem_filter.1 hd).1, rfl⟩, fun f hf => ⟨f, hf, rfl⟩⟩
  exact hdeclarations.trans
    ((partsOf_countDeclarationUses _).trans (hfunctions.trans (partsOf_countCalls p)))

theorem sealed_markEntries {p : Program} (h : p.Sealed) (names : List Text) :
    (p.markEntries names).Sealed :=
  (partsOf_markEntries p names).sealed h

theorem sealed_countCalls {p : Program} (h : p.Sealed) : (Usage.countCalls p).Sealed :=
  (partsOf_countCalls p).sealed h

theorem sealed_countDeclarationUses {p : Program} (h : p.Sealed) :
    (Usage.countDeclarationUses p).Sealed :=
  (partsOf_countDeclarationUses p).sealed h

theorem sealed_prune {p : Program} (h : p.Sealed) : (Pruning.prune p).Sealed :=
  (partsOf_prune p).sealed h

/-! ### Inlining -/

theorem Syntax.Declaration.Sealed.mono {n m : Nat} {d : Declaration} (h : d.Sealed n)
    (hle : n ≤ m) : d.Sealed m :=
  ⟨h.type, h.name, fun t ht => (h.value t ht).mono hle⟩

theorem Syntax.Function.Sealed.mono {n m : Nat} {f : Function} (h : f.Sealed n) (hle : n ≤ m) :
    f.Sealed m :=
  ⟨h.name, h.params.mono hle, h.result, h.body.mono hle⟩

namespace Substitution.Tables

variable {tables : Tables} {s : ProgramInlining}

theorem sealed_inlineFunctions (htables : tables.Clean) (hs : s.Sealed) {fs : List Function}
    (h : ∀ f ∈ fs, f.Sealed s.literals.size) :
    s.Grows tables (tables.inlineFunctions s fs).2 ∧
      ∀ f ∈ (tables.inlineFunctions s fs).1, f.Sealed
      (tables.inlineFunctions s fs).2.literals.size := by
  induction fs generalizing s with
  | nil => exact ⟨hs.refl, nofun⟩
  | cons f rest ih =>
    rw [List.forall_mem_cons] at h
    obtain ⟨hcalls, hbody⟩ := sealed_inlineCallsIn htables hs h.1.body
    obtain ⟨hconstants, hbody'⟩ := sealed_inlineConstantsIn htables
      { f with body := (tables.inlineCallsIn s f.body).1 }.scopedNames hcalls.sealed hbody
    have hboth := hcalls.trans hconstants
    obtain ⟨hgrows, hmore⟩ := ih hboth.sealed fun f' hf' => (h.2 f' hf').mono hboth.size_le
    rw [inlineFunctions]
    refine ⟨hboth.trans hgrows, List.forall_mem_cons.2 ⟨?_, hmore⟩⟩
    have hf := (h.1.mono hboth.size_le).mono hgrows.size_le
    exact ⟨hf.name, hf.params, hf.result, hbody'.mono hgrows.size_le⟩

theorem sealed_inlineValues (htables : tables.Clean) (hs : s.Sealed) {ds : List Declaration}
    (h : ∀ d ∈ ds, d.Sealed s.literals.size) :
    s.Grows tables (tables.inlineValues s ds).2 ∧
      ∀ d ∈ (tables.inlineValues s ds).1, d.Sealed (tables.inlineValues s ds).2.literals.size := by
  induction ds generalizing s with
  | nil => exact ⟨hs.refl, nofun⟩
  | cons d rest ih =>
    rw [List.forall_mem_cons] at h
    rw [inlineValues]
    cases hvalue : d.value with
    | none =>
      obtain ⟨hgrows, hmore⟩ := ih hs h.2
      exact ⟨hgrows, List.forall_mem_cons.2 ⟨⟨h.1.type, h.1.name, nofun⟩, hmore⟩⟩
    | some t =>
      obtain ⟨hvalueGrows, hout⟩ :=
        sealed_inlineConstantsIn htables [] hs (h.1.value t (by rw [hvalue]; rfl))
      obtain ⟨hgrows, hmore⟩ :=
        ih hvalueGrows.sealed fun d' hd' => (h.2 d' hd').mono hvalueGrows.size_le
      refine ⟨hvalueGrows.trans hgrows,
        List.forall_mem_cons.2 ⟨⟨h.1.type, h.1.name, fun u hu => ?_⟩, hmore⟩⟩
      rw [← Option.some.inj hu]
      exact hout.mono hgrows.size_le

/-- The texts of both tables put together. -/
def length (tables : Tables) : Nat :=
  ((tables.functions.entries ++ tables.constants.entries).map fun entry => entry.2.length).sum

theorem unseen_empty (table : Table) :
    unseen table .empty = (table.entries.map fun entry => entry.2.length).sum := by
  have hall :
      table.entries.filter
        (fun entry => !(Text.Dictionary.empty : Text.Dictionary Text).contains entry.1) =
      table.entries := List.filter_eq_self.2 fun entry _ => rfl
  rw [unseen, hall]

/-- Inlining keeps a program sealed, and adds no more literals than its tables have
characters. -/
theorem sealed_inline (htables : tables.Clean) {p : Program} (h : p.Sealed) :
    (tables.inline p).Sealed ∧
    (tables.inline p).literals.size ≤ p.literals.size + tables.length := by
  have hempty : ∀ n, Templates.Sealed n .empty := fun n name t ht => by cases ht
  have hs : ProgramInlining.Sealed { literals := p.literals } := ⟨hempty _, hempty _, h.literals⟩
  obtain ⟨hfunctionsGrow, hfunctions⟩ := sealed_inlineFunctions htables hs h.functions
  obtain ⟨hvaluesGrow, hvalues⟩ := sealed_inlineValues htables hfunctionsGrow.sealed
    fun d hd => (h.declarations d hd).mono hfunctionsGrow.size_le
  refine ⟨⟨hvaluesGrow.sealed.literals, hvalues, h.natives, fun f hf => ?_⟩, ?_⟩
  · exact (hfunctions f hf).mono hvaluesGrow.size_le
  · have hroom := (hfunctionsGrow.trans hvaluesGrow).room_le
    simp only [ProgramInlining.room, unseen_empty] at hroom
    show (tables.inlineValues _ _).2.literals.size ≤ _
    rw [length, List.map_append, List.sum_append]
    omega

end Substitution.Tables

end ScriptMinifier
