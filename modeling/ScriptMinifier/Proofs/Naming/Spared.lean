import ScriptMinifier.Proofs.Naming.DroppedCalls
import ScriptMinifier.Proofs.Naming.GlobalNames

/-! What a pool will never deal.

A pool spares what is reserved in it and what it has dealt, and a pool of globals every word without
an upper-case letter. When the globals and the locals of a program are renamed, all that is left in
its values, its bodies and its names is spared by the pool of globals (`spares_vocabulary`). A word
that a function hides is not reserved, and it keeps its form when the globals are renamed; but then
it is a local or a parameter, so it is renamed next, or goes with its declaration. -/
namespace ScriptMinifier

open Syntax (Declaration Function Parameter localName? isDatatype datatypes)
open Text (Smooth Wordly isIdent replacement words)

/-! ### Pools -/

namespace Naming.Pool

variable {pool : Pool} {ws : List Text}

/-- A pool that will deal none of some words. -/
def Spares (pool : Pool) (ws : List Text) : Prop := ∀ n, ∀ name ∈ (pool.drawMany n).1, name ∉ ws

theorem drawMany_add (pool : Pool) (m n : Nat) :
    (pool.drawMany (m + n)).1 = (pool.drawMany m).1 ++ ((pool.drawMany m).2.drawMany n).1 := by
  induction m generalizing pool with
  | zero => rw [Nat.zero_add]; rfl
  | succ m ih =>
    rw [Nat.succ_add]
    exact congrArg (List.cons _) (ih pool.draw.2)

theorem drawMany_scheme (pool : Pool) (n : Nat) : (pool.drawMany n).2.scheme = pool.scheme := by
  induction n generalizing pool with
  | zero => rfl
  | succ n ih => exact ih pool.draw.2

theorem Spares.mono {vs : List Text} (h : pool.Spares ws) (hsub : vs ⊆ ws) :
    pool.Spares vs := fun n name hname hmem =>
  h n name hname (hsub hmem)

/-- The next name is none of the words, and it is spared once it has been dealt. -/
theorem Spares.draw (h : pool.Spares ws) :
    pool.draw.1 ∉ ws ∧ pool.draw.2.Spares (pool.draw.1 :: ws) := by
  refine ⟨h 1 _ List.mem_cons_self, fun n name hname => ?_⟩
  have hnodup : (pool.draw.1 :: (pool.draw.2.drawMany n).1).Nodup := nodup_drawMany pool (n + 1)
  rw [List.mem_cons, not_or]
  refine ⟨?_, h (n + 1) name (List.mem_cons_of_mem _ hname)⟩
  rintro rfl
  exact (List.nodup_cons.1 hnodup).1 hname

/-- A pool of globals that has dealt names spares them, with the words that are reserved and those
without an upper-case letter. -/
theorem spares_drawMany (hscheme : pool.scheme = .globals) {n : Nat}
    (h : ∀ w ∈ ws, w ∈ pool.reserved ∨ w ∈ (pool.drawMany n).1 ∨ w.any Char.isUpper = false) :
    (pool.drawMany n).2.Spares ws := by
  intro m name hname hmem
  have hlater : name ∈ (pool.drawMany (n + m)).1 := by
    rw [drawMany_add]
    exact List.mem_append_right _ hname
  rcases h name hmem with hreserved | hdealt | hlower
  · exact not_mem_reserved_of_isFree (isFree_of_mem_drawMany hlater) hreserved
  · have hnodup := nodup_drawMany pool (n + m)
    rw [drawMany_add] at hnodup
    exact List.disjoint_of_nodup_append hnodup hdealt hname
  · rw [any_isUpper_of_mem_drawMany hscheme hlater] at hlower
    cases hlower

end Naming.Pool

/-! ### Locals stay locals -/

namespace Text

/-- A renaming keeps placeholders closed. -/
theorem Closed.replaceWords {f : Text → Option Text} (hf : Wordly f) {t : Text} (h : Closed t) :
    Closed (replaceWords f t) := by
  rw [Closed, segments_replaceWords hf]
  intro s' hs'
  obtain ⟨s, hs, rfl⟩ := List.mem_map.1 hs'
  have hclosed := h s hs
  cases s with
  | word w => rfl
  | placeholder u => exact hclosed
  | other u => exact hclosed

/-- The words of a value are renamed, if there is one. -/
theorem words_getD_map {f : Text → Option Text} (hf : Wordly f) (v : Option Text) :
    words ((v.map (Text.replaceWords f)).getD []) = (words (v.getD [])).map (replacement f) := by
  cases v with
  | none =>
    rw [Option.map_none, Option.getD_none, words_nil]
    rfl
  | some t => exact words_replaceWords hf t

end Text

section Locals

variable {g : Text → Option Text} {f f' : Function} {s u x : Text}

/-- A line that declares a local still does, where no word of its left side is replaced. -/
theorem Recast.localName?_eq_some (hg : Smooth g)
    (hkept : ∀ w ∈ "local".toList :: "array".toList :: datatypes, g w = none)
    (h : Recast g s u) (hx : localName? s = some x) (hgx : g x = none) : localName? u = some x := by
  obtain ⟨rest, type, array, htrim, htyped, htype, hident⟩ := ScriptMinifier.localName?_eq_some.1 hx
  have hsame {w r : Text} (hw : isIdent w = true) (hgw : g w = none) (hr : Recast g w r) : r = w :=
    (hr.of_isWordChar (Text.isWordChar_of_isIdent hw) (Text.ne_nil_of_isIdent hw)).resolve_right
      fun hsome => by
      rw [hgw] at hsome
      cases hsome
  have hcut : Recast g ("local".toList ++ ' ' :: rest) (Text.trim u) := htrim ▸ h.trim hg
  obtain ⟨start, rest', hsplit, hstart, hrest⟩ := hcut.of_append_cons (by decide)
  rw [hsame (by decide) (hkept _ List.mem_cons_self) hstart] at hsplit
  have hkeptField : ∀ w ∈ Text.fields (Declaration.sides rest).1, g w = none := by
    have htype' :=
      hkept type (List.mem_cons_of_mem _ (List.mem_cons_of_mem _ (List.contains_iff_mem.1 htype)))
    have harray := hkept "array".toList (List.mem_cons_of_mem _ List.mem_cons_self)
    rw [Declaration.typedName?_eq_some.1 htyped]
    exact Declaration.forall_typed htype' harray hgx
  have hfields :
      Text.fields (Declaration.sides rest').1 = Text.fields (Declaration.sides rest).1 := by
    have hidents := isIdent_fields_of_typedName? htyped htype hident
    have hrecast := Recast.fields hg (Recast.sides hg hrest)
    generalize Text.fields (Declaration.sides rest).1 = fs,
      Text.fields (Declaration.sides rest').1 = fs' at hrecast hidents hkeptField
    induction hrecast with
    | nil => rfl
    | cons hfield _ ih =>
      rw [List.forall_mem_cons] at hidents hkeptField
      rw [hsame hidents.1 hkeptField.1 hfield, ih hidents.2 hkeptField.2]
  exact ScriptMinifier.localName?_eq_some.2
    ⟨rest', type, array, hsplit, by rw [hfields]; exact htyped, htype, hident⟩

/-- A function keeps its locals when words of its body are replaced and none of them is a local. -/
theorem localNames_subset_of_recast (hg : Smooth g)
    (hkept : ∀ w ∈ "local".toList :: "array".toList :: datatypes, g w = none)
    (h : Recast g f.body f'.body) (hlocals : ∀ x ∈ f.localNames, g x = none) :
    f.localNames ⊆ f'.localNames := by
  intro x hx
  have hgx := hlocals x hx
  rw [localNames_eq_filterMap] at hx ⊢
  obtain ⟨line, hline, hname⟩ := List.mem_filterMap.1 hx
  have hpieces := List.Forall₂.flip (R := fun line' line => Recast g line line')
    (Recast.pieces hg (c := '\n') (by decide) h)
  obtain ⟨line', hline', hrecast⟩ := exists_of_mem_right hpieces hline
  exact List.mem_filterMap.2 ⟨line', hline', hrecast.localName?_eq_some hg hkept hname hgx⟩

end Locals

/-! ### The words that stay in a function -/

namespace Naming

section Kept

variable {f : Function} {w : Text}

theorem keptText_eq (f : Function) : keptText f = dropLocals (onceLocals f) f.body := rfl

theorem words_keptText_subset (h : Text.Closed f.body) : words (keptText f) ⊆ words f.body := by
  intro w hw
  rw [keptText_eq] at hw
  exact (perm_dropLocals Text.linewise_words (onceLocals f) h).subset (List.mem_append_left _ hw)

/-- A local that occurs once goes with its declaration. -/
theorem not_mem_words_keptText (h : Text.Closed f.body) (hw : w ∈ onceLocals f) :
    w ∉ words (keptText f) := by
  have hperm := perm_dropLocals Text.linewise_words (onceLocals f) h
  obtain ⟨hlocal, hcount⟩ := List.mem_filter.1 hw
  rw [Bool.and_eq_true, beq_iff_eq] at hcount
  obtain ⟨line, hline, hname⟩ := List.mem_filterMap.1 (Text.mem_distinct.1 hlocal)
  have hgone :
      line ∈ (Text.lines f.body).filter fun line =>
        (localName? line).any (onceLocals f).contains := by
    refine List.mem_filter.2 ⟨hline, ?_⟩
    rw [hname]
    exact List.contains_iff_mem.2 hw
  have hdeclared :=
    List.count_pos_iff.2 (List.mem_flatMap.2 ⟨line, hgone, mem_words_of_localName? hname⟩)
  intro hkept
  rw [keptText_eq, ← List.count_pos_iff] at hkept
  have hsum := hperm.count_eq w
  rw [List.count_append, hcount.2] at hsum
  omega

/-- What a function binds is renamed or goes. -/
theorem mem_boundNames_of_mem_words_keptText (h : Text.Closed f.body) (hw : w ∈ words (keptText f))
    (hbound : w ∈ f.scopedNames) :
    w ∈ boundNames f := by
  by_cases hparam : w ∈ f.paramNames
  · exact List.mem_append_left _ hparam
  · have hlocal : w ∈ Text.distinct f.localNames :=
      Text.mem_distinct.2 ((List.mem_append.1 hbound).resolve_left hparam)
    refine List.mem_append_right _ (List.mem_filter.2 ⟨hlocal, ?_⟩)
    have hnot : ¬ (words f.body).count w = 1 := fun hcount =>
      not_mem_words_keptText h (List.mem_filter.2 ⟨hlocal, by simp [hparam, hcount]⟩) hw
    simp [hparam, hnot]

end Kept

theorem name_renameLocals (f : Function) : (renameLocals f).function.name = f.name := by
  unfold renameLocals
  split <;> rfl

/-! ### The program after renaming -/

variable {p : Program} {pool : Pool} {f : Function} {w : Text}

/-- A word that is reserved when the globals are renamed, a new name of a global, or a word without
an upper-case letter. -/
def Settled (p : Program) (pool : Pool) (w : Text) : Prop :=
  w ∈ (reserveKept p pool).reserved ∨ w ∈ ((reserveKept p pool).drawMany (globalOrder p).length).1 ∨
    w.any Char.isUpper = false

/-- A word that is not renamed is reserved. -/
theorem settled_renamed (hw : w ∈ programWords p) :
    Settled p pool (renamed (newNames p pool) w) := by
  rw [renamed]
  cases hfind : (newNames p pool).find? w with
  | some new => exact .inr (.inl (Pool.mem_drawMany_of_mem_deal (find?_newNames.1 hfind)))
  | none =>
    refine .inl (List.mem_append_left _ (List.mem_filter.2 ⟨hw, ?_⟩))
    simpa using find?_newNames_eq_none hfind

/-- Renaming the globals replaces no word of a local's declaration but the local. -/
theorem visible_language
    (hlanguage : ∀ name ∈ p.declarationNames ++ p.functionNames,
      name ∉ Syntax.keywords ++ datatypes)
    (f : Function) :
    ∀ w ∈ "local".toList :: "array".toList :: datatypes, visible (newNames p pool) f w = none := by
  intro w hw
  refine visible_eq_none (.inr (Option.eq_none_iff_forall_ne_some.2 fun new hnew => ?_))
  exact hlanguage w (List.mem_append.2 (mem_names_of_find? hnew))
    (Syntax.localWords_subset_language hw)

/-- A name that a function binds is bound when the globals are renamed. -/
theorem scopedNames_subset_renameFunction
    (hlanguage : ∀ name ∈ p.declarationNames ++ p.functionNames,
      name ∉ Syntax.keywords ++ datatypes) (f : Function) :
    f.scopedNames ⊆ (renameFunction (newNames p pool) f).scopedNames := by
  have hsmooth : Smooth (visible (newNames p pool) f) := fun w r hr =>
    (givesWords_newNames p pool).smooth w r (find?_of_visible hr)
  refine List.append_subset.2
    ⟨List.subset_append_left _ _, List.Subset.trans ?_ (List.subset_append_right _ _)⟩
  exact localNames_subset_of_recast hsmooth (visible_language hlanguage f)
      (.replaceWords _ f.body) fun x hx =>
    visible_eq_none (.inl (List.mem_append_right _ hx))

theorem wordly_visible (p : Program) (pool : Pool) (f : Function) :
    Wordly (visible (newNames p pool) f) := fun w r hr =>
  givesWords_newNames p pool w r (find?_of_visible hr)

theorem words_renameFunction (p : Program) (pool : Pool) (f : Function) :
    words (renameFunction (newNames p pool) f).body = (words f.body).map
    (replacement (visible (newNames p pool) f)) :=
  Text.words_replaceWords (wordly_visible p pool f) f.body

/-- The words of a body are settled when its globals and then its locals are renamed. -/
theorem settled_body
    (hlanguage : ∀ name ∈ p.declarationNames ++ p.functionNames,
      name ∉ Syntax.keywords ++ datatypes)
    (hf : f ∈ p.functions) (hparams : (Parameter.parseAll? f.params).isSome = true)
    (hclosed : Text.Closed f.body) :
    ∀ w ∈ words (renameLocals (renameFunction (newNames p pool) f)).function.body,
    Settled p pool w := by
  obtain ⟨params, hparse⟩ := Option.isSome_iff_exists.1 hparams
  have hclosed' : Text.Closed (renameFunction (newNames p pool) f).body :=
    hclosed.replaceWords (wordly_visible p pool f)
  have hwords := words_renameFunction p pool f
  have hbound : f.scopedNames ⊆ (renameFunction (newNames p pool) f).scopedNames :=
    scopedNames_subset_renameFunction hlanguage f
  have hparse' : Parameter.parseAll? (renameFunction (newNames p pool) f).params = some params :=
    hparse
  generalize renameFunction (newNames p pool) f = g at hclosed' hwords hbound hparse'
  have hnames : Wordly (newLocals g).find? :=
    GivesIdents.wordly (givesIdents_deal (localPool g) (localOrder g.paramNames g))
  intro new hnew
  rw [(renameLocals_eq hclosed' hparse').2, Text.words_replaceWords hnames] at hnew
  obtain ⟨w, hw, rfl⟩ := List.mem_map.1 hnew
  by_cases hname : w ∈ boundNames g
  · -- a local or a parameter gets a name of a local
    obtain ⟨new, hfind, hrenamed⟩ := exists_newLocal hclosed' hname
    have hscheme : (localPool g).scheme = .locals := rfl
    refine .inr (.inr ?_)
    rw [show replacement (newLocals g).find? w = new from hrenamed]
    exact Pool.not_any_isUpper_of_mem_drawMany hscheme (mem_drawMany_of_find? hfind)
  · have hsame : renamed (newLocals g) w = w := renamed_of_not_mem hclosed' hname
    have hfree : w ∉ f.scopedNames := fun hscoped =>
      hname (mem_boundNames_of_mem_words_keptText hclosed' hw (hbound hscoped))
    have hmem := words_keptText_subset hclosed' hw
    rw [hwords] at hmem
    obtain ⟨old, hold, heq⟩ := List.mem_map.1 hmem
    have hscoped : old ∉ f.scopedNames := by
      intro hscoped
      rw [replacement, visible_eq_none (.inl hscoped), Option.getD_none] at heq
      exact hfree (heq ▸ hscoped)
    rw [replacement, visible, if_neg (by simpa using hscoped)] at heq
    show Settled p pool (renamed (newLocals g) w)
    rw [hsame, ← heq]
    exact settled_renamed (mem_programWords hf (List.mem_append_left _ hold))

end Naming

/-- The words of the values and of the bodies, with the names of the declarations and of the
functions. -/
def Program.vocabulary (p : Program) : List Text :=
  p.declarations.flatMap (fun d => d.name :: words (d.value.getD [])) ++
    p.functions.flatMap fun f => f.name :: words f.body

namespace Naming

/-- A pool of globals spares the program once its globals and its locals are renamed. -/
theorem spares_vocabulary {p : Program} {pool : Pool} (hscheme : pool.scheme = .globals)
    (hlanguage : ∀ name ∈ p.declarationNames ++ p.functionNames,
      name ∉ Syntax.keywords ++ datatypes)
    (hparams : ∀ f ∈ p.functions, (Parameter.parseAll? f.params).isSome = true)
    (hclosed : ∀ f ∈ p.functions, Text.Closed f.body) :
    (renameGlobals p pool).pool.Spares (Syntax.keywords ++ datatypes ++
      (renameAllLocals (renameGlobals p pool).program).vocabulary) := by
  have hkept : (reserveKept p pool).scheme = .globals := hscheme
  refine Pool.spares_drawMany hkept fun w hw => ?_
  show Settled p pool w
  rcases List.mem_append.1 hw with hlang | hvocabulary
  · exact .inr (.inr (Syntax.not_any_isUpper_language w hlang))
  have hdeclarations : (renameAllLocals (renameGlobals p pool).program).declarations =
      p.declarations.map (renameDeclaration (newNames p pool)) := rfl
  have hfunctions : (renameAllLocals (renameGlobals p pool).program).functions =
      (p.functions.map (renameFunction (newNames p pool))).map fun f => (renameLocals f).function :=
        rfl
  rw [Program.vocabulary, hdeclarations, hfunctions, List.map_map, List.flatMap_map,
    List.flatMap_map] at hvocabulary
  rcases List.mem_append.1 hvocabulary with hdeclared | hdefined
  · obtain ⟨d, hd, hw⟩ := List.mem_flatMap.1 hdeclared
    rw [renameDeclaration, Text.words_getD_map (givesWords_newNames p pool)] at hw
    change w ∈ (d.name :: words (d.value.getD [])).map (renamed (newNames p pool)) at hw
    obtain ⟨old, hold, rfl⟩ := List.mem_map.1 hw
    exact settled_renamed (List.mem_append_left _ (List.mem_append_left _
      (List.mem_flatMap.2 ⟨d, hd, List.mem_cons_of_mem _ hold⟩)))
  · obtain ⟨f, hf, hw⟩ := List.mem_flatMap.1 hdefined
    rw [Function.comp_apply, name_renameLocals] at hw
    rcases List.mem_cons.1 hw with rfl | hw
    · exact settled_renamed
        (List.mem_append_right _ (List.mem_flatMap.2 ⟨f, hf, List.mem_cons_self⟩))
    · exact settled_body hlanguage hf (hparams f hf) (hclosed f hf) w hw

end Naming
end ScriptMinifier
