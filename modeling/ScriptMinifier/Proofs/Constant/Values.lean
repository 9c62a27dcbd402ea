import ScriptMinifier.Proofs.Constant.Names
import ScriptMinifier.Proofs.Naming.Replacements
import ScriptMinifier.Proofs.Syntax.Recasting

/-! Values in the place of names.

What folding puts in the place of a name is the text of a number or a truth value
(`isValue_of_mem_foldedPairs`), which holds no names. So every name that a text holds afterwards it
held before, and it is none of those replaced (`mem_words_replaceWords_of_isValue`,
`mem_words_replaceInTurn`). A function binds the names that it bound before
(`scopedNames_replaceIn`). -/
namespace ScriptMinifier

open Constant
  (Value evalAs foldFrom foldedPairs foldedValues replaceIn replaceInTurn replaceName valueWords)
open Syntax (Declaration Function datatypes)
open Text (mark isIdent words replaceWords replacement)

variable {t w : Text}

/-- The text of a number or a truth value. -/
def IsValue (t : Text) : Prop := ∃ v : Value, v.Proper ∧ t = v.text

namespace IsValue

theorem isSmooth (h : IsValue t) : ∀ c ∈ t, Text.isSmooth c = true := by
  obtain ⟨v, -, rfl⟩ := h
  exact List.all_eq_true.1 v.all_isSmooth_text

theorem mark_not_mem (h : IsValue t) : mark ∉ t :=
  fun hmem => absurd (h.isSmooth mark hmem) (by decide)

theorem word_cases (h : IsValue t) (hw : w ∈ words t) :
    w ∈ valueWords ∨ ∃ c ∈ w.head?, c.isDigit = true := by
  obtain ⟨v, hv, rfl⟩ := h
  exact Value.words_text hv hw

end IsValue

/-- A folded name stands for a value. -/
theorem isValue_of_mem_foldedPairs {ls : Literals} {done ds : List Declaration} {name value : Text}
    (h : (name, value) ∈ foldedPairs (foldFrom ls done ds).2) : IsValue value := by
  obtain ⟨type, t, v, heval, hv⟩ := Constant.exists_evalAs_of_mem_foldedPairs h
  exact ⟨v, Constant.proper_evalAs heval, hv.symm⟩

/-! ### Words that stay -/

/-- A word of a text with values put in is a value's, or it was there before and was not
replaced. -/
theorem mem_words_replaceWords_of_isValue {f : Text → Option Text}
    (hf : ∀ w r, f w = some r → IsValue r) (hw : w ∈ words (replaceWords f t)) :
    (w ∈ valueWords ∨ ∃ c ∈ w.head?, c.isDigit = true) ∨ w ∈ words t ∧ f w = none := by
  rw [Text.words_replaceWords_of_unmarked fun w r hr => (hf w r hr).mark_not_mem,
    List.mem_flatMap] at hw
  obtain ⟨u, hu, hw⟩ := hw
  obtain ⟨hne, hchars⟩ := Text.mem_words hu
  unfold replacement at hw
  cases hfu : f u with
  | none =>
    rw [hfu, Option.getD_none, Text.words_of_word hne fun c hc => (hchars c hc).1,
      List.mem_singleton] at hw
    exact .inr (hw ▸ ⟨hu, hfu⟩)
  | some r =>
    rw [hfu] at hw
    exact .inl ((hf u r hfu).word_cases hw)

theorem mem_words_replaceName {name value : Text} (hvalue : IsValue value)
    (hw : w ∈ words (replaceName name value t)) :
    (w ∈ valueWords ∨ ∃ c ∈ w.head?, c.isDigit = true) ∨ w ∈ words t ∧ w ≠ name := by
  have hsingle : ∀ u r, (if u = name then some value else none) = some r → IsValue r := by
    intro u r hr
    rw [Option.ite_none_right_eq_some] at hr
    exact Option.some.inj hr.2 ▸ hvalue
  refine (mem_words_replaceWords_of_isValue hsingle hw).imp_right fun ⟨hmem, hkept⟩ => ⟨hmem, ?_⟩
  rintro rfl
  rw [if_pos rfl] at hkept
  cases hkept

theorem mem_words_replaceInTurn {pairs : List (Text × Text)}
    (hpairs : ∀ pair ∈ pairs, IsValue pair.2) (hw : w ∈ words (replaceInTurn pairs t)) :
    (w ∈ valueWords ∨ ∃ c ∈ w.head?, c.isDigit = true) ∨ w ∈ words t ∧ w ∉ pairs.map Prod.fst := by
  induction pairs generalizing t with
  | nil => exact .inr ⟨hw, List.not_mem_nil⟩
  | cons pair rest ih =>
    rw [List.forall_mem_cons] at hpairs
    rcases ih hpairs.2 hw with hvalue | ⟨hmem, hrest⟩
    · exact .inl hvalue
    · refine (mem_words_replaceName hpairs.1 hmem).imp_right fun ⟨hmem, hne⟩ => ⟨hmem, ?_⟩
      rw [List.map_cons, List.mem_cons, not_or]
      exact ⟨hne, hrest⟩

/-! ### Names that functions bind -/

/-- A function binds the same names when constants are replaced in it. -/
theorem scopedNames_replaceIn {p : Program}
    (hident : ∀ name ∈ p.declarationNames, isIdent name = true)
    (hordinary : ∀ w ∈ "local".toList :: "array".toList :: datatypes, w ∉ p.declarationNames)
    (f : Function) :
    (replaceIn (foldedValues p) f).scopedNames = f.scopedNames := by
  have hforeign : Foreign (visible (foldedValues p) f) := foreign_visible (foreign_folded hident) f
  have hkept : ∀ w ∈ "local".toList :: "array".toList :: datatypes,
      visible (foldedValues p) f w = none := by
    intro w hw
    cases hvisible : visible (foldedValues p) f w with
    | none => rfl
    | some r =>
      have hpair := Text.Dictionary.mem_of_find?_ofPairs (find?_of_visible hvisible)
      exact absurd (Constant.foldedNames_subset p (List.mem_map_of_mem hpair)) (hordinary w hw)
  have hrecast : Recast (visible (foldedValues p) f) f.body (replaceIn (foldedValues p) f).body :=
    Recast.replaceWords _ f.body
  have hlocals := localNames_eq_of_recast hforeign hkept hrecast fun x hx =>
    visible_eq_none (.inl (List.mem_append_right _ hx))
  rw [Function.scopedNames, hlocals]
  rfl

end ScriptMinifier
