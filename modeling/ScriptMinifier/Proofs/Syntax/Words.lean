import Mathlib
import ScriptMinifier.Syntax.Datatype

/-! The words of the language.

What is used of the tables of keywords and types is read off them here, once: every word of them
is an identifier without an upper-case letter, and no type is spelled like a truth value or the
word `constant`. -/
namespace ScriptMinifier.Syntax

/-- The facts about the tables, word by word. -/
theorem language_table :
    (∀ w ∈ keywords ++ datatypes, Text.isIdent w = true ∧ w.any Char.isUpper = false) ∧
      ∀ w ∈ datatypes, w ∉ ["constant".toList, "true".toList, "false".toList] := by
  decide +kernel

theorem isIdent_language : ∀ w ∈ keywords ++ datatypes, Text.isIdent w = true :=
  fun w hw => (language_table.1 w hw).1

/-- No word of the language has an upper-case letter. -/
theorem not_any_isUpper_language : ∀ w ∈ keywords ++ datatypes, w.any Char.isUpper = false :=
  fun w hw => (language_table.1 w hw).2

theorem isIdent_datatypes :
    ∀ type ∈ datatypes, Text.isIdent type = true ∧ type ≠ "constant".toList := fun type htype =>
  ⟨isIdent_language type (List.mem_append_right _ htype), fun heq => language_table.2 type htype
    (heq ▸ List.mem_cons_self)⟩

/-- No type is a truth value. -/
theorem ne_of_mem_datatypes {type : Text} (h : type ∈ datatypes) :
    type ≠ "true".toList ∧ type ≠ "false".toList := by
  have hnot := language_table.2 type h
  simp only [List.mem_cons, not_or] at hnot
  exact ⟨hnot.2.1, hnot.2.2.1⟩

end ScriptMinifier.Syntax
