import Mathlib.Data.List.Sort
import ScriptMinifier.Ranking

/-! The order of a ranked list.

Ranking is insertion sort (`ranked_eq_insertionSort`), so a ranked list has the items of the list in
the order of the relation. Items that the relation ties stand in it as they stood before
(`filter_ranked`), and between them these leave no choice which item comes where. -/
namespace ScriptMinifier

variable {α : Type} {r : α → α → Prop} [DecidableRel r]

theorem insertRanked_eq_orderedInsert (a : α) (as : List α) :
    insertRanked (fun a b => decide (r a b)) a as = as.orderedInsert r a := by
  induction as with
  | nil => rfl
  | cons b rest ih =>
    rw [insertRanked, List.orderedInsert_cons, ih]
    exact ite_congr decide_eq_true_eq (fun _ => rfl) fun _ => rfl

/-- Ranking is insertion sort. -/
theorem ranked_eq_insertionSort (as : List α) :
    ranked (fun a b => decide (r a b)) as = as.insertionSort r := by
  induction as with
  | nil => rfl
  | cons a rest ih => rw [ranked, ih, insertRanked_eq_orderedInsert, List.insertionSort_cons]

/-! ### Stable -/

variable {le : α → α → Bool}

/-- An item is put before the items that are tied with it. -/
theorem filter_insertRanked {q : α → Bool}
    (htied : ∀ a b, q a = true → q b = true → le a b = true) (a : α) (as : List α) :
    (insertRanked le a as).filter q = (a :: as).filter q := by
  induction as with
  | nil => rfl
  | cons b rest ih =>
    rw [insertRanked]
    split
    · rfl
    · rename_i hab
      -- An item that goes further back is not tied with the one it passes.
      rw [List.filter_cons, ih, List.filter_cons, List.filter_cons, List.filter_cons]
      cases ha : q a <;> cases hb : q b
      · rfl
      · rfl
      · rfl
      · exact absurd (htied a b ha hb) hab

/-- Ranking leaves tied items in the order in which they stood. -/
theorem filter_ranked {q : α → Bool}
    (htied : ∀ a b, q a = true → q b = true → le a b = true) (as : List α) :
    (ranked le as).filter q = as.filter q := by
  induction as with
  | nil => rfl
  | cons a rest ih => rw [ranked, filter_insertRanked htied, List.filter_cons, ih, List.filter_cons]

end ScriptMinifier
