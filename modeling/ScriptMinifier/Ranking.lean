/-! Stable sorting.

`ranked le` puts a list in the order of `le` and leaves items that `le` takes to be
equal in the order in which they stood. -/
namespace ScriptMinifier

variable {α : Type}

/-- A list with an item put before the first that it may precede. -/
def insertRanked (le : α → α → Bool) (a : α) : List α → List α
  | [] => [a]
  | b :: rest => if le a b then a :: b :: rest else b :: insertRanked le a rest

/-- A list in the order of `le`. -/
def ranked (le : α → α → Bool) : List α → List α
  | [] => []
  | a :: rest => insertRanked le a (ranked le rest)

end ScriptMinifier
