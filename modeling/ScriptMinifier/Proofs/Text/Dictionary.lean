import Mathlib
import ScriptMinifier.Text.Dictionary

/-! Dictionaries made from pairs.

A value found in the dictionary of a list of pairs stands beside its key in the list, and
where no key is listed twice, everything that stands there is found
(`find?_ofPairs_eq_some`). -/
namespace ScriptMinifier.Text.Dictionary

variable {α : Type}

theorem find?_foldl_insert {pairs : List (Text × α)} {d : Dictionary α} {key : Text} {value : α}
    (h : (pairs.foldl (fun d pair => d.insert pair.1 pair.2) d).find? key = some value) :
    (key, value) ∈ pairs ∨ d.find? key = some value := by
  induction pairs generalizing d with
  | nil => exact .inr h
  | cons pair rest ih =>
    rcases ih h with hmem | hfound
    · exact .inl (List.mem_cons_of_mem _ hmem)
    · rw [find?_insert] at hfound
      split at hfound
      · rename_i hkey
        rw [Option.some.injEq] at hfound
        rw [← hkey, ← hfound]
        exact .inl List.mem_cons_self
      · exact .inr hfound

theorem find?_foldl_insert_of_not_mem {pairs : List (Text × α)} {d : Dictionary α} {key : Text}
    (h : key ∉ pairs.map Prod.fst) :
    (pairs.foldl (fun d pair => d.insert pair.1 pair.2) d).find? key = d.find? key := by
  induction pairs generalizing d with
  | nil => rfl
  | cons pair rest ih =>
    rw [List.map_cons, List.mem_cons, not_or] at h
    rw [List.foldl_cons, ih h.2, find?_insert, if_neg (Ne.symm h.1)]

theorem mem_of_find?_ofPairs {pairs : List (Text × α)} {key : Text} {value : α}
    (h : (ofPairs pairs).find? key = some value) : (key, value) ∈ pairs := by
  rcases find?_foldl_insert h with hmem | hfound
  · exact hmem
  · cases hfound

theorem find?_foldl_insert_of_mem {pairs : List (Text × α)} (hnodup : (pairs.map Prod.fst).Nodup)
    {d : Dictionary α} {key : Text} {value : α} (h : (key, value) ∈ pairs) :
    (pairs.foldl (fun d pair => d.insert pair.1 pair.2) d).find? key = some value := by
  induction pairs generalizing d with
  | nil => cases h
  | cons pair rest ih =>
    rw [List.map_cons, List.nodup_cons] at hnodup
    rcases List.mem_cons.1 h with rfl | h
    · rw [List.foldl_cons, find?_foldl_insert_of_not_mem hnodup.1, find?_insert, if_pos rfl]
    · exact ih hnodup.2 h

/-- With distinct keys the dictionary holds exactly the pairs. -/
theorem find?_ofPairs_eq_some {pairs : List (Text × α)} (hnodup : (pairs.map Prod.fst).Nodup)
    {key : Text} {value : α} : (ofPairs pairs).find? key = some value ↔ (key, value) ∈ pairs :=
  ⟨mem_of_find?_ofPairs, find?_foldl_insert_of_mem hnodup⟩

theorem find?_foldl_insert_ne_none {pairs : List (Text × α)} {d : Dictionary α} {key : Text}
    (h : key ∈ pairs.map Prod.fst ∨ d.find? key ≠ none) :
    (pairs.foldl (fun d pair => d.insert pair.1 pair.2) d).find? key ≠ none := by
  induction pairs generalizing d with
  | nil => exact h.resolve_left List.not_mem_nil
  | cons pair rest ih =>
    refine ih ?_
    rw [List.map_cons, List.mem_cons, or_assoc] at h
    rw [find?_insert]
    rcases h with rfl | h | h
    · rw [if_pos rfl]
      exact .inr (Option.some_ne_none _)
    · exact .inl h
    · refine .inr ?_
      split
      · exact Option.some_ne_none _
      · exact h

/-- Every key that is listed has a value. -/
theorem find?_ofPairs_eq_none {pairs : List (Text × α)} {key : Text} :
    (ofPairs pairs).find? key = none ↔ key ∉ pairs.map Prod.fst := by
  refine ⟨fun h hmem => find?_foldl_insert_ne_none (.inl hmem) h, fun h => ?_⟩
  exact find?_foldl_insert_of_not_mem h

theorem find?_foldl_insert_map {h : Text → Text} {pairs : List (Text × α)} {d d' : Dictionary α}
    {key : Text}
    (hinj : ∀ other ∈ pairs.map Prod.fst, h other = h key → other = key)
    (hd : d'.find? (h key) = d.find? key) :
    ((pairs.map fun pair => (h pair.1, pair.2)).foldl (fun d pair => d.insert pair.1 pair.2)
      d').find? (h key) =
      (pairs.foldl (fun d pair => d.insert pair.1 pair.2) d).find? key := by
  induction pairs generalizing d d' with
  | nil => exact hd
  | cons pair rest ih =>
    rw [List.map_cons, List.forall_mem_cons] at hinj
    refine ih hinj.2 ?_
    rw [find?_insert, find?_insert]
    by_cases heq : pair.1 = key
    · rw [if_pos heq, if_pos (congrArg h heq)]
    · rw [if_neg heq, if_neg fun hh => heq (hinj.1 hh), hd]

/-- Where keys are changed and kept apart from the one looked up, its value stays. -/
theorem find?_ofPairs_map {h : Text → Text} {pairs : List (Text × α)} {key : Text}
    (hinj : ∀ other ∈ pairs.map Prod.fst, h other = h key → other = key) :
    (ofPairs (pairs.map fun pair => (h pair.1, pair.2))).find? (h key) =
    (ofPairs pairs).find? key :=
  find?_foldl_insert_map hinj rfl

end ScriptMinifier.Text.Dictionary
