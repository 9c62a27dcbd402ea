import ScriptMinifier.Text.Basic

/-! Dictionaries from names to values.

A dictionary holds one entry a name. Entering a name again replaces its value
(`find?_insert`). -/
namespace ScriptMinifier.Text

/-- A finite map from texts, one entry a key. -/
structure Dictionary (α : Type) where
  entries : List (Text × α)
  distinct : (entries.map Prod.fst).Nodup

namespace Dictionary

variable {α : Type}

/-- No entries. -/
def empty : Dictionary α := ⟨[], List.nodup_nil⟩

/-- The number of entries. -/
def size (d : Dictionary α) : Nat := d.entries.length

/-- Whether there is no entry. -/
def isEmpty (d : Dictionary α) : Bool := d.entries.isEmpty

/-- The value of a key. -/
def find? (d : Dictionary α) (key : Text) : Option α :=
  (d.entries.find? fun entry => entry.1 == key).map Prod.snd

/-- Whether a key has a value. -/
def contains (d : Dictionary α) (key : Text) : Bool := (d.find? key).isSome

/-- The keys in use. -/
def keys (d : Dictionary α) : List Text := d.entries.map Prod.fst

/-- The dictionary with one value set. -/
def insert (d : Dictionary α) (key : Text) (value : α) : Dictionary α where
  entries := (key, value) :: d.entries.filter fun entry => entry.1 != key
  distinct := by
    rw [List.map_cons, List.nodup_cons]
    refine ⟨fun h => ?_, d.distinct.sublist (List.filter_sublist.map Prod.fst)⟩
    obtain ⟨entry, hmem, heq⟩ := List.mem_map.1 h
    simp [heq] at hmem

/-- The dictionary of a list of pairs, a later pair replacing an earlier one. -/
def ofPairs (pairs : List (Text × α)) : Dictionary α :=
  pairs.foldl (fun d pair => d.insert pair.1 pair.2) empty

/-- The entries in ascending order of their keys. -/
def sorted (d : Dictionary α) : List (Text × α) := sortedByKey d.entries

@[simp] theorem find?_empty (key : Text) : (empty : Dictionary α).find? key = none := rfl

theorem find?_insert (d : Dictionary α) (key name : Text) (value : α) :
    (d.insert key value).find? name = if key = name then some value else d.find? name := by
  by_cases h : key = name
  · simp [find?, insert, h]
  · simp only [find?, insert, h, if_false]
    rw [List.find?_cons_of_neg (by simpa using h), List.find?_filter]
    congr 1
    congr 1
    funext entry
    by_cases he : entry.1 = name
    · simp [he, Ne.symm h]
    · simp [he]

end Dictionary

/-- New names for old ones. -/
abbrev Renaming := Dictionary Text

end ScriptMinifier.Text
