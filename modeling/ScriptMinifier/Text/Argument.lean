import ScriptMinifier.Text.Blank

/-! Argument lists.

The argument list of a call ends at the parenthesis that matches the one before it,
and its arguments are separated by the commas outside nested parentheses and
brackets. Placeholders are passed over: what stands between two marks neither
nests nor separates. -/
namespace ScriptMinifier.Text

/-! ### The closing parenthesis -/

/-- What stands before and after the parenthesis that closes `depth + 1` open ones.
`hidden` says whether the text starts inside a placeholder. -/
def closeFrom (depth : Nat) (hidden : Bool) : Text → Option (Text × Text)
  | [] => none
  | c :: rest =>
    if hidden then extendCut c (closeFrom depth (c != mark) rest)
    else if c = mark then extendCut c (closeFrom depth true rest)
    else if c = '(' then extendCut c (closeFrom (depth + 1) false rest)
    else if c = ')' then
      if depth = 0 then some ([], rest) else extendCut c (closeFrom (depth - 1) false rest)
    else extendCut c (closeFrom depth false rest)

/-- For a text that starts just past an opening parenthesis, what stands before and
after the closing one. -/
def splitClose? (t : Text) : Option (Text × Text) := closeFrom 0 false t

/-- The byte position of the closing parenthesis. -/
def closePosition? (t : Text) : Option Nat :=
  (splitClose? t).map fun (inside, _) => byteLength inside

theorem closeFrom_eq_some {depth : Nat} {hidden : Bool} {t inside after : Text}
    (h : closeFrom depth hidden t = some (inside, after)) : t = inside ++ ')' :: after := by
  induction t generalizing depth hidden inside with
  | nil => simp [closeFrom] at h
  | cons c rest ih =>
    have onward {d : Nat} {b : Bool} (h : extendCut c (closeFrom d b rest) = some (inside, after)) :
        c :: rest = inside ++ ')' :: after := by
      obtain ⟨tail, rfl, hclose⟩ := extendCut_eq_some.1 h
      simp [ih hclose]
    by_cases hc : hidden = false ∧ c = ')' ∧ depth = 0
    · obtain ⟨rfl, rfl, rfl⟩ := hc
      simp [closeFrom, mark] at h
      simp [← h.1, ← h.2]
    · rw [closeFrom] at h
      repeat' split at h
      all_goals first | exact onward h | simp_all

/-! ### Arguments -/

/-- The pieces between the separating commas, `depth` brackets deep. -/
def argumentsFrom (depth : Nat) (hidden : Bool) : Text → List Text
  | [] => [[]]
  | c :: rest =>
    if hidden then extendFirst c (argumentsFrom depth (c != mark) rest)
    else if c = mark then extendFirst c (argumentsFrom depth true rest)
    else if c = '(' ∨ c = '[' then extendFirst c (argumentsFrom (depth + 1) false rest)
    else if c = ')' ∨ c = ']' then extendFirst c (argumentsFrom (depth - 1) false rest)
    else if c = ',' ∧ depth = 0 then [] :: argumentsFrom depth false rest
    else extendFirst c (argumentsFrom depth false rest)

/-- The arguments of an argument list, as written; a blank list has none. -/
def arguments (t : Text) : List Text :=
  if (trim t).isEmpty then [] else argumentsFrom 0 false t

/-- The room that arguments and their separators take. -/
def span : List Text → Nat
  | [] => 0
  | arg :: rest => arg.length + 1 + span rest

theorem span_extendFirst (c : Char) {ts : List Text} (h : ts ≠ []) :
    span (extendFirst c ts) = span ts + 1 := by
  cases ts with
  | nil => exact absurd rfl h
  | cons piece more => simp [extendFirst, span]; omega

theorem argumentsFrom_ne_nil (depth : Nat) (hidden : Bool) (t : Text) :
    argumentsFrom depth hidden t ≠ [] := by
  cases t with
  | nil => simp [argumentsFrom]
  | cons c rest =>
    rw [argumentsFrom]
    repeat' split
    all_goals first | exact extendFirst_ne_nil _ _ | exact List.cons_ne_nil _ _

theorem span_argumentsFrom (depth : Nat) (hidden : Bool) (t : Text) :
    span (argumentsFrom depth hidden t) = t.length + 1 := by
  induction t generalizing depth hidden with
  | nil => rfl
  | cons c rest ih =>
    have onward (d : Nat) (b : Bool) :
        span (extendFirst c (argumentsFrom d b rest)) = (c :: rest).length + 1 := by
      rw [span_extendFirst c (argumentsFrom_ne_nil d b rest), ih, List.length_cons]
    have separate (d : Nat) (b : Bool) :
        span ([] :: argumentsFrom d b rest) = (c :: rest).length + 1 := by
      have := ih d b
      simp [span] at this ⊢
      omega
    rw [argumentsFrom]
    repeat' split
    all_goals first | exact onward _ _ | exact separate _ _

theorem span_arguments_le (t : Text) : span (arguments t) ≤ t.length + 1 := by
  rw [arguments]
  split
  · simp [span]
  · exact Nat.le_of_eq (span_argumentsFrom 0 false t)

end ScriptMinifier.Text
