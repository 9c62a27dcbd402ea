import ScriptMinifier.Text.Basic

/-! Quoted literals in script text.

A literal starts at a double or a single quote and ends at the next quote of the
same kind. A backslash takes the character after it along, so neither an escaped
quote nor an escaped backslash ends a literal. -/
namespace ScriptMinifier.Text

/-- The quotes that open a literal: of a string and of a rawcode. -/
def isQuote (c : Char) : Bool := c == '"' || c == '\''

/-- For a text that starts just past an opening quote, what stands up to and
including the closing one, and what follows it. -/
def closeQuote? (quote : Char) : Text → Option (Text × Text)
  | [] => none
  | '\\' :: c :: rest => extendCut '\\' (extendCut c (closeQuote? quote rest))
  | c :: rest => if c = quote then some ([c], rest) else extendCut c (closeQuote? quote rest)

theorem closeQuote?_eq_some {quote : Char} {t inside after : Text}
    (h : closeQuote? quote t = some (inside, after)) : t = inside ++ after := by
  fun_induction closeQuote? quote t generalizing inside with
  | case1 => simp at h
  | case2 c rest ih =>
    obtain ⟨_, rfl, h'⟩ := extendCut_eq_some.1 h
    obtain ⟨_, rfl, hclose⟩ := extendCut_eq_some.1 h'
    simp [ih hclose]
  | case3 rest =>
    simp only [Option.some.injEq, Prod.mk.injEq] at h
    simp [← h.1, ← h.2]
  | case4 c rest _ hc ih =>
    obtain ⟨_, rfl, hclose⟩ := extendCut_eq_some.1 h
    simp [ih hclose]

theorem closeQuote?_length {quote : Char} {t inside after : Text}
    (h : closeQuote? quote t = some (inside, after)) : after.length ≤ t.length := by
  rw [closeQuote?_eq_some h, List.length_append]
  omega

end ScriptMinifier.Text
