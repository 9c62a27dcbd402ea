import ScriptMinifier.Text.Quoted
import ScriptMinifier.Text.Segment

/-! The lexemes of a script.

Comments and literals are recognized left to right, comments only outside literals
and literals only outside comments; the rest falls into words and single characters.
Nothing is lost: the lexemes of a text concatenate to it (`flatMap_text_lexemes`).
Only the last lexeme can be unclosed. -/
namespace ScriptMinifier.Source

open Text (isQuote isWordChar closeQuote? closeQuote?_eq_some cutFirst?)

/-- What has a beginning and an end of its own inside a script. -/
inductive Enclosure
  | lineComment
  | blockComment
  | string
  | rawcode
deriving DecidableEq, Repr

/-- How an enclosure starts. -/
def Enclosure.opening : Enclosure → Text
  | .lineComment => "//".toList
  | .blockComment => "/*".toList
  | .string => ['"']
  | .rawcode => ['\'']

/-- The literal that a quote opens. -/
def Enclosure.ofQuote (c : Char) : Enclosure := if c = '"' then .string else .rawcode

/-- An element of a script. Enclosures carry their delimiters; the newline that ends
a line comment is not part of it. -/
inductive Lexeme
  | word (text : Text)
  | char (c : Char)
  | enclosed (kind : Enclosure) (text : Text)
  | unclosed (kind : Enclosure) (text : Text)
deriving DecidableEq, Repr

/-- The characters of a lexeme. -/
def Lexeme.text : Lexeme → Text
  | word t => t
  | char c => [c]
  | enclosed _ t => t
  | unclosed _ t => t

/-! ### Recognition -/

/-- The line comment that starts a text, and what follows it. -/
def lineComment (t : Text) : Lexeme × Text :=
  let body := t.takeWhile (· != '\n')
  match t.dropWhile (· != '\n') with
  | [] => (.unclosed .lineComment body, [])
  | rest => (.enclosed .lineComment body, rest)

/-- The block comment that starts a text, and what follows it. Its end is looked for
after its whole beginning. -/
def blockComment (t : Text) : Lexeme × Text :=
  match cutFirst? "*/".toList (t.drop 2) with
  | some (inside, rest) => (.enclosed .blockComment (t.take 2 ++ inside ++ "*/".toList), rest)
  | none => (.unclosed .blockComment t, [])

/-- The literal that a quote starts, and what follows it. -/
def literal (quote : Char) (rest : Text) : Lexeme × Text :=
  match closeQuote? quote rest with
  | some (inside, after) => (.enclosed (.ofQuote quote) (quote :: inside), after)
  | none => (.unclosed (.ofQuote quote) (quote :: rest), [])

/-- The first lexeme of a text that starts with `c`, and what follows it. -/
def lexeme (c : Char) (rest : Text) : Lexeme × Text :=
  if c = '/' ∧ rest.head? = some '/' then lineComment (c :: rest)
  else if c = '/' ∧ rest.head? = some '*' then blockComment (c :: rest)
  else if isQuote c then literal c rest
  else if isWordChar c then (.word (c :: rest.takeWhile isWordChar), rest.dropWhile isWordChar)
  else (.char c, rest)

theorem text_lineComment (t : Text) : (lineComment t).1.text ++ (lineComment t).2 = t := by
  have h : t.takeWhile (· != '\n') ++ t.dropWhile (· != '\n') = t :=
    List.takeWhile_append_dropWhile
  unfold lineComment
  split
  · rename_i hd
    rw [hd] at h
    exact h
  · rw [Lexeme.text]
    exact h

theorem text_blockComment (t : Text) : (blockComment t).1.text ++ (blockComment t).2 = t := by
  unfold blockComment
  split
  · rename_i inside rest hcut
    show t.take 2 ++ inside ++ "*/".toList ++ rest = t
    rw [List.append_assoc, List.append_assoc, ← List.append_assoc inside,
      ← Text.cutFirst?_eq_some hcut, List.take_append_drop]
  · simp [Lexeme.text]

theorem text_literal (quote : Char) (rest : Text) :
    (literal quote rest).1.text ++ (literal quote rest).2 = quote :: rest := by
  unfold literal
  split
  · rename_i hclose
    simp [Lexeme.text, closeQuote?_eq_some hclose]
  · simp [Lexeme.text]

/-- A lexeme and what follows it make up the text. -/
theorem text_lexeme (c : Char) (rest : Text) :
    (lexeme c rest).1.text ++ (lexeme c rest).2 = c :: rest := by
  unfold lexeme
  split
  · exact text_lineComment _
  · split
    · exact text_blockComment _
    · split
      · exact text_literal _ _
      · split
        · simp [Lexeme.text, List.takeWhile_append_dropWhile]
        · rfl

/-- A lexeme takes at least one character. -/
theorem length_lexeme_le (c : Char) (rest : Text) : (lexeme c rest).2.length ≤ rest.length := by
  have h := congrArg List.length (text_lexeme c rest)
  have hne : (lexeme c rest).1.text ≠ [] := by
    unfold lexeme lineComment blockComment literal
    repeat' split
    all_goals simp_all [Lexeme.text]
  have := List.length_pos_iff.2 hne
  simp only [List.length_append, List.length_cons] at h
  omega

/-- The lexemes of a text, in order. -/
def lexemes : Text → List Lexeme
  | [] => []
  | c :: rest => (lexeme c rest).1 :: lexemes (lexeme c rest).2
termination_by t => t.length
decreasing_by exact Nat.lt_succ_of_le (length_lexeme_le c rest)

theorem flatMap_text_lexemes (t : Text) : (lexemes t).flatMap Lexeme.text = t := by
  fun_induction lexemes t with
  | case1 => rfl
  | case2 c rest ih => rw [List.flatMap_cons, ih, text_lexeme]

end ScriptMinifier.Source
