import ScriptMinifier.Text.Basic

/-! Blank characters, lines and fields.

A blank is a character with the Unicode property White_Space; trimming and cutting
into fields go by it. Within a line only the space, the tab and the carriage return
are horizontal blanks, and the layout rules look at those alone. -/
namespace ScriptMinifier.Text

/-- The characters with the Unicode property White_Space. -/
def isBlank (c : Char) : Bool :=
  let n := c.toNat
  (9 ≤ n && n ≤ 13) || n == 0x20 || n == 0x85 || n == 0xa0 || n == 0x1680 ||
    (0x2000 ≤ n && n ≤ 0x200a) || n == 0x2028 || n == 0x2029 || n == 0x202f || n == 0x205f ||
    n == 0x3000

/-- Blanks that stand within a line. -/
def isHorizontal (c : Char) : Bool := c == ' ' || c == '\t' || c == '\r'

theorem isBlank_of_isHorizontal (c : Char) (h : isHorizontal c = true) : isBlank c = true := by
  simp only [isHorizontal, Bool.or_eq_true, beq_iff_eq] at h
  rcases h with (rfl | rfl) | rfl <;> decide

/-! ### Trimming -/

/-- The text from its first character that is no blank. -/
def trimStart (t : Text) : Text := t.dropWhile isBlank

/-- The text up to its last character that is no blank. -/
def trimEnd (t : Text) : Text := (t.reverse.dropWhile isBlank).reverse

/-- The text without blanks at either end. -/
def trim (t : Text) : Text := trimEnd (trimStart t)

/-! ### Fields -/

/-- The runs of characters that are no blanks. -/
def fields (t : Text) : List Text := (fieldsFrom t).filter (· ≠ [])
where
  /-- The pieces between single blanks. -/
  fieldsFrom : Text → List Text
    | [] => [[]]
    | c :: rest =>
      if isBlank c then [] :: fieldsFrom rest else extendFirst c (fieldsFrom rest)

/-! ### Lines -/

/-- A line without the carriage return that closes it. -/
def dropReturn (line : Text) : Text := (dropEnd? ['\r'] line).getD line

/-- The lines of a text. A newline ends a line, with one carriage return before it;
what follows the last newline is a line when it is not empty. -/
def lines (t : Text) : List Text :=
  let all := pieces '\n' t
  all.dropLast.map dropReturn ++ all.getLast?.toList.filter (· ≠ [])

end ScriptMinifier.Text
