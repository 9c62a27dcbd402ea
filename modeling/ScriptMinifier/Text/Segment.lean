import ScriptMinifier.Text.Basic

/-! Words, placeholders and what lies between them.

Every pass over a script looks at whole words and never inside a placeholder, the
text between two marks that stands for a literal. `segments` is the one place that
knows both rules: it cuts a text into words, placeholders and runs of anything
else. The segments of a text concatenate to it (`flatMap_text_segments`), so a pass
that replaces words leaves all other characters where they were. -/
namespace ScriptMinifier.Text

/-- A piece of a text: a maximal word, a placeholder with its marks, or a maximal
run without word characters and marks. A placeholder that is never closed reaches
to the end of the text. -/
inductive Segment
  | word (text : Text)
  | placeholder (text : Text)
  | other (text : Text)
deriving DecidableEq, Repr

/-- The characters of a segment. -/
def Segment.text : Segment → Text
  | .word t => t
  | .placeholder t => t
  | .other t => t

/-- Neither a word character nor a mark. -/
def isOtherChar (c : Char) : Bool := !isWordChar c && c != mark

/-! ### Cutting -/

/-- The text through the first mark. -/
def throughMark (t : Text) : Text := t.takeWhile (· != mark) ++ (t.dropWhile (· != mark)).take 1

/-- The text after the first mark. -/
def afterMark (t : Text) : Text := (t.dropWhile (· != mark)).drop 1

theorem throughMark_append_afterMark (t : Text) : throughMark t ++ afterMark t = t := by
  rw [throughMark, afterMark, List.append_assoc, List.take_append_drop,
    List.takeWhile_append_dropWhile]

theorem length_dropWhile_le (p : Char → Bool) (t : Text) : (t.dropWhile p).length ≤ t.length :=
  (List.dropWhile_suffix p).length_le

theorem length_afterMark_le (t : Text) : (afterMark t).length ≤ t.length := by
  have := length_dropWhile_le (· != mark) t
  simp only [afterMark, List.length_drop]
  omega

/-- The segments of a text, in order. -/
def segments : Text → List Segment
  | [] => []
  | c :: rest =>
    if c = mark then
      .placeholder (c :: throughMark rest) :: segments (afterMark rest)
    else if isWordChar c then
      .word (c :: rest.takeWhile isWordChar) :: segments (rest.dropWhile isWordChar)
    else
      .other (c :: rest.takeWhile isOtherChar) :: segments (rest.dropWhile isOtherChar)
termination_by t => t.length
decreasing_by
  · exact Nat.lt_succ_of_le (length_afterMark_le rest)
  · exact Nat.lt_succ_of_le (length_dropWhile_le isWordChar rest)
  · exact Nat.lt_succ_of_le (length_dropWhile_le isOtherChar rest)

theorem flatMap_text_segments (t : Text) : (segments t).flatMap Segment.text = t := by
  fun_induction segments t with
  | case1 => rfl
  | case2 rest ih => simp [Segment.text, ih, throughMark_append_afterMark]
  | case3 c rest h hw ih => simp [Segment.text, ih, List.takeWhile_append_dropWhile]
  | case4 c rest h hw ih => simp [Segment.text, ih, List.takeWhile_append_dropWhile]

/-- Segments with the byte positions they start at. -/
def located (start : Nat) : List Segment → List (Nat × Segment)
  | [] => []
  | s :: rest => (start, s) :: located (start + byteLength s.text) rest

/-! ### Words -/

/-- The word a segment is. -/
def Segment.word? : Segment → Option Text
  | .word w => some w
  | _ => none

/-- The whole words of a text, outside placeholders. -/
def words (t : Text) : List Text := (segments t).filterMap Segment.word?

/-- The text of a segment with its word replaced. -/
def Segment.replaced (f : Text → Option Text) : Segment → Text
  | .word w => (f w).getD w
  | s => s.text

/-- The text with every whole word replaced for which there is a replacement. -/
def replaceWords (f : Text → Option Text) (t : Text) : Text :=
  (segments t).flatMap (Segment.replaced f)

theorem replaceWords_none (t : Text) : replaceWords (fun _ => none) t = t := by
  have : Segment.replaced (fun _ => none) = Segment.text := by
    funext s; cases s <;> rfl
  rw [replaceWords, this, flatMap_text_segments]

end ScriptMinifier.Text
