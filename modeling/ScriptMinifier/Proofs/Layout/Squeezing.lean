import ScriptMinifier.Proofs.Layout.Tidy
import ScriptMinifier.Proofs.Text.Outside

/-! What squeezing keeps and what it leaves.

Squeezing takes out blanks and newlines only, and blanks between two words leave a space, so a block
keeps its words and its other characters, in any text: placeholders may hold blanks, go over lines
or never be closed. Words are told line by line, each line from where the lines before it leave off
(`words_squeezeBlock`). What is left has no blank but single spaces, each between two characters
that are not tight, so it is squeezed to itself (`squeezed_squeezeBlock`). -/
namespace ScriptMinifier.Layout

open Text
  (isHorizontal isWordChar isOtherChar mark StartsNoWord words wordsFrom hiddenAfter pieces joined)

/-- Neither a blank within a line nor a newline. -/
def isContent (c : Char) : Bool := !isHorizontal c && c != '\n'

/-- Content that keeps a space beside it. -/
def keepsSpace (c : Char) : Bool := isContent c && !isTight c

theorem isContent_eq_true {c : Char} : isContent c = true ↔ isHorizontal c = false ∧ c ≠ '\n' := by
  simp [isContent]

theorem isContent_eq_false_of_isHorizontal {c : Char} (h : isHorizontal c = true) :
    isContent c = false := by
  rw [isContent, h]
  rfl

/-! ### Content -/

theorem filter_squeezeFrom (before : Option Char) (pending : Bool) (t : Text) :
    (squeezeFrom before pending t).filter isContent = t.filter isContent := by
  induction t generalizing before pending with
  | nil => rfl
  | cons c rest ih =>
    have hspace : isContent ' ' = false := by decide
    rw [squeezeFrom]
    split
    · rename_i hc
      rw [ih, List.filter_cons_of_neg (by simp [isContent_eq_false_of_isHorizontal hc])]
    · split
      · rw [List.filter_cons_of_neg (by simp [hspace]), List.filter_cons, List.filter_cons, ih]
      · rw [List.filter_cons, List.filter_cons, ih]

theorem filter_joined {p : Char → Bool} {sep : Char} (hsep : p sep = false) (ts : List Text) :
    (joined sep ts).filter p = ts.flatMap (List.filter p) := by
  match ts with
  | [] => rfl
  | [t] => simp [joined, List.intercalate]
  | t :: u :: more =>
    rw [Text.joined_cons_cons, List.filter_append, List.filter_cons_of_neg (by simp [hsep]),
      filter_joined hsep]
    rfl

theorem squeezeFrom_eq_nil_iff {before : Option Char} {pending : Bool} {t : Text} :
    squeezeFrom before pending t = [] ↔ ∀ c ∈ t, isHorizontal c = true := by
  induction t generalizing before pending with
  | nil => exact iff_of_true rfl nofun
  | cons c rest ih =>
    rw [squeezeFrom, List.forall_mem_cons]
    split
    · rename_i hc
      rw [ih, and_iff_right hc]
    · rename_i hc
      refine iff_of_false ?_ fun h => hc h.1
      split <;> exact List.cons_ne_nil _ _

/-- The lines of a squeezed block are those with content. -/
theorem squeezedLines_eq (t : Text) :
    squeezedLines t = ((pieces '\n' t).filter fun line => line.any isContent).map squeezeLine := by
  rw [squeezedLines, List.filter_map]
  congr 1
  refine List.filter_congr fun line hline => ?_
  have hnewline : '\n' ∉ line := Text.not_mem_of_mem_pieces hline
  rw [Function.comp_apply, Bool.eq_iff_iff, decide_eq_true_iff, Ne, squeezeLine,
    squeezeFrom_eq_nil_iff, List.any_eq_true]
  push Not
  refine exists_congr fun c => and_congr_right fun hc => ?_
  have hne : c ≠ '\n' := by
    rintro rfl
    exact hnewline hc
  rw [isContent_eq_true, and_iff_left hne, Ne, Bool.not_eq_true]

/-! ### Words -/

/-- Squeezing a line keeps its words, also where it starts in a placeholder or leaves one open. -/
theorem wordsFrom_squeezeFrom (hidden : Bool) (before : Option Char) (pending : Bool) (t : Text) :
    wordsFrom hidden (squeezeFrom before pending t) = wordsFrom hidden t := by
  refine Text.openwise (motive := fun hidden t => ∀ before pending,
    wordsFrom hidden (squeezeFrom before pending t) = wordsFrom hidden t) ?nil ?mark ?hidden
      ?other ?word
      hidden t before pending
  case nil => exact fun _ _ _ => rfl
  case mark =>
    intro hidden t ih before pending
    have hblank : ¬ isHorizontal mark = true := by decide
    have hspace : isOtherChar ' ' = true := by decide
    rw [squeezeFrom, if_neg hblank]
    split
    · rw [Text.wordsFrom_other hspace, Text.wordsFrom_mark, Text.wordsFrom_mark, ih]
    · rw [Text.wordsFrom_mark, Text.wordsFrom_mark, ih]
  case hidden =>
    intro c t hc ih before pending
    rw [squeezeFrom, Text.wordsFrom_hidden hc]
    split
    · exact ih before true
    · split
      · rw [Text.wordsFrom_hidden (by decide), Text.wordsFrom_hidden hc, ih]
      · rw [Text.wordsFrom_hidden hc, ih]
  case other =>
    intro c t hc ih before pending
    rw [squeezeFrom, Text.wordsFrom_other hc]
    split
    · exact ih before true
    · split
      · rw [Text.wordsFrom_other (by decide), Text.wordsFrom_other hc, ih]
      · rw [Text.wordsFrom_other hc, ih]
  case word =>
    intro w t hne hw hnext ih before pending
    obtain ⟨c, run, rfl⟩ := List.exists_cons_of_ne_nil hne
    have hlast : run.getLast?.or (some c) = some ((c :: run).getLast (by simp)) := by
      rw [← List.getLast?_eq_some_getLast, List.getLast?_cons]
      cases run.getLast? <;> rfl
    have htight :=
      Sealed.not_isTight_of_isWordChar (hw _ (List.getLast_mem (l := c :: run) (by simp)))
    have hstarts := Sealed.startsNoWord_squeezeFrom htight fun _ : false = false => hnext
    change words (squeezeFrom before pending (c :: run ++ t)) = words (c :: run ++ t)
    rw [Sealed.squeezeFrom_run fun d hd => Sealed.not_isHorizontal_of_isWordChar (hw d hd),
      Sealed.words_of_space, hlast, Text.words_word (by simp) hw hstarts,
      Text.words_word (by simp) hw hnext]
    exact congrArg (_ :: ·) (ih _ _)

theorem hiddenAfter_squeezeFrom (hidden : Bool) (before : Option Char) (pending : Bool) (t : Text) :
    hiddenAfter hidden (squeezeFrom before pending t) = hiddenAfter hidden t := by
  have hblank : ∀ (c : Char) (hidden : Bool) (s : Text), isHorizontal c = true →
      hiddenAfter hidden (c :: s) = hiddenAfter hidden s := by
    rintro c hidden s hc
    have hmark : c ≠ mark := by
      rintro rfl
      exact absurd hc (by decide)
    rw [hiddenAfter, if_neg hmark]
  induction t generalizing hidden before pending with
  | nil => rfl
  | cons c rest ih =>
    rw [squeezeFrom]
    split
    · rename_i hc
      rw [hblank c hidden rest hc, ih]
    · split
      · rw [hblank ' ' hidden _ (by decide), hiddenAfter, hiddenAfter, ih]
      · rw [hiddenAfter, hiddenAfter, ih]

/-- The words of lines, each read from where the lines before it leave off. -/
def wordsOfLines (hidden : Bool) : List Text → List Text
  | [] => []
  | line :: more => wordsFrom hidden line ++ wordsOfLines (hiddenAfter hidden line) more

theorem wordsFrom_joined (hidden : Bool) (lines : List Text) :
    wordsFrom hidden (joined '\n' lines) = wordsOfLines hidden lines := by
  match lines with
  | [] => exact Text.wordsFrom_nil hidden
  | [line] => simp [joined, List.intercalate, wordsOfLines]
  | line :: second :: more =>
    rw [Text.joined_cons_cons, Text.wordsFrom_append_cons (by decide), wordsFrom_joined]
    rfl

theorem wordsOfLines_squeezed (hidden : Bool) (lines : List Text) :
    wordsOfLines hidden ((lines.map squeezeLine).filter (· ≠ [])) = wordsOfLines hidden lines := by
  induction lines generalizing hidden with
  | nil => rfl
  | cons line more ih =>
    have hwords : wordsFrom hidden (squeezeLine line) = wordsFrom hidden line :=
      wordsFrom_squeezeFrom ..
    have hafter : hiddenAfter hidden (squeezeLine line) = hiddenAfter hidden line :=
      hiddenAfter_squeezeFrom ..
    rw [List.map_cons, wordsOfLines, ← hwords, ← hafter]
    by_cases hnil : squeezeLine line = []
    · -- a line without content has no words and leaves no placeholder open that was not
      rw [hnil, List.filter_cons_of_neg (by simp), Text.wordsFrom_nil, List.nil_append]
      exact ih hidden
    · rw [List.filter_cons_of_pos (by simpa using hnil), wordsOfLines, ih]

/-- Squeezing a block keeps its words. -/
theorem words_squeezeBlock (t : Text) : words (squeezeBlock t) = words t := by
  calc words (squeezeBlock t)
      = wordsOfLines false (squeezedLines t) := wordsFrom_joined false _
    _ = wordsOfLines false (pieces '\n' t) := wordsOfLines_squeezed false _
    _ = words t := by
        rw [← wordsFrom_joined, Text.joined_pieces]
        rfl

/-! ### Spaces -/

/-- A space in a tidy line stands between two characters that are neither blank nor tight. -/
theorem Tidy.around_space {before : Option Char} {s t : Text} (h : Tidy before (s ++ ' ' :: t))
    (hbefore : ∀ b ∈ before, isHorizontal b = false) :
    (∃ b ∈ s.getLast?.or before, isHorizontal b = false ∧ isTight b = false) ∧
      ∃ a ∈ t.head?, isHorizontal a = false ∧ isTight a = false := by
  generalize hu : s ++ ' ' :: t = u at h
  induction h generalizing s with
  | nil => simp at hu
  | @char _ c u hc _ ih =>
    cases s with
    | nil =>
      rw [← (List.cons.inj hu).1] at hc
      cases hc
    | cons d s =>
      obtain ⟨rfl, hs⟩ := List.cons.inj hu
      obtain ⟨⟨b, hb, hfree⟩, hafter⟩ := ih (by rintro b ⟨⟩; exact hc) hs
      refine ⟨⟨b, ?_, hfree⟩, hafter⟩
      rw [List.getLast?_cons]
      cases hlast : s.getLast? <;> simpa [hlast] using hb
  | @space before c u hc hseparates _ ih =>
    rw [separates, Bool.and_eq_true, Bool.not_eq_true', Option.any_eq_true] at hseparates
    obtain ⟨⟨b, hb, hbtight⟩, hctight⟩ := hseparates
    cases s with
    | nil =>
      obtain ⟨-, rfl⟩ := List.cons.inj hu
      exact ⟨⟨b, hb, hbefore b hb, by simpa using hbtight⟩, c, rfl, hc, hctight⟩
    | cons d s =>
      obtain ⟨rfl, hs⟩ := List.cons.inj hu
      cases s with
      | nil =>
        rw [← (List.cons.inj hs).1] at hc
        cases hc
      | cons d' s =>
        obtain ⟨rfl, hs'⟩ := List.cons.inj hs
        obtain ⟨⟨b', hb', hfree⟩, hafter⟩ := ih (by rintro b ⟨⟩; exact hc) hs'
        refine ⟨⟨b', ?_, hfree⟩, hafter⟩
        rw [List.getLast?_cons, List.getLast?_cons]
        cases hlast : s.getLast? <;> simpa [hlast] using hb'

/-- Blanks at the end of a line leave nothing. -/
theorem Tidy.last {before : Option Char} {t : Text} (h : Tidy before t) :
    ∀ c ∈ t.getLast?, isHorizontal c = false := by
  induction h with
  | nil => nofun
  | @char _ c t hc _ ih =>
    rw [List.getLast?_cons]
    cases hlast : t.getLast? <;> simp_all
  | @space _ c t hc _ _ ih =>
    rw [List.getLast?_cons, List.getLast?_cons]
    cases hlast : t.getLast? <;> simp_all

theorem Tidy.head {t : Text} (h : Tidy none t) : ∀ c ∈ t.head?, isHorizontal c = false := by
  cases h with
  | nil => nofun
  | char hc _ => simpa using hc
  | space _ hseparates _ => cases hseparates

/-! ### Blocks -/

/-- What a block is squeezed to. -/
structure Squeezed (t out : Text) : Prop where
  words : words out = words t
  content : out.filter isContent = t.filter isContent
  /-- The lines of the one are the squeezed lines of the other, of those that have content. -/
  lines : Text.lines out = ((pieces '\n' t).filter fun line => line.any isContent).map squeezeLine
  joined : out = joined '\n' (Text.lines out)
  ends : ∀ line ∈ Text.lines out, line ≠ [] ∧ (∀ c ∈ line.head?, isHorizontal c = false) ∧
    ∀ c ∈ line.getLast?, isHorizontal c = false
  blanks : '\t' ∉ out ∧ '\r' ∉ out
  spaces : ∀ before after, out = before ++ ' ' :: after →
    (∃ b ∈ before.getLast?, keepsSpace b = true) ∧ ∃ a ∈ after.head?, keepsSpace a = true
  again : squeezeBlock out = out

theorem filter_squeezeBlock (t : Text) :
    (squeezeBlock t).filter isContent = t.filter isContent := by
  have hlines : ∀ ls : List Text, ((ls.map squeezeLine).filter (· ≠ [])).flatMap
      (List.filter isContent)
      = ls.flatMap (List.filter isContent) := by
    intro ls
    induction ls with
    | nil => rfl
    | cons line more ih =>
      have hline : (squeezeLine line).filter isContent = line.filter isContent :=
        filter_squeezeFrom none false line
      rw [List.map_cons, List.flatMap_cons, ← hline, ← ih]
      by_cases hnil : squeezeLine line = []
      · rw [List.filter_cons_of_neg (by simpa using hnil), hnil]
        rfl
      · rw [List.filter_cons_of_pos (by simpa using hnil), List.flatMap_cons]
  have hnewline : isContent '\n' = false := by decide
  calc (squeezeBlock t).filter isContent
      = (squeezedLines t).flatMap (List.filter isContent) := filter_joined hnewline _
    _ = (pieces '\n' t).flatMap (List.filter isContent) := hlines _
    _ = t.filter isContent := by rw [← filter_joined hnewline, Text.joined_pieces]

theorem neat_of_mem_lines {t line : Text} (h : line ∈ Text.lines (squeezeBlock t)) : Neat line :=
  neat_of_mem_squeezedLines (lines_squeezeBlock t ▸ h)

/-- The line of a character in a squeezed block, with what the line has before and after it. -/
theorem exists_neat_around {t before after : Text} {c : Char} (hc : c ≠ '\n')
    (h : squeezeBlock t = before ++ c :: after) :
    ∃ front back, front <:+ before ∧ back <+: after ∧ Neat (front ++ c :: back) ∧
    '\n' ∉ front ++ c :: back := by
  obtain ⟨front, back, hfront, hback, hmem⟩ := Text.exists_piece_around '\n' hc before after
  rw [← h] at hmem
  exact ⟨front, back, hfront, hback, neatLines_squeezeBlock (by simp [h]) _ hmem,
    Text.not_mem_of_mem_pieces hmem⟩

/-- The only blank of a squeezed block is the space. -/
theorem eq_space_of_mem_squeezeBlock {t : Text} {c : Char} (hc : isHorizontal c = true)
    (h : c ∈ squeezeBlock t) :
    c = ' ' := by
  have hnewline : c ≠ '\n' := by
    rintro rfl
    cases hc
  obtain ⟨before, after, hsplit⟩ := List.append_of_mem h
  obtain ⟨front, back, -, -, hneat, -⟩ := exists_neat_around hnewline hsplit
  exact hneat.tidy.eq_space_of_mem hc (by simp)

/-- A space in a squeezed block keeps two characters apart. -/
theorem around_space_squeezeBlock {t before after : Text}
    (h : squeezeBlock t = before ++ ' ' :: after) :
    (∃ b ∈ before.getLast?, keepsSpace b = true) ∧ ∃ a ∈ after.head?, keepsSpace a = true := by
  obtain ⟨front, back, hfront, hback, hneat, hnewline⟩ := exists_neat_around (by decide) h
  have hkeeps : ∀ c ∈ front ++ ' ' :: back, isHorizontal c = false ∧ isTight c = false →
      keepsSpace c = true := by
    rintro c hc ⟨hblank, htight⟩
    have hne : c ≠ '\n' := by
      rintro rfl
      exact hnewline hc
    rw [keepsSpace, isContent_eq_true.2 ⟨hblank, hne⟩, htight]
    rfl
  obtain ⟨⟨b, hb, hbfree⟩, a, ha, hafree⟩ := hneat.tidy.around_space nofun
  rw [Option.or_none] at hb
  refine ⟨⟨b, ?_, hkeeps b (by simp [List.mem_of_getLast? hb]) hbfree⟩,
    a, ?_, hkeeps a (by simp [List.mem_of_head? ha]) hafree⟩
  · obtain ⟨rest, rfl⟩ := hfront
    rw [List.getLast?_append, Option.mem_def.1 hb]
    rfl
  · obtain ⟨rest, rfl⟩ := hback
    rw [List.head?_append, Option.mem_def.1 ha]
    rfl

/-- Neat lines are squeezed to themselves. -/
theorem NeatLines.squeezeBlock_eq {t : Text} (h : NeatLines t) : squeezeBlock t = t := by
  have hlines : ∀ line ∈ pieces '\n' t, squeezeLine line = line :=
    fun line hline => (h line hline).squeezeLine_eq
  have hfilter : (pieces '\n' t).filter (· ≠ []) = pieces '\n' t :=
    List.filter_eq_self.2 fun line hline => by simpa using (h line hline).ne_nil
  rw [squeezeBlock, squeezedLines, List.map_congr_left hlines, List.map_id', hfilter,
    Text.joined_pieces]

theorem squeezeBlock_squeezeBlock (t : Text) : squeezeBlock (squeezeBlock t) = squeezeBlock t := by
  by_cases hne : squeezeBlock t = []
  · rw [hne]
    rfl
  · exact (neatLines_squeezeBlock hne).squeezeBlock_eq

/-- **What squeezing does to a block**, whatever its text. -/
theorem squeezed_squeezeBlock (t : Text) : Squeezed t (squeezeBlock t) where
  words := words_squeezeBlock t
  content := filter_squeezeBlock t
  lines := (lines_squeezeBlock t).trans (squeezedLines_eq t)
  joined := by
    rw [lines_squeezeBlock]
    rfl
  ends := by
    intro line hline
    have hneat := neat_of_mem_lines hline
    exact ⟨hneat.ne_nil, hneat.tidy.head, hneat.tidy.last⟩
  blanks :=
    ⟨fun h => absurd (eq_space_of_mem_squeezeBlock rfl h) (by decide),
      fun h => absurd (eq_space_of_mem_squeezeBlock rfl h) (by decide)⟩
  spaces := fun _ _ => around_space_squeezeBlock
  again := squeezeBlock_squeezeBlock t

end ScriptMinifier.Layout
