import ScriptMinifier.Proofs.Literal.Wordwise
import ScriptMinifier.Proofs.Text.Lines

/-! Squeezed text.

A line is tidy when every blank in it is a single space that keeps two characters apart.
Squeezing makes a line tidy (`tidy_squeezeFrom`) and changes no tidy line
(`Tidy.squeezeFrom_eq`). Tidiness looks at neighbours only, so a tidy line may be cut before or
after any character that is no blank, and tidy lines may be put together there
(`Tidy.of_append_cons`, `Tidy.append`). Texts that are solid, tidy from one word to another,
may be put together with a space or a comma. A block that has been squeezed and trimmed is made of
lines that are tidy and not empty (`NeatLines.trim`), and such lines, ended or indented, are
squeezed to themselves (`squeezeBlock_ended`). -/
namespace ScriptMinifier.Layout

open Text (isHorizontal isBlank isWordChar pieces ended joined)

/-- A line whose blanks are single spaces between characters that need one. `before` is the
character in front of it. -/
inductive Tidy : Option Char → Text → Prop
  | nil {before : Option Char} : Tidy before []
  | char {before : Option Char} {c : Char} {t : Text} (hc : isHorizontal c = false)
      (rest : Tidy (some c) t) :
      Tidy before (c :: t)
  | space {before : Option Char} {c : Char} {t : Text} (hc : isHorizontal c = false)
      (hseparates : separates before c = true) (rest : Tidy (some c) t) :
      Tidy before (' ' :: c :: t)

/-! ### Squeezing -/

theorem tidy_squeezeFrom (before : Option Char) (pending : Bool) (t : Text) :
    Tidy before (squeezeFrom before pending t) := by
  induction t generalizing before pending with
  | nil => exact .nil
  | cons c rest ih =>
    rw [squeezeFrom]
    split
    · exact ih before true
    · rename_i hc
      rw [Bool.not_eq_true] at hc
      split
      · rename_i hspace
        rw [Bool.and_eq_true] at hspace
        exact .space hc hspace.2 (ih _ _)
      · exact .char hc (ih _ _)

theorem squeezeFrom_none (t : Text) : squeezeFrom none true t = squeezeFrom none false t := by
  cases t with
  | nil => rfl
  | cons c rest => simp [squeezeFrom, separates]

namespace Tidy

variable {before : Option Char} {s t : Text}

theorem squeezeFrom_eq (h : Tidy before t) : squeezeFrom before false t = t := by
  induction h with
  | nil => rfl
  | char hc _ ih => simp [squeezeFrom, hc, ih]
  | space hc hseparates _ ih =>
    simp [squeezeFrom, hc, hseparates, ih, show isHorizontal ' ' = true from rfl]

theorem collapseBlanks_eq (h : Tidy before t) : collapseBlanks false t = t := by
  induction h with
  | nil => rfl
  | char hc _ ih => simp [collapseBlanks, hc, ih]
  | space hc _ _ ih => simp [collapseBlanks, hc, ih, show isHorizontal ' ' = true from rfl]

/-- The only blank of a tidy line is the space. -/
theorem eq_space_of_mem (h : Tidy before t) {c : Char} (hc : isHorizontal c = true) (hmem : c ∈ t) :
    c = ' ' := by
  induction h with
  | nil => cases hmem
  | char hd _ ih =>
    rcases List.mem_cons.1 hmem with rfl | hmem
    · rw [hc] at hd
      cases hd
    · exact ih hmem
  | space hd _ _ ih =>
    rcases List.mem_cons.1 hmem with rfl | hmem
    · rfl
    · rcases List.mem_cons.1 hmem with rfl | hmem
      · rw [hc] at hd
        cases hd
      · exact ih hmem

/-! ### Cutting and joining -/

theorem of_run (h : ∀ c ∈ t, isHorizontal c = false) : Tidy before t := by
  induction t generalizing before with
  | nil => exact .nil
  | cons c rest ih =>
    rw [List.forall_mem_cons] at h
    exact .char h.1 (ih h.2)

theorem tail {c : Char} (hc : isHorizontal c = false) (h : Tidy before (c :: t)) :
    Tidy (some c) t := by
  cases h with
  | char _ rest => exact rest
  | space => cases hc

/-- A tidy line may be cut at any character that is no blank. -/
theorem of_append_cons {c : Char} (hc : isHorizontal c = false) (h : Tidy before (s ++ c :: t)) :
    Tidy before (s ++ [c]) ∧ Tidy (some c) t := by
  generalize hu : s ++ c :: t = u at h
  induction h generalizing s with
  | nil => simp at hu
  | char hd rest ih =>
    cases s with
    | nil =>
      obtain ⟨rfl, rfl⟩ := List.cons.inj hu
      exact ⟨.char hc .nil, rest⟩
    | cons e s =>
      obtain ⟨rfl, hs⟩ := List.cons.inj hu
      obtain ⟨hleft, hright⟩ := ih hs
      exact ⟨.char hd hleft, hright⟩
  | space hd hseparates rest ih =>
    match s with
    | [] =>
      rw [(List.cons.inj hu).1] at hc
      cases hc
    | [e] =>
      obtain ⟨rfl, hs⟩ := List.cons.inj hu
      obtain ⟨rfl, rfl⟩ := List.cons.inj hs
      exact ⟨.space hd hseparates .nil, rest⟩
    | e :: e' :: s =>
      obtain ⟨rfl, hs⟩ := List.cons.inj hu
      obtain ⟨rfl, hs'⟩ := List.cons.inj hs
      obtain ⟨hleft, hright⟩ := ih hs'
      exact ⟨.space hd hseparates hleft, hright⟩

theorem append (hs : Tidy before s) (ht : Tidy (s.getLast?.or before) t) :
    Tidy before (s ++ t) := by
  induction hs with
  | nil => exact ht
  | @char _ c s hc _ ih =>
    rw [List.getLast?_cons] at ht
    refine .char hc (ih ?_)
    cases hlast : s.getLast? <;> simpa [hlast] using ht
  | @space _ c s hc hseparates _ ih =>
    rw [List.getLast?_cons, List.getLast?_cons] at ht
    refine .space hc hseparates (ih ?_)
    cases hlast : s.getLast? <;> simpa [hlast] using ht

end Tidy

/-! ### Solid text -/

/-- A tidy text that starts and ends in a word. -/
structure Solid (t : Text) : Prop where
  tidy : Tidy none t
  head : ∃ c ∈ t.head?, isWordChar c = true
  last : ∃ c ∈ t.getLast?, isWordChar c = true

theorem not_isBlank_of_isWordChar {c : Char} (h : isWordChar c = true) : isBlank c = false := by
  rw [Bool.eq_false_iff]
  intro hblank
  rw [Text.not_isWordChar_of_isOtherChar (Text.isOtherChar_of_isBlank hblank)] at h
  cases h

namespace Solid

variable {s t : Text}

theorem ne_nil (h : Solid t) : t ≠ [] := by
  rintro rfl
  obtain ⟨c, hc, -⟩ := h.head
  cases hc

theorem trimmed (h : Solid t) : Text.Trimmed t := by
  obtain ⟨c, hc, hword⟩ := h.head
  obtain ⟨d, hd, hword'⟩ := h.last
  constructor
  · intro e he
    rw [← Option.mem_unique hc he]
    exact not_isBlank_of_isWordChar hword
  · intro e he
    rw [← Option.mem_unique hd he]
    exact not_isBlank_of_isWordChar hword'

theorem of_word (hne : t ≠ []) (h : ∀ c ∈ t, isWordChar c = true) : Solid t :=
  ⟨.of_run fun c hc => Sealed.not_isHorizontal_of_isWordChar (h c hc),
    ⟨t.head hne, List.head?_eq_some_head hne, h _ (List.head_mem hne)⟩,
    ⟨t.getLast hne, List.getLast?_eq_some_getLast hne, h _ (List.getLast_mem hne)⟩⟩

/-- The ends of two texts put together. -/
theorem of_tidy {sep : Char} (hs : Solid s) (ht : Solid t) (h : Tidy none (s ++ sep :: t)) :
    Solid (s ++ sep :: t) := by
  obtain ⟨c, hc, hword⟩ := hs.head
  obtain ⟨d, hd, hword'⟩ := ht.last
  refine ⟨h, ⟨c, ?_, hword⟩, ⟨d, ?_, hword'⟩⟩
  · rw [List.head?_append, Option.mem_def.1 hc]
    rfl
  · rw [List.getLast?_append, List.getLast?_cons, Option.mem_def.1 hd]
    rfl

/-- A space keeps words apart. -/
theorem append_space (hs : Solid s) (ht : Solid t) : Solid (s ++ ' ' :: t) := by
  obtain ⟨b, hb, hbword⟩ := hs.last
  obtain ⟨c, hc, hcword⟩ := ht.head
  obtain ⟨rest, rfl⟩ := List.head?_eq_some_iff.1 hc
  have hblank := Sealed.not_isHorizontal_of_isWordChar hcword
  refine hs.of_tidy ht (hs.tidy.append ?_)
  rw [Option.mem_def.1 hb]
  refine .space hblank ?_ (ht.tidy.tail hblank)
  simp [separates, Sealed.not_isTight_of_isWordChar hbword, Sealed.not_isTight_of_isWordChar hcword]

theorem append_comma (hs : Solid s) (ht : Solid t) : Solid (s ++ ',' :: t) := by
  obtain ⟨c, hc, hcword⟩ := ht.head
  obtain ⟨rest, rfl⟩ := List.head?_eq_some_iff.1 hc
  have hblank := Sealed.not_isHorizontal_of_isWordChar hcword
  exact hs.of_tidy ht (hs.tidy.append (.char (by decide) (.char hblank (ht.tidy.tail hblank))))

theorem joined {sep : Char} (hsep : ∀ {s t}, Solid s → Solid t → Solid (s ++ sep :: t))
    {ts : List Text} (hne : ts ≠ []) (h : ∀ t ∈ ts, Solid t) : Solid (Text.joined sep ts) := by
  match ts with
  | [] => exact absurd rfl hne
  | [t] => simpa [Text.joined, List.intercalate] using h
  | s :: t :: more =>
    rw [List.forall_mem_cons] at h
    rw [Text.joined_cons_cons]
    exact hsep h.1 (joined hsep (by simp) h.2)

end Solid

/-! ### Neat lines -/

theorem visible_of_not_isBlank {c : Char} (h : isBlank c = false) :
    isHorizontal c = false ∧ c ≠ '\n' := by
  constructor
  · rw [Bool.eq_false_iff]
    intro hh
    rw [Text.isBlank_of_isHorizontal c hh] at h
    cases h
  · rintro rfl
    cases h

/-- A line that is tidy and not empty. -/
structure Neat (line : Text) : Prop where
  ne_nil : line ≠ []
  tidy : Tidy none line

/-- A text whose lines are neat. -/
def NeatLines (t : Text) : Prop := ∀ line ∈ pieces '\n' t, Neat line

theorem Neat.squeezeLine_eq {line : Text} (h : Neat line) : squeezeLine line = line :=
  h.tidy.squeezeFrom_eq

theorem Neat.return_not_mem {line : Text} (h : Neat line) : '\r' ∉ line := by
  intro hmem
  exact absurd (h.tidy.eq_space_of_mem rfl hmem) (by decide)

theorem neat_of_mem_squeezedLines {t line : Text} (h : line ∈ squeezedLines t) : Neat line := by
  obtain ⟨hmem, hne⟩ := List.mem_filter.1 h
  obtain ⟨piece, -, rfl⟩ := List.mem_map.1 hmem
  exact ⟨by simpa using hne, tidy_squeezeFrom none false piece⟩

theorem mem_squeezeFrom {before : Option Char} {pending : Bool} {t : Text} {c : Char}
    (h : c ∈ squeezeFrom before pending t) : c = ' ' ∨ c ∈ t := by
  induction t generalizing before pending with
  | nil => cases h
  | cons d rest ih =>
    have hlater : ∀ {before pending}, c ∈ squeezeFrom before pending rest → c = ' ' ∨
        c ∈ d :: rest :=
      fun h => (ih h).imp_right (List.mem_cons_of_mem d)
    rw [squeezeFrom] at h
    split at h
    · exact hlater h
    · split at h
      · rcases List.mem_cons.1 h with rfl | h
        · exact .inl rfl
        · rcases List.mem_cons.1 h with rfl | h
          · exact .inr List.mem_cons_self
          · exact hlater h
      · rcases List.mem_cons.1 h with rfl | h
        · exact .inr List.mem_cons_self
        · exact hlater h

theorem newline_not_mem_squeezedLines {t line : Text} (h : line ∈ squeezedLines t) :
    '\n' ∉ line := by
  obtain ⟨piece, hpiece, rfl⟩ := List.mem_map.1 (List.mem_filter.1 h).1
  intro hmem
  rcases mem_squeezeFrom hmem with heq | hmem
  · exact absurd heq (by decide)
  · exact Text.not_mem_of_mem_pieces hpiece hmem

theorem lines_squeezeBlock (t : Text) : Text.lines (squeezeBlock t) = squeezedLines t :=
  Text.lines_joined (fun _ h => (neat_of_mem_squeezedLines h).ne_nil)
    (fun _ h => newline_not_mem_squeezedLines h) fun _ h =>
      (neat_of_mem_squeezedLines h).return_not_mem

theorem neatLines_squeezeBlock {t : Text} (hne : squeezeBlock t ≠ []) :
    NeatLines (squeezeBlock t) := by
  have hlines : squeezedLines t ≠ [] := by
    intro hnil
    rw [squeezeBlock, hnil] at hne
    exact hne rfl
  intro line hline
  rw [squeezeBlock, Text.pieces_joined hlines fun _ h => newline_not_mem_squeezedLines h] at hline
  exact neat_of_mem_squeezedLines hline

namespace NeatLines

variable {s t : Text}

theorem of_append_cons (h : NeatLines (s ++ '\n' :: t)) : NeatLines s ∧ NeatLines t := by
  rw [NeatLines, Text.pieces_append_cons, List.forall_mem_append] at h
  exact h

theorem neat (h : NeatLines t) (hnewline : '\n' ∉ t) : Neat t := by
  rw [NeatLines, Text.pieces_of_not_mem hnewline, List.forall_mem_singleton] at h
  exact h

theorem trimStart (h : NeatLines t) (hne : Text.trimStart t ≠ []) :
    NeatLines (Text.trimStart t) := by
  obtain ⟨c, rest, hc⟩ := List.exists_cons_of_ne_nil hne
  have hblank : isBlank c = false := Text.not_isBlank_of_head_trimStart (t := t) (by rw [hc]; rfl)
  obtain ⟨hhorizontal, hnewline⟩ := visible_of_not_isBlank hblank
  have hsplit : t = t.takeWhile isBlank ++ c :: rest := by
    rw [← hc, Text.trimStart, List.takeWhile_append_dropWhile]
  obtain ⟨init, last, first, more, -, hright, hboth⟩ :=
    Text.pieces_append '\n' (t.takeWhile isBlank) (c :: rest)
  rw [NeatLines, hsplit, hboth, List.forall_mem_append, List.forall_mem_cons] at h
  rw [hc, NeatLines, hright, List.forall_mem_cons]
  -- the first line starts with a character that is no blank, where the longer one may be cut
  refine ⟨?_, h.2.2⟩
  obtain ⟨piece, pieces', hpieces⟩ := List.exists_cons_of_ne_nil (Text.pieces_ne_nil '\n' rest)
  rw [Text.pieces, if_neg hnewline, hpieces] at hright
  obtain ⟨rfl, -⟩ := List.cons.inj hright
  exact ⟨by simp, .char hhorizontal (h.2.1.tidy.of_append_cons hhorizontal).2⟩

theorem trimEnd (h : NeatLines t) (hne : Text.trimEnd t ≠ []) : NeatLines (Text.trimEnd t) := by
  obtain ⟨blanks, hsplit, -⟩ := Text.exists_trimEnd t
  rcases List.eq_nil_or_concat' (Text.trimEnd t) with hnil | ⟨init, c, hc⟩
  · exact absurd hnil hne
  have hblank : isBlank c = false := Text.not_isBlank_of_getLast_trimEnd (t := t) (by rw [hc]; simp)
  obtain ⟨hhorizontal, hnewline⟩ := visible_of_not_isBlank hblank
  obtain ⟨lines, last, first, more, hleft, -, hboth⟩ :=
    Text.pieces_append '\n' (Text.trimEnd t) blanks
  rw [NeatLines, hsplit, hboth, List.forall_mem_append, List.forall_mem_cons] at h
  rw [NeatLines, hleft, List.forall_mem_append, List.forall_mem_singleton]
  refine ⟨h.1, ?_⟩
  obtain ⟨lines', last', first', more', -, hsingle, hconcat⟩ := Text.pieces_append '\n' init [c]
  rw [Text.pieces, if_neg hnewline, show Text.pieces '\n' [] = [[]] from rfl] at hsingle
  obtain ⟨rfl, rfl⟩ := List.cons.inj hsingle
  rw [← hc, hleft] at hconcat
  obtain ⟨-, hlast⟩ := List.append_inj' hconcat rfl
  obtain ⟨rfl, -⟩ := List.cons.inj hlast
  have htidy := h.2.1.tidy
  rw [List.append_assoc] at htidy
  exact ⟨by simp, (htidy.of_append_cons hhorizontal).1⟩

/-- Trimming leaves neat lines neat. -/
theorem trim (h : NeatLines t) (hne : Text.trim t ≠ []) : NeatLines (Text.trim t) := by
  refine (h.trimStart ?_).trimEnd hne
  intro hnil
  rw [Text.trim, hnil] at hne
  exact hne rfl

end NeatLines

/-- Ended lines are squeezed line by line. -/
theorem squeezeBlock_ended {ls : List Text} (h : ∀ l ∈ ls, '\n' ∉ l) :
    squeezeBlock (ended ls) = joined '\n' ((ls.map squeezeLine).filter (· ≠ [])) := by
  have hpieces := Text.pieces_ended h []
  rw [List.append_nil] at hpieces
  rw [squeezeBlock, squeezedLines, hpieces, List.map_append, List.filter_append]
  show joined '\n' (_ ++ []) = _
  rw [List.append_nil]

end ScriptMinifier.Layout
