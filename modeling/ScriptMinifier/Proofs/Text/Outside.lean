import ScriptMinifier.Proofs.Text.Segment

/-! Inside and outside placeholders.

A mark opens a placeholder or closes it, so whether a character stands in one is told by the marks
before it (`hiddenAfter`), in every text, also where a placeholder is never closed. The characters
`outside` placeholders are those of the other segments, and they are found along the text
(`outside_eq_outsideFrom`). `openwise` is the induction that goes along a text so, with words taken
whole. By it, a character that is part of no word cuts the words of a text in two, and those after
it are read from where the text before it leaves off (`wordsFrom_append_cons`). -/
namespace ScriptMinifier.Text

/-- Whether a placeholder is open after a text; `hidden` says whether one is before it. -/
def hiddenAfter (hidden : Bool) : Text → Bool
  | [] => hidden
  | c :: rest => hiddenAfter (if c = mark then !hidden else hidden) rest

/-- The characters outside placeholders of a text before which one may be open. -/
def outsideFrom (hidden : Bool) : Text → Text
  | [] => []
  | c :: rest =>
    if c = mark then outsideFrom (!hidden) rest
    else if hidden then outsideFrom hidden rest
    else c :: outsideFrom hidden rest

/-- The characters of a segment that is no placeholder. -/
def Segment.outside : Segment → Text
  | .placeholder _ => []
  | s => s.text

/-- The characters of a text outside its placeholders. -/
def outside (t : Text) : Text := (segments t).flatMap Segment.outside

/-- The words of a text before which a placeholder may be open. -/
def wordsFrom (hidden : Bool) (t : Text) : List Text := words (if hidden then afterMark t else t)

/-! ### Character by character -/

theorem hiddenAfter_append (hidden : Bool) (s t : Text) :
    hiddenAfter hidden (s ++ t) = hiddenAfter (hiddenAfter hidden s) t := by
  induction s generalizing hidden with
  | nil => rfl
  | cons c rest ih => exact ih _

theorem hiddenAfter_of_not_mem {t : Text} (h : mark ∉ t) (hidden : Bool) :
    hiddenAfter hidden t = hidden := by
  induction t with
  | nil => rfl
  | cons c rest ih =>
    rw [List.mem_cons, not_or] at h
    rw [hiddenAfter, if_neg (Ne.symm h.1), ih h.2]

theorem outsideFrom_append (hidden : Bool) (s t : Text) :
    outsideFrom hidden (s ++ t) = outsideFrom hidden s ++ outsideFrom (hiddenAfter hidden s) t := by
  induction s generalizing hidden with
  | nil => rfl
  | cons c rest ih =>
    rw [List.cons_append, outsideFrom, outsideFrom, hiddenAfter]
    split
    · exact ih _
    · split
      · exact ih _
      · rw [ih, List.cons_append]

theorem outsideFrom_of_not_mem {t : Text} (h : mark ∉ t) : outsideFrom false t = t := by
  induction t with
  | nil => rfl
  | cons c rest ih =>
    rw [List.mem_cons, not_or] at h
    rw [outsideFrom, if_neg (Ne.symm h.1), if_neg Bool.false_ne_true, ih h.2]

theorem afterMark_cons_mark (t : Text) : afterMark (mark :: t) = t := by
  rw [← List.nil_append (mark :: t)]
  exact afterMark_append List.not_mem_nil

theorem afterMark_cons {c : Char} (hc : c ≠ mark) (t : Text) :
    afterMark (c :: t) = afterMark t := by
  rw [afterMark, List.dropWhile_cons_of_pos (by simpa using hc), afterMark]

/-- What is outside starts after the mark that closes the open placeholder. -/
theorem outsideFrom_true (t : Text) : outsideFrom true t = outsideFrom false (afterMark t) := by
  induction t with
  | nil => rfl
  | cons c rest ih =>
    by_cases hc : c = mark
    · rw [hc, afterMark_cons_mark, outsideFrom, if_pos rfl, Bool.not_true]
    · rw [outsideFrom, if_neg hc, if_pos rfl, ih, afterMark_cons hc]

/-- The characters outside placeholders are found along the text. -/
theorem outside_eq_outsideFrom (t : Text) : outside t = outsideFrom false t := by
  have hrun : ∀ {p : Char → Bool} {c : Char} {rest : Text}, p mark = false → p c = true →
      outsideFrom false (c :: rest) =
        c :: rest.takeWhile p ++ outsideFrom false (rest.dropWhile p) := by
    intro p c rest hmark hc
    obtain ⟨hsplit, hall⟩ := exists_run hc rest
    have hnone : mark ∉ c :: rest.takeWhile p := by
      intro hmem
      rw [hall mark hmem] at hmark
      cases hmark
    conv => lhs; rw [hsplit]
    rw [outsideFrom_append, hiddenAfter_of_not_mem hnone, outsideFrom_of_not_mem hnone]
  unfold outside
  fun_induction segments t with
  | case1 => rfl
  | case2 rest ih =>
    rw [List.flatMap_cons, ih, outsideFrom, if_pos rfl, Bool.not_false, outsideFrom_true]
    rfl
  | case3 c rest hmark hw ih =>
    rw [List.flatMap_cons, ih, hrun not_isWordChar_mark hw]
    rfl
  | case4 c rest hmark hw ih =>
    rw [List.flatMap_cons, ih,
      hrun (p := isOtherChar) (by decide) (by simp [isOtherChar, hw, hmark])]
    rfl

/-! ### Words -/

theorem wordsFrom_nil (hidden : Bool) : wordsFrom hidden [] = [] := by
  cases hidden
  · exact words_nil
  · exact words_nil

theorem wordsFrom_mark (hidden : Bool) (t : Text) :
    wordsFrom hidden (mark :: t) = wordsFrom (!hidden) t := by
  cases hidden
  · rw [wordsFrom, if_neg Bool.false_ne_true, words, segments, if_pos rfl]
    rfl
  · rw [wordsFrom, if_pos rfl, afterMark_cons_mark]
    rfl

theorem wordsFrom_hidden {c : Char} (hc : c ≠ mark) (t : Text) :
    wordsFrom true (c :: t) = wordsFrom true t := by
  rw [wordsFrom, if_pos rfl, afterMark_cons hc]
  rfl

/-- A character that is part of no word is passed over, in a placeholder or outside. -/
theorem wordsFrom_other {c : Char} (hc : isOtherChar c = true) (hidden : Bool) (t : Text) :
    wordsFrom hidden (c :: t) = wordsFrom hidden t := by
  cases hidden
  · exact words_other hc t
  · exact wordsFrom_hidden (ne_mark_of_isOtherChar hc) t

/-- Induction along a text, by its marks, the characters of its placeholders, and outside them its
words and the characters between. -/
theorem openwise {motive : Bool → Text → Prop} (nil : ∀ hidden, motive hidden [])
    (mark : ∀ hidden t, motive (!hidden) t → motive hidden (mark :: t))
    (hidden : ∀ c t, c ≠ Text.mark → motive true t → motive true (c :: t))
    (other : ∀ c t, isOtherChar c = true → motive false t → motive false (c :: t))
    (word : ∀ w t, w ≠ [] → (∀ c ∈ w, isWordChar c = true) → StartsNoWord t → motive false t →
      motive false (w ++ t))
    (h : Bool) (t : Text) : motive h t := by
  match h, t with
  | h, [] => exact nil h
  | true, c :: rest =>
    by_cases hc : c = Text.mark
    · rw [hc]
      exact mark true rest (openwise nil mark hidden other word false rest)
    · exact hidden c rest hc (openwise nil mark hidden other word true rest)
  | false, c :: rest =>
    by_cases hc : c = Text.mark
    · rw [hc]
      exact mark false rest (openwise nil mark hidden other word true rest)
    by_cases hw : isWordChar c = true
    · obtain ⟨hsplit, hrun⟩ := exists_run hw rest
      rw [hsplit]
      exact word _ _ (by simp) hrun (startsNoWord_dropWhile rest)
        (openwise nil mark hidden other word false (rest.dropWhile isWordChar))
    · exact other c rest (by simp [isOtherChar, hw, hc])
        (openwise nil mark hidden other word false rest)
termination_by t.length
decreasing_by
  all_goals
    first
    | exact Nat.lt_succ_self _
    | exact Nat.lt_succ_of_le (length_dropWhile_le isWordChar rest)

/-- A character that is part of no word cuts the words of a text in two, those before it and those
after it, which start in a placeholder if one is open there. -/
theorem wordsFrom_append_cons {c : Char} (hc : isOtherChar c = true) (hidden : Bool) (s t : Text) :
    wordsFrom hidden (s ++ c :: t) = wordsFrom hidden s ++ wordsFrom (hiddenAfter hidden s) t := by
  refine openwise (motive := fun hidden s => wordsFrom hidden (s ++ c :: t) =
    wordsFrom hidden s ++ wordsFrom (hiddenAfter hidden s) t) ?nil ?mark ?hidden ?other
      ?word hidden s
  case nil =>
    intro hidden
    rw [wordsFrom_nil, List.nil_append, List.nil_append, wordsFrom_other hc]
    rfl
  case mark =>
    intro hidden s ih
    rw [List.cons_append, wordsFrom_mark, wordsFrom_mark, ih, hiddenAfter, if_pos rfl]
  case hidden =>
    intro d s hd ih
    rw [List.cons_append, wordsFrom_hidden hd, wordsFrom_hidden hd, ih, hiddenAfter, if_neg hd]
  case other =>
    intro d s hd ih
    rw [List.cons_append, wordsFrom_other hd, wordsFrom_other hd, ih, hiddenAfter,
      if_neg (ne_mark_of_isOtherChar hd)]
  case word =>
    intro w s hne hw hnext ih
    have hnone : Text.mark ∉ w := fun hmem => ne_mark_of_isWordChar (hw _ hmem) rfl
    have hstarts : StartsNoWord (s ++ c :: t) := by
      by_cases hnil : s = []
      · rw [hnil]
        rintro d rest hd
        rw [← (List.cons.inj hd).1]
        exact not_isWordChar_of_isOtherChar hc
      · exact hnext.append hnil _
    rw [List.append_assoc, hiddenAfter_append, hiddenAfter_of_not_mem hnone]
    change words (w ++ (s ++ c :: t)) = words (w ++ s) ++ _
    rw [words_word hne hw hstarts, words_word hne hw hnext, List.cons_append]
    exact congrArg (w :: ·) ih

end ScriptMinifier.Text
