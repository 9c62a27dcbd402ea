import ScriptMinifier.Proofs.Text.Renaming

/-! Partitions of a text into segments.

A list of segments is canonical when each is made of its own characters, no word follows a word, no
run between words another, and nothing a placeholder that is not closed. The segments of a text are
canonical (`canonical_segments`), and no other canonical list spells the text
(`Canonical.segments_eq`). What is left of a canonical list after some segments, or after the
beginning of a run between words, is canonical again, so a text may be cut there and the rest
segmented anew (`segments_after`, `segments_inside`). -/
namespace ScriptMinifier.Text

/-- Segments that can stand one after the other as those of a text. -/
inductive Canonical : List Segment → Prop
  | nil : Canonical []
  | word {w : Text} {rest : List Segment} (hne : w ≠ []) (hw : ∀ c ∈ w, isWordChar c = true)
      (hnext : ∀ v, rest.head? ≠ some (.word v)) (hrest : Canonical rest) :
      Canonical (.word w :: rest)
  | placeholder {inner : Text} {rest : List Segment} (hinner : mark ∉ inner)
      (hrest : Canonical rest) :
      Canonical (.placeholder (mark :: inner ++ [mark]) :: rest)
  | unclosed {inner : Text} (hinner : mark ∉ inner) : Canonical [.placeholder (mark :: inner)]
  | other {o : Text} {rest : List Segment} (hne : o ≠ []) (ho : ∀ c ∈ o, isOtherChar c = true)
      (hnext : ∀ v, rest.head? ≠ some (.other v)) (hrest : Canonical rest) :
      Canonical (.other o :: rest)

/-! ### The segments of a text -/

theorem head?_segments_ne_word {t : Text} (h : StartsNoWord t) (w : Text) :
    (segments t).head? ≠ some (.word w) := by
  fun_cases segments t with
  | case1 => nofun
  | case2 rest => nofun
  | case3 c rest hmark hc =>
    rw [h c rest rfl] at hc
    cases hc
  | case4 c rest hmark hc => nofun

theorem head?_segments_ne_other {t : Text} (h : ∀ c ∈ t.head?, isOtherChar c = false) (o : Text) :
    (segments t).head? ≠ some (.other o) := by
  fun_cases segments t with
  | case1 => nofun
  | case2 rest => nofun
  | case3 c rest hmark hc => nofun
  | case4 c rest hmark hc =>
    have hother : isOtherChar c = true := by simp [isOtherChar, hc, hmark]
    rw [h c rfl] at hother
    cases hother

/-- The segments of a text are canonical. -/
theorem canonical_segments (t : Text) : Canonical (segments t) := by
  fun_induction segments t with
  | case1 => exact .nil
  | case2 rest ih =>
    rcases throughMark_cases rest with ⟨inner, hinner, hthrough⟩ | ⟨hthrough, hmark, hafter⟩
    · rw [hthrough]
      exact .placeholder hinner ih
    · rw [hthrough, hafter, segments]
      exact .unclosed hmark
  | case3 c rest hmark hc ih =>
    have hnext := head?_segments_ne_word (startsNoWord_dropWhile rest)
    exact .word (List.cons_ne_nil c _) (exists_run hc rest).2 hnext ih
  | case4 c rest hmark hc ih =>
    have hother : isOtherChar c = true := by simp [isOtherChar, hc, hmark]
    exact .other (List.cons_ne_nil c _) (exists_run hother rest).2
      (head?_segments_ne_other (head?_dropWhile rest)) ih

/-! ### The text of canonical segments -/

namespace Canonical

variable {g h : Segment} {gs before after : List Segment} {w p o : Text}

theorem startsNoWord (hgs : Canonical gs) (hnext : ∀ v, gs.head? ≠ some (.word v)) :
    StartsNoWord (gs.flatMap Segment.text) := by
  intro c rest heq
  cases hgs with
  | nil => cases heq
  | @word w _ => exact absurd rfl (hnext w)
  | placeholder => rw [← (List.cons.inj heq).1, not_isWordChar_mark]
  | unclosed => rw [← (List.cons.inj heq).1, not_isWordChar_mark]
  | @other o gs hne ho =>
    obtain ⟨d, more, rfl⟩ := List.exists_cons_of_ne_nil hne
    rw [← (List.cons.inj heq).1]
    exact not_isWordChar_of_isOtherChar (ho d List.mem_cons_self)

theorem startsNoOther (hgs : Canonical gs) (hnext : ∀ v, gs.head? ≠ some (.other v)) :
    ∀ c ∈ (gs.flatMap Segment.text).head?, isOtherChar c = false := by
  intro c hc
  cases hgs with
  | nil => cases hc
  | @word w gs hne hw =>
    obtain ⟨d, more, rfl⟩ := List.exists_cons_of_ne_nil hne
    rw [← show d = c from Option.some.inj hc, isOtherChar, hw d List.mem_cons_self]
    rfl
  | placeholder => rw [← show mark = c from Option.some.inj hc]; decide
  | unclosed => rw [← show mark = c from Option.some.inj hc]; decide
  | @other o _ => exact absurd rfl (hnext o)

/-- Canonical segments are those of the text that they spell. -/
theorem segments_eq (hgs : Canonical gs) : segments (gs.flatMap Segment.text) = gs := by
  induction hgs with
  | nil => simp [segments]
  | word hne hw hnext hrest ih =>
    rw [List.flatMap_cons, Segment.text, segments_word hne hw (hrest.startsNoWord hnext), ih]
  | placeholder hinner _ ih => rw [List.flatMap_cons, Segment.text, segments_placeholder hinner, ih]
  | @unclosed inner hinner =>
    have hopen : ∀ c ∈ inner, (c != mark) = true :=
      fun c hc => bne_iff_ne.2 fun heq => hinner (heq ▸ hc)
    have hdrop : inner.dropWhile (· != mark) = [] := List.dropWhile_eq_nil_iff.2 hopen
    rw [List.flatMap_cons, List.flatMap_nil, List.append_nil, Segment.text, segments, if_pos rfl,
      throughMark, afterMark, hdrop, List.takeWhile_eq_self_iff.2 hopen, List.take_nil,
      List.drop_nil, List.append_nil, segments]
  | other hne ho hnext hrest ih =>
    rw [List.flatMap_cons, Segment.text, segments_others hne ho (hrest.startsNoOther hnext), ih]

/-! ### What canonical segments are made of -/

theorem tail (hgs : Canonical (g :: gs)) : Canonical gs := by
  cases hgs with
  | word _ _ _ hrest => exact hrest
  | placeholder _ hrest => exact hrest
  | unclosed => exact .nil
  | other _ _ _ hrest => exact hrest

theorem of_append (hgs : Canonical (before ++ after)) : Canonical after := by
  induction before with
  | nil => exact hgs
  | cons g before ih => exact ih hgs.tail

theorem text_ne_nil (hgs : Canonical (g :: gs)) : g.text ≠ [] := by
  cases hgs with
  | word hne => exact hne
  | placeholder => exact List.cons_ne_nil _ _
  | unclosed => exact List.cons_ne_nil _ _
  | other hne => exact hne

theorem word_mem (hgs : Canonical (.word w :: gs)) : ∀ c ∈ w, isWordChar c = true := by
  cases hgs with
  | word _ hw => exact hw

theorem other_mem (hgs : Canonical (.other o :: gs)) : ∀ c ∈ o, isOtherChar c = true := by
  cases hgs with
  | other _ ho => exact ho

theorem placeholder_eq (hgs : Canonical (.placeholder p :: gs)) :
    ∃ inner, mark ∉ inner ∧ (p = mark :: inner ++ [mark] ∨ p = mark :: inner ∧ gs = []) := by
  cases hgs with
  | placeholder hinner => exact ⟨_, hinner, .inl rfl⟩
  | unclosed hinner => exact ⟨_, hinner, .inr ⟨rfl, rfl⟩⟩

/-- Neither two words nor two runs between words stand side by side. -/
theorem not_alike (hgs : Canonical (g :: h :: gs)) :
    ¬ ((∃ w v, g = .word w ∧ h = .word v) ∨ ∃ o v, g = .other o ∧ h = .other v) := by
  rintro (⟨w, v, rfl, rfl⟩ | ⟨o, v, rfl, rfl⟩)
  · cases hgs with
    | word _ _ hnext => exact hnext v rfl
  · cases hgs with
    | other _ _ hnext => exact hnext v rfl

/-- A run between words may lose its beginning. -/
theorem shorten {lost kept : Text} (hkept : kept ≠ [])
    (hgs : Canonical (.other (lost ++ kept) :: gs)) :
    Canonical (.other kept :: gs) := by
  cases hgs with
  | other _ ho hnext hrest =>
    exact .other hkept (fun c hc => ho c (List.mem_append_right lost hc)) hnext hrest

end Canonical

/-! ### Cutting a text -/

variable {t : Text} {before after : List Segment}

/-- After some of its segments a text has the others. -/
theorem segments_after (h : segments t = before ++ after) :
    segments (after.flatMap Segment.text) = after := by
  have hcanonical := canonical_segments t
  rw [h] at hcanonical
  exact hcanonical.of_append.segments_eq

/-- Inside a run between words, what is left of the run comes first. -/
theorem segments_inside {lost kept : Text}
    (h : segments t = before ++ .other (lost ++ kept) :: after)
    (hkept : kept ≠ []) : segments (kept ++ after.flatMap Segment.text) = .other kept :: after := by
  have hcanonical := canonical_segments t
  rw [h] at hcanonical
  exact (hcanonical.of_append.shorten hkept).segments_eq

end ScriptMinifier.Text
