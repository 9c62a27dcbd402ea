import Mathlib
import ScriptMinifier.Text.Segment

/-! Segments, one character or one segment at a time.

Where a text is cut depends on its characters alone, so what the segments of a text say
can be told from its first character on: a character that is no mark is spelled out before
what the rest says (`flatMap_segments_cons`), a placeholder is one segment
(`segments_placeholder`), and so is a word that does not run on (`segments_word`). -/
namespace ScriptMinifier.Text

/-- Texts are compared character by character. -/
instance instLawfulBEq : LawfulBEq Text := inferInstanceAs (LawfulBEq (List Char))

/-- What holds of every character of a text is decided along the text, not along the alphabet. -/
instance (priority := high) decidableForallMem (t : Text) (p : Char → Prop) [DecidablePred p] :
    Decidable (∀ c ∈ t, p c) := List.decidableBAll p t

@[inherit_doc decidableForallMem]
instance (priority := high) decidableForallMemOption (o : Option Char) (p : Char → Prop)
    [DecidablePred p] :
    Decidable (∀ c ∈ o, p c) := o.decidableForallMem

/-! ### Runs -/

/-- A text cut after its first run of characters of one kind. -/
theorem exists_run {p : Char → Bool} {c : Char} (hc : p c = true) (rest : Text) :
    c :: rest = (c :: rest.takeWhile p) ++ rest.dropWhile p ∧
    ∀ d ∈ c :: rest.takeWhile p, p d = true := by
  constructor
  · rw [List.cons_append, List.takeWhile_append_dropWhile]
  · intro d hd
    rcases List.mem_cons.1 hd with rfl | hd
    · exact hc
    · exact List.all_eq_true.1 List.all_takeWhile d hd

/-- A run ends where it did, unless it reaches the end and runs on. -/
theorem span_append {p : Char → Bool} {s t : Text}
    (h : (∀ c ∈ s, p c = true) → ∀ b ∈ t.head?, p b = false) :
    (s ++ t).takeWhile p = s.takeWhile p ∧ (s ++ t).dropWhile p = s.dropWhile p ++ t := by
  by_cases hall : ∀ c ∈ s, p c = true
  · rw [List.takeWhile_append_of_pos hall, List.dropWhile_append_of_pos hall,
      List.takeWhile_eq_self_iff.2 hall, List.dropWhile_eq_nil_iff.2 hall]
    cases t with
    | nil => simp
    | cons b rest => simp [h hall b rfl]
  · have hlength : (s.takeWhile p).length ≠ s.length := fun heq =>
      hall (List.takeWhile_eq_self_iff.1 ((List.takeWhile_prefix p).eq_of_length heq))
    have hdrop : s.dropWhile p ≠ [] := fun hnil => hall (List.dropWhile_eq_nil_iff.1 hnil)
    rw [List.takeWhile_append, if_neg hlength, List.dropWhile_append, if_neg (by simpa using hdrop)]
    exact ⟨rfl, rfl⟩

/-- A run ends before a character that is none of it. -/
theorem span_run {p : Char → Bool} {s t : Text} (hs : ∀ c ∈ s, p c = true)
    (ht : ∀ b ∈ t.head?, p b = false) :
    (s ++ t).takeWhile p = s ∧ (s ++ t).dropWhile p = t := by
  obtain ⟨htake, hdrop⟩ := span_append (p := p) (s := s) (t := t) fun _ => ht
  rw [htake, hdrop, List.takeWhile_eq_self_iff.2 hs, List.dropWhile_eq_nil_iff.2 hs,
    List.nil_append]
  exact ⟨rfl, rfl⟩

theorem head?_dropWhile {p : Char → Bool} (t : Text) :
    ∀ b ∈ (t.dropWhile p).head?, p b = false := by
  intro b hb
  have := List.head?_dropWhile_not p t
  rw [Option.mem_def.1 hb] at this
  simpa using this

/-- A text is a run, which may be empty, and what does not go on with it. -/
theorem exists_span (p : Char → Bool) (t : Text) :
    ∃ s rest, t = s ++ rest ∧ (∀ c ∈ s, p c = true) ∧ ∀ b ∈ rest.head?, p b = false :=
  ⟨t.takeWhile p, t.dropWhile p, List.takeWhile_append_dropWhile.symm,
    fun c hc => List.all_eq_true.1 List.all_takeWhile c hc, head?_dropWhile t⟩

/-- What is asked of the last character is asked of it in every last part. -/
theorem forall_getLast?_of_append {P : Char → Prop} {s t : Text}
    (h : ∀ c ∈ (s ++ t).getLast?, P c) :
    ∀ c ∈ t.getLast?, P c := by
  intro c hc
  exact h c (by rw [List.getLast?_append, Option.mem_def.1 hc, Option.some_or]; rfl)

/-! ### The first segment -/

/-- No word character stands at the start of a text. -/
def StartsNoWord (t : Text) : Prop := ∀ c rest, t = c :: rest → isWordChar c = false

/-- Where a word ends does not depend on what follows, unless it runs on. -/
theorem takeWhile_append_startsNoWord (s : Text) {t : Text} (ht : StartsNoWord t) :
    (s ++ t).takeWhile isWordChar = s.takeWhile isWordChar := by
  induction s with
  | nil =>
    cases t with
    | nil => rfl
    | cons c rest => simp [ht c rest rfl]
  | cons c rest ih =>
    by_cases hc : isWordChar c = true
    · rw [List.cons_append, List.takeWhile_cons_of_pos hc, List.takeWhile_cons_of_pos hc, ih]
    · rw [List.cons_append, List.takeWhile_cons_of_neg hc, List.takeWhile_cons_of_neg hc]

theorem takeWhile_word {w : Text} (hw : ∀ c ∈ w, isWordChar c = true) :
    w.takeWhile isWordChar = w := by
  have htake : (w ++ []).takeWhile isWordChar = w ++ [].takeWhile isWordChar :=
    List.takeWhile_append_of_pos hw
  rwa [List.takeWhile_nil, List.append_nil] at htake

theorem dropWhile_append_of_startsNoWord {w t : Text} (hw : ∀ c ∈ w, isWordChar c = true)
    (ht : StartsNoWord t) : (w ++ t).dropWhile isWordChar = t := by
  rw [List.dropWhile_append_of_pos hw]
  cases t with
  | nil => rfl
  | cons c rest => simp [ht c rest rfl]

theorem ne_mark_of_isWordChar {c : Char} (h : isWordChar c = true) : c ≠ mark := by
  rintro rfl
  rw [not_isWordChar_mark] at h
  cases h

theorem not_isWordChar_of_isOtherChar {c : Char} (h : isOtherChar c = true) :
    isWordChar c = false := by
  rw [isOtherChar, Bool.and_eq_true, Bool.not_eq_true'] at h
  exact h.1

theorem ne_mark_of_isOtherChar {c : Char} (h : isOtherChar c = true) : c ≠ mark := by
  rw [isOtherChar, Bool.and_eq_true, bne_iff_ne] at h
  exact h.2

/-- A word that does not run on is one segment. -/
theorem segments_word {w t : Text} (hne : w ≠ []) (hw : ∀ c ∈ w, isWordChar c = true)
    (ht : StartsNoWord t) : segments (w ++ t) = .word w :: segments t := by
  obtain ⟨c, rest, rfl⟩ := List.exists_cons_of_ne_nil hne
  have hc : isWordChar c = true := hw c List.mem_cons_self
  have hrest : ∀ d ∈ rest, isWordChar d = true := fun d hd => hw d (List.mem_cons_of_mem c hd)
  rw [List.cons_append, segments, if_neg (ne_mark_of_isWordChar hc), if_pos hc,
    takeWhile_append_startsNoWord rest ht, takeWhile_word hrest,
    dropWhile_append_of_startsNoWord hrest ht]

theorem throughMark_append {inner t : Text} (h : mark ∉ inner) :
    throughMark (inner ++ mark :: t) = inner ++ [mark] := by
  have hne : ∀ c ∈ inner, (c != mark) = true := fun c hc => bne_iff_ne.2 fun heq => h (heq ▸ hc)
  rw [throughMark, List.takeWhile_append_of_pos hne, List.dropWhile_append_of_pos hne]
  simp

theorem afterMark_append {inner t : Text} (h : mark ∉ inner) :
    afterMark (inner ++ mark :: t) = t := by
  have hne : ∀ c ∈ inner, (c != mark) = true := fun c hc => bne_iff_ne.2 fun heq => h (heq ▸ hc)
  rw [afterMark, List.dropWhile_append_of_pos hne]
  simp

theorem throughMark_of_not_mem {t : Text} (h : mark ∉ t) : throughMark t = t := by
  have hne : ∀ c ∈ t, (c != mark) = true := fun c hc => bne_iff_ne.2 fun heq => h (heq ▸ hc)
  rw [throughMark, List.takeWhile_eq_self_iff.2 hne, List.dropWhile_eq_nil_iff.2 hne, List.take_nil,
    List.append_nil]

theorem afterMark_of_not_mem {t : Text} (h : mark ∉ t) : afterMark t = [] := by
  have hne : ∀ c ∈ t, (c != mark) = true := fun c hc => bne_iff_ne.2 fun heq => h (heq ▸ hc)
  rw [afterMark, List.dropWhile_eq_nil_iff.2 hne, List.drop_nil]

/-- A placeholder is one segment. -/
theorem segments_placeholder {inner : Text} (h : mark ∉ inner) (t : Text) :
    segments (mark :: inner ++ [mark] ++ t) =
      .placeholder (mark :: inner ++ [mark]) :: segments t := by
  have htext : mark :: inner ++ [mark] ++ t = mark :: (inner ++ mark :: t) := by simp
  rw [htext, segments, if_pos rfl, throughMark_append h, afterMark_append h, List.cons_append]

/-! ### The first character -/

section Spelled

variable {α : Type} {f : Segment → List α} {g : Char → List α}

theorem flatMap_segments_run {p : Char → Bool} {run : Text → Segment}
    (hrun : ∀ t, f (run t) = t.flatMap g) (hseg : ∀ c rest, p c = true →
      segments (c :: rest) = run (c :: rest.takeWhile p) :: segments (rest.dropWhile p))
    (t : Text) :
    (segments t).flatMap f = (t.takeWhile p).flatMap g ++ (segments (t.dropWhile p)).flatMap f := by
  cases t with
  | nil => rfl
  | cons c rest =>
    by_cases hc : p c = true
    · rw [hseg c rest hc, List.takeWhile_cons_of_pos hc, List.dropWhile_cons_of_pos hc,
        List.flatMap_cons, hrun]
    · rw [List.takeWhile_cons_of_neg hc, List.dropWhile_cons_of_neg hc]
      rfl

theorem segments_of_isWordChar {c : Char} (hc : isWordChar c = true) (rest : Text) :
    segments (c :: rest) = .word (c :: rest.takeWhile isWordChar) :: segments
    (rest.dropWhile isWordChar) := by
  rw [segments, if_neg (ne_mark_of_isWordChar hc), if_pos hc]

theorem segments_of_isOtherChar {c : Char} (hc : isOtherChar c = true) (rest : Text) :
    segments (c :: rest) =
      .other (c :: rest.takeWhile isOtherChar) :: segments (rest.dropWhile isOtherChar) := by
  rw [segments, if_neg (ne_mark_of_isOtherChar hc),
    if_neg (by rw [not_isWordChar_of_isOtherChar hc]; exact Bool.false_ne_true)]

/-- What spells words and the runs between them character by character spells a text so. -/
theorem flatMap_segments_cons (hword : ∀ w, f (.word w) = w.flatMap g)
    (hother : ∀ t, f (.other t) = t.flatMap g) {c : Char} (hc : c ≠ mark) (t : Text) :
    (segments (c :: t)).flatMap f = g c ++ (segments t).flatMap f := by
  by_cases hw : isWordChar c = true
  · rw [segments_of_isWordChar hw, List.flatMap_cons, hword, List.flatMap_cons, List.append_assoc,
      ← flatMap_segments_run hword (fun c rest h => segments_of_isWordChar h rest) t]
  · have ho : isOtherChar c = true := by simp [isOtherChar, hw, hc]
    rw [segments_of_isOtherChar ho, List.flatMap_cons, hother, List.flatMap_cons, List.append_assoc,
      ← flatMap_segments_run hother (fun c rest h => segments_of_isOtherChar h rest) t]

end Spelled

/-- A run between words that does not run on is one segment. -/
theorem segments_others {s t : Text} (hne : s ≠ []) (hs : ∀ c ∈ s, isOtherChar c = true)
    (ht : ∀ c ∈ t.head?, isOtherChar c = false) : segments (s ++ t) = .other s :: segments t := by
  obtain ⟨c, rest, rfl⟩ := List.exists_cons_of_ne_nil hne
  rw [List.forall_mem_cons] at hs
  obtain ⟨htake, hdrop⟩ := span_run hs.2 ht
  rw [List.cons_append, segments_of_isOtherChar hs.1, htake, hdrop]

/-- What passes over the runs between words passes over a character of one. -/
theorem segments_skip {α : Type} {k : List Segment → α} (hskip : ∀ u gs, k (.other u :: gs) = k gs)
    {c : Char} (hc : isOtherChar c = true) (t : Text) : k (segments (c :: t)) = k (segments t) := by
  rw [segments_of_isOtherChar hc, hskip]
  cases t with
  | nil => rfl
  | cons d rest =>
    by_cases hd : isOtherChar d = true
    · rw [segments_of_isOtherChar hd, hskip, List.dropWhile_cons_of_pos hd]
    · rw [List.dropWhile_cons_of_neg hd]

/-! ### Words -/

theorem words_nil : words [] = [] := by simp [words, segments]

theorem words_word {w t : Text} (hne : w ≠ []) (hw : ∀ c ∈ w, isWordChar c = true)
    (ht : StartsNoWord t) : words (w ++ t) = w :: words t := by
  rw [words, segments_word hne hw ht]
  rfl

/-- A character between words belongs to none. -/
theorem words_other {c : Char} (hc : isOtherChar c = true) (t : Text) : words (c :: t) = words t :=
  segments_skip (k := List.filterMap Segment.word?) (fun _ _ => rfl) hc t

theorem words_others {s : Text} (h : ∀ c ∈ s, isOtherChar c = true) (t : Text) :
    words (s ++ t) = words t := by
  induction s with
  | nil => rfl
  | cons c rest ih =>
    rw [List.cons_append, words_other (h c List.mem_cons_self)]
    exact ih fun d hd => h d (List.mem_cons_of_mem c hd)

theorem startsNoWord_dropWhile (t : Text) : StartsNoWord (t.dropWhile isWordChar) := by
  intro c rest h
  exact head?_dropWhile t c (by rw [h]; rfl)

theorem StartsNoWord.append {s : Text} (hne : s ≠ []) (h : StartsNoWord s) (t : Text) :
    StartsNoWord (s ++ t) := by
  obtain ⟨c, rest, rfl⟩ := List.exists_cons_of_ne_nil hne
  intro d tail hd
  rw [List.cons_append, List.cons.injEq] at hd
  exact h d rest (by rw [hd.1])

/-- A word that ends a text does not run on where the text is cut. -/
theorem StartsNoWord.append_of_cut {w s t : Text} (hs : StartsNoWord s) (hne : w ≠ [])
    (hw : ∀ c ∈ w, isWordChar c = true)
    (hcut : ∀ c ∈ (w ++ s).getLast?, isWordChar c = true → StartsNoWord t) :
    StartsNoWord (s ++ t) := by
  by_cases hnil : s = []
  · subst hnil
    rw [List.append_nil] at hcut
    exact hcut _ (List.getLast?_eq_some_getLast hne) (hw _ (List.getLast_mem hne))
  · exact hs.append hnil t

/-- Induction over the words of a text, the characters between them and the placeholders. -/
theorem wordwise {motive : Text → Prop} (nil : motive [])
    (placeholder : ∀ rest, motive (afterMark rest) → motive (mark :: rest))
    (word : ∀ w t, w ≠ [] → (∀ c ∈ w, isWordChar c = true) → StartsNoWord t → motive t →
      motive (w ++ t))
    (other : ∀ c t, isOtherChar c = true → motive t → motive (c :: t)) (t : Text) : motive t := by
  match t with
  | [] => exact nil
  | c :: rest =>
    by_cases hmark : c = mark
    · rw [hmark]
      exact placeholder rest (wordwise nil placeholder word other _)
    by_cases hw : isWordChar c = true
    · obtain ⟨hsplit, hrun⟩ := exists_run hw rest
      rw [hsplit]
      exact word _ _ (List.cons_ne_nil _ _) hrun (startsNoWord_dropWhile rest)
        (wordwise nil placeholder word other _)
    · exact other c rest (by simp [isOtherChar, hw, hmark])
        (wordwise nil placeholder word other rest)
termination_by t.length
decreasing_by
  · exact Nat.lt_succ_of_le (length_afterMark_le rest)
  · exact Nat.lt_succ_of_le (length_dropWhile_le isWordChar rest)
  · exact Nat.lt_succ_self _

/-- The words of two texts that no word joins are those of each. -/
theorem words_append {s t : Text} (hmark : mark ∉ s)
    (hcut : ∀ c ∈ s.getLast?, isWordChar c = true → StartsNoWord t) :
    words (s ++ t) = words s ++ words t := by
  induction s using wordwise with
  | nil =>
    rw [words_nil]
    rfl
  | placeholder rest => exact absurd List.mem_cons_self hmark
  | word w s hne hw hs ih =>
    have hrest := ih (fun hm => hmark (List.mem_append_right _ hm)) (forall_getLast?_of_append hcut)
    rw [List.append_assoc, words_word hne hw (hs.append_of_cut hne hw hcut), words_word hne hw hs,
      hrest, List.cons_append]
  | other c s hc ih =>
    have hrest :=
      ih (fun hm => hmark (List.mem_cons_of_mem _ hm)) (forall_getLast?_of_append (s := [c]) hcut)
    rw [List.cons_append, words_other hc, words_other hc, hrest]

end ScriptMinifier.Text
