import ScriptMinifier.Proofs.Literal.Wordwise
import ScriptMinifier.Proofs.Text.Hexadecimal

/-! Words replaced by words.

A renaming gives a word for a word. It moves no boundary between segments: the segments of the
renamed text are those of the text, with their words renamed (`segments_replaceWords`). So what
one looks up in a renamed text is what one looks up in the text, renamed, and renaming twice is
renaming once (`replaceWords_replaceWords`). Other replacements may join what stands between words;
a pass that reads words and copies the rest does not see this (`flatMap_segments_replaceWords`). -/
namespace ScriptMinifier.Text

/-- Every replacement is a word. -/
def Wordly (f : Text → Option Text) : Prop :=
  ∀ w r, f w = some r → r ≠ [] ∧ ∀ c ∈ r, isWordChar c = true

/-- A segment with its word replaced. -/
def Segment.mapWord (f : Text → Text) : Segment → Segment
  | .word w => .word (f w)
  | s => s

/-- What becomes of a word. -/
def replacement (f : Text → Option Text) (w : Text) : Text := (f w).getD w

section

variable {f g : Text → Option Text}

theorem Wordly.replacement (hf : Wordly f) {w : Text} (hne : w ≠ [])
    (hw : ∀ c ∈ w, isWordChar c = true) :
    replacement f w ≠ [] ∧ ∀ c ∈ replacement f w, isWordChar c = true := by
  unfold Text.replacement
  cases hfw : f w with
  | none => exact ⟨hne, hw⟩
  | some r => exact hf w r hfw

/-- A placeholder is closed, or reaches to the end of the text. -/
theorem throughMark_cases (rest : Text) :
    (∃ inner, mark ∉ inner ∧ throughMark rest = inner ++ [mark]) ∨
      throughMark rest = rest ∧ mark ∉ rest ∧ afterMark rest = [] := by
  by_cases hmem : mark ∈ rest
  · obtain ⟨inner, more, rfl, hinner⟩ := List.eq_append_cons_of_mem hmem
    exact .inl ⟨inner, hinner, throughMark_append hinner⟩
  · exact .inr ⟨throughMark_of_not_mem hmem, hmem, afterMark_of_not_mem hmem⟩

theorem throughMark_replaceWords (rest : Text) :
    throughMark (throughMark rest ++ replaceWords f (afterMark rest)) = throughMark rest := by
  rcases throughMark_cases rest with ⟨inner, hmark, hthrough⟩ | ⟨hthrough, -, hafter⟩
  · rw [hthrough, List.append_assoc, List.singleton_append, throughMark_append hmark]
  · have hnil : replaceWords f [] = [] := by simp [replaceWords, segments]
    rw [hafter, hnil, List.append_nil, hthrough, hthrough]

/-- Where no run of other characters goes on, none does after renaming. -/
theorem head?_replaceWords_of_not_other (hf : Wordly f) {t : Text}
    (h : ∀ c ∈ t.head?, isOtherChar c = false) :
    ∀ c ∈ (replaceWords f t).head?, isOtherChar c = false := by
  cases t with
  | nil => simp [replaceWords, segments]
  | cons c rest =>
    intro d hd
    by_cases hmark : c = mark
    · rw [hmark, replaceWords_mark] at hd
      obtain rfl := Option.some.inj hd
      decide
    · have hw : isWordChar c = true := by simpa [isOtherChar, hmark] using h c rfl
      obtain ⟨-, hrun⟩ := exists_run hw rest
      obtain ⟨hne, hword⟩ := hf.replacement (List.cons_ne_nil c _) hrun
      rw [replaceWords_word hw, ← replacement, List.head?_append_of_ne_nil _ hne] at hd
      simp [isOtherChar, hword d (List.mem_of_head? hd)]

/-- A renaming keeps the boundaries between segments. -/
theorem segments_replaceWords (hf : Wordly f) (t : Text) :
    segments (replaceWords f t) = (segments t).map (Segment.mapWord (replacement f)) := by
  fun_induction segments t with
  | case1 => simp [replaceWords, segments]
  | case2 rest ih =>
    rw [replaceWords_mark, List.cons_append, segments, if_pos rfl, throughMark_replaceWords,
      afterMark_replaceWords, ih]
    rfl
  | case3 c rest hc hw ih =>
    obtain ⟨-, hrun⟩ := exists_run hw rest
    obtain ⟨hne, hword⟩ := hf.replacement (List.cons_ne_nil c _) hrun
    rw [replaceWords_word hw, ← replacement,
      segments_word hne hword (startsNoWord_replaceWords (startsNoWord_dropWhile rest)), ih]
    rfl
  | case4 c rest hc hw ih =>
    have ho : isOtherChar c = true := by simp [isOtherChar, hw, hc]
    obtain ⟨-, hrun⟩ := exists_run ho rest
    have hnext := head?_replaceWords_of_not_other hf (head?_dropWhile rest)
    rw [replaceWords_other ho, segments_others (List.cons_ne_nil c _) hrun hnext, ih]
    rfl

theorem words_replaceWords (hf : Wordly f) (t : Text) :
    words (replaceWords f t) = (words t).map (replacement f) := by
  have hword : ∀ s : Segment, (s.mapWord (replacement f)).word? = s.word?.map (replacement f) := by
    intro s
    cases s <;> rfl
  rw [words, segments_replaceWords hf, List.filterMap_map, words, List.map_filterMap]
  exact congrArg (List.filterMap · (segments t)) (funext hword)

/-- Replacing in a renamed text is replacing once. -/
theorem replaceWords_replaceWords (hf : Wordly f) (g : Text → Option Text) (t : Text) :
    replaceWords g (replaceWords f t) = replaceWords
    (fun w => some (replacement g (replacement f w))) t := by
  have hsegment : ∀ s : Segment, (s.mapWord (replacement f)).replaced g =
      s.replaced fun w => some (replacement g (replacement f w)) := by
    intro s
    cases s <;> rfl
  rw [replaceWords, segments_replaceWords hf, List.flatMap_map, replaceWords]
  exact List.flatMap_congr fun s _ => hsegment s

/-! ### Words replaced by texts -/

/-- A word of a text is made of word characters of the text. -/
theorem mem_words {t w : Text} (hw : w ∈ words t) :
    w ≠ [] ∧ ∀ c ∈ w, isWordChar c = true ∧ c ∈ t := by
  induction t using wordwise with
  | nil =>
    rw [words_nil] at hw
    cases hw
  | placeholder rest ih =>
    rw [words, segments, if_pos rfl] at hw
    obtain ⟨hne, hmem⟩ := ih hw
    refine ⟨hne, fun c hc => ⟨(hmem c hc).1, List.mem_cons_of_mem _ ?_⟩⟩
    rw [← throughMark_append_afterMark rest]
    exact List.mem_append_right _ (hmem c hc).2
  | word v t hv hword ht ih =>
    rw [words_word hv hword ht] at hw
    rcases List.mem_cons.1 hw with rfl | hw
    · exact ⟨hv, fun d hd => ⟨hword d hd, List.mem_append_left _ hd⟩⟩
    · obtain ⟨hne, hmem⟩ := ih hw
      exact ⟨hne, fun d hd => ⟨(hmem d hd).1, List.mem_append_right _ (hmem d hd).2⟩⟩
  | other c t hc ih =>
    rw [words_other hc] at hw
    obtain ⟨hne, hmem⟩ := ih hw
    exact ⟨hne, fun d hd => ⟨(hmem d hd).1, List.mem_cons_of_mem c (hmem d hd).2⟩⟩

theorem words_of_word {w : Text} (hne : w ≠ []) (hw : ∀ c ∈ w, isWordChar c = true) :
    words w = [w] := by
  have h := words_word hne hw (t := []) fun c rest h => nomatch h
  rwa [List.append_nil, words_nil] at h

theorem replaceWords_of_word {w : Text} (hne : w ≠ []) (hw : ∀ c ∈ w, isWordChar c = true) :
    replaceWords f w = replacement f w := by
  have h := segments_word hne hw (t := []) fun c rest h => nomatch h
  rw [List.append_nil, segments] at h
  rw [replaceWords, h]
  exact List.append_nil _

/-- Replacements that agree on the words of a text give the same text. -/
theorem replaceWords_congr_words {t : Text} (h : ∀ w ∈ words t, replacement f w = replacement g w) :
    replaceWords f t = replaceWords g t := by
  refine List.flatMap_congr fun s hs => ?_
  cases s with
  | word w => exact h w (List.mem_filterMap.2 ⟨_, hs, rfl⟩)
  | placeholder u => rfl
  | other u => rfl

theorem replaceWords_eq_self {t : Text} (h : ∀ w ∈ words t, replacement f w = w) :
    replaceWords f t = t := by
  rw [replaceWords_congr_words (g := fun _ => none) h, replaceWords_none]

section Passes

variable {α : Type} {pass : Segment → List α} {k : Char → List α}

/-- What a pass over segments makes of a segment whose word is replaced first. -/
def passReplaced (f : Text → Option Text) (pass : Segment → List α) : Segment → List α
  | .word w => (segments (replacement f w)).flatMap pass
  | s => pass s

/-- A pass over a text with words replaced is a pass over the text, if it treats the characters
between words one by one. -/
theorem flatMap_segments_replaceWords (hother : ∀ t, pass (.other t) = t.flatMap k)
    (hf : ∀ w r, f w = some r → mark ∉ r) (t : Text) :
    (segments (replaceWords f t)).flatMap pass = (segments t).flatMap (passReplaced f pass) := by
  fun_induction segments t with
  | case1 => simp [replaceWords, segments]
  | case2 rest ih =>
    rw [replaceWords_mark, List.cons_append, segments, if_pos rfl, throughMark_replaceWords,
      afterMark_replaceWords, List.flatMap_cons, ih]
    rfl
  | case3 c rest hc hw ih =>
    obtain ⟨-, hrun⟩ := exists_run hw rest
    have hmark : mark ∉ replacement f (c :: rest.takeWhile isWordChar) := by
      unfold replacement
      cases hfw : f (c :: rest.takeWhile isWordChar) with
      | none => exact fun hmem => ne_mark_of_isWordChar (hrun mark hmem) rfl
      | some r => exact hf _ r hfw
    rw [replaceWords_word hw, ← replacement,
      (Sealed.of_not_mem (n := 0) hmark).flatMap_segments_append hother
      fun _ _ _ => startsNoWord_replaceWords (startsNoWord_dropWhile rest), ih]
    rfl
  | case4 c rest hc hw ih =>
    have ho : isOtherChar c = true := by simp [isOtherChar, hw, hc]
    obtain ⟨-, hrun⟩ := exists_run ho rest
    rw [replaceWords_other ho, Sealed.flatMap_segments_others hother hrun, ih, ← hother]
    rfl

end Passes

/-- The words of a text with words replaced are those of the replacements. -/
theorem words_replaceWords_of_unmarked (hf : ∀ w r, f w = some r → mark ∉ r) (t : Text) :
    words (replaceWords f t) = (words t).flatMap fun w => words (replacement f w) := by
  rw [Sealed.words_eq_flatMap, flatMap_segments_replaceWords (k := fun _ => [])
    (fun u => by simp [Segment.word?]) hf, Sealed.words_eq_flatMap, List.flatMap_assoc]
  refine List.flatMap_congr fun s _ => ?_
  cases s with
  | word w =>
    rw [passReplaced, ← Sealed.words_eq_flatMap]
    exact (List.append_nil _).symm
  | placeholder u => rfl
  | other u => rfl

/-- Words are replaced in the replacements. -/
theorem replaceWords_replaceWords_of_unmarked (hf : ∀ w r, f w = some r → mark ∉ r)
    (g : Text → Option Text) (t : Text) :
    replaceWords g (replaceWords f t) = replaceWords
    (fun w => some (replaceWords g (replacement f w))) t := by
  rw [replaceWords, flatMap_segments_replaceWords (k := fun c => [c])
    (fun u => by simp [Segment.replaced, Segment.text]) hf, replaceWords]
  refine List.flatMap_congr fun s _ => ?_
  cases s <;> rfl

end
end ScriptMinifier.Text
