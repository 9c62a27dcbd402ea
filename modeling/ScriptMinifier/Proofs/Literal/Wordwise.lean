import ScriptMinifier.Proofs.Literal.Sealed

/-! Sealed texts, word by word.

A sealed text is a sequence of words, single other characters and placeholders, where no word runs
on into the next (`Sealed.wordwise`). The words of two sealed texts side by side are those of each
when no word joins them (`Sealed.words_append`), so trimming loses none and makes none
(`Sealed.words_trim`), and a squeezed line runs no two together
(`Sealed.startsNoWord_squeezeFrom`). -/
namespace ScriptMinifier

open Literal (placeholder)
open Text (mark isWordChar isOtherChar isBlank StartsNoWord words)

theorem Literal.segments_placeholder (k : Nat) (t : Text) :
    Text.segments (placeholder k ++ t) = .placeholder (placeholder k) :: Text.segments t :=
  Text.segments_placeholder (Literal.mark_not_mem_ofNat k) t

theorem Literal.startsNoWord_placeholder (k : Nat) (t : Text) :
    StartsNoWord (placeholder k ++ t) := by
  intro c rest hc
  rw [Literal.placeholder_append] at hc
  rw [← (List.cons.inj hc).1]
  decide

namespace Sealed

variable {n : Nat} {s t : Text}

/-- Induction over the words, the other characters and the placeholders of a sealed text. -/
theorem wordwise {motive : Text → Prop} (nil : motive [])
    (other : ∀ c t, isOtherChar c = true → Sealed n t → motive t → motive (c :: t))
    (word : ∀ w t, w ≠ [] → (∀ c ∈ w, isWordChar c = true) → StartsNoWord t → Sealed n t →
      motive t → motive (w ++ t))
    (literal : ∀ k t, k < n → Sealed n t → motive t → motive (placeholder k ++ t))
    (h : Sealed n t) : motive t := by
  induction t using Text.wordwise with
  | nil => exact nil
  | placeholder rest ih =>
    obtain ⟨k, rest', hk, rfl, hrest⟩ := h.of_mark
    rw [afterMark_ofNat] at ih
    rw [← Literal.placeholder_append]
    exact literal k rest' hk hrest (ih hrest)
  | word w t hne hw ht ih => exact word w t hne hw ht (h.of_word hw ht) (ih (h.of_word hw ht))
  | other c t hc ih =>
    have hrest := h.tail (Text.ne_mark_of_isOtherChar hc)
    exact other c t hc hrest (ih hrest)

/-! ### Segments -/

theorem of_append_of_not_mem (ht : mark ∉ t) (h : Sealed n (s ++ t)) : Sealed n s := by
  generalize hu : s ++ t = u at h
  induction h generalizing s with
  | nil =>
    rw [(List.append_eq_nil_iff.1 hu).1]
    exact .nil
  | @char c u hc rest ih =>
    cases s with
    | nil => exact .nil
    | cons d s =>
      rw [List.cons_append, List.cons.injEq] at hu
      rw [hu.1]
      exact .char hc (ih hu.2)
  | @literal k u hk rest ih =>
    rcases List.append_eq_append_iff.1 hu with ⟨x, hx, hrest⟩ | ⟨x, rfl, hrest⟩
    · -- a text that ends inside the placeholder leaves its last mark to `t`
      cases hlast : x.getLast? with
      | none =>
        rw [List.getLast?_eq_none_iff.1 hlast, List.append_nil] at hx
        have hs := Sealed.literal hk (t := []) .nil
        rwa [List.append_nil, hx] at hs
      | some c =>
        have hmark := congrArg List.getLast? hx
        rw [placeholder, List.getLast?_append, List.getLast?_append, hlast] at hmark
        rw [← show mark = c from Option.some.inj hmark] at hlast
        refine absurd ?_ ht
        rw [hrest]
        exact List.mem_append_left _ (List.mem_of_getLast? hlast)
    · exact .literal hk (ih hrest.symm)

/-- The segments of a sealed text and of what follows it, where no word and no run between
words goes on from one to the other. -/
theorem segments_append (h : Sealed n s)
    (hword : ∀ c ∈ s.getLast?, isWordChar c = true → StartsNoWord t)
    (hother : ∀ c ∈ s.getLast?, isOtherChar c = true → ∀ d ∈ t.head?, isOtherChar d = false) :
    Text.segments (s ++ t) = Text.segments s ++ Text.segments t := by
  fun_induction Text.segments s with
  | case1 => rfl
  | case2 rest ih =>
    obtain ⟨k, rest', -, rfl, hrest⟩ := h.of_mark
    rw [afterMark_ofNat] at ih ⊢
    rw [← Literal.placeholder_append] at hword hother
    rw [throughMark_ofNat, ← Literal.placeholder_append, List.append_assoc,
      Literal.segments_placeholder,
      ih hrest (Text.forall_getLast?_of_append hword) (Text.forall_getLast?_of_append hother)]
    rfl
  | case3 c rest hmark hw ih =>
    obtain ⟨hsplit, hrun⟩ := Text.exists_run hw rest
    have hrest := Text.startsNoWord_dropWhile rest
    rw [hsplit] at hword hother ⊢
    rw [List.append_assoc, Text.segments_word (by simp) hrun
      (hrest.append_of_cut (by simp) hrun hword),
      ih ((h.tail hmark).dropWhile Text.not_isWordChar_mark) (Text.forall_getLast?_of_append hword)
        (Text.forall_getLast?_of_append hother)]
    rfl
  | case4 c rest hmark hw ih =>
    have ho : isOtherChar c = true := by simp [isOtherChar, hw, hmark]
    obtain ⟨hsplit, hrun⟩ := Text.exists_run ho rest
    have hrest := Text.head?_dropWhile (p := isOtherChar) rest
    rw [hsplit] at hword hother ⊢
    by_cases hnil : rest.dropWhile isOtherChar = []
    · rw [hnil, List.append_nil] at hother
      have hlast := hother _ (List.getLast?_eq_some_getLast (by simp)) (hrun _ (List.getLast_mem _))
      rw [hnil, List.append_nil, Text.segments_others (by simp) hrun hlast, Text.segments]
      rfl
    · have hnext : ∀ d ∈ (rest.dropWhile isOtherChar ++ t).head?, isOtherChar d = false := by
        rwa [List.head?_append_of_ne_nil _ hnil]
      rw [List.append_assoc, Text.segments_others (by simp) hrun hnext,
        ih ((h.tail hmark).dropWhile (by decide)) (Text.forall_getLast?_of_append hword)
          (Text.forall_getLast?_of_append hother)]
      rfl

/-! ### Words -/

theorem words_eq_flatMap (t : Text) :
    words t = (Text.segments t).flatMap fun g => g.word?.toList := by
  rw [words, List.filterMap_eq_flatMap_toList]

theorem words_placeholder (k : Nat) (t : Text) : words (placeholder k ++ t) = words t := by
  rw [words, Literal.segments_placeholder]
  rfl

/-- The words of two sealed texts that no word joins. -/
theorem words_append (hs : Sealed n s)
    (hcut : ∀ c ∈ s.getLast?, isWordChar c = true → StartsNoWord t) :
    words (s ++ t) = words s ++ words t := by
  simp only [words_eq_flatMap]
  exact hs.flatMap_segments_append (g := fun _ => []) (fun u => by simp [Text.Segment.word?]) hcut

/-- A character that is part of no word parts the words before it from those after. -/
theorem words_append_cons {c : Char} (hc : isOtherChar c = true) (hs : Sealed n s) :
    words (s ++ c :: t) = words s ++ words t := by
  rw [hs.words_append fun _ _ _ => ?_, Text.words_other hc]
  intro d rest hd
  rw [← (List.cons.inj hd).1]
  exact Text.not_isWordChar_of_isOtherChar hc

theorem words_trimStart (t : Text) : words (Text.trimStart t) = words t := by
  have hblank : ∀ c ∈ t.takeWhile isBlank, isOtherChar c = true :=
    fun c hc => Text.isOtherChar_of_isBlank (List.all_eq_true.1 List.all_takeWhile c hc)
  have hwords := Text.words_others hblank (Text.trimStart t)
  rwa [Text.trimStart, List.takeWhile_append_dropWhile, eq_comm] at hwords

theorem words_trimEnd (h : Sealed n t) : words (Text.trimEnd t) = words t := by
  obtain ⟨blanks, hsplit, hblank⟩ := Text.exists_trimEnd t
  have hother : ∀ c ∈ blanks, isOtherChar c = true :=
    fun c hc => Text.isOtherChar_of_isBlank (hblank c hc)
  have hnone : words blanks = [] := by
    have := Text.words_others hother []
    rwa [List.append_nil, Text.words_nil] at this
  have hcut : ∀ c ∈ (Text.trimEnd t).getLast?, isWordChar c = true → StartsNoWord blanks := by
    rintro - - - d rest rfl
    exact Text.not_isWordChar_of_isOtherChar (hother d List.mem_cons_self)
  conv => rhs; rw [hsplit]
  rw [h.trimEnd.words_append hcut, hnone, List.append_nil]

theorem words_trim (h : Sealed n t) : words (Text.trim t) = words t := by
  rw [Text.trim, h.trimStart.words_trimEnd, words_trimStart]

theorem words_joined {sep : Char} (hsep : isOtherChar sep = true) {ts : List Text}
    (h : ∀ t ∈ ts, Sealed n t) :
    words (Text.joined sep ts) = ts.flatMap words := by
  match ts with
  | [] => exact Text.words_nil
  | [t] => simp [Text.joined, List.intercalate]
  | t :: u :: more =>
    rw [List.forall_mem_cons] at h
    rw [Text.joined_cons_cons, h.1.words_append_cons hsep, words_joined hsep h.2]
    rfl

/-! ### Squeezing -/

open Layout (separates isTight)

theorem isOtherChar_of_isHorizontal {c : Char} (h : Text.isHorizontal c = true) :
    isOtherChar c = true :=
  Text.isOtherChar_of_isBlank (Text.isBlank_of_isHorizontal c h)

theorem not_isWordChar_of_isTight {c : Char} (h : isTight c = true) : isWordChar c = false := by
  have hall : ∀ d ∈ ['=', '*', ',', '+', '/', '>', '<', '[', ']', '(', ')', '-', '!'],
      isWordChar d = false := by
    decide
  exact hall c (List.contains_iff_mem.1 h)

/-- A line goes on after a word with no other word: blanks leave a space, or what follows them
is tight. -/
theorem startsNoWord_squeezeFrom {before : Char} (hbefore : isTight before = false) {t : Text}
    {pending : Bool}
    (h : pending = false → StartsNoWord t) :
    StartsNoWord (Layout.squeezeFrom (some before) pending t) := by
  induction t generalizing pending with
  | nil =>
    intro d more hd
    cases hd
  | cons c rest ih =>
    rw [Layout.squeezeFrom]
    split
    · refine ih fun hpending => ?_
      cases hpending
    · split
      · rintro d more hd
        rw [← (List.cons.inj hd).1]
        decide
      · rename_i hspace
        rintro d more hd
        rw [← (List.cons.inj hd).1]
        cases pending with
        | false => exact h rfl c rest rfl
        | true =>
          apply not_isWordChar_of_isTight
          simpa [separates, hbefore] using hspace

theorem words_of_space {b : Bool} (t : Text) :
    words ((if b then [' '] else []) ++ t) = words t := by
  cases b
  · rfl
  · exact Text.words_other (by decide) t

theorem not_isHorizontal_of_isWordChar {c : Char} (h : isWordChar c = true) :
    Text.isHorizontal c = false := by
  rw [Bool.eq_false_iff]
  intro hblank
  rw [Text.not_isWordChar_of_isOtherChar (isOtherChar_of_isHorizontal hblank)] at h
  cases h

theorem not_isTight_of_isWordChar {c : Char} (h : isWordChar c = true) : isTight c = false := by
  rw [Bool.eq_false_iff]
  intro ht
  rw [not_isWordChar_of_isTight ht] at h
  cases h

end Sealed
end ScriptMinifier
