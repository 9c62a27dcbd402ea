import ScriptMinifier.Proofs.Literal.Wordwise
import ScriptMinifier.Proofs.Substitution.Sealing
import ScriptMinifier.Proofs.Text.Lines

/-! Replacing words, piece by piece.

A name or a number that takes the place of a word has none of the characters that structure a
text. So replacing the words of a sealed text replaces them in each of its lines
(`pieces_replaceWords`) and in each of its arguments (`argumentsFrom_replaceWords`), and the
parenthesis that closes an argument list still closes it (`closeFrom_replaceWords`). -/
namespace ScriptMinifier

open Literal (placeholder)
open Text (mark Segment isWordChar isOtherChar StartsNoWord replaceWords closeFrom argumentsFrom)

namespace Text

/-- Replacements by what names and numbers are made of. -/
def Smooth (f : Text → Option Text) : Prop :=
  ∀ w r, f w = some r → r ≠ [] ∧ ∀ c ∈ r, isSmooth c = true

theorem not_mem_of_isSmooth {t : Text} (h : ∀ c ∈ t, isSmooth c = true) {c : Char}
    (hc : isSmooth c = false) : c ∉ t := by
  intro hmem
  rw [h c hmem] at hc
  cases hc

section

variable {f : Text → Option Text}

theorem Smooth.getD (hf : Smooth f) {w : Text} (hne : w ≠ []) (hw : ∀ c ∈ w, isWordChar c = true) :
    (f w).getD w ≠ [] ∧ ∀ c ∈ (f w).getD w, isSmooth c = true := by
  cases hfw : f w with
  | none => exact ⟨hne, fun c hc => isSmooth_of_isWordChar (hw c hc)⟩
  | some r => exact hf w r hfw

theorem replaceWords_nil : replaceWords f [] = [] := by
  rw [replaceWords, segments]
  rfl

theorem replaceWords_run {w t : Text} (hne : w ≠ []) (hw : ∀ c ∈ w, isWordChar c = true)
    (ht : StartsNoWord t) :
    replaceWords f (w ++ t) = (f w).getD w ++ replaceWords f t := by
  rw [replaceWords, segments_word hne hw ht]
  rfl

theorem replaceWords_placeholder (k : Nat) (t : Text) :
    replaceWords f (placeholder k ++ t) = placeholder k ++ replaceWords f t := by
  rw [replaceWords, Literal.segments_placeholder]
  rfl

end

end Text

namespace Sealed

variable {n : Nat} {s t : Text} {f : Text → Option Text}

/-- The words of two sealed texts that no word joins are replaced in each. -/
theorem replaceWords_append (hs : Sealed n s)
    (hcut : ∀ c ∈ s.getLast?, isWordChar c = true → StartsNoWord t) :
    Text.replaceWords f (s ++ t) = Text.replaceWords f s ++ Text.replaceWords f t :=
  hs.flatMap_segments_append (g := fun c => [c])
    (fun u => by simp [Segment.replaced, Segment.text]) hcut

theorem replaceWords_append_cons {c : Char} (hc : isOtherChar c = true) (hs : Sealed n s) :
    Text.replaceWords f (s ++ c :: t) = Text.replaceWords f s ++ c :: Text.replaceWords f t := by
  have hone : Text.replaceWords f (c :: t) = c :: Text.replaceWords f t :=
    (flatMap_segments_others (s := [c]) (g := fun c => [c])
      (fun u => by simp [Segment.replaced, Segment.text])
      (by simpa using hc) t)
  rw [hs.replaceWords_append fun _ _ _ => Text.startsNoWord_of_isOtherChar hc t, hone]

theorem replaceWords_cons {c : Char} (hc : isOtherChar c = true) (t : Text) :
    Text.replaceWords f (c :: t) = c :: Text.replaceWords f t := by
  have h := replaceWords_append_cons (n := 0) (f := f) (t := t) hc .nil
  rwa [List.nil_append, Text.replaceWords_nil] at h

/-- A character of the new text was there before, or came with a replacement. -/
theorem mem_replaceWords {c : Char} (h : c ∈ Text.replaceWords f t) :
    c ∈ t ∨ ∃ w r, f w = some r ∧ c ∈ r := by
  rw [Text.replaceWords, List.mem_flatMap] at h
  obtain ⟨g, hg, hc⟩ := h
  have hold : c ∈ g.text → c ∈ t := by
    intro hc
    rw [← Text.flatMap_text_segments t]
    exact List.mem_flatMap.2 ⟨g, hg, hc⟩
  cases g with
  | word w =>
    rw [Segment.replaced] at hc
    cases hfw : f w with
    | none =>
      rw [hfw] at hc
      exact .inl (hold hc)
    | some r =>
      rw [hfw] at hc
      exact .inr ⟨w, r, hfw, hc⟩
  | placeholder u => exact .inl (hold hc)
  | other u => exact .inl (hold hc)

theorem not_mem_replaceWords (hf : Text.Smooth f) {c : Char} (hc : Text.isSmooth c = false)
    (h : c ∉ t) :
    c ∉ Text.replaceWords f t := by
  intro hmem
  rcases mem_replaceWords hmem with hold | ⟨w, r, hr, hcr⟩
  · exact h hold
  · exact Text.not_mem_of_isSmooth (hf w r hr).2 hc hcr

theorem replaceWords_ne_nil (hf : Text.Smooth f) (hne : t ≠ []) : Text.replaceWords f t ≠ [] := by
  obtain ⟨c, rest, rfl⟩ := List.exists_cons_of_ne_nil hne
  by_cases hmark : c = mark
  · rw [hmark, Text.replaceWords_mark]
    simp
  · by_cases hw : isWordChar c = true
    · rw [Text.replaceWords_word hw]
      have hfirst := (hf.getD (by simp) (Text.exists_run hw rest).2).1
      exact fun hnil => hfirst (List.append_eq_nil_iff.1 hnil).1
    · rw [Text.replaceWords_other (by simp [isOtherChar, hw, hmark])]
      simp

/-- The last character stays, unless it ends a word. -/
theorem getLast?_replaceWords (hf : Text.Smooth f) (h : Sealed n t) :
    ∀ c ∈ (Text.replaceWords f t).getLast?,
      c ∈ t.getLast? ∨ Text.isSmooth c = true ∧ ∃ d ∈ t.getLast?, isWordChar d = true := by
  -- what stands before a text that is not empty does not count
  have hmore : ∀ {u v s : Text}, s ≠ [] → (∀ c ∈ (Text.replaceWords f s).getLast?,
        c ∈ s.getLast? ∨ Text.isSmooth c = true ∧ ∃ d ∈ s.getLast?, isWordChar d = true) →
      ∀ c ∈ (v ++ Text.replaceWords f s).getLast?,
        c ∈ (u ++ s).getLast? ∨ Text.isSmooth c = true ∧ ∃ d ∈ (u ++ s).getLast?,
          isWordChar d = true := by
    intro u v s hne ih
    rwa [List.getLast?_append_of_ne_nil _ (replaceWords_ne_nil hf hne),
      List.getLast?_append_of_ne_nil _ hne]
  refine wordwise (motive := fun t => ∀ c ∈ (Text.replaceWords f t).getLast?,
    c ∈ t.getLast? ∨ Text.isSmooth c = true ∧ ∃ d ∈ t.getLast?, isWordChar d = true) ?nil ?other
      ?word ?literal h
  case nil =>
    rw [Text.replaceWords_nil]
    nofun
  case other =>
    intro c t hc _ ih
    rw [replaceWords_cons hc]
    by_cases hnil : t = []
    · rw [hnil, Text.replaceWords_nil]
      exact fun d hd => .inl hd
    · exact hmore (u := [c]) (v := [c]) hnil ih
  case word =>
    intro w t hne hw hnext _ ih
    rw [Text.replaceWords_run hne hw hnext]
    by_cases hnil : t = []
    · rw [hnil, Text.replaceWords_nil, List.append_nil, List.append_nil]
      intro c hc
      refine .inr ⟨(hf.getD hne hw).2 c (List.mem_of_getLast? hc), ?_⟩
      exact ⟨w.getLast hne, List.getLast?_eq_some_getLast hne, hw _ (List.getLast_mem hne)⟩
    · exact hmore hnil ih
  case literal =>
    intro k t _ _ ih
    rw [Text.replaceWords_placeholder]
    by_cases hnil : t = []
    · rw [hnil, Text.replaceWords_nil]
      exact fun c hc => .inl hc
    · exact hmore hnil ih

/-! ### Lines -/

theorem replaceWords_joined {c : Char} (hc : isOtherChar c = true) {ts : List Text}
    (h : ∀ t ∈ ts, Sealed n t) :
    Text.replaceWords f (Text.joined c ts) = Text.joined c (ts.map (Text.replaceWords f)) := by
  match ts with
  | [] => exact Text.replaceWords_nil
  | [t] => simp [Text.joined, List.intercalate]
  | t :: u :: more =>
    rw [List.forall_mem_cons] at h
    rw [Text.joined_cons_cons, h.1.replaceWords_append_cons hc, replaceWords_joined hc h.2]
    exact (Text.joined_cons_cons ..).symm

/-- The pieces of a text have their words replaced one by one. -/
theorem pieces_replaceWords {c : Char} (hc : isOtherChar c = true)
    (hsmooth : Text.isSmooth c = false)
    (hfree : Literal.isFree c = true) (hf : Text.Smooth f) (h : Sealed n t) :
    Text.pieces c (Text.replaceWords f t) = (Text.pieces c t).map (Text.replaceWords f) := by
  have hjoined :
      Text.replaceWords f t = Text.joined c ((Text.pieces c t).map (Text.replaceWords f)) := by
    conv => lhs; rw [← Text.joined_pieces c t]
    exact replaceWords_joined hc (h.pieces hfree)
  rw [hjoined, Text.pieces_joined (by simpa using Text.pieces_ne_nil c t)]
  intro line hline
  obtain ⟨piece, hpiece, rfl⟩ := List.mem_map.1 hline
  exact not_mem_replaceWords hf hsmooth (Text.not_mem_of_mem_pieces hpiece)

end Sealed

/-! ### The closing parenthesis -/

namespace Text

/-- A cut moved back over what stands before it. -/
def cutAfter (s : Text) (cut : Option (Text × Text)) : Option (Text × Text) :=
  cut.map fun (before, after) => (s ++ before, after)

theorem cutAfter_eq_some {s before after : Text} {cut : Option (Text × Text)}
    (h : cutAfter s cut = some (s ++ before, after)) : cut = some (before, after) := by
  rw [cutAfter, Option.map_eq_some_iff] at h
  obtain ⟨⟨before', after'⟩, hcut, heq⟩ := h
  rw [Prod.mk.injEq] at heq
  rw [hcut, List.append_cancel_left heq.1, heq.2]

theorem extendCut_cutAfter (c : Char) (s : Text) (cut : Option (Text × Text)) :
    extendCut c (cutAfter s cut) = cutAfter (c :: s) cut := by
  rw [extendCut, cutAfter, Option.map_map]
  rfl

/-- A run that neither opens nor closes nor holds a literal is passed over. -/
theorem closeFrom_run {w : Text} (hw : ∀ c ∈ w, isSmooth c = true) (depth : Nat) (t : Text) :
    closeFrom depth false (w ++ t) = cutAfter w (closeFrom depth false t) := by
  induction w with
  | nil => cases h : closeFrom depth false t <;> simp [cutAfter, h]
  | cons c rest ih =>
    rw [List.forall_mem_cons] at hw
    have hne : ∀ d, isSmooth d = false → c ≠ d := by
      rintro d hd rfl
      rw [hw.1] at hd
      cases hd
    rw [List.cons_append, closeFrom, if_neg Bool.false_ne_true, if_neg (hne mark (by decide)),
      if_neg (hne '(' (by decide)), if_neg (hne ')' (by decide)), ih hw.2, extendCut_cutAfter]

theorem closeFrom_hidden {s : Text} (hs : mark ∉ s) (depth : Nat) (t : Text) :
    closeFrom depth true (s ++ mark :: t) = cutAfter (s ++ [mark]) (closeFrom depth false t) := by
  induction s with
  | nil =>
    rw [List.nil_append, closeFrom, if_pos rfl]
    rfl
  | cons c rest ih =>
    rw [List.mem_cons, not_or] at hs
    rw [List.cons_append, closeFrom, if_pos rfl, bne_iff_ne.2 (Ne.symm hs.1), ih hs.2,
      extendCut_cutAfter]
    rfl

theorem closeFrom_placeholder (k depth : Nat) (t : Text) :
    closeFrom depth false (placeholder k ++ t) = cutAfter (placeholder k)
    (closeFrom depth false t) := by
  rw [Literal.placeholder_append, closeFrom, if_neg Bool.false_ne_true, if_pos rfl,
    closeFrom_hidden (Literal.mark_not_mem_ofNat k), extendCut_cutAfter]
  rfl

end Text

namespace Sealed

variable {n : Nat} {s t : Text} {f : Text → Option Text}

/-- The parenthesis that closes a list closes it when words are replaced. -/
theorem closeFrom_replaceWords (hf : Text.Smooth f) (h : Sealed n s) {depth : Nat} (t' : Text)
    (hclose : closeFrom depth false (s ++ ')' :: t) = some (s, t)) :
    closeFrom depth false (Text.replaceWords f s ++ ')' :: t') = some
    (Text.replaceWords f s, t') := by
  refine wordwise (motive := fun s => ∀ depth, closeFrom depth false (s ++ ')' :: t) = some (s, t) →
    closeFrom depth false (Text.replaceWords f s ++ ')' :: t') = some (Text.replaceWords f s, t'))
    ?nil ?other ?word ?literal h depth hclose
  case nil =>
    intro depth hclose
    rw [Text.replaceWords_nil]
    cases depth with
    | zero => rfl
    | succ depth =>
      obtain ⟨tail, htail, -⟩ := Text.extendCut_eq_some.1 hclose
      cases htail
  case other =>
    intro c s hc _ ih depth hclose
    have hmark := Text.ne_mark_of_isOtherChar hc
    have hstep : ∀ d, Text.extendCut c (closeFrom d false (s ++ ')' :: t)) = some (c :: s, t) →
        Text.extendCut c (closeFrom d false (Text.replaceWords f s ++ ')' :: t')) =
          some (c :: Text.replaceWords f s, t') := by
      intro d hd
      obtain ⟨tail, htail, hcut⟩ := Text.extendCut_eq_some.1 hd
      rw [← (List.cons.inj htail).2] at hcut
      exact Text.extendCut_eq_some.2 ⟨_, rfl, ih d hcut⟩
    rw [replaceWords_cons hc]
    rw [List.cons_append, closeFrom, if_neg Bool.false_ne_true, if_neg hmark] at hclose ⊢
    by_cases hopen : c = '('
    · rw [if_pos hopen] at hclose ⊢
      exact hstep _ hclose
    rw [if_neg hopen] at hclose ⊢
    by_cases hshut : c = ')'
    · rw [if_pos hshut] at hclose ⊢
      by_cases hzero : depth = 0
      · rw [if_pos hzero] at hclose
        cases hclose
      · rw [if_neg hzero] at hclose ⊢
        exact hstep _ hclose
    · rw [if_neg hshut] at hclose ⊢
      exact hstep _ hclose
  case word =>
    intro w s hne hw hnext _ ih depth hclose
    have hsmooth : ∀ c ∈ w, Text.isSmooth c = true :=
      fun c hc => Text.isSmooth_of_isWordChar (hw c hc)
    rw [List.append_assoc, Text.closeFrom_run hsmooth] at hclose
    rw [Text.replaceWords_run hne hw hnext, List.append_assoc,
      Text.closeFrom_run (hf.getD hne hw).2, ih depth (Text.cutAfter_eq_some hclose)]
    rfl
  case literal =>
    intro k s _ _ ih depth hclose
    rw [List.append_assoc, Text.closeFrom_placeholder] at hclose
    rw [Text.replaceWords_placeholder, List.append_assoc, Text.closeFrom_placeholder,
      ih depth (Text.cutAfter_eq_some hclose)]
    rfl

end Sealed

/-! ### Arguments -/

namespace Text

theorem extendFirst_eq_modifyHead (c : Char) {ts : List Text} (h : ts ≠ []) :
    extendFirst c ts = ts.modifyHead (c :: ·) := by
  obtain ⟨t, more, rfl⟩ := List.exists_cons_of_ne_nil h
  rfl

theorem extendFirst_modifyHead (c : Char) (s : Text) {ts : List Text} (h : ts ≠ []) :
    extendFirst c (ts.modifyHead (s ++ ·)) = ts.modifyHead (c :: s ++ ·) := by
  obtain ⟨t, more, rfl⟩ := List.exists_cons_of_ne_nil h
  rfl

/-- A run that neither nests nor separates nor holds a literal belongs to the first argument. -/
theorem argumentsFrom_run {w : Text} (hw : ∀ c ∈ w, isSmooth c = true) (depth : Nat) (t : Text) :
    argumentsFrom depth false (w ++ t) = (argumentsFrom depth false t).modifyHead (w ++ ·) := by
  induction w with
  | nil => cases h : argumentsFrom depth false t <;> simp [h]
  | cons c rest ih =>
    rw [List.forall_mem_cons] at hw
    have hne : ∀ d, isSmooth d = false → c ≠ d := by
      rintro d hd rfl
      rw [hw.1] at hd
      cases hd
    have hopen : ¬ (c = '(' ∨ c = '[') := not_or.2 ⟨hne _ (by decide), hne _ (by decide)⟩
    have hshut : ¬ (c = ')' ∨ c = ']') := not_or.2 ⟨hne _ (by decide), hne _ (by decide)⟩
    rw [List.cons_append, argumentsFrom, if_neg Bool.false_ne_true, if_neg (hne mark (by decide)),
      if_neg hopen, if_neg hshut, if_neg fun h => hne ',' (by decide) h.1, ih hw.2,
      extendFirst_modifyHead c rest (argumentsFrom_ne_nil _ _ _)]

theorem argumentsFrom_hidden {s : Text} (hs : mark ∉ s) (depth : Nat) (t : Text) :
    argumentsFrom depth true (s ++ mark :: t) = (argumentsFrom depth false t).modifyHead
    (s ++ [mark] ++ ·) := by
  induction s with
  | nil =>
    rw [List.nil_append, argumentsFrom, if_pos rfl]
    exact extendFirst_eq_modifyHead mark (argumentsFrom_ne_nil _ _ _)
  | cons c rest ih =>
    rw [List.mem_cons, not_or] at hs
    rw [List.cons_append, argumentsFrom, if_pos rfl, bne_iff_ne.2 (Ne.symm hs.1), ih hs.2,
      extendFirst_modifyHead c _ (argumentsFrom_ne_nil _ _ _)]
    rfl

theorem argumentsFrom_placeholder (k depth : Nat) (t : Text) :
    argumentsFrom depth false (placeholder k ++ t) = (argumentsFrom depth false t).modifyHead
    (placeholder k ++ ·) := by
  rw [Literal.placeholder_append, argumentsFrom, if_neg Bool.false_ne_true, if_pos rfl,
    argumentsFrom_hidden (Literal.mark_not_mem_ofNat k),
    extendFirst_modifyHead mark _ (argumentsFrom_ne_nil _ _ _)]
  rfl

/-- The first argument is what the list starts with. -/
theorem startsNoWord_argumentsFrom {t : Text} (ht : StartsNoWord t) (depth : Nat) :
    ∀ first ∈ (argumentsFrom depth false t).head?, StartsNoWord first := by
  intro first hfirst
  obtain ⟨more, hargs⟩ := List.head?_eq_some_iff.1 hfirst
  have hjoined := Substitution.joined_argumentsFrom depth false t
  rw [hargs] at hjoined
  intro c rest hc
  obtain ⟨tail, htail⟩ : ∃ tail, t = c :: tail := by
    rw [← hjoined, hc]
    cases more with
    | nil => exact ⟨rest, by simp [joined, List.intercalate]⟩
    | cons second more => exact ⟨_, by rw [joined_cons_cons, List.cons_append]⟩
  exact ht c tail htail

end Text

namespace Sealed

variable {n : Nat} {t : Text} {f : Text → Option Text}

/-- The arguments of a list have their words replaced one by one. -/
theorem argumentsFrom_replaceWords (hf : Text.Smooth f) (h : Sealed n t) (depth : Nat) :
    argumentsFrom depth false (Text.replaceWords f t) = (argumentsFrom depth false t).map
    (Text.replaceWords f) := by
  -- what is put before the first argument goes through
  have hhead : ∀ {s u : Text} {ts : List Text}, ts ≠ [] →
      (∀ first ∈ ts.head?, Text.replaceWords f (s ++ first) = u ++ Text.replaceWords f first) →
      (ts.map (Text.replaceWords f)).modifyHead (u ++ ·) =
        (ts.modifyHead (s ++ ·)).map (Text.replaceWords f) := by
    intro s u ts hne hs
    obtain ⟨first, more, rfl⟩ := List.exists_cons_of_ne_nil hne
    rw [List.modifyHead_cons, List.map_cons, List.map_cons, List.modifyHead_cons, hs first rfl]
  refine wordwise (motive := fun t => ∀ depth, argumentsFrom depth false (Text.replaceWords f t) =
    (argumentsFrom depth false t).map (Text.replaceWords f)) ?nil ?other ?word ?literal h depth
  case nil =>
    intro depth
    rw [Text.replaceWords_nil, argumentsFrom, List.map_singleton, Text.replaceWords_nil]
  case other =>
    intro c t hc _ ih depth
    have hstep : ∀ d, Text.extendFirst c (argumentsFrom d false (Text.replaceWords f t)) =
        (Text.extendFirst c (argumentsFrom d false t)).map (Text.replaceWords f) := by
      intro d
      rw [ih d,
        Text.extendFirst_eq_modifyHead c (by simpa using Text.argumentsFrom_ne_nil d false t),
        Text.extendFirst_eq_modifyHead c (Text.argumentsFrom_ne_nil d false t)]
      exact hhead (s := [c]) (u := [c]) (Text.argumentsFrom_ne_nil d false t) fun first _ =>
        replaceWords_cons hc first
    rw [replaceWords_cons hc, argumentsFrom, argumentsFrom, if_neg Bool.false_ne_true,
      if_neg Bool.false_ne_true, if_neg (Text.ne_mark_of_isOtherChar hc),
      if_neg (Text.ne_mark_of_isOtherChar hc)]
    split
    · exact hstep _
    · split
      · exact hstep _
      · split
        · rw [ih depth, List.map_cons, Text.replaceWords_nil]
        · exact hstep _
  case word =>
    intro w t hne hw hnext _ ih depth
    rw [Text.replaceWords_run hne hw hnext, Text.argumentsFrom_run (hf.getD hne hw).2, ih depth,
      Text.argumentsFrom_run fun c hc => Text.isSmooth_of_isWordChar (hw c hc)]
    refine hhead (Text.argumentsFrom_ne_nil depth false t) fun first hfirst => ?_
    exact Text.replaceWords_run hne hw (Text.startsNoWord_argumentsFrom hnext depth first hfirst)
  case literal =>
    intro k t _ _ ih depth
    rw [Text.replaceWords_placeholder, Text.argumentsFrom_placeholder, ih depth,
      Text.argumentsFrom_placeholder]
    exact hhead (Text.argumentsFrom_ne_nil depth false t) fun first _ =>
      Text.replaceWords_placeholder k first

end Sealed
end ScriptMinifier
