import ScriptMinifier.Proofs.Output.Writing
import ScriptMinifier.Proofs.Text.Standing
import ScriptMinifier.Proofs.Usage.Taking

/-! What is read where a text was written.

A text is written with its numbers short and its literals put back, and read with its literals
under new numbers. So words and characters come back, and a literal as one with the same text; a
number may come back as other digits or as a literal, and one after a dollar sign without the
sign, so that it joins the word before it (`Reread`). What is read can be cut where the text can
be cut (`Reread.of_append`). -/
namespace ScriptMinifier

open Literal (placeholder isFree placeholder_append)
open Text (isOtherChar isWordChar mark StartsNoWord words)

/-- What can be read where a number was written. Only a long number becomes a literal. -/
inductive NumberRead (ls : Literals) (long : Prop) : Text → Prop
  | digits {v : Text} (hne : v ≠ []) (hv : ∀ c ∈ v, c.isDigit = true) : NumberRead ls long v
  | literal {k : Nat} {raw : Text} (hlong : long) (hget : ls.get? k = some raw) :
      NumberRead ls long (placeholder k)

/-- What is read under the table `ls'` where a text was written under the table `ls`. -/
inductive Reread (ls ls' : Literals) : Text → Text → Prop
  | nil : Reread ls ls' [] []
  | literal {k k' : Nat} {raw t t' : Text} (hget : ls.get? k = some raw)
      (hget' : ls'.get? k' = some raw) (rest : Reread ls ls' t t') :
      Reread ls ls' (placeholder k ++ t) (placeholder k' ++ t')
  | word {w v t t' : Text} (hne : w ≠ []) (hw : ∀ c ∈ w, isWordChar c = true) (ht : StartsNoWord t)
      (hv : v = w ∨ (∃ c ∈ w.head?, c.isDigit = true) ∧ NumberRead ls' (6 < w.length) v)
      (rest : Reread ls ls' t t') : Reread ls ls' (w ++ t) (v ++ t')
  | dollar {w v t t' : Text} (hne : w ≠ []) (hw : ∀ c ∈ w, isWordChar c = true)
      (ht : StartsNoWord t) (hv : v = '$' :: w ∨ NumberRead ls' True v)
      (rest : Reread ls ls' t t') :
      Reread ls ls' ('$' :: (w ++ t)) (v ++ t')
  | other {c : Char} {t t' : Text} (hc : isOtherChar c = true) (ht : c ≠ '$' ∨ StartsNoWord t)
      (rest : Reread ls ls' t t') : Reread ls ls' (c :: t) (c :: t')

/-! ### Runs -/

theorem Text.run_inj {w w' t t' : Text} (hw : ∀ c ∈ w, isWordChar c = true) (ht : StartsNoWord t)
    (hw' : ∀ c ∈ w', isWordChar c = true) (ht' : StartsNoWord t') (h : w ++ t = w' ++ t') :
    w = w' ∧ t = t' := by
  have hrest := congrArg (List.dropWhile isWordChar) h
  rw [dropWhile_append_of_startsNoWord hw ht, dropWhile_append_of_startsNoWord hw' ht'] at hrest
  subst hrest
  exact ⟨List.append_cancel_right h, rfl⟩

theorem Text.exists_cons_of_word {w : Text} (hne : w ≠ []) (hw : ∀ c ∈ w, isWordChar c = true) :
    ∃ c rest, w = c :: rest ∧ isWordChar c = true := by
  obtain ⟨c, rest, rfl⟩ := List.exists_cons_of_ne_nil hne
  exact ⟨c, rest, rfl, hw c List.mem_cons_self⟩

theorem Literal.placeholder_append_inj {k j : Nat} {t u : Text}
    (h : placeholder k ++ t = placeholder j ++ u) : k = j ∧ t = u := by
  have hsegments := congrArg Text.segments h
  rw [segments_placeholder, segments_placeholder, List.cons.injEq, Text.Segment.placeholder.injEq]
    at hsegments
  have hdigits : Text.ofNat k = Text.ofNat j := by simpa [placeholder] using hsegments.1
  have hindex := congrArg (Text.readNat? 10) hdigits
  rw [readNat?_ofNat, readNat?_ofNat, Option.some.injEq] at hindex
  subst hindex
  exact ⟨rfl, List.append_cancel_left h⟩

namespace NumberRead

variable {ls : Literals} {long : Prop} {v : Text}

theorem imp {long' : Prop} (h : NumberRead ls long v) (himp : long → long') :
    NumberRead ls long' v := by
  cases h with
  | digits hne hv => exact .digits hne hv
  | literal hlong hget => exact .literal (himp hlong) hget

theorem ne_nil (h : NumberRead ls long v) : v ≠ [] := by
  cases h with
  | digits hne => exact hne
  | literal => exact Literal.placeholder_ne_nil _

/-- A number is read as characters that placeholders have. -/
theorem not_mem {c : Char} (hc : isFree c = true) (h : NumberRead ls long v) : c ∉ v := by
  cases h with
  | digits _ hv =>
    intro hmem
    rw [isFree, hv c hmem, Bool.not_true, Bool.and_false] at hc
    cases hc
  | literal => exact Literal.not_mem_placeholder hc

end NumberRead

namespace Reread

variable {ls ls' : Literals} {s t w x : Text} {c : Char} {k : Nat}

/-! ### Reading from the front -/

theorem of_nil (h : Reread ls ls' [] x) : x = [] := by
  generalize hs : ([] : Text) = s at h
  cases h with
  | nil => rfl
  | literal => simp [placeholder] at hs
  | word hne => exact absurd (List.append_eq_nil_iff.1 hs.symm).1 hne
  | dollar => cases hs
  | other => cases hs

theorem of_literal (h : Reread ls ls' (placeholder k ++ t) x) :
    ∃ raw k' x', ls.get? k = some raw ∧ ls'.get? k' = some raw ∧ x = placeholder k' ++ x' ∧
      Reread ls ls' t x' := by
  generalize hs : placeholder k ++ t = s at h
  cases h with
  | nil => exact absurd (List.append_eq_nil_iff.1 hs).1 (Literal.placeholder_ne_nil k)
  | literal hget hget' rest =>
    obtain ⟨rfl, rfl⟩ := Literal.placeholder_append_inj hs
    exact ⟨_, _, _, hget, hget', rfl, rest⟩
  | word hne hw =>
    obtain ⟨c, u, rfl, hc⟩ := Text.exists_cons_of_word hne hw
    rw [placeholder_append, List.cons_append, List.cons.injEq] at hs
    rw [← hs.1] at hc
    cases hc
  | dollar =>
    rw [placeholder_append, List.cons.injEq] at hs
    exact absurd hs.1 (by decide)
  | other hc =>
    rw [placeholder_append, List.cons.injEq] at hs
    rw [← hs.1] at hc
    cases hc

theorem of_word (hne : w ≠ []) (hw : ∀ c ∈ w, isWordChar c = true) (ht : StartsNoWord t)
    (h : Reread ls ls' (w ++ t) x) :
    ∃ v x', (v = w ∨ (∃ c ∈ w.head?, c.isDigit = true) ∧ NumberRead ls' (6 < w.length) v) ∧
      x = v ++ x' ∧ Reread ls ls' t x' := by
  obtain ⟨c, u, rfl, hc⟩ := Text.exists_cons_of_word hne hw
  generalize hs : c :: u ++ t = s at h
  cases h with
  | nil => cases hs
  | literal =>
    rw [placeholder_append, List.cons_append, List.cons.injEq] at hs
    rw [hs.1] at hc
    cases hc
  | word _ hw' ht' hv rest =>
    obtain ⟨rfl, rfl⟩ := Text.run_inj hw ht hw' ht' hs
    exact ⟨_, _, hv, rfl, rest⟩
  | dollar =>
    rw [(List.cons.inj hs).1] at hc
    cases hc
  | other ho =>
    rw [← (List.cons.inj hs).1, isOtherChar, hc] at ho
    cases ho

theorem of_dollar (hne : w ≠ []) (hw : ∀ c ∈ w, isWordChar c = true) (ht : StartsNoWord t)
    (h : Reread ls ls' ('$' :: (w ++ t)) x) :
    ∃ v x', (v = '$' :: w ∨ NumberRead ls' True v) ∧ x = v ++ x' ∧ Reread ls ls' t x' := by
  generalize hs : '$' :: (w ++ t) = s at h
  cases h with
  | nil => cases hs
  | literal =>
    rw [placeholder_append, List.cons.injEq] at hs
    exact absurd hs.1 (by decide)
  | word hne' hw' =>
    obtain ⟨d, u, rfl, hd⟩ := Text.exists_cons_of_word hne' hw'
    rw [← (List.cons.inj hs).1] at hd
    cases hd
  | dollar _ hw' ht' hv rest =>
    obtain ⟨rfl, rfl⟩ := Text.run_inj hw ht hw' ht' (List.cons.inj hs).2
    exact ⟨_, _, hv, rfl, rest⟩
  | other _ hstart =>
    obtain ⟨rfl, rfl⟩ := List.cons.inj hs
    obtain ⟨d, u, rfl, hd⟩ := Text.exists_cons_of_word hne hw
    rw [hstart.resolve_left (by simp) d (u ++ t) rfl] at hd
    cases hd

theorem of_other (hc : isOtherChar c = true) (ht : c ≠ '$' ∨ StartsNoWord t)
    (h : Reread ls ls' (c :: t) x) : ∃ x', x = c :: x' ∧ Reread ls ls' t x' := by
  generalize hs : c :: t = s at h
  cases h with
  | nil => cases hs
  | literal =>
    rw [placeholder_append, List.cons.injEq] at hs
    exact absurd hs.1 (Text.ne_mark_of_isOtherChar hc)
  | word hne hw =>
    obtain ⟨d, u, rfl, hd⟩ := Text.exists_cons_of_word hne hw
    rw [← (List.cons.inj hs).1, Text.not_isWordChar_of_isOtherChar hc] at hd
    cases hd
  | dollar hne hw =>
    obtain ⟨rfl, rfl⟩ := List.cons.inj hs
    obtain ⟨d, u, rfl, hd⟩ := Text.exists_cons_of_word hne hw
    rw [ht.resolve_left (by simp) d _ rfl] at hd
    cases hd
  | other _ _ rest =>
    obtain ⟨rfl, rfl⟩ := List.cons.inj hs
    exact ⟨_, rfl, rest⟩

/-! ### Cutting -/

/-- Where no word and no number runs over the cut, both sides are read by themselves. -/
theorem of_append {n : Nat} (hs : Sealed n s)
    (hcut : ∀ c ∈ s.getLast?, isWordChar c = true ∨ c = '$' → StartsNoWord t)
    (h : Reread ls ls' (s ++ t) x) :
    ∃ s' t', x = s' ++ t' ∧ Reread ls ls' s s' ∧ Reread ls ls' t t' := by
  -- the cut is one after any part of the left side that is not empty
  have hafter : ∀ {u v : Text}, (∀ c ∈ (u ++ v).getLast?, isWordChar c = true ∨ c = '$' →
      StartsNoWord t) → ∀ c ∈ v.getLast?, isWordChar c = true ∨ c = '$' → StartsNoWord t :=
    fun hcut => Text.forall_getLast?_of_append hcut
  refine Sealed.numeralwise (motive := fun s => ∀ x,
    (∀ c ∈ s.getLast?, isWordChar c = true ∨ c = '$' → StartsNoWord t) → Reread ls ls' (s ++ t) x →
      ∃ s' t', x = s' ++ t' ∧ Reread ls ls' s s' ∧ Reread ls ls' t t')
    ?nil ?literal ?word ?dollar ?other hs x hcut h
  case nil => exact fun x _ h => ⟨[], x, rfl, .nil, h⟩
  case literal =>
    intro k s _ _ ih x hcut h
    rw [List.append_assoc] at h
    obtain ⟨raw, k', x', hget, hget', rfl, hrest⟩ := h.of_literal
    obtain ⟨s', t', rfl, hs, ht⟩ := ih x' (hafter hcut) hrest
    exact ⟨placeholder k' ++ s', t', by rw [List.append_assoc], .literal hget hget' hs, ht⟩
  case word =>
    intro w s hne hw hnext _ ih x hcut h
    have hstart : StartsNoWord (s ++ t) :=
      hnext.append_of_cut hne hw fun c hc hword => hcut c hc (.inl hword)
    rw [List.append_assoc] at h
    obtain ⟨v, x', hv, rfl, hrest⟩ := h.of_word hne hw hstart
    obtain ⟨s', t', rfl, hs, ht⟩ := ih x' (hafter hcut) hrest
    exact ⟨v ++ s', t', by rw [List.append_assoc], .word hne hw hnext hv hs, ht⟩
  case dollar =>
    intro w s hne hw hnext _ ih x hcut h
    have hcut' := hafter (u := ['$']) hcut
    have hstart : StartsNoWord (s ++ t) :=
      hnext.append_of_cut hne hw fun c hc hword => hcut' c hc (.inl hword)
    rw [List.cons_append, List.append_assoc] at h
    obtain ⟨v, x', hv, rfl, hrest⟩ := h.of_dollar hne hw hstart
    obtain ⟨s', t', rfl, hs, ht⟩ := ih x' (hafter hcut') hrest
    exact ⟨v ++ s', t', by rw [List.append_assoc], .dollar hne hw hnext hv hs, ht⟩
  case other =>
    intro c s hc hnext _ ih x hcut h
    have hstart : c ≠ '$' ∨ StartsNoWord (s ++ t) := by
      cases s with
      | nil =>
        by_cases hdollar : c = '$'
        · exact .inr (hcut c rfl (.inr hdollar))
        · exact .inl hdollar
      | cons d u => exact hnext.imp_right fun hnext => hnext.append (List.cons_ne_nil d u) t
    obtain ⟨x', rfl, hrest⟩ := h.of_other hc hstart
    obtain ⟨s', t', rfl, hs, ht⟩ := ih x' (hafter (u := [c]) hcut) hrest
    exact ⟨c :: s', t', rfl, .other hc hnext hs, ht⟩

/-! ### The ends of what is read -/

theorem eq_nil (h : Reread ls ls' t []) : t = [] := by
  generalize hx : ([] : Text) = x at h
  cases h with
  | nil => rfl
  | literal => simp [placeholder] at hx
  | word hne _ _ hv =>
    rcases hv with rfl | ⟨-, hv⟩
    · exact absurd (List.append_eq_nil_iff.1 hx.symm).1 hne
    · exact absurd (List.append_eq_nil_iff.1 hx.symm).1 hv.ne_nil
  | dollar _ _ _ hv =>
    rcases hv with rfl | hv
    · cases hx
    · exact absurd (List.append_eq_nil_iff.1 hx.symm).1 hv.ne_nil
  | other => cases hx

/-- A word ends what is read only where one ends the text. -/
theorem getLast?_isWordChar (h : Reread ls ls' t x) :
    ∀ c ∈ x.getLast?, isWordChar c = true → ∃ d ∈ t.getLast?, isWordChar d = true := by
  -- what stands before a text that is not empty does not count
  have hmore : ∀ {u v t t' : Text}, Reread ls ls' t t' →
      (∀ c ∈ t'.getLast?, isWordChar c = true → ∃ d ∈ t.getLast?, isWordChar d = true) →
      (∀ c ∈ v.getLast?, isWordChar c = true → ∃ d ∈ u.getLast?, isWordChar d = true) →
      ∀ c ∈ (v ++ t').getLast?, isWordChar c = true → ∃ d ∈ (u ++ t).getLast?,
        isWordChar d = true := by
    intro u v t t' h ih hv
    by_cases hnil : t' = []
    · subst hnil
      rwa [h.eq_nil, List.append_nil, List.append_nil]
    · have hne : t ≠ [] := by
        rintro rfl
        exact hnil h.of_nil
      rwa [List.getLast?_append_of_ne_nil _ hnil, List.getLast?_append_of_ne_nil _ hne]
  have hword : ∀ {w : Text}, w ≠ [] → (∀ c ∈ w, isWordChar c = true) →
      ∃ d ∈ w.getLast?, isWordChar d = true := fun hne hw =>
    ⟨_, List.getLast?_eq_some_getLast hne, hw _ (List.getLast_mem hne)⟩
  induction h with
  | nil => nofun
  | literal _ _ rest ih =>
    refine hmore rest ih fun c hc hw => ?_
    rw [placeholder, List.getLast?_concat] at hc
    rw [← Option.mem_some_iff.1 hc] at hw
    cases hw
  | word hne hw _ _ rest ih => exact hmore rest ih fun _ _ _ => hword hne hw
  | dollar hne hw _ _ rest ih =>
    rw [← List.cons_append]
    refine hmore rest ih fun _ _ _ => ?_
    rw [List.getLast?_cons_of_ne_nil hne]
    exact hword hne hw
  | other hc _ rest ih => exact hmore (u := [_]) (v := [_]) rest ih fun d hd hw => ⟨d, hd, hw⟩

/-- What starts with neither a word nor a dollar sign is read as starting with no word. -/
theorem startsNoWord (ht : StartsNoWord t) (hdollar : t.head? ≠ some '$') (h : Reread ls ls' t x) :
    StartsNoWord x := by
  cases h with
  | nil => nofun
  | literal => exact Literal.startsNoWord_placeholder _ _
  | word hne hw =>
    obtain ⟨c, u, rfl, hc⟩ := Text.exists_cons_of_word hne hw
    rw [ht c _ rfl] at hc
    cases hc
  | dollar => exact absurd rfl hdollar
  | other hc => exact Text.startsNoWord_of_isOtherChar hc _

/-! ### Characters -/

/-- A character that no placeholder has does not come in. -/
theorem not_mem (hc : isFree c = true) (h : Reread ls ls' t x) (ht : c ∉ t) : c ∉ x := by
  induction h with
  | nil => exact ht
  | literal _ _ _ ih =>
    rw [List.mem_append, not_or] at ht ⊢
    exact ⟨Literal.not_mem_placeholder hc, ih ht.2⟩
  | word _ _ _ hv _ ih =>
    rw [List.mem_append, not_or] at ht ⊢
    refine ⟨?_, ih ht.2⟩
    rcases hv with rfl | ⟨-, hv⟩
    · exact ht.1
    · exact hv.not_mem hc
  | dollar _ _ _ hv _ ih =>
    rw [← List.cons_append, List.mem_append, not_or] at ht
    rw [List.mem_append, not_or]
    refine ⟨?_, ih ht.2⟩
    rcases hv with rfl | hv
    · exact ht.1
    · exact hv.not_mem hc
  | other _ _ _ ih =>
    rw [List.mem_cons, not_or] at ht ⊢
    exact ⟨ht.1, ih ht.2⟩

/-- No literal comes in where all numbers are short and stand by themselves. -/
theorem mark_not_mem (h : Reread ls ls' t x) (hmark : mark ∉ t) (hplain : Text.Plain t) :
    mark ∉ x := by
  obtain ⟨hdollar, hshort⟩ := hplain
  induction h with
  | nil => exact hmark
  | literal => exact absurd (by simp [placeholder]) hmark
  | word hne hw ht hv _ ih =>
    rw [List.mem_append, not_or] at hmark hdollar ⊢
    rw [Text.words_word hne hw ht, List.forall_mem_cons] at hshort
    refine ⟨?_, ih hmark.2 hdollar.2 hshort.2⟩
    rcases hv with rfl | ⟨hdigit, hv⟩
    · exact hmark.1
    · cases hv with
      | digits _ hv =>
        intro hmem
        exact absurd (hv mark hmem) (by decide)
      | literal hlong => exact absurd (hshort.1 hdigit) (Nat.not_le_of_lt hlong)
  | dollar => exact absurd List.mem_cons_self hdollar
  | other hc _ _ ih =>
    rw [List.mem_cons, not_or] at hmark hdollar ⊢
    rw [Text.words_other hc] at hshort
    exact ⟨hmark.1, ih hmark.2 hdollar.2 hshort⟩

/-- What is read has no placeholder that the new table does not have. -/
theorem sealed (h : Reread ls ls' t x) : Sealed ls'.size x := by
  have hdigits : ∀ {long : Prop} {v : Text}, NumberRead ls' long v → Sealed ls'.size v := by
    intro long v hv
    cases hv with
    | digits _ hv => exact .of_not_mem fun hmem => absurd (hv _ hmem) (by decide)
    | literal _ hget =>
      rw [← List.append_nil (placeholder _)]
      exact .literal (Literals.lt_size_of_get? hget) .nil
  have hword : ∀ {w : Text}, (∀ c ∈ w, isWordChar c = true) → Sealed ls'.size w := fun hw =>
    .of_not_mem fun hmem => absurd (hw mark hmem) (by decide)
  induction h with
  | nil => exact .nil
  | literal _ hget' _ ih => exact .literal (Literals.lt_size_of_get? hget') ih
  | word _ hw _ hv _ ih =>
    rcases hv with rfl | ⟨-, hv⟩
    · exact (hword hw).append ih
    · exact (hdigits hv).append ih
  | dollar _ hw _ hv _ ih =>
    rcases hv with rfl | hv
    · exact .char (by decide) ((hword hw).append ih)
    · exact (hdigits hv).append ih
  | other hc _ _ ih => exact .char (Text.ne_mark_of_isOtherChar hc) ih

/-! ### What stands in a text -/

/-- What stands in a text is read by itself, and no word runs into it. -/
theorem of_stands {n : Nat} {u : Text} (hu : ∃ c ∈ u.head?, isFree c = true) (hsealed : Sealed n u)
    (hlast : ∀ c ∈ u.getLast?, c ≠ '$') (ht : Sealed n t) (hstands : Text.Stands u t)
    (h : Reread ls ls' t x) :
    ∃ before u' after, x = before ++ (u' ++ after) ∧ Reread ls ls' u u' ∧
      (∀ c ∈ before.getLast?, isWordChar c = false) ∧
      ∀ c ∈ u'.getLast?, isWordChar c = true → StartsNoWord after := by
  obtain ⟨before, after, rfl, hbefore, left, right⟩ := hstands.exists_cut hu ht
  have hafter : ∀ c ∈ u.getLast?, isWordChar c = true → StartsNoWord after ∧
      after.head? ≠ some '$' :=
    fun c hc hword =>
      ⟨Text.startsNoWord_of_head? (right c hc hword), fun hhead => (right c hc hword _ hhead).2 rfl⟩
  obtain ⟨before', x', rfl, hreadBefore, hread⟩ := h.of_append hbefore fun c hc hruns => by
    rcases hruns with hword | hdollar
    · rw [(left c hc).1] at hword
      cases hword
    · exact absurd hdollar (left c hc).2
  obtain ⟨u', after', rfl, hreadPart, hreadAfter⟩ := hread.of_append hsealed fun c hc hruns =>
    hruns.elim (fun hword => (hafter c hc hword).1) fun hdollar => absurd hdollar (hlast c hc)
  refine ⟨before', u', after', rfl, hreadPart, fun c hc => ?_, fun c hc hword => ?_⟩
  · rw [Bool.eq_false_iff]
    intro hword
    obtain ⟨d, hd, hword'⟩ := hreadBefore.getLast?_isWordChar c hc hword
    rw [(left d hd).1] at hword'
    cases hword'
  · obtain ⟨d, hd, hword'⟩ := hreadPart.getLast?_isWordChar c hc hword
    exact hreadAfter.startsNoWord (hafter d hd hword').1 (hafter d hd hword').2

/-- A name is read as it is. -/
theorem of_name (hne : w ≠ []) (hw : ∀ c ∈ w, isWordChar c = true)
    (hdigit : ∀ c ∈ w.head?, c.isDigit = false) (ht : StartsNoWord t)
    (h : Reread ls ls' (w ++ t) x) :
    ∃ x', x = w ++ x' ∧ Reread ls ls' t x' := by
  obtain ⟨v, x', hv, rfl, hrest⟩ := h.of_word hne hw ht
  rcases hv with rfl | ⟨⟨c, hc, hc'⟩, -⟩
  · exact ⟨x', rfl, hrest⟩
  · rw [hdigit c hc] at hc'
    cases hc'

/-- A call in which an idiom takes a literal is read as one in which it takes the same literal. -/
theorem of_takes {idiom : Usage.Idiom} {u : Text} (htakes : Usage.Takes k idiom u)
    (hplain : Text.Plain u) (h : Reread ls ls' u x) :
    ∃ raw k', ls.get? k = some raw ∧ ls'.get? k' = some raw ∧ Usage.Takes k' idiom x := by
  cases htakes with
  | callback =>
    obtain ⟨x₁, rfl, hopens⟩ := h.of_name (by decide) (by decide) (by decide)
      (Text.startsNoWord_of_isOtherChar (by decide) _)
    obtain ⟨x₂, rfl, hliteral⟩ := hopens.of_other (by decide) (.inl (by decide))
    obtain ⟨raw, k', x₃, hget, hget', rfl, hcloses⟩ := hliteral.of_literal
    obtain ⟨x₄, rfl, hends⟩ := hcloses.of_other (by decide) (.inl (by decide))
    obtain rfl := hends.of_nil
    exact ⟨raw, k', hget, hget', .callback⟩
  | @event opened hmark =>
    have hstart : StartsNoWord (placeholder k) := by
      rw [← List.append_nil (placeholder k)]
      exact Literal.startsNoWord_placeholder k []
    have hopened : Text.Plain opened := by
      have hcut : Usage.Idiom.variableEvent.callee ++ '(' :: (opened ++ placeholder k) =
          (Usage.Idiom.variableEvent.callee ++ ['(']) ++ (opened ++ placeholder k) := by
        simp
      rw [hcut] at hplain
      refine (hplain.right (.of_not_mem (n := 0) (by decide)) (by decide)).left
        (.of_not_mem (n := 0) hmark) fun _ _ _ => hstart
    obtain ⟨x₁, rfl, hopens⟩ := h.of_name (by decide) (by decide) (by decide)
      (Text.startsNoWord_of_isOtherChar (by decide) _)
    obtain ⟨x₂, rfl, hrest⟩ := hopens.of_other (by decide) (.inl (by decide))
    obtain ⟨opened', x₃, rfl, hread, hliteral⟩ := hrest.of_append (.of_not_mem (n := 0) hmark)
      fun _ _ _ => hstart
    rw [← List.append_nil (placeholder k)] at hliteral
    obtain ⟨raw, k', x₄, hget, hget', rfl, hends⟩ := hliteral.of_literal
    obtain rfl := hends.of_nil
    rw [List.append_nil]
    exact ⟨raw, k', hget, hget', .event (hread.mark_not_mem hmark hopened)⟩

end Reread
end ScriptMinifier
