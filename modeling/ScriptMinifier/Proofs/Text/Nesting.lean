import ScriptMinifier.Proofs.Text.Renaming
import ScriptMinifier.Proofs.Text.Replacing

/-! Nested parentheses.

A text is nested if its parentheses match, those inside placeholders not counting. The parenthesis
that closes a call is the first one before which the text is nested (`splitClose?_eq_some`). -/
namespace ScriptMinifier.Text

/-- A text whose parentheses match, outside placeholders. -/
inductive Nested : Text → Prop
  | nil : Nested []
  | char {c : Char} {t : Text} (hmark : c ≠ mark) (hopen : c ≠ '(') (hclose : c ≠ ')')
      (ht : Nested t) : Nested (c :: t)
  | placeholder {u t : Text} (hu : mark ∉ u) (ht : Nested t) : Nested (mark :: u ++ mark :: t)
  | group {s t : Text} (hs : Nested s) (ht : Nested t) : Nested ('(' :: s ++ ')' :: t)

variable {s t inside after : Text}

theorem cutAfter_cutAfter (s t : Text) (cut : Option (Text × Text)) :
    cutAfter s (cutAfter t cut) = cutAfter (s ++ t) cut := by
  cases cut <;> simp [cutAfter]

theorem extendCut_eq_cutAfter (c : Char) (cut : Option (Text × Text)) :
    extendCut c cut = cutAfter [c] cut := rfl

/-- A nested text is passed over. -/
theorem closeFrom_nested (h : Nested s) (depth : Nat) (t : Text) :
    closeFrom depth false (s ++ t) = cutAfter s (closeFrom depth false t) := by
  induction h generalizing depth t with
  | nil => cases hcut : closeFrom depth false t <;> simp [cutAfter, hcut]
  | @char c s hmark hopen hclose _ ih =>
    rw [List.cons_append, closeFrom, if_neg Bool.false_ne_true, if_neg hmark, if_neg hopen,
      if_neg hclose, ih, extendCut_cutAfter]
  | @placeholder u s hu _ ih =>
    rw [List.append_assoc, List.cons_append, List.cons_append, closeFrom, if_neg Bool.false_ne_true,
      if_pos rfl, closeFrom_hidden hu, ih, extendCut_cutAfter, cutAfter_cutAfter]
    simp
  | @group a b _ _ iha ihb =>
    rw [List.append_assoc, List.cons_append, List.cons_append, closeFrom, if_neg Bool.false_ne_true,
      if_neg (by decide), if_pos rfl, iha, closeFrom, if_neg Bool.false_ne_true, if_neg (by decide),
      if_neg (by decide), if_pos rfl, if_neg (Nat.succ_ne_zero depth), Nat.add_sub_cancel, ihb]
    simp only [extendCut_eq_cutAfter, cutAfter_cutAfter]
    simp

@[simp] theorem isSome_cutAfter (s : Text) (cut : Option (Text × Text)) :
    (cutAfter s cut).isSome = cut.isSome :=
  Option.isSome_map

@[simp] theorem isSome_extendCut (c : Char) (cut : Option (Text × Text)) :
    (extendCut c cut).isSome = cut.isSome :=
  Option.isSome_map

/-- Nothing is found in a placeholder that is never closed. -/
theorem closeFrom_hidden_eq_none (h : mark ∉ t) (depth : Nat) : closeFrom depth true t = none := by
  induction t with
  | nil => rfl
  | cons c rest ih =>
    rw [List.mem_cons, not_or] at h
    rw [closeFrom, if_pos rfl, bne_iff_ne.2 (Ne.symm h.1), ih h.2]
    rfl

/-- Where a search succeeds, the first group is closed after a nested text. A group inside it ends
at the first such place, and the search goes on from there. -/
theorem exists_nested_of_isSome {t : Text} {depth : Nat}
    (h : (closeFrom depth false t).isSome = true) :
    ∃ s rest, t = s ++ ')' :: rest ∧ Nested s := by
  match t with
  | [] => cases h
  | c :: t =>
    have ih : ∀ u : Text, u.length ≤ t.length → ∀ d, (closeFrom d false u).isSome = true →
        ∃ s rest, u = s ++ ')' :: rest ∧ Nested s := fun u hu d h => exists_nested_of_isSome h
    rw [closeFrom, if_neg Bool.false_ne_true] at h
    by_cases hmark : c = mark
    · rw [if_pos hmark, isSome_extendCut] at h
      subst hmark
      by_cases hmem : mark ∈ t
      · obtain ⟨u, more, rfl, hu⟩ := List.eq_append_cons_of_mem hmem
        rw [closeFrom_hidden hu, isSome_cutAfter] at h
        obtain ⟨s, rest, rfl, hs⟩ :=
          ih more (by simp only [List.length_append, List.length_cons]; omega) _ h
        exact ⟨mark :: u ++ mark :: s, rest, by simp, .placeholder hu hs⟩
      · rw [closeFrom_hidden_eq_none hmem] at h
        cases h
    rw [if_neg hmark] at h
    by_cases hopen : c = '('
    · rw [if_pos hopen, isSome_extendCut] at h
      subst hopen
      obtain ⟨s, rest, rfl, hs⟩ := ih t (Nat.le_refl _) _ h
      rw [closeFrom_nested hs, isSome_cutAfter, closeFrom, if_neg Bool.false_ne_true,
        if_neg (by decide), if_neg (by decide), if_pos rfl, if_neg (Nat.succ_ne_zero depth),
        isSome_extendCut] at h
      obtain ⟨s', rest', rfl, hs'⟩ := ih rest (by simp; omega) _ h
      exact ⟨'(' :: s ++ ')' :: s', rest', by simp, .group hs hs'⟩
    rw [if_neg hopen] at h
    by_cases hclose : c = ')'
    · exact ⟨[], t, by rw [hclose]; rfl, .nil⟩
    rw [if_neg hclose, isSome_extendCut] at h
    obtain ⟨s, rest, rfl, hs⟩ := ih t (Nat.le_refl _) _ h
    exact ⟨c :: s, rest, rfl, .char hmark hopen hclose hs⟩
termination_by t.length
decreasing_by exact Nat.lt_succ_of_le hu

theorem closeFrom_zero_nested (h : Nested s) (t : Text) :
    closeFrom 0 false (s ++ ')' :: t) = some (s, t) := by
  rw [closeFrom_nested h, closeFrom, if_neg Bool.false_ne_true, if_neg (by decide),
    if_neg (by decide), if_pos rfl, if_pos rfl]
  simp [cutAfter]

/-- A call is closed by the first parenthesis before which its arguments are nested. -/
theorem splitClose?_eq_some :
    splitClose? t = some (inside, after) ↔ Nested inside ∧ t = inside ++ ')' :: after := by
  constructor
  · intro h
    obtain ⟨s, rest, rfl, hs⟩ := exists_nested_of_isSome (Option.isSome_of_eq_some h)
    obtain ⟨rfl, rfl⟩ :=
      Prod.mk.inj (Option.some.inj ((closeFrom_zero_nested hs rest).symm.trans h))
    exact ⟨hs, rfl⟩
  · rintro ⟨hinside, rfl⟩
    exact closeFrom_zero_nested hinside after

/-- Words are nested. -/
theorem Nested.of_word (hs : ∀ c ∈ s, isWordChar c = true) (ht : Nested t) : Nested (s ++ t) := by
  induction s with
  | nil => exact ht
  | cons c rest ih =>
    rw [List.forall_mem_cons] at hs
    have hne : ∀ d, isWordChar d = false → c ≠ d := by
      rintro d hd rfl
      rw [hs.1] at hd
      cases hd
    exact .char (hne _ (by decide)) (hne _ (by decide)) (hne _ (by decide)) (ih hs.2)

/-- The marks of a nested text come in pairs. -/
theorem Nested.count_mark (h : Nested s) : s.count mark % 2 = 0 := by
  induction h with
  | nil => rfl
  | char hmark _ _ _ ih => rwa [List.count_cons_of_ne hmark]
  | @placeholder u t hu _ ih =>
    rw [List.count_append, List.count_cons_self, List.count_cons_self,
      List.count_eq_zero_of_not_mem hu]
    omega
  | @group s t _ _ ihs iht =>
    rw [List.count_append, List.count_cons_of_ne (by decide), List.count_cons_of_ne (by decide)]
    omega

/-- A search that succeeds has done so in the first part of a text, or goes on in the rest. It is in
a placeholder there if the marks so far are odd in number. -/
theorem closeFrom_append_cases {s t inside after : Text} {depth : Nat} {hidden : Bool}
    (h : closeFrom depth hidden (s ++ t) = some (inside, after)) :
    (∃ s', after = s' ++ t) ∨
      ∃ depth' inside', closeFrom depth' (hidden != decide (s.count mark % 2 = 1)) t = some
      (inside', after) := by
  induction s generalizing depth hidden inside with
  | nil => exact .inr ⟨depth, inside, by simpa using h⟩
  | cons c rest ih =>
    -- what is found later is found with the marks from here on
    have onward {d : Nat} {b : Bool} (hb : b = (hidden != decide (c = mark)))
        (h : extendCut c (closeFrom d b (rest ++ t)) = some (inside, after)) :
        (∃ s', after = s' ++ t) ∨
          ∃ depth' inside', closeFrom depth' (hidden != decide ((c :: rest).count mark % 2 = 1)) t =
            some (inside', after) := by
      obtain ⟨tail, -, hcut⟩ := extendCut_eq_some.1 h
      have hparity : (hidden != decide ((c :: rest).count mark % 2 = 1)) =
          (b != decide (rest.count mark % 2 = 1)) := by
        rw [hb, List.count_cons]
        rcases Nat.mod_two_eq_zero_or_one (rest.count mark) with hrest | hrest <;> by_cases hc :
          c = mark <;>
          simp [hrest, hc, Nat.add_mod]
      rw [hparity]
      exact ih hcut
    rw [List.cons_append, closeFrom] at h
    split at h
    · rename_i hhidden
      refine onward ?_ h
      by_cases hc : c = mark <;> simp [hhidden, hc]
    rename_i hhidden
    have hhidden : hidden = false := by simpa using hhidden
    split at h
    · rename_i hc
      exact onward (by simp [hhidden, hc]) h
    rename_i hc
    have hb : false = (hidden != decide (c = mark)) := by simp [hhidden, hc]
    split at h
    · exact onward hb h
    split at h
    · split at h
      · obtain ⟨-, rfl⟩ := Prod.mk.inj (Option.some.inj h)
        exact .inl ⟨rest, rfl⟩
      · exact onward hb h
    · exact onward hb h

end ScriptMinifier.Text
