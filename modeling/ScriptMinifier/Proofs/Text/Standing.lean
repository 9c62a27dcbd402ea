import ScriptMinifier.Proofs.Naming.DroppedCalls

/-! Parts that stand by themselves.

A word, or a call, stands in a text where no word runs over its ends and no dollar sign is beside
it: digits after a dollar sign are a number, and shortening one takes the sign away, so that the
digits join the word before it. What stands in a text still stands there, with its own words
replaced, when words are replaced (`Stands.replaceWords`). -/
namespace ScriptMinifier.Text

variable {u t : Text} {n : Nat} {g : Text → Option Text}

/-- A part of a text with no word and no dollar sign right before it, and none right after it if it
ends with a word. -/
inductive Stands (u : Text) : Text → Prop
  | intro {before after : Text} (left : ∀ c ∈ before.getLast?, isWordChar c = false ∧ c ≠ '$')
      (right : ∀ c ∈ u.getLast?, isWordChar c = true →
        ∀ d ∈ after.head?, isWordChar d = false ∧ d ≠ '$') :
      Stands u (before ++ (u ++ after))

/-- A text in which no number is written that could become a literal. -/
structure Plain (t : Text) : Prop where
  dollar : '$' ∉ t
  short : ∀ w ∈ words t, (∃ c ∈ w.head?, c.isDigit = true) → w.length ≤ 6

namespace Plain

variable {s : Text}

/-- The left side of a cut that no word runs over. -/
theorem left (hs : Sealed n s) (hcut : ∀ c ∈ s.getLast?, isWordChar c = true → StartsNoWord t)
    (h : Plain (s ++ t)) : Plain s := by
  refine ⟨fun hmem => h.dollar (List.mem_append_left _ hmem), fun w hw => h.short w ?_⟩
  rw [hs.words_append hcut]
  exact List.mem_append_left _ hw

/-- The right side. -/
theorem right (hs : Sealed n s) (hcut : ∀ c ∈ s.getLast?, isWordChar c = false)
    (h : Plain (s ++ t)) : Plain t := by
  refine ⟨fun hmem => h.dollar (List.mem_append_right _ hmem), fun w hw => h.short w ?_⟩
  rw [hs.words_append fun c hc hword => ?_]
  · exact List.mem_append_right _ hw
  · rw [hcut c hc] at hword
    cases hword

theorem replaceWords (hg : GivesIdents g) (h : Plain t) : Plain (Text.replaceWords g t) := by
  refine ⟨Sealed.not_mem_replaceWords hg.smooth (by decide) h.dollar, fun w hw hdigit => ?_⟩
  rw [words_replaceWords (Naming.GivesIdents.wordly hg)] at hw
  obtain ⟨old, hold, rfl⟩ := List.mem_map.1 hw
  obtain ⟨c, hc, hdigit'⟩ := hdigit
  rw [replacement] at hc ⊢
  cases hgo : g old with
  | none =>
    rw [hgo, Option.getD_none] at hc
    exact h.short old hold ⟨c, hc, hdigit'⟩
  | some r =>
    rw [hgo, Option.getD_some] at hc
    rw [not_isDigit_of_isIdent (hg old r hgo) c hc] at hdigit'
    cases hdigit'

end Plain

theorem startsNoWord_of_head? (h : ∀ d ∈ t.head?, isWordChar d = false ∧ d ≠ '$') :
    StartsNoWord t := by
  rintro d rest rfl
  exact (h d rfl).1

namespace Stands

theorem ne_nil (hu : u ≠ []) (h : Stands u t) : t ≠ [] := by
  cases h
  exact List.append_ne_nil_of_right_ne_nil _ (List.append_ne_nil_of_left_ne_nil hu _)

/-- What stands before a part that starts with a letter or a sign holds whole literals. -/
theorem exists_cut (hu : ∃ c ∈ u.head?, Literal.isFree c = true) (ht : Sealed n t)
    (h : Stands u t) :
    ∃ before after, t = before ++ (u ++ after) ∧ Sealed n before ∧
      (∀ c ∈ before.getLast?, isWordChar c = false ∧ c ≠ '$') ∧
      ∀ c ∈ u.getLast?, isWordChar c = true → ∀ d ∈ after.head?, isWordChar d = false ∧
      d ≠ '$' := by
  obtain @⟨before, after, left, right⟩ := h
  obtain ⟨c, hc, hfree⟩ := hu
  obtain ⟨rest, rfl⟩ := List.head?_eq_some_iff.1 hc
  exact ⟨before, after, rfl, (ht.of_append_cons hfree).1, left, right⟩

theorem replaceWords (hg : Smooth g) (hu : ∃ c ∈ u.head?, Literal.isFree c = true)
    (hsealed : Sealed n u) (ht : Sealed n t) (h : Stands u t) :
    Stands (Text.replaceWords g u) (Text.replaceWords g t) := by
  obtain ⟨before, after, rfl, hbefore, left, right⟩ := h.exists_cut hu ht
  rw [hbefore.replaceWords_append, hsealed.replaceWords_append]
  · refine .intro (fun c hc => ?_) fun c hc hword d hd => ?_
    · rcases hbefore.getLast?_replaceWords hg c hc with hlast | ⟨-, e, he, hword⟩
      · exact left c hlast
      · rw [(left e he).1] at hword
        cases hword
    · obtain ⟨e, he, hword'⟩ : ∃ e ∈ u.getLast?, isWordChar e = true := by
        rcases hsealed.getLast?_replaceWords hg c hc with hlast | ⟨-, hlast⟩
        · exact ⟨c, hlast, hword⟩
        · exact hlast
      have hafter := right e he hword'
      obtain ⟨rest, hrest⟩ := List.head?_eq_some_iff.1 hd
      refine ⟨Text.startsNoWord_replaceWords (startsNoWord_of_head? hafter) d rest hrest, ?_⟩
      rintro rfl
      rcases Sealed.head?_replaceWords hg _ hd with hhead | hsmooth
      · exact (hafter _ hhead).2 rfl
      · exact absurd hsmooth (by decide)
  · exact fun c hc hword => startsNoWord_of_head? (right c hc hword)
  · intro c hc hword
    rw [(left c hc).1] at hword
    cases hword

end Stands
end ScriptMinifier.Text
