import ScriptMinifier.Proofs.Layout.Tidy
import ScriptMinifier.Proofs.Syntax.Reading

/-! Texts under another numbering.

The same literals may have other numbers in another table. Two texts are alike when they
differ in nothing else: character by character they are the same, and where one has a
placeholder the other has one of the same literal. What tables restore in such texts is the
same (`Alike.restore_eq`), and whatever looks only at characters that placeholders do not have
sees no difference: cuts, lines, blanks at the end, and the layout (`Alike.tidy`,
`Alike.neatLines`). -/
namespace ScriptMinifier

open Literal
  (placeholder indexLimit isFree not_mem_placeholder ne_mark_of_isFree placeholder_append)
open Text (mark pieces ended)
open Layout (Tidy Neat NeatLines)

/-- Two texts with the same characters and the same literals, numbered by two tables. -/
inductive Alike (ls ls' : Literals) : Text → Text → Prop
  | nil : Alike ls ls' [] []
  | char {c : Char} {t t' : Text} (hc : c ≠ mark) (rest : Alike ls ls' t t') :
      Alike ls ls' (c :: t) (c :: t')
  | literal {k k' : Nat} {raw t t' : Text} (hget : ls.get? k = some raw)
      (hget' : ls'.get? k' = some raw)
      (rest : Alike ls ls' t t') : Alike ls ls' (placeholder k ++ t) (placeholder k' ++ t')

namespace Alike

variable {ls ls' : Literals} {s s' t t' u : Text}

theorem append (hs : Alike ls ls' s s') (ht : Alike ls ls' t t') :
    Alike ls ls' (s ++ t) (s' ++ t') := by
  induction hs with
  | nil => exact ht
  | char hc _ ih => exact .char hc ih
  | literal hget hget' _ ih =>
    rw [List.append_assoc, List.append_assoc]
    exact .literal hget hget' ih

theorem of_not_mem (h : mark ∉ t) : Alike ls ls' t t := by
  induction t with
  | nil => exact .nil
  | cons c rest ih =>
    rw [List.mem_cons, not_or] at h
    exact .char (Ne.symm h.1) (ih h.2)

/-- What tables restore in texts that are alike is the same. -/
theorem restore_eq (h : Alike ls ls' t t') (hlimit : ls.size ≤ indexLimit)
    (hlimit' : ls'.size ≤ indexLimit) :
    ls.restore t = ls'.restore t' := by
  induction h with
  | nil => rw [Literals.restore_nil, Literals.restore_nil]
  | char hc _ ih => rw [Literals.restore_cons hc, Literals.restore_cons hc, ih]
  | literal hget hget' _ ih =>
    have hlt := Literals.lt_size_of_get? hget
    have hlt' := Literals.lt_size_of_get? hget'
    rw [Literals.restore_placeholder (by omega) hget, Literals.restore_placeholder (by omega) hget',
      ih]

/-! ### Cutting -/

theorem of_cons {c : Char} (hc : c ≠ mark) (h : Alike ls ls' (c :: t) u) :
    ∃ t', u = c :: t' ∧ Alike ls ls' t t' := by
  generalize hs : c :: t = s at h
  cases h with
  | nil => cases hs
  | char _ rest =>
    obtain ⟨rfl, rfl⟩ := List.cons.inj hs
    exact ⟨_, rfl, rest⟩
  | literal =>
    rw [placeholder_append, List.cons.injEq] at hs
    exact absurd hs.1 hc

theorem of_nil (h : Alike ls ls' [] u) : u = [] := by
  generalize hs : ([] : Text) = s at h
  cases h with
  | nil => rfl
  | char => cases hs
  | literal => simp [placeholder] at hs

/-- Characters in front that hold no literal are the same in both. -/
theorem of_append (hs : mark ∉ s) (h : Alike ls ls' (s ++ t) u) :
    ∃ t', u = s ++ t' ∧ Alike ls ls' t t' := by
  induction s generalizing u with
  | nil => exact ⟨u, rfl, h⟩
  | cons c rest ih =>
    rw [List.mem_cons, not_or] at hs
    obtain ⟨u', rfl, hrest⟩ := of_cons (Ne.symm hs.1) h
    obtain ⟨t', rfl, ht⟩ := ih hs.2 hrest
    exact ⟨t', rfl, ht⟩

theorem eq_of_not_mem (hs : mark ∉ s) (h : Alike ls ls' s u) : u = s := by
  rw [← List.append_nil s] at h
  obtain ⟨t', rfl, ht⟩ := of_append hs h
  rw [ht.of_nil, List.append_nil]

/-- Texts that are alike may be cut together at any character that no placeholder has. -/
theorem of_append_cons {c : Char} (hc : isFree c = true) (h : Alike ls ls' (s ++ c :: t) u) :
    ∃ s' t', u = s' ++ c :: t' ∧ Alike ls ls' s s' ∧ Alike ls ls' t t' := by
  generalize hw : s ++ c :: t = w at h
  induction h generalizing s with
  | nil => simp at hw
  | @char d w w' hd rest ih =>
    cases s with
    | nil =>
      obtain ⟨rfl, rfl⟩ := List.cons.inj hw
      exact ⟨[], w', rfl, .nil, rest⟩
    | cons e s =>
      obtain ⟨rfl, hs⟩ := List.cons.inj hw
      obtain ⟨s', t', rfl, hs, ht⟩ := ih hs
      exact ⟨e :: s', t', rfl, .char hd hs, ht⟩
  | @literal k k' raw w w' hget hget' rest ih =>
    rcases List.append_eq_append_iff.1 hw with ⟨x, hx, hrest⟩ | ⟨x, rfl, hrest⟩
    · -- the cut would lie inside the placeholder, or right after it
      cases x with
      | nil =>
        rw [List.append_nil] at hx
        obtain ⟨s', t', rfl, hs, ht⟩ := ih (s := []) hrest
        rw [hs.of_nil, ← hx]
        refine ⟨placeholder k', t', rfl, ?_, ht⟩
        have hone := Alike.literal hget hget' .nil
        rwa [List.append_nil, List.append_nil] at hone
      | cons d x =>
        rw [List.cons_append, List.cons.injEq] at hrest
        refine absurd ?_ (not_mem_placeholder (k := k) hc)
        rw [hx, hrest.1]
        exact List.mem_append_right _ List.mem_cons_self
    · obtain ⟨s', t', rfl, hs, ht⟩ := ih hrest.symm
      refine ⟨placeholder k' ++ s', t', by rw [List.append_assoc], .literal hget hget' hs, ht⟩

/-- Lines that are alike, one by one. -/
theorem of_ended {lines : List Text} (h : Alike ls ls' (ended lines) u) :
    ∃ lines', u = ended lines' ∧ List.Forall₂ (Alike ls ls') lines lines' := by
  induction lines generalizing u with
  | nil => exact ⟨[], h.of_nil, .nil⟩
  | cons line rest ih =>
    rw [Text.ended_cons] at h
    obtain ⟨line', u', rfl, hline, hrest⟩ := h.of_append_cons (by decide)
    obtain ⟨rest', rfl, hlines⟩ := ih hrest
    exact ⟨line' :: rest', by rw [Text.ended_cons], .cons hline hlines⟩

/-! ### The ends of a text -/

theorem head?_eq (h : Alike ls ls' t t') : t.head? = t'.head? := by
  cases h with
  | nil => rfl
  | char => rfl
  | literal => simp [placeholder]

theorem getLast?_eq (h : Alike ls ls' t t') : t.getLast? = t'.getLast? := by
  have hlast :
      ∀ (k : Nat) (u : Text), (placeholder k ++ u).getLast? = u.getLast?.or (some mark) := by
    intro k u
    rw [List.getLast?_append]
    simp [placeholder, List.getLast?_cons]
  induction h with
  | nil => rfl
  | char _ _ ih => rw [List.getLast?_cons, List.getLast?_cons, ih]
  | literal _ _ _ ih => rw [hlast, hlast, ih]

theorem ne_nil (h : Alike ls ls' t t') (ht : t ≠ []) : t' ≠ [] := by
  rw [Ne, ← List.head?_eq_none_iff, ← h.head?_eq, List.head?_eq_none_iff]
  exact ht

theorem not_mem {c : Char} (hc : isFree c = true) (h : Alike ls ls' t t') (ht : c ∉ t) :
    c ∉ t' := by
  induction h with
  | nil => exact ht
  | char _ _ ih =>
    rw [List.mem_cons, not_or] at ht ⊢
    exact ⟨ht.1, ih ht.2⟩
  | literal _ _ _ ih =>
    rw [List.mem_append, not_or] at ht ⊢
    exact ⟨not_mem_placeholder hc, ih ht.2⟩

/-! ### Layout -/

theorem tidy_placeholder {before : Option Char} {k : Nat} :
    Tidy before (placeholder k ++ t) ↔ Tidy (some mark) t := by
  have hhorizontal : ∀ c ∈ placeholder k, Text.isHorizontal c = false :=
    fun c hc => Sealed.not_isHorizontal_of_mem_placeholder hc
  constructor
  · intro h
    have hsplit : placeholder k ++ t = (mark :: Text.ofNat k) ++ mark :: t := by simp [placeholder]
    rw [hsplit] at h
    exact (h.of_append_cons (by decide)).2
  · intro h
    refine (Tidy.of_run hhorizontal).append ?_
    have hlast : (placeholder k).getLast? = some mark := by simp [placeholder, List.getLast?_cons]
    rw [hlast]
    exact h

theorem tidy (h : Alike ls ls' t t') {before : Option Char} (ht : Tidy before t) :
    Tidy before t' := by
  induction h generalizing before with
  | nil => exact .nil
  | @char c t t' hc rest ih =>
    cases ht with
    | char hblank htail => exact .char hblank (ih htail)
    | @space _ d t hd hseparates htail =>
      -- what follows the space starts alike
      obtain ⟨u, rfl⟩ := List.head?_eq_some_iff.1 (rest.head?_eq.symm.trans rfl)
      exact .space hd hseparates ((ih (.char hd htail : Tidy none _)).tail hd)
  | literal _ _ _ ih =>
    rw [tidy_placeholder] at ht ⊢
    exact ih ht

theorem pieces (h : Alike ls ls' t t') :
    List.Forall₂ (Alike ls ls') (pieces '\n' t) (Text.pieces '\n' t') := by
  have hplaceholder : ∀ (k : Nat) {u first : Text} {more : List Text},
      Text.pieces '\n' u = first :: more →
      Text.pieces '\n' (placeholder k ++ u) = (placeholder k ++ first) :: more := by
    intro k u first more hu
    obtain ⟨init, last, first', more', hleft, hright, hboth⟩ :=
      Text.pieces_append '\n' (placeholder k) u
    rw [Text.pieces_of_not_mem (not_mem_placeholder (by decide))] at hleft
    obtain ⟨rfl, hlast⟩ :=
      List.append_inj' (hleft.symm.trans (List.nil_append [placeholder k]).symm) rfl
    obtain ⟨rfl, -⟩ := List.cons.inj hlast
    obtain ⟨rfl, rfl⟩ := List.cons.inj (hright.symm.trans hu)
    exact hboth
  induction h with
  | nil => exact .cons .nil .nil
  | @char c t t' hc _ ih =>
    rw [Text.pieces, Text.pieces]
    split
    · exact .cons .nil ih
    · revert ih
      generalize Text.pieces '\n' t = lines, Text.pieces '\n' t' = lines'
      rintro (_ | ⟨hfirst, hmore⟩)
      · exact .cons (.char hc .nil) .nil
      · exact .cons (.char hc hfirst) hmore
  | @literal k k' raw t t' hget hget' _ ih =>
    obtain ⟨first, more, ht⟩ := List.exists_cons_of_ne_nil (Text.pieces_ne_nil '\n' t)
    obtain ⟨first', more', ht'⟩ := List.exists_cons_of_ne_nil (Text.pieces_ne_nil '\n' t')
    rw [ht, ht'] at ih
    rw [hplaceholder k ht, hplaceholder k' ht']
    cases ih with
    | cons hfirst hmore => exact .cons (.literal hget hget' hfirst) hmore

theorem neatLines (h : Alike ls ls' t t') (ht : NeatLines t) : NeatLines t' := by
  intro line' hline'
  obtain ⟨line, hline, hlike⟩ := exists_of_mem_right h.pieces hline'
  exact ⟨hlike.ne_nil (ht line hline).ne_nil, hlike.tidy (ht line hline).tidy⟩

end Alike
end ScriptMinifier
