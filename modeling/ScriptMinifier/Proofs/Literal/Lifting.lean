import ScriptMinifier.Proofs.Source.Collecting

/-! Lifting literals out of a text and putting them back.

Lifting adds the literals that a text quotes to the end of a table, in order, and what it leaves
holds the text under the numbers that they get (`exists_lifted`). So restoring gives the text back,
a quote that is never closed included, and the numbers that the table had keep their literals, so
that restoring with the longer table changes nothing else (`roundTrips_lift`). -/
namespace ScriptMinifier.Literals

open Literal (indexLimit numbersIn numbersOf)
open Text (isQuote mark Segment)

variable {ls ls' : Literals}

/-! ### Longer tables -/

theorem get?_of_prefix (h : ls.texts <+: ls'.texts) {n : Nat} (hn : n < ls.size) :
    ls'.get? n = ls.get? n := by
  obtain ⟨more, hmore⟩ := h
  rw [get?, get?, ← hmore, List.getElem?_append_left hn]

/-- A number that a table has stands for the same literal in a longer one. -/
theorem restore_of_prefix (h : ls.texts <+: ls'.texts) {u : Text}
    (hu : ∀ n ∈ numbersIn u, n < ls.size) :
    ls'.restore u = ls.restore u := by
  have hsegment : ∀ g ∈ Text.segments u, ls'.restoreSegment g = ls.restoreSegment g := by
    intro g hg
    cases g with
    | word w => rfl
    | other t => rfl
    | placeholder t =>
      rw [restoreSegment, restoreSegment, lookup?, lookup?]
      cases hid : Literal.placeholderId? t with
      | none => rfl
      | some n =>
        have hn : n ∈ numbersIn u :=
          List.mem_flatMap.2 ⟨.placeholder t, hg, by simp [numbersOf, hid]⟩
        rw [Option.bind_some, Option.bind_some, get?_of_prefix h (hu n hn)]
  exact List.flatMap_congr hsegment

/-! ### Lifting -/

/-- A literal starts and ends with the same quote. -/
def Quoted (raw : Text) : Prop :=
  ∃ quote inside, isQuote quote = true ∧ raw = quote :: (inside ++ [quote])

/-- What lifting makes of a text and a table, given the literals that are new. -/
structure Lifted (ls : Literals) (s out : Text) (ls' : Literals) (new : List Text) : Prop where
  texts : ls'.texts = ls.texts ++ new
  quoted : ∀ raw ∈ new, Quoted raw
  /-- What is left holds the text, in every table that goes on from the new one. -/
  holds : mark ∉ s → ∀ all : Literals, ls'.texts <+: all.texts →
    Holds all (List.range' ls.size new.length) out s

theorem exists_lifted (ls : Literals) (s : Text) :
    ∃ new, Lifted ls s (ls.lift s).1 (ls.lift s).2 new := by
  fun_induction lift ls s with
  | case1 ls => exact ⟨[], (List.append_nil _).symm, nofun, fun _ _ _ => .nil⟩
  | case2 ls c rest hc hopen =>
    exact ⟨[], (List.append_nil _).symm, nofun, fun h _ _ => .of_not_mem h⟩
  | case3 ls c rest hc inside after hclose held ls' hintern out ls'' hout ih =>
    obtain ⟨raw, rfl⟩ := Source.eq_append_of_closeQuote? hclose
    obtain ⟨rfl, rfl⟩ := Prod.mk.inj hintern
    rw [hout] at ih
    obtain ⟨new, htexts, hquoted, hholds⟩ := ih
    have hall : ls''.texts = ls.texts ++ [c :: (raw ++ [c])] ++ new := htexts
    refine ⟨(c :: (raw ++ [c])) :: new, by simp [hall],
      List.forall_mem_cons.2 ⟨⟨c, raw, hc, rfl⟩, hquoted⟩, ?_⟩
    intro hmark all hprefix
    rw [Text.closeQuote?_eq_some hclose, ← List.cons_append, List.mem_append, not_or] at hmark
    have hfirst : ls.texts ++ [c :: (raw ++ [c])] <+: all.texts := by
      refine List.IsPrefix.trans ?_ hprefix
      rw [hall]
      exact List.prefix_append ..
    have hone := Source.holds_literal (t := c :: (raw ++ [c])) ⟨c :: raw, c, rfl, hc⟩ hfirst
    have hboth := hone.append (hholds hmark.2 all hprefix)
    rw [Text.closeQuote?_eq_some hclose, ← List.cons_append, List.length_cons, List.range'_succ]
    simpa [size] using hboth
  | case4 ls c rest hc out ls' hout ih =>
    rw [hout] at ih
    obtain ⟨new, htexts, hquoted, hholds⟩ := ih
    refine ⟨new, htexts, hquoted, fun hmark all hprefix => ?_⟩
    rw [List.mem_cons, not_or] at hmark
    exact .char (Ne.symm hmark.1) (hholds hmark.2 all hprefix)

/-- A text that was lifted out of a table comes back, and nothing else that the table restores
changes. -/
structure RoundTrips (ls : Literals) (s out : Text) (ls' : Literals) : Prop where
  grown : ∃ new, ls'.texts = ls.texts ++ new ∧ ∀ raw ∈ new, Quoted raw
  restored : ls'.restore out = s
  kept : ∀ u, (∀ n ∈ numbersIn u, n < ls.size) → ls'.restore u = ls.restore u

/-- **What is lifted can be put back**, over any table and also when the last quote is never closed.
The numbers of the literals are numbers of 64 bits, as those of any table in memory. -/
theorem roundTrips_lift (ls : Literals) {s : Text} (hmark : mark ∉ s)
    (hsize : (ls.lift s).2.size ≤ indexLimit) :
    RoundTrips ls s (ls.lift s).1 (ls.lift s).2 := by
  obtain ⟨new, htexts, hquoted, hholds⟩ := ls.exists_lifted s
  have hprefix : ls.texts <+: (ls.lift s).2.texts := by
    rw [htexts]
    exact List.prefix_append ..
  exact ⟨⟨new, htexts, hquoted⟩, (hholds hmark _ (List.prefix_refl _)).restore_eq hsize,
    fun _ => restore_of_prefix hprefix⟩

/-- Escaped quotes, quotes of the other kind, and a quote that is never closed. -/
def quotingText : Text := "F(\"it's \\\"\",'\\'',\"'\")+\"open '\\".toList

theorem quotingText_roundTrips :
    (mark ∉ quotingText ∧ (lift ⟨["'hfoo'".toList]⟩ quotingText).2.size ≤ indexLimit) ∧
      RoundTrips ⟨["'hfoo'".toList]⟩ quotingText (lift ⟨["'hfoo'".toList]⟩ quotingText).1
        (lift ⟨["'hfoo'".toList]⟩ quotingText).2 := by
  have hmark : mark ∉ quotingText := by decide +kernel
  have hsize : (lift ⟨["'hfoo'".toList]⟩ quotingText).2.size ≤ indexLimit := by decide +kernel
  exact ⟨⟨hmark, hsize⟩, roundTrips_lift _ hmark hsize⟩

end ScriptMinifier.Literals
