import ScriptMinifier.Proofs.Naming.History
import ScriptMinifier.Proofs.Naming.LocalNames
import ScriptMinifier.Proofs.Output.Legible
import ScriptMinifier.Proofs.Usage.Declared

/-! Texts that stay inside their blocks.

A text is contained in its block when no quote and no comment sign stands in it, nor the word that
closes the block. Passes put in values and names that have been dealt, and neither brings any of
these (`Fits`), so a text stays contained when words in it are replaced (`Contained.replaceWords`),
and so do its lines by themselves and put together again. -/
namespace ScriptMinifier

open Literal (placeholder)
open Naming (Pool)
open Source (Bare Uncommented)
open Text (isIdent isQuote isSmooth isWordChar mark Smooth words)

/-! ### Texts -/

/-- A text that does not end the block it stands in, nor starts anything that hides its end. -/
structure Contained (closing t : Text) : Prop where
  bare : Bare closing t
  comments : Uncommented t

/-- A name that does not end the block it stands in. -/
structure NameIn (closing w : Text) : Prop where
  ident : isIdent w = true
  open_ : w ≠ closing

/-- The words that close the blocks of declarations and of functions. -/
def closingWords : List Text := ["endglobals".toList, "endfunction".toList]

/-- Replacements that may stand in any block. -/
structure Fits (g : Text → Option Text) : Prop where
  smooth : Smooth g
  closing : ∀ w r, g w = some r → ∀ closing ∈ closingWords, closing ∉ words r

/-- Replacements by names that are no words of the language. -/
structure GivesFreeNames (g : Text → Option Text) : Prop where
  idents : GivesIdents g
  language : ∀ w r, g w = some r → r ∉ Syntax.keywords ++ Syntax.datatypes

section Texts

variable {n : Nat} {a b : Char} {s t closing w : Text} {g : Text → Option Text}

theorem mem_language_of_mem_closingWords (h : closing ∈ closingWords) :
    closing ∈ Syntax.keywords ++ Syntax.datatypes := by
  refine List.mem_append_left _ ?_
  rw [closingWords, List.mem_cons, List.mem_singleton] at h
  rcases h with rfl | rfl <;> decide

namespace GivesFreeNames

theorem fits (h : GivesFreeNames g) : Fits g := by
  refine ⟨h.idents.smooth, fun w r hr closing hclosing hmem => h.language w r hr ?_⟩
  rw [Text.words_of_isIdent (h.idents w r hr), List.mem_singleton] at hmem
  exact hmem ▸ mem_language_of_mem_closingWords hclosing

/-- A name stays a name that may stand in its block. -/
theorem nameIn (h : GivesFreeNames g) (hclosing : closing ∈ closingWords) (hw : NameIn closing w) :
    NameIn closing ((g w).getD w) := by
  refine ⟨h.idents.getD hw.ident, ?_⟩
  cases hgw : g w with
  | none => exact hw.open_
  | some r =>
    rintro rfl
    exact h.language w _ hgw (mem_language_of_mem_closingWords hclosing)

end GivesFreeNames

/-- What a pool deals that has the words of the language reserved. -/
theorem givesFreeNames_deal {pool : Pool} (h : Syntax.keywords ++ Syntax.datatypes ⊆ pool.reserved)
    (items : List Text) :
    GivesFreeNames (Text.Dictionary.ofPairs (pool.deal items).1).find? :=
  ⟨givesIdents_deal pool items, fun _ _ hr =>
    Pool.not_mem_language_of_mem_drawMany h
      (Pool.mem_drawMany_of_mem_deal (Text.Dictionary.mem_of_find?_ofPairs hr))⟩

/-- The texts of values have no word that closes a block: no letter of theirs is an `o`. -/
theorem fits_of_values (h : ∀ w r, g w = some r → ∃ v : Constant.Value, r = v.text) : Fits g := by
  constructor
  · intro w r hr
    obtain ⟨v, rfl⟩ := h w r hr
    exact ⟨v.text_ne_nil, List.all_eq_true.1 v.all_isSmooth_text⟩
  · intro w r hr closing hclosing hmem
    obtain ⟨v, rfl⟩ := h w r hr
    have hletter : 'o' ∉ v.text := by
      have hall : v.text.all (· != 'o') = true := by
        refine Constant.Value.all_text (fun c hc => ?_) (by decide) v
        rcases hc with hdigit | rfl | rfl
        · refine bne_iff_ne.2 ?_
          rintro rfl
          cases hdigit
        · decide
        · decide
      intro ho
      exact absurd (List.all_eq_true.1 hall 'o' ho) (by decide)
    have ho : 'o' ∈ closing := by
      rw [closingWords, List.mem_cons, List.mem_singleton] at hclosing
      rcases hclosing with rfl | rfl <;> decide
    exact hletter ((Text.mem_words hmem).2 'o' ho).2

/-- Replacements still fit when some words are left out of them. -/
theorem Fits.unless (h : Fits g) (hidden : Text → Bool) :
    Fits fun w => if hidden w then none else g w := by
  have hsome : ∀ w r, (if hidden w then none else g w) = some r → g w = some r := by
    intro w r hr
    split at hr
    · cases hr
    · exact hr
  exact ⟨fun w r hr => h.smooth w r (hsome w r hr), fun w r hr => h.closing w r (hsome w r hr)⟩

theorem infix_of_append (ha : a ∉ s) (h : [a, b] <:+: s ++ t) : [a, b] <:+: t := by
  induction s with
  | nil => exact h
  | cons c rest ih =>
    rw [List.mem_cons, not_or] at ha
    rcases List.infix_cons_iff.1 h with hprefix | hpart
    · exact absurd (List.cons_prefix_cons.1 hprefix).1 ha.1
    · exact ih ha.2 hpart

/-- Two signs side by side do not come in with the replacements. -/
theorem Sealed.infix_of_replaceWords (hg : Smooth g) (ha : isSmooth a = false)
    (hb : isSmooth b = false)
    (hfree : Literal.isFree a = true) (ht : Sealed n t) (h : [a, b] <:+: Text.replaceWords g t) :
    [a, b] <:+: t := by
  refine Sealed.wordwise (motive := fun t => [a, b] <:+: Text.replaceWords g t → [a, b] <:+: t)
    ?nil ?other ?word ?literal ht h
  case nil =>
    rw [Text.replaceWords_nil]
    exact id
  case other =>
    intro c t hc ht ih h
    rw [Sealed.replaceWords_cons hc] at h
    rcases List.infix_cons_iff.1 h with hprefix | hpart
    · obtain ⟨rfl, hnext⟩ := List.cons_prefix_cons.1 hprefix
      have hhead : b ∈ (Text.replaceWords g t).head? := by
        obtain ⟨more, hmore⟩ := hnext
        rw [← hmore]
        rfl
      rcases Sealed.head?_replaceWords hg b hhead with hmem | hsmooth
      · obtain ⟨more, rfl⟩ := List.head?_eq_some_iff.1 hmem
        exact ⟨[], more, rfl⟩
      · rw [hsmooth] at hb
        cases hb
    · exact (ih hpart).trans (List.suffix_cons c t).isInfix
  case word =>
    intro w t hne hw hnext _ ih h
    rw [Text.replaceWords_run hne hw hnext] at h
    have hnot := Text.not_mem_of_isSmooth (hg.getD hne hw).2 ha
    exact (ih (infix_of_append hnot h)).trans (List.suffix_append w t).isInfix
  case literal =>
    intro k t _ _ ih h
    rw [Text.replaceWords_placeholder] at h
    exact (ih (infix_of_append (Literal.not_mem_placeholder hfree) h)).trans
      (List.suffix_append (placeholder k) t).isInfix

theorem isSmooth_of_isQuote {c : Char} (h : isQuote c = true) : isSmooth c = false := by
  rw [isQuote, Bool.or_eq_true, beq_iff_eq, beq_iff_eq] at h
  rcases h with rfl | rfl <;> decide

namespace Contained

theorem nil (closing : Text) : Contained closing [] :=
  ⟨⟨by simp [Text.words_nil], nofun⟩, .of_not_mem List.not_mem_nil⟩

/-- What fits in a block may replace words there. -/
theorem replaceWords (hg : Fits g) (hclosing : closing ∈ closingWords) (ht : Sealed n t)
    (h : Contained closing t) :
    Contained closing (Text.replaceWords g t) := by
  have hmark : ∀ w r, g w = some r → mark ∉ r :=
    fun w r hr => Text.not_mem_of_isSmooth (hg.smooth w r hr).2 (by decide)
  refine ⟨⟨?_, fun c hc => ?_⟩, ?_⟩
  · rw [Text.words_replaceWords_of_unmarked hmark, List.mem_flatMap]
    rintro ⟨w, hw, hmem⟩
    obtain ⟨hne, hchars⟩ := Text.mem_words hw
    unfold Text.replacement at hmem
    cases hgw : g w with
    | none =>
      rw [hgw, Option.getD_none, Text.words_of_word hne fun c hc => (hchars c hc).1,
        List.mem_singleton] at hmem
      exact h.bare.words (hmem ▸ hw)
    | some r =>
      rw [hgw] at hmem
      exact hg.closing w r hgw closing hclosing hmem
  · rw [Bool.eq_false_iff]
    intro hquote
    refine Sealed.not_mem_replaceWords hg.smooth (isSmooth_of_isQuote hquote) (fun hmem => ?_) hc
    rw [h.bare.quotes c hmem] at hquote
    cases hquote
  · have hsigns : ∀ b, isSmooth b = false → ['/', b] <:+: Text.replaceWords g t → ['/', b] <:+: t :=
      fun b hb => ht.infix_of_replaceWords hg.smooth (by decide) hb (by decide)
    exact ⟨fun hpart => h.comments.1 (hsigns '/' (by decide) hpart),
      fun hpart => h.comments.2 (hsigns '*' (by decide) hpart)⟩

/-- A part of a contained text that starts and ends with lines. -/
theorem of_joined {ls : List Text} (hsealed : Sealed n (Text.joined '\n' ls))
    (h : Contained closing (Text.joined '\n' ls)) :
    ∀ l ∈ ls, Contained closing l := by
  intro l hl
  have hpart := infix_joined '\n' hl
  refine ⟨⟨fun hmem => h.bare.words ?_, fun c hc => h.bare.quotes c (hpart.subset hc)⟩,
    h.comments.of_part hpart⟩
  rw [Sealed.words_joined (by decide) (Sealed.of_joined (by decide) hsealed)]
  exact List.mem_flatMap.2 ⟨l, hl, hmem⟩

theorem joined {ls : List Text} (hsealed : ∀ l ∈ ls, Sealed n l)
    (h : ∀ l ∈ ls, Contained closing l) :
    Contained closing (Text.joined '\n' ls) := by
  by_cases hnil : ls = []
  · rw [hnil]
    exact nil closing
  have hpart : Text.joined '\n' ls <:+: Text.ended ls :=
    ⟨[], ['\n'], (Text.ended_eq_joined hnil).symm⟩
  refine ⟨⟨?_, fun c hc => ?_⟩, (Uncommented.ended fun l hl => (h l hl).comments).of_part hpart⟩
  · rw [Sealed.words_joined (by decide) hsealed, List.mem_flatMap]
    rintro ⟨l, hl, hmem⟩
    exact (h l hl).bare.words hmem
  · rcases Text.mem_ended (hpart.subset hc) with rfl | ⟨l, hl, hmem⟩
    · decide
    · exact (h l hl).bare.quotes c hmem

/-- A line of a contained text is contained, with or without its carriage return. -/
theorem lines (hsealed : Sealed n t) (h : Contained closing t) :
    ∀ l ∈ Text.lines t, Contained closing l := by
  intro l hl
  obtain ⟨piece, hpiece, heq⟩ := Text.exists_piece_of_mem_lines hl
  rw [← Text.joined_pieces '\n' t] at hsealed h
  have hcontained := of_joined hsealed h piece hpiece
  rcases heq with rfl | rfl
  · exact hcontained
  rcases Text.dropReturn_cases piece with heq | heq
  · rw [heq]
    exact hcontained
  · have hpart : Text.dropReturn piece <:+: piece := ⟨[], ['\r'], heq.symm⟩
    have hpieceSealed := Sealed.of_joined (by decide) hsealed piece hpiece
    rw [heq] at hcontained hpieceSealed
    exact ⟨(hcontained.bare.of_append_cons (hpieceSealed.of_append_cons (by decide)).1
      (by decide)).1, hcontained.comments.of_part (heq ▸ hpart)⟩

end Contained

end Texts

end ScriptMinifier
