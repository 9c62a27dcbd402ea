import ScriptMinifier.Proofs.Output.RecastLengths
import ScriptMinifier.Proofs.Output.WrittenPrograms
import ScriptMinifier.Proofs.Usage.Citing

/-! Names that are read again.

A name that a line cites is among the names of the body that is read where the line was written
(`FunctionRead.mem_namesIn`), and a word that stands in a value is a word of the value that is read
there (`DeclarationRead.exists_value`). -/
namespace ScriptMinifier

open Layout (squeezeBlock)
open Literal (indexLimit isFree)
open Output (shortenFrom shortenNumerals)
open Syntax (Declaration Function)
open Text (ended isIdent isWordChar mark words)
open Usage (Cites Idiom namesIn)

/-! ### Lines that are written -/

/-- Shortening leaves something of every text. -/
theorem Output.shortenFrom_ne_nil {before : Option Char} {t : Text} (h : t ≠ []) :
    shortenFrom before t ≠ [] := by
  cases t using Text.numeralwise with
  | nil => exact absurd rfl h
  | placeholder rest =>
    rw [shortenFrom_mark]
    exact List.cons_ne_nil _ _
  | word w t hne hw ht =>
    rw [shortenFrom_word hne hw ht]
    exact List.append_ne_nil_of_left_ne_nil (shortenWord_ne_nil _ _ hne) _
  | dollar w t hne hw ht =>
    rw [shortenFrom_dollarWord hne hw ht]
    exact List.append_ne_nil_of_left_ne_nil (shortenDollar_ne_nil w) _
  | other c t hc ht =>
    rw [shortenFrom_other hc ht]
    exact List.cons_ne_nil _ _

theorem Text.exists_free_of_isIdent {w : Text} (h : isIdent w = true) :
    ∃ c ∈ w.head?, isFree c = true := by
  obtain ⟨c, rest, rfl⟩ := List.exists_cons_of_ne_nil (ne_nil_of_isIdent h)
  refine ⟨c, rfl, ?_⟩
  have hmark : c ≠ mark := by
    rintro rfl
    exact absurd (isWordChar_of_isIdent h mark List.mem_cons_self) (by decide)
  rw [isFree, not_isDigit_of_isIdent h c rfl, bne_iff_ne.2 hmark]
  rfl

variable {n : Nat} {ls ls' : Literals} {kind : Option Idiom} {w x line : Text}

/-! ### Words -/

/-- A name that stands in a text is a word of what is read. -/
theorem Reread.mem_words (hw : isIdent w = true) (hline : Sealed n line)
    (hstands : Text.Stands w line) (h : Reread ls ls' line x) : w ∈ words x := by
  have hne := Text.ne_nil_of_isIdent hw
  have hchars := Text.isWordChar_of_isIdent hw
  have hlast : ∀ d ∈ w.getLast?, d ≠ '$' := by
    intro d hd hdollar
    rw [hdollar] at hd
    exact absurd (hchars _ (List.mem_of_getLast? hd)) (by decide)
  have hx := h.sealed
  obtain ⟨before, w', after, rfl, hread, hleft, hright⟩ :=
    h.of_stands (Text.exists_free_of_isIdent hw) (.of_all_isWordChar hchars) hlast hline hstands
  have hend : Text.StartsNoWord [] := nofun
  rw [← List.append_nil w] at hread
  obtain ⟨rest, rfl, hrest⟩ := hread.of_name hne hchars (Text.not_isDigit_of_isIdent hw) hend
  obtain rfl := hrest.of_nil
  rw [List.append_nil] at hright hx ⊢
  have hafter : Text.StartsNoWord after :=
    hright _ (List.getLast?_eq_some_getLast hne) (hchars _ (List.getLast_mem hne))
  have hbefore : Sealed ls'.size before := by
    obtain ⟨c, hc, hfree⟩ := Text.exists_free_of_isIdent hw
    obtain ⟨rest, rfl⟩ := List.head?_eq_some_iff.1 hc
    exact (hx.of_append_cons hfree).1
  rw [hbefore.words_append, Text.words_word hne hchars hafter]
  · exact List.mem_append_right _ List.mem_cons_self
  · intro c hc hword
    rw [hleft c hc] at hword
    cases hword

/-! ### Functions -/

namespace FunctionRead

variable {f f' : Function}

/-- What is cited on a line of a body is among the names of the body that is read. -/
theorem mem_namesIn (hbody : Sealed ls.size f.body) (hlimit : ls'.size ≤ indexLimit)
    (hline : line ∈ Text.pieces '\n' f.body) (hw : isIdent w = true) (hcites : Cites ls line kind w)
    (h : FunctionRead ls ls' f f') : w ∈ namesIn ls' f'.body kind := by
  obtain ⟨lines, hlines, rfl⟩ := h
  have hlinesSealed : ∀ l ∈ lines, Sealed ls'.size l := fun l hl =>
    let ⟨_, _, hread⟩ := exists_of_mem_right hlines hl
    hread.sealed
  have hsealed := sealed_ended hlinesSealed
  have hnewline : ∀ l ∈ lines, '\n' ∉ l := by
    intro l hl
    obtain ⟨piece, hpiece, hread⟩ := exists_of_mem_right hlines hl
    exact hread.not_mem (by decide) (Text.not_mem_of_mem_pieces (List.mem_filter.1 hpiece).1)
  have hlineSealed := hbody.pieces (by decide) line hline
  have hwritten : line ≠ [] → ∃ x ∈ lines, Reread ls ls' line x := by
    intro hne
    have hshortened : Output.shortenNumerals line ≠ [] := Output.shortenFrom_ne_nil hne
    exact exists_of_mem_left hlines (List.mem_filter.2 ⟨hline, decide_eq_true hshortened⟩)
  cases hcites with
  | word hstands =>
    have hne : line ≠ [] := hstands.ne_nil (Text.ne_nil_of_isIdent hw)
    obtain ⟨x, hx, hread⟩ := hwritten hne
    have hword := hread.mem_words hw hlineSealed hstands
    show w ∈ words (Text.trimEnd (squeezeBlock (ended lines)))
    rw [hsealed.squeezeBlock.words_trimEnd, Layout.words_squeezeBlock, words_ended hlinesSealed]
    exact List.mem_flatMap.2 ⟨x, hx, hword⟩
  | @literal k idiom raw _ htakes hget hname =>
    obtain ⟨u, htakes, hplain, hstands⟩ := htakes
    have hne : line ≠ [] := hstands.ne_nil htakes.ne_nil
    obtain ⟨x, hx, hread⟩ := hwritten hne
    obtain ⟨before, u', after, rfl, hreadCall, hleft, -⟩ :=
      hread.of_stands htakes.head? (htakes.sealed (Literals.lt_size_of_get? hget)) htakes.last
        hlineSealed hstands
    obtain ⟨raw', k', hget', hgot, htakes'⟩ := hreadCall.of_takes htakes hplain
    obtain rfl := Option.some.inj (hget.symm.trans hget')
    have hk := Nat.lt_of_lt_of_le (Literals.lt_size_of_get? hgot) hlimit
    have hids := htakes'.mem_ids_squeezeBlock hk hsealed hnewline hx hleft
    exact Usage.mem_names hids hgot hname

end FunctionRead

/-! ### Declarations -/

/-- A name that stands in a value is a word of the value that is read. -/
theorem DeclarationRead.exists_value {d d' : Declaration} {v : Text} (hv : v ∈ d.value)
    (hsealed : Sealed n v) (hw : isIdent w = true) (hstands : Text.Stands w v)
    (h : DeclarationRead ls ls' d d') : ∃ v' ∈ d'.value, w ∈ words v' := by
  obtain ⟨value, hread, rfl⟩ := h
  rw [Option.mem_def.1 hv] at hread
  cases hread with
  | unstated hnil => exact absurd hnil (hstands.ne_nil (Text.ne_nil_of_isIdent hw))
  | @stated _ x hread =>
    refine ⟨_, rfl, ?_⟩
    have hsqueezed : words (Layout.squeezeFrom (some '=') false x) = words x :=
      Layout.wordsFrom_squeezeFrom false (some '=') false x
    rw [(hread.sealed.squeezeFrom _ _).words_trimEnd, hsqueezed]
    exact hread.mem_words hw hsealed hstands

end ScriptMinifier
