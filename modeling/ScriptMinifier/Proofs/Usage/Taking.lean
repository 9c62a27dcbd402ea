import ScriptMinifier.Proofs.Syntax.Leading
import ScriptMinifier.Proofs.Text.Standing
import ScriptMinifier.Proofs.Usage.LiteralCall

/-! Calls that take a literal.

An idiom takes a literal where its call stands, whatever stands before and after the call
(`Takes.mem_ids`). The layout keeps such calls: squeezing a block changes blanks alone, and there
are none between the name of the call and its parenthesis (`Takes.mem_ids_squeezeBlock`). -/
namespace ScriptMinifier

open Layout (squeezeFrom squeezeLine squeezeBlock isTight separates)
open Literal (indexLimit placeholder)
open Text (isHorizontal isOtherChar isWordChar mark words)

namespace Usage

/-- A call in which an idiom takes the literal of a number. -/
inductive Takes (n : Nat) : Idiom → Text → Prop
  | callback : Takes n .executeFunc (Idiom.executeFunc.callee ++ '(' :: (placeholder n ++ [')']))
  | event {opened : Text} (hmark : mark ∉ opened) :
      Takes n .variableEvent (Idiom.variableEvent.callee ++ '(' :: (opened ++ placeholder n))

/-- The literal that is the whole argument list after the name. -/
theorem mem_executeFunc_ids {m n : Nat} {before : Text} (hbefore : Sealed m before)
    (hapart : ∀ c ∈ before.getLast?, isWordChar c = false) (hn : n < indexLimit) (after : Text) :
    n ∈ Idiom.executeFunc.ids
      (before ++ (Idiom.executeFunc.callee ++ '(' :: (placeholder n ++ ')' :: after))) := by
  have hwords : ∀ c ∈ Idiom.executeFunc.callee, isWordChar c = true := by decide
  have hparen : ∀ c ∈ ['('], isOtherChar c = true := by decide
  have hstops : ∀ c ∈ (placeholder n ++ ')' :: after).head?, isOtherChar c = false := by
    intro c hc
    rw [Literal.placeholder_append] at hc
    rw [← Option.mem_some_iff.1 hc]
    decide
  have hopens : Text.StartsNoWord ('(' :: (placeholder n ++ ')' :: after)) :=
    Text.startsNoWord_of_isOtherChar (by decide) _
  have hlist : Text.segments ('(' :: (placeholder n ++ ')' :: after)) =
      .other ['('] :: .placeholder (placeholder n) :: Text.segments (')' :: after) := by
    rw [← Literal.segments_placeholder]
    exact Text.segments_others (List.cons_ne_nil _ _) hparen hstops
  rw [Idiom.ids, hbefore.segments_append, Text.segments_word (by decide) hwords hopens, hlist]
  · apply Idiom.mem_idsIn_append
    rw [Idiom.idsIn, if_pos rfl]
    apply List.mem_append_left
    rw [Text.segments_of_isOtherChar (by decide), Idiom.taken, onlyArgument,
      Literal.placeholderId?_placeholder hn]
    exact List.mem_singleton_self n
  · intro c hc hw
    rw [hapart c hc] at hw
    cases hw
  · intro c _ _ d hd
    have hd' : d ∈ Idiom.executeFunc.callee.head? := hd
    simp [isOtherChar, hwords d (List.mem_of_mem_head? hd')]

end Usage

/-! ### Squeezing around a cut -/

namespace Layout

variable {d : Char}

/-- A character that stays is written after the blank before it, if one is needed. -/
theorem squeezeFrom_visible (hd : isHorizontal d = false) (before : Option Char) (pending : Bool)
    (t : Text) :
    squeezeFrom before pending (d :: t) =
      (if pending && separates before d then [' '] else []) ++ d :: squeezeFrom (some d) false t :=
  @Sealed.squeezeFrom_run d [] (by simpa using hd) t before pending

/-- Two words with blanks between them are separated. -/
theorem pending_eq_false {a : Char} {pending : Bool}
    (hspace : (pending && separates (some a) d) = false) (ha : isWordChar a = true)
    (hd : isWordChar d = true) : pending = false := by
  have htight := Sealed.not_isTight_of_isWordChar ha
  have htight' := Sealed.not_isTight_of_isWordChar hd
  cases pending with
  | false => rfl
  | true => simp [separates, htight, htight'] at hspace

/-- A line is squeezed up to a character and from there. Before a word no word ends in what the
first part leaves, unless one ended there. -/
theorem exists_squeezeFrom_append (before : Option Char) (pending : Bool)
    (hd : isHorizontal d = false) (s t : Text) :
    ∃ s' last, squeezeFrom before pending (s ++ d :: t) = s' ++ squeezeFrom last false (d :: t) ∧
      (∀ c ∈ s', c = ' ' ∨ c ∈ s) ∧
      (isWordChar d = true → ∀ c ∈ s'.getLast?.or before, isWordChar c = true →
        ∃ e ∈ s.getLast?.or (if pending then none else before), isWordChar e = true) := by
  induction s generalizing before pending with
  | nil =>
    refine ⟨if pending && separates before d then [' '] else [], before, ?eq, ?chars, ?ends⟩
    case eq => rw [List.nil_append, squeezeFrom_visible hd, squeezeFrom_visible hd]; rfl
    case chars => split <;> simp
    case ends =>
      intro hword c hc hc'
      split at hc
      · rw [← Option.mem_some_iff.1 hc] at hc'
        cases hc'
      · rename_i hspace
        have hbefore : c ∈ before := hc
        rw [Bool.not_eq_true, Option.mem_def.1 hbefore] at hspace
        exact ⟨c, by rw [pending_eq_false hspace hc' hword]; exact hbefore, hc'⟩
  | cons a s ih =>
    by_cases ha : isHorizontal a = true
    · obtain ⟨s', last, heq, hchars, hlast⟩ := ih before true
      refine ⟨s', last, ?_, fun c hc => (hchars c hc).imp_right (List.mem_cons_of_mem a), ?_⟩
      · rw [List.cons_append, squeezeFrom, if_pos ha, heq]
      · intro hword c hc hc'
        obtain ⟨e, he, hword'⟩ := hlast hword c hc hc'
        rw [if_pos rfl, Option.or_none] at he
        exact ⟨e, by rw [List.getLast?_cons, Option.mem_def.1 he]; rfl, hword'⟩
    · obtain ⟨s', last, heq, hchars, hlast⟩ := ih (some a) false
      refine ⟨(if pending && separates before a then [' '] else []) ++ a :: s', last, ?eq, ?chars,
        ?ends⟩
      case eq =>
        rw [List.cons_append, squeezeFrom_visible (Bool.eq_false_iff.2 ha), heq, List.append_assoc]
        rfl
      case chars =>
        intro c hc
        rcases List.mem_append.1 hc with hspace | hc
        · have hblank : c ∈ [' '] := by
            split at hspace
            · exact hspace
            · cases hspace
          exact .inl (List.mem_singleton.1 hblank)
        · rcases List.mem_cons.1 hc with rfl | hc
          · exact .inr List.mem_cons_self
          · exact (hchars c hc).imp_right (List.mem_cons_of_mem a)
      case ends =>
        intro hword c hc hc'
        rw [List.getLast?_append, List.getLast?_cons, Option.some_or, Option.some_or] at hc
        have hends : c ∈ s'.getLast?.or (some a) := by
          cases hs : s'.getLast? <;> rw [hs] at hc <;> exact hc
        obtain ⟨e, he, hword'⟩ := hlast hword c hends hc'
        refine ⟨e, ?_, hword'⟩
        rw [List.getLast?_cons]
        rw [if_neg Bool.false_ne_true] at he
        cases hs : s.getLast? <;> rw [hs] at he <;> exact he

end Layout

namespace Usage.Takes

variable {m n : Nat} {idiom : Idiom} {u before after : Text}

/-- An idiom takes the literal of a call that no word runs into. -/
theorem mem_ids (h : Takes n idiom u) (hbefore : Sealed m before)
    (hapart : ∀ c ∈ before.getLast?, isWordChar c = false) (hline : '\n' ∉ u) (hn : n < indexLimit)
    (after : Text) : n ∈ idiom.ids (before ++ (u ++ after)) := by
  cases h with
  | callback =>
    have hids := mem_executeFunc_ids hbefore hapart hn after
    simpa using hids
  | @event opened hmark =>
    have hopened : '\n' ∉ opened := fun hmem => hline (by simp [hmem])
    have hids := mem_ids_of_segments hbefore hapart hmark hopened hn after
    simpa using hids

/-- The name of a call and its parenthesis stay side by side. -/
theorem squeezeFrom_opening (idiom : Idiom) (last : Option Char) (t : Text) :
    ∃ last', squeezeFrom last false (idiom.callee ++ '(' :: t) =
      idiom.callee ++ '(' :: squeezeFrom last' false t := by
  have hrun : ∀ c ∈ idiom.callee ++ ['('], isHorizontal c = false := by
    cases idiom with
    | executeFunc => decide
    | variableEvent => decide
  have htidy : Layout.Tidy last (idiom.callee ++ ['(']) := .of_run hrun
  have hsqueeze := htidy.squeezeFrom_append t
  rw [List.append_assoc, List.append_assoc] at hsqueeze
  exact ⟨_, hsqueeze⟩

/-- A call is squeezed after its parenthesis alone. -/
theorem exists_squeezeFrom (h : Takes n idiom u) (last : Option Char) (after : Text) :
    ∃ u' after', squeezeFrom last false (u ++ after) = u' ++ after' ∧ Takes n idiom u' := by
  cases h with
  | callback =>
    obtain ⟨last', hopening⟩ :=
      squeezeFrom_opening .executeFunc last (placeholder n ++ ')' :: after)
    rw [Sealed.squeezeFrom_placeholder, Bool.false_and, if_neg Bool.false_ne_true, List.nil_append,
      squeezeFrom, if_neg (by decide), Bool.false_and, if_neg Bool.false_ne_true] at hopening
    refine ⟨_, squeezeFrom (some ')') false after, ?_, .callback⟩
    simpa using hopening
  | @event opened hmark =>
    obtain ⟨last', hopening⟩ :=
      squeezeFrom_opening .variableEvent last (opened ++ (placeholder n ++ after))
    obtain ⟨opened', last'', hopened, hchars, -⟩ := Layout.exists_squeezeFrom_append last' false
      (d := mark) (by decide) opened (Text.ofNat n ++ mark :: after)
    rw [← Literal.placeholder_append, Sealed.squeezeFrom_placeholder, Bool.false_and,
      if_neg Bool.false_ne_true, List.nil_append] at hopened
    have hmark' : mark ∉ opened' := by
      intro hmem
      rcases hchars mark hmem with hspace | hmem
      · exact absurd hspace (by decide)
      · exact hmark hmem
    refine ⟨_, squeezeFrom (some mark) false after, ?_, .event hmark'⟩
    rw [hopened] at hopening
    simpa using hopening

/-- A call starts with a letter, -/
theorem exists_cons (h : Takes n idiom u) :
    ∃ c rest, u = c :: rest ∧ isWordChar c = true ∧ Literal.isFree c = true := by
  have hname : ∀ idiom : Idiom,
      ∃ c rest, idiom.callee = c :: rest ∧ isWordChar c = true ∧ Literal.isFree c = true
    | .executeFunc => ⟨_, _, rfl, by decide⟩
    | .variableEvent => ⟨_, _, rfl, by decide⟩
  obtain ⟨c, rest, hcallee, hletter⟩ := hname idiom
  cases h with
  | callback => exact ⟨c, _, by rw [hcallee]; rfl, hletter⟩
  | event => exact ⟨c, _, by rw [hcallee]; rfl, hletter⟩

/-- and ends with its parenthesis or its literal. -/
theorem exists_concat (h : Takes n idiom u) :
    ∃ init c, u = init ++ [c] ∧ Text.isBlank c = false ∧ c ≠ '$' := by
  cases h with
  | callback => exact ⟨Idiom.executeFunc.callee ++ '(' :: placeholder n, ')', by simp, by decide⟩
  | @event opened =>
    exact ⟨Idiom.variableEvent.callee ++ '(' :: (opened ++ mark :: Text.ofNat n), mark,
      by simp [placeholder], by decide⟩

/-- A squeezed line has the call. -/
theorem exists_squeezeLine (h : Takes n idiom u)
    (hapart : ∀ c ∈ before.getLast?, isWordChar c = false) (after : Text) :
    ∃ before' u' after', squeezeLine (before ++ (u ++ after)) = before' ++ (u' ++ after') ∧
      Takes n idiom u' ∧ ∀ c ∈ before'.getLast?, isWordChar c = false := by
  obtain ⟨c, rest, hu, hword, -⟩ := h.exists_cons
  obtain ⟨before', last, heq, -, hlast⟩ := Layout.exists_squeezeFrom_append none false
    (Sealed.not_isHorizontal_of_isWordChar hword) before (rest ++ after)
  rw [← List.cons_append, ← hu] at heq
  obtain ⟨u', after', hu', htakes⟩ := h.exists_squeezeFrom last after
  refine ⟨before', u', after', by rw [squeezeLine, heq, hu'], htakes, fun d hd => ?_⟩
  rw [Bool.eq_false_iff]
  intro hd'
  obtain ⟨e, he, he'⟩ := hlast hword d (by rwa [Option.or_none]) hd'
  rw [if_neg Bool.false_ne_true, Option.or_none] at he
  rw [hapart e he] at he'
  cases he'

/-- A text has the calls of its lines. -/
theorem exists_around {body : Text} (h : Takes n idiom u) (hbody : Sealed m body)
    (hline : before ++ (u ++ after) ∈ Text.pieces '\n' body)
    (hapart : ∀ c ∈ before.getLast?, isWordChar c = false) :
    ∃ start stop, body = start ++ (u ++ stop) ∧ Sealed m start ∧
      (∀ c ∈ start.getLast?, isWordChar c = false) ∧ '\n' ∉ u := by
  obtain ⟨c, rest, rfl, -, hfree⟩ := h.exists_cons
  have hnewline := Text.not_mem_of_mem_pieces hline
  obtain ⟨start, stop, rfl, hstart, -⟩ := Text.exists_of_mem_pieces hline
  have hcut : start ++ (before ++ (c :: rest ++ after)) ++ stop =
      start ++ before ++ c :: (rest ++ after ++ stop) := by
    simp
  rw [hcut] at hbody
  refine ⟨start ++ before, after ++ stop, by simp, (hbody.of_append_cons hfree).1, fun d hd => ?_,
    fun hmem => hnewline (List.mem_append_right _ (List.mem_append_left _ hmem))⟩
  rw [List.getLast?_append] at hd
  cases hlast : before.getLast? with
  | none =>
    rw [hlast] at hd
    rw [hstart d hd]
    decide
  | some e =>
    rw [hlast] at hd
    rw [← Option.mem_some_iff.1 hd]
    exact hapart e hlast

/-- A squeezed block has the calls of its lines, with blanks at its end or without. -/
theorem mem_ids_squeezeBlock {lines : List Text} (h : Takes n idiom u) (hn : n < indexLimit)
    (hsealed : Sealed m (Text.ended lines)) (hlines : ∀ l ∈ lines, '\n' ∉ l)
    (hline : before ++ (u ++ after) ∈ lines)
    (hapart : ∀ c ∈ before.getLast?, isWordChar c = false) :
    n ∈ idiom.ids (Text.trimEnd (squeezeBlock (Text.ended lines))) := by
  obtain ⟨before', u', after', hsqueezed, htakes, hapart'⟩ := h.exists_squeezeLine hapart after
  have hmem : before' ++ (u' ++ after') ∈ Layout.squeezedLines (Text.ended lines) := by
    obtain ⟨c, rest, rfl, -⟩ := htakes.exists_cons
    refine List.mem_filter.2 ⟨List.mem_map.2 ⟨before ++ (u ++ after), ?_, hsqueezed⟩, by simp⟩
    rw [← List.append_nil (Text.ended lines), Text.pieces_ended hlines]
    exact List.mem_append_left _ hline
  rw [← Text.pieces_joined (List.ne_nil_of_mem hmem) fun l hl =>
    Layout.newline_not_mem_squeezedLines hl] at hmem
  obtain ⟨start, stop, hblock, hstart, hends, hnewline⟩ :=
    htakes.exists_around hsealed.squeezeBlock hmem hapart'
  obtain ⟨init, d, rfl, hblank, -⟩ := htakes.exists_concat
  have hcut : squeezeBlock (Text.ended lines) = start ++ init ++ [d] ++ stop := by
    rw [hblock]
    simp
  have hids := htakes.mem_ids hstart hends hnewline hn (Text.trimEnd stop)
  rw [hcut, Text.trimEnd_append hblank]
  simpa using hids

end Usage.Takes

/-! ### Calls that stand in a text -/

namespace Usage

variable {m n : Nat} {idiom : Idiom} {g : Text → Option Text} {t body line : Text}

/-- A call in which an idiom takes a literal stands in a text, and no number before the literal is
long enough to become a literal itself. -/
def TakesIn (n : Nat) (idiom : Idiom) (t : Text) : Prop :=
  ∃ u, Takes n idiom u ∧ Text.Plain u ∧ Text.Stands u t

theorem Takes.head? {u : Text} (h : Takes n idiom u) : ∃ c ∈ u.head?, Literal.isFree c = true := by
  obtain ⟨c, rest, rfl, -, hfree⟩ := h.exists_cons
  exact ⟨c, rfl, hfree⟩

theorem Takes.ne_nil {u : Text} (h : Takes n idiom u) : u ≠ [] := by
  obtain ⟨c, rest, rfl, -⟩ := h.exists_cons
  exact List.cons_ne_nil c rest

theorem Takes.last {u : Text} (h : Takes n idiom u) : ∀ c ∈ u.getLast?, c ≠ '$' := by
  obtain ⟨init, d, rfl, -, hdollar⟩ := h.exists_concat
  simpa using hdollar

theorem Takes.sealed {u : Text} (h : Takes n idiom u) (hn : n < m) : Sealed m u := by
  cases h with
  | callback =>
    have hcallee : Sealed m Idiom.executeFunc.callee := .of_not_mem (by decide)
    exact hcallee.append (.char (by decide) (.literal hn (.char (by decide) .nil)))
  | event hmark =>
    have hcallee : Sealed m Idiom.variableEvent.callee := .of_not_mem (by decide)
    have hliteral : Sealed m (placeholder n ++ []) := .literal hn .nil
    rw [List.append_nil] at hliteral
    exact hcallee.append (.char (by decide) ((Sealed.of_not_mem hmark).append hliteral))

namespace TakesIn

/-- An idiom takes the literal in the text that the line is from. -/
theorem mem_ids (hbody : Sealed m body) (hline : line ∈ Text.pieces '\n' body)
    (h : TakesIn n idiom line) (hn : n < indexLimit) : n ∈ idiom.ids body := by
  obtain ⟨u, htakes, -, hstands⟩ := h
  obtain ⟨before, after, rfl, -, left, -⟩ :=
    hstands.exists_cut htakes.head? (hbody.pieces (by decide) line hline)
  obtain ⟨start, stop, rfl, hstart, hends, hnewline⟩ :=
    htakes.exists_around hbody hline fun c hc => (left c hc).1
  exact htakes.mem_ids hstart hends hnewline hn stop

/-- The call stays when words are replaced and its name is not. -/
theorem replaceWords (hg : GivesIdents g) (hcallee : Text.replacement g idiom.callee = idiom.callee)
    (ht : Sealed m t) (hn : n < m) (h : TakesIn n idiom t) :
    TakesIn n idiom (Text.replaceWords g t) := by
  rw [Text.replacement] at hcallee
  obtain ⟨u, htakes, hplain, hstands⟩ := h
  have hsealed := htakes.sealed hn
  refine ⟨Text.replaceWords g u, ?_, hplain.replaceWords hg,
    hstands.replaceWords hg.smooth htakes.head? hsealed ht⟩
  cases htakes with
  | callback =>
    have hopens : Text.StartsNoWord ('(' :: (placeholder n ++ [')'])) :=
      Text.startsNoWord_of_isOtherChar (by decide) _
    rw [Text.replaceWords_run (by decide) (by decide) hopens, hcallee,
      Sealed.replaceWords_cons (by decide), Text.replaceWords_placeholder,
      Sealed.replaceWords_cons (by decide), Text.replaceWords_nil]
    exact .callback
  | @event opened hmark =>
    have hopens : Text.StartsNoWord ('(' :: (opened ++ placeholder n)) :=
      Text.startsNoWord_of_isOtherChar (by decide) _
    have hnext : ∀ c ∈ opened.getLast?, isWordChar c = true →
        Text.StartsNoWord (placeholder n) := by
      intro _ _ _
      rw [← List.append_nil (placeholder n)]
      exact Literal.startsNoWord_placeholder n []
    have hliteral := Text.replaceWords_placeholder (f := g) n []
    rw [List.append_nil, Text.replaceWords_nil, List.append_nil] at hliteral
    rw [Text.replaceWords_run (by decide) (by decide) hopens, hcallee,
      Sealed.replaceWords_cons (by decide),
      (Sealed.of_not_mem (n := 0) hmark).replaceWords_append hnext, hliteral]
    exact .event (Sealed.not_mem_replaceWords hg.smooth (by decide) hmark)

end TakesIn
end Usage
end ScriptMinifier
