import ScriptMinifier.Proofs.Naming.Locals
import ScriptMinifier.Proofs.Text.Renaming

/-! Texts that differ in some of their words.

Lines and fields are cut without regard to placeholders, so they may part what a placeholder
encloses, and a line of a text with words replaced is a line with some of its words replaced and
others not. `Recast` relates two such texts character by character. It is kept by every cut at
a character that no replacement has, and the locals that a function declares are the same in
both, unless one of them is replaced itself (`localNames_eq_of_recast`). -/
namespace ScriptMinifier

open Syntax (Declaration Function localName? isDatatype datatypes)
open Text (mark isWordChar isOtherChar isBlank isIdent isSmooth Smooth StartsNoWord fields)

/-- Two texts of which the second has some words replaced. -/
inductive Recast (g : Text → Option Text) : Text → Text → Prop
  | nil : Recast g [] []
  | char {c : Char} {s t : Text} (hc : isWordChar c = false) (rest : Recast g s t) :
      Recast g (c :: s) (c :: t)
  | word {w r s t : Text} (hne : w ≠ []) (hw : ∀ c ∈ w, isWordChar c = true) (hs : StartsNoWord s)
      (hr : r = w ∨ g w = some r) (rest : Recast g s t) : Recast g (w ++ s) (r ++ t)

theorem Text.startsNoWord_nil : StartsNoWord [] :=
  fun c rest h => absurd h (List.cons_ne_nil c rest).symm

/-- Every text is made of words and characters outside words. -/
theorem Text.runwise {motive : Text → Prop} (nil : motive [])
    (char : ∀ c t, isWordChar c = false → motive t → motive (c :: t))
    (word : ∀ w t, w ≠ [] → (∀ c ∈ w, isWordChar c = true) → StartsNoWord t → motive t →
      motive (w ++ t)) (t : Text) :
    motive t := by
  match t with
  | [] => exact nil
  | c :: rest =>
    by_cases hc : isWordChar c = true
    · obtain ⟨hsplit, hrun⟩ := Text.exists_run hc rest
      rw [hsplit]
      exact word _ _ (List.cons_ne_nil _ _) hrun (Text.startsNoWord_dropWhile rest)
        (runwise nil char word _)
    · exact char c rest (by simpa using hc) (runwise nil char word rest)
termination_by t.length
decreasing_by
  · exact Nat.lt_succ_of_le (Text.length_dropWhile_le isWordChar rest)
  · exact Nat.lt_succ_self _

namespace Recast

variable {g : Text → Option Text} {s t u : Text} {c : Char}

/-- The same beginning before texts of which the second has some words replaced. -/
theorem append_left (h : Recast g s t)
    (hcut : ∀ c ∈ u.getLast?, isWordChar c = true → StartsNoWord s) :
    Recast g (u ++ s) (u ++ t) := by
  revert hcut
  refine Text.runwise (motive := fun u => (∀ c ∈ u.getLast?, isWordChar c = true → StartsNoWord s) →
    Recast g (u ++ s) (u ++ t)) (fun _ => h) (fun c u hc ih hcut => ?_)
      (fun w u hne hw hu ih hcut => ?_) u
  · exact .char hc (ih (Text.forall_getLast?_of_append (s := [c]) hcut))
  · rw [List.append_assoc, List.append_assoc]
    exact .word hne hw (hu.append_of_cut hne hw hcut) (.inl rfl)
      (ih (Text.forall_getLast?_of_append hcut))

/-- Replacing words recasts a text. -/
theorem replaceWords (g : Text → Option Text) (t : Text) : Recast g t (Text.replaceWords g t) := by
  induction t using Text.wordwise with
  | nil =>
    rw [Text.replaceWords_nil]
    exact .nil
  | placeholder rest ih =>
    rw [Text.replaceWords_mark]
    conv => arg 2; rw [← Text.throughMark_append_afterMark rest]
    refine ih.append_left (u := mark :: Text.throughMark rest) fun c hc hw => ?_
    rcases Text.throughMark_cases rest with ⟨inner, -, hthrough⟩ | ⟨-, -, hafter⟩
    · rw [hthrough, ← List.cons_append, List.getLast?_append] at hc
      obtain rfl := Option.some.inj hc
      exact absurd (show isWordChar mark = true from hw) (by decide)
    · rw [hafter]
      exact Text.startsNoWord_nil
  | word w t hne hw ht ih =>
    rw [Text.replaceWords_run hne hw ht]
    refine .word hne hw ht ?_ ih
    cases hg : g w with
    | none => exact .inl rfl
    | some r => exact .inr rfl
  | other c t hc ih =>
    rw [Sealed.replaceWords_cons hc]
    exact .char (Text.not_isWordChar_of_isOtherChar hc) ih

theorem eq_nil (h : Recast g [] u) : u = [] := by
  generalize hs : ([] : Text) = s at h
  cases h with
  | nil => rfl
  | char => cases hs
  | word hne => exact absurd (List.append_eq_nil_iff.1 hs.symm).1 hne

/-- The texts may be cut together at a character outside words. -/
theorem of_append_cons (hc : isWordChar c = false) (h : Recast g (s ++ c :: t) u) :
    ∃ s' t', u = s' ++ c :: t' ∧ Recast g s s' ∧ Recast g t t' := by
  generalize hx : s ++ c :: t = x at h
  induction h generalizing s with
  | nil => simp at hx
  | @char d x u hd rest ih =>
    cases s with
    | nil =>
      obtain ⟨rfl, rfl⟩ := List.cons.inj hx
      exact ⟨[], u, rfl, .nil, rest⟩
    | cons e s =>
      obtain ⟨rfl, hs⟩ := List.cons.inj hx
      obtain ⟨s', t', rfl, hs, ht⟩ := ih hs
      exact ⟨e :: s', t', rfl, .char hd hs, ht⟩
  | @word w r x u hne hw hx' hr rest ih =>
    -- the cut lies after the word
    rcases List.append_eq_append_iff.1 hx with ⟨v, hv, hrest⟩ | ⟨v, rfl, hrest⟩
    · cases v with
      | nil =>
        rw [List.append_nil] at hv
        obtain ⟨s', t', rfl, hs, ht⟩ := ih (s := []) hrest
        rw [hs.eq_nil, ← hv]
        refine ⟨r, t', rfl, ?_, ht⟩
        have hone := Recast.word hne hw Text.startsNoWord_nil hr .nil
        rwa [List.append_nil, List.append_nil] at hone
      | cons d v =>
        rw [List.cons_append, List.cons.injEq] at hrest
        rw [hw c (by rw [hv, hrest.1]; simp)] at hc
        cases hc
    · obtain ⟨s', t', rfl, hs, ht⟩ := ih hrest.symm
      refine ⟨r ++ s', t', by rw [List.append_assoc], .word hne hw ?_ hr hs, ht⟩
      cases v with
      | nil => exact Text.startsNoWord_nil
      | cons d v =>
        intro e tail he
        obtain ⟨rfl, -⟩ := List.cons.inj he
        exact hx' d _ hrest

theorem char_inv (hc : isWordChar c = false) (h : Recast g (c :: t) u) :
    ∃ t', u = c :: t' ∧ Recast g t t' := by
  obtain ⟨s', t', rfl, hs, ht⟩ := of_append_cons (s := []) hc h
  rw [hs.eq_nil]
  exact ⟨t', rfl, ht⟩

/-- A text that is one word stays or is replaced. -/
theorem of_isWordChar (hs : ∀ c ∈ s, isWordChar c = true) (hne : s ≠ []) (h : Recast g s u) :
    u = s ∨ g s = some u := by
  cases h with
  | nil => exact absurd rfl hne
  | char hc =>
    rw [hs _ List.mem_cons_self] at hc
    cases hc
  | @word w r s t _ _ hstart hr rest =>
    obtain rfl : s = [] := by
      cases s with
      | nil => rfl
      | cons c tail =>
        have hword := hs c (by simp)
        rw [hstart c tail rfl] at hword
        cases hword
    rw [rest.eq_nil, List.append_nil, List.append_nil]
    exact hr

theorem refl (s : Text) : Recast g s s := by
  have h : Recast g (s ++ []) (s ++ []) := Recast.nil.append_left fun _ _ _ => Text.startsNoWord_nil
  rwa [List.append_nil] at h

/-- Texts with a character between them that is part of no word. -/
theorem append_cons {v : Text} (h : Recast g s t) (hc : isWordChar c = false) (h' : Recast g u v) :
    Recast g (s ++ c :: u) (t ++ c :: v) := by
  induction h with
  | nil => exact .char hc h'
  | char hd _ ih => exact .char hd ih
  | @word w r s t hne hw hs hr _ ih =>
    have hstart : StartsNoWord (s ++ c :: u) := by
      cases s with
      | nil =>
        intro d rest heq
        rw [← (List.cons.inj heq).1]
        exact hc
      | cons d rest => exact hs.append (List.cons_ne_nil d rest) _
    rw [List.append_assoc, List.append_assoc]
    exact .word hne hw hstart hr ih

theorem ended {ls ls' : List Text} (h : List.Forall₂ (Recast g) ls ls') :
    Recast g (Text.ended ls) (Text.ended ls') := by
  induction h with
  | nil => exact .nil
  | cons hline _ ih =>
    rw [Text.ended_cons, Text.ended_cons]
    exact hline.append_cons (by decide) ih

/-- What follows a word starts with the same character. -/
theorem head?_eq (hs : StartsNoWord s) (h : Recast g s u) : u.head? = s.head? := by
  cases s with
  | nil => rw [h.eq_nil]
  | cons c rest =>
    obtain ⟨t', rfl, -⟩ := h.char_inv (hs c rest rfl)
    rfl

theorem startsNoWord (hs : StartsNoWord s) (h : Recast g s u) : StartsNoWord u := by
  intro c rest heq
  have hhead := h.head?_eq hs
  rw [heq] at hhead
  obtain ⟨tail, htail⟩ := List.head?_eq_some_iff.1 hhead.symm
  exact hs c tail htail

/-- The first word stays or is replaced. -/
theorem word_inv {w : Text} (hne : w ≠ []) (hw : ∀ c ∈ w, isWordChar c = true) (hs : StartsNoWord s)
    (h : Recast g (w ++ s) u) : ∃ r t, u = r ++ t ∧ (r = w ∨ g w = some r) ∧ Recast g s t := by
  cases s with
  | nil =>
    rw [List.append_nil] at h
    exact ⟨u, [], (List.append_nil u).symm, h.of_isWordChar hw hne, .nil⟩
  | cons c rest =>
    have hc := hs c rest rfl
    obtain ⟨r, t, rfl, hr, ht⟩ := h.of_append_cons hc
    exact ⟨r, c :: t, rfl, hr.of_isWordChar hw hne, .char hc ht⟩

/-- What is part of no word stays. -/
theorem mem_of_mem (hc : isWordChar c = false) (hmem : c ∈ s) (h : Recast g s u) : c ∈ u := by
  induction h with
  | nil => cases hmem
  | @char d s t _ _ ih =>
    rcases List.mem_cons.1 hmem with rfl | hmem
    · exact List.mem_cons_self
    · exact List.mem_cons_of_mem d (ih hmem)
  | word _ hw _ _ _ ih =>
    rcases List.mem_append.1 hmem with hmem | hmem
    · rw [hw c hmem] at hc
      cases hc
    · exact List.mem_append_right _ (ih hmem)

theorem all_isWordChar (hu : ∀ c ∈ u, isWordChar c = true) (h : Recast g s u) :
    ∀ c ∈ s, isWordChar c = true := by
  intro c hmem
  by_contra hc
  exact hc (hu c (h.mem_of_mem (by simpa using hc) hmem))

theorem not_isWordChar_of_not_isSmooth (hc : isSmooth c = false) : isWordChar c = false := by
  rw [Bool.eq_false_iff]
  intro hw
  rw [Text.isSmooth_of_isWordChar hw] at hc
  cases hc

/-- A beginning without words is the same in both texts. -/
theorem of_append_left (hs : ∀ c ∈ s, isWordChar c = false) (h : Recast g (s ++ t) u) :
    ∃ t', u = s ++ t' ∧ Recast g t t' := by
  induction s generalizing u with
  | nil => exact ⟨u, rfl, h⟩
  | cons c rest ih =>
    rw [List.forall_mem_cons] at hs
    obtain ⟨u', rfl, h'⟩ := h.char_inv hs.1
    obtain ⟨t', rfl, ht⟩ := ih hs.2 h'
    exact ⟨t', rfl, ht⟩

/-- An end without words is the same in both texts. -/
theorem of_append_right (ht : ∀ c ∈ t, isWordChar c = false) (h : Recast g (s ++ t) u) :
    ∃ s', u = s' ++ t ∧ Recast g s s' := by
  cases t with
  | nil =>
    rw [List.append_nil] at h
    exact ⟨u, (List.append_nil u).symm, h⟩
  | cons c rest =>
    rw [List.forall_mem_cons] at ht
    obtain ⟨s', t', rfl, hs, hrest⟩ := h.of_append_cons ht.1
    rw [← List.append_nil rest] at hrest
    obtain ⟨t'', rfl, hnil⟩ := of_append_left ht.2 hrest
    rw [hnil.eq_nil, List.append_nil]
    exact ⟨s', rfl, hs⟩

section Smooth

variable (hg : Smooth g)

include hg

/-- A character of the second text is one of the first, or of a replacement. -/
theorem mem_cases (h : Recast g s u) (hmem : c ∈ u) : c ∈ s ∨ isSmooth c = true := by
  induction h with
  | nil => cases hmem
  | @char d s t _ _ ih =>
    rcases List.mem_cons.1 hmem with rfl | hmem
    · exact .inl List.mem_cons_self
    · exact (ih hmem).imp_left (List.mem_cons_of_mem d)
  | @word w r s t _ hw _ hr _ ih =>
    rcases List.mem_append.1 hmem with hmem | hmem
    · rcases hr with rfl | hr
      · exact .inr (Text.isSmooth_of_isWordChar (hw c hmem))
      · exact .inr ((hg w r hr).2 c hmem)
    · exact (ih hmem).imp_left (List.mem_append_right w)

theorem not_mem (hc : isSmooth c = false) (hs : c ∉ s) (h : Recast g s u) : c ∉ u := by
  intro hmem
  rcases mem_cases hg h hmem with hmem | hsmooth
  · exact hs hmem
  · rw [hc] at hsmooth
    cases hsmooth

theorem ne_nil (hne : s ≠ []) (h : Recast g s u) : u ≠ [] := by
  cases h with
  | nil => exact absurd rfl hne
  | char => exact List.cons_ne_nil _ _
  | @word w r s t hw _ _ hr _ =>
    have hr' : r ≠ [] := by
      rcases hr with rfl | hr
      · exact hw
      · exact (hg w r hr).1
    exact fun hnil => hr' (List.append_eq_nil_iff.1 hnil).1

theorem head?_cases (h : Recast g s u) (hmem : c ∈ u.head?) : c ∈ s.head? ∨ isSmooth c = true := by
  cases h with
  | nil => cases hmem
  | char => exact .inl hmem
  | @word w r s t hne hw hs hr rest =>
    have hone : Recast g w r := by
      have := Recast.word hne hw Text.startsNoWord_nil hr .nil
      rwa [List.append_nil, List.append_nil] at this
    rw [List.head?_append_of_ne_nil _ (ne_nil hg hne hone)] at hmem
    rcases mem_cases hg hone (List.mem_of_mem_head? hmem) with hc | hsmooth
    · exact .inr (Text.isSmooth_of_isWordChar (hw c hc))
    · exact .inr hsmooth

theorem getLast?_cases (h : Recast g s u) (hmem : c ∈ u.getLast?) :
    c ∈ s.getLast? ∨ isSmooth c = true := by
  induction h with
  | nil => cases hmem
  | @char d s t _ rest ih =>
    by_cases hnil : s = []
    · subst hnil
      rw [rest.eq_nil] at hmem
      exact .inl hmem
    · rw [List.getLast?_cons_of_ne_nil (ne_nil hg hnil rest)] at hmem
      rw [List.getLast?_cons_of_ne_nil hnil]
      exact ih hmem
  | @word w r s t hne hw hs hr rest ih =>
    by_cases hnil : s = []
    · subst hnil
      rw [rest.eq_nil, List.append_nil] at hmem
      rcases hr with rfl | hr
      · exact .inr (Text.isSmooth_of_isWordChar (hw c (List.mem_of_getLast? hmem)))
      · exact .inr ((hg w r hr).2 c (List.mem_of_getLast? hmem))
    · rw [List.getLast?_append_of_ne_nil _ (ne_nil hg hnil rest)] at hmem
      rw [List.getLast?_append_of_ne_nil _ hnil]
      exact ih hmem

/-- Both texts are cut at the first occurrence of a character, or neither is. -/
theorem cutAt?_cases (hc : isSmooth c = false) (h : Recast g s u) :
    (Text.cutAt? c s = none ∧ Text.cutAt? c u = none) ∨
      ∃ a b a' b', Text.cutAt? c s = some (a, b) ∧ Text.cutAt? c u = some (a', b') ∧ Recast g a a' ∧
      Recast g b b' := by
  cases hcut : Text.cutAt? c s with
  | none => exact .inl ⟨rfl, Text.cutAt?_eq_none.2 (not_mem hg hc (Text.cutAt?_eq_none.1 hcut) h)⟩
  | some cut =>
    obtain ⟨a, b⟩ := cut
    rw [Text.cutAt?_eq_some hcut] at h
    obtain ⟨a', b', rfl, ha, hb⟩ := h.of_append_cons (not_isWordChar_of_not_isSmooth hc)
    have hnot := not_mem hg hc (Text.not_mem_of_cutAt? hcut) ha
    exact .inr ⟨a, b, a', b', rfl, Text.cutAt?_append hnot b', ha, hb⟩

theorem pieces {s u : Text} (hc : isSmooth c = false) (h : Recast g s u) :
    List.Forall₂ (Recast g) (Text.pieces c s) (Text.pieces c u) := by
  rcases cutAt?_cases hg hc h with ⟨hs, hu⟩ | ⟨a, b, a', b', hs, hu, ha, hb⟩
  · rw [Text.pieces_of_not_mem (Text.cutAt?_eq_none.1 hs),
      Text.pieces_of_not_mem (Text.cutAt?_eq_none.1 hu)]
    exact .cons h .nil
  · have hlength := congrArg List.length (Text.cutAt?_eq_some hs)
    rw [Text.cutAt?_eq_some hs, Text.cutAt?_eq_some hu, Text.pieces_append_cons,
      Text.pieces_append_cons, Text.pieces_of_not_mem (Text.not_mem_of_cutAt? hs),
      Text.pieces_of_not_mem (Text.not_mem_of_cutAt? hu)]
    exact .cons ha (pieces hc hb)
termination_by s.length
decreasing_by
  rw [List.length_append, List.length_cons] at hlength
  omega

theorem fields (h : Recast g s u) : List.Forall₂ (Recast g) (Text.fields s) (Text.fields u) := by
  revert u
  refine Text.fieldwise (motive := fun s => ∀ {u}, Recast g s u →
    List.Forall₂ (Recast g) (Text.fields s) (Text.fields u))
    ?nil ?blank ?field s
  case nil =>
    intro u h
    rw [h.eq_nil]
    exact .nil
  case blank =>
    intro c t hc ih u h
    obtain ⟨t', rfl, ht⟩ :=
      h.char_inv (Text.not_isWordChar_of_isOtherChar (Text.isOtherChar_of_isBlank hc))
    rw [Text.fields_blank hc, Text.fields_blank hc]
    exact ih ht
  case field =>
    intro w t hne hw ht ih u h
    -- what follows the field starts with a blank, where the other text is cut too
    obtain ⟨w', t', rfl, hw', ht', hnext⟩ : ∃ w' t', u = w' ++ t' ∧ Recast g w w' ∧ Recast g t t' ∧
        ∀ c ∈ t'.head?, isBlank c = true := by
      cases t with
      | nil =>
        rw [List.append_nil] at h
        exact ⟨u, [], (List.append_nil u).symm, h, .nil, nofun⟩
      | cons c rest =>
        have hc := Text.not_isWordChar_of_isOtherChar (Text.isOtherChar_of_isBlank (ht c rfl))
        obtain ⟨w', rest', rfl, hw', hrest⟩ := h.of_append_cons hc
        exact ⟨w', c :: rest', rfl, hw', .char hc hrest, fun d hd => ht d hd⟩
    have hrun : ∀ c ∈ w', isBlank c = false := by
      intro c hmem
      rcases mem_cases hg hw' hmem with hmem | hsmooth
      · exact hw c hmem
      · exact Text.not_isBlank_of_isSmooth hsmooth
    rw [Text.fields_run hne hw ht, Text.fields_run (ne_nil hg hne hw') hrun hnext]
    exact .cons hw' (ih ht')

theorem trim (h : Recast g s u) : Recast g (Text.trim s) (Text.trim u) := by
  have hblank : ∀ {v : Text}, (∀ c ∈ v, isBlank c = true) → ∀ c ∈ v, isWordChar c = false :=
    fun hv c hc => Text.not_isWordChar_of_isOtherChar (Text.isOtherChar_of_isBlank (hv c hc))
  obtain ⟨lead, trail, hsplit, hlead, htrail⟩ := Text.exists_trim s
  rw [hsplit, List.append_assoc] at h
  obtain ⟨x, rfl, hx⟩ := of_append_left (hblank hlead) h
  obtain ⟨core, rfl, hcore⟩ := of_append_right (hblank htrail) hx
  have hends : Text.Trimmed core := by
    constructor
    · intro c hc
      rcases head?_cases hg hcore hc with hhead | hsmooth
      · exact (Text.trimmed_trim s).head c hhead
      · exact Text.not_isBlank_of_isSmooth hsmooth
    · intro c hc
      rcases getLast?_cases hg hcore hc with hlast | hsmooth
      · exact (Text.trimmed_trim s).last c hlast
      · exact Text.not_isBlank_of_isSmooth hsmooth
  rw [← List.append_assoc, Text.trim_append hlead htrail, hends.trim_eq]
  exact hcore

end Smooth

/-! ### Locals -/

variable {x : Text}

/-- The word `local` and the words of a type are not replaced, nor put in. -/
theorem eq_of_mem (hg : Foreign g)
    (hkept : ∀ w ∈ "local".toList :: "array".toList :: datatypes, g w = none)
    (h : Recast g s u) (hmem : s ∈ "local".toList :: "array".toList :: datatypes ∨
      u ∈ "local".toList :: "array".toList :: datatypes) : u = s := by
  have hident : ∀ w ∈ "local".toList :: "array".toList :: datatypes, isIdent w = true := by
    refine List.forall_mem_cons.2 ⟨by decide, List.forall_mem_cons.2 ⟨by decide, ?_⟩⟩
    exact fun w hw => (Syntax.isIdent_datatypes w hw).1
  rcases hmem with hmem | hmem
  · have hword := hident s hmem
    refine (h.of_isWordChar (Text.isWordChar_of_isIdent hword)
      (Text.ne_nil_of_isIdent hword)).resolve_right fun hr => ?_
    rw [hkept s hmem] at hr
    cases hr
  · have hword := h.all_isWordChar (Text.isWordChar_of_isIdent (hident u hmem))
    have hne : s ≠ [] := by
      rintro rfl
      exact Text.ne_nil_of_isIdent (hident u hmem) h.eq_nil
    exact (h.of_isWordChar hword hne).resolve_right fun hr => hg.fresh s u hr hmem

theorem sides (hg : Smooth g) (h : Recast g s u) :
    Recast g (Declaration.sides s).1 (Declaration.sides u).1 := by
  rw [Declaration.sides, Declaration.sides]
  rcases cutAt?_cases hg (c := '=') (by decide) h with ⟨hs, hu⟩ | ⟨a, b, a', b', hs, hu, ha, -⟩
  · rw [hs, hu]
    exact h
  · rw [hs, hu]
    exact ha

/-- The fields of a declaration, side by side. -/
theorem typedName? (hg : Foreign g)
    (hkept : ∀ w ∈ "local".toList :: "array".toList :: datatypes, g w = none)
    {fs fs' : List Text} (h : List.Forall₂ (Recast g) fs fs') :
    (Declaration.typedName? fs = none ∧ Declaration.typedName? fs' = none) ∨
      ∃ type type' array name name', Declaration.typedName? fs = some (type, array, name) ∧
        Declaration.typedName? fs' = some (type', array, name') ∧ Recast g type type' ∧
        Recast g name name' := by
  match h with
  | .nil => exact .inl ⟨rfl, rfl⟩
  | .cons _ .nil => exact .inl ⟨rfl, rfl⟩
  | .cons htype (.cons hname .nil) => exact .inr ⟨_, _, _, _, _, rfl, rfl, htype, hname⟩
  | .cons (a := a) htype (.cons (a := m) (b := m') harray (.cons hname .nil)) =>
    have hiff : m' = "array".toList ↔ m = "array".toList := by
      constructor
      · rintro rfl
        exact (eq_of_mem hg hkept harray (.inr (by decide))).symm
      · rintro rfl
        exact eq_of_mem hg hkept harray (.inl (by decide))
    by_cases hm : m = "array".toList
    · refine .inr ⟨_, _, true, _, _, ?_, ?_, htype, hname⟩
      · rw [Declaration.typedName?, if_pos hm]
      · rw [Declaration.typedName?, if_pos (hiff.2 hm)]
    · refine .inl ⟨?_, ?_⟩
      · rw [Declaration.typedName?, if_neg hm]
      · rw [Declaration.typedName?, if_neg fun h => hm (hiff.1 h)]
  | .cons _ (.cons _ (.cons _ (.cons _ _))) => exact .inl ⟨rfl, rfl⟩

/-- Both texts start with `local` and a space, or neither does. -/
theorem dropStart?_cases (hg : Foreign g)
    (hkept : ∀ w ∈ "local".toList :: "array".toList :: datatypes, g w = none) (h : Recast g s u) :
    (Text.dropStart? "local ".toList s = none ∧ Text.dropStart? "local ".toList u = none) ∨
      ∃ rest rest', Text.dropStart? "local ".toList s = some rest ∧
      Text.dropStart? "local ".toList u = some rest' ∧
        Recast g rest rest' := by
  have hcut : ∀ {t rest : Text}, Text.dropStart? "local ".toList t = some rest ↔
      Text.cutAt? ' ' t = some ("local".toList, rest) := by
    intro t rest
    constructor
    · intro hrest
      rw [Text.dropStart?_eq_some hrest]
      exact Text.cutAt?_append (show ' ' ∉ "local".toList by decide) rest
    · intro hrest
      rw [Text.cutAt?_eq_some hrest]
      exact Text.dropStart?_append "local ".toList rest
  rcases cutAt?_cases hg.smooth (c := ' ') (by decide) h with
    ⟨hs, hu⟩ | ⟨a, b, a', b', hs, hu, ha, hb⟩
  · refine .inl ⟨?_, ?_⟩
    · refine Option.eq_none_iff_forall_ne_some.2 fun rest hrest => ?_
      rw [hcut, hs] at hrest
      cases hrest
    · refine Option.eq_none_iff_forall_ne_some.2 fun rest hrest => ?_
      rw [hcut, hu] at hrest
      cases hrest
  · by_cases hlocal : a = "local".toList ∨ a' = "local".toList
    · have heq : a' = a := by
        refine eq_of_mem hg hkept ha ?_
        rcases hlocal with rfl | rfl
        · exact .inl List.mem_cons_self
        · exact .inr List.mem_cons_self
      have ha' : a = "local".toList := hlocal.elim id fun h => heq ▸ h
      refine .inr ⟨b, b', hcut.2 ?_, hcut.2 ?_, hb⟩
      · rw [hs, ha']
      · rw [hu, heq, ha']
    · rw [not_or] at hlocal
      refine .inl ⟨?_, ?_⟩
      · refine Option.eq_none_iff_forall_ne_some.2 fun rest hrest => ?_
        rw [hcut, hs, Option.some.injEq, Prod.mk.injEq] at hrest
        exact hlocal.1 hrest.1
      · refine Option.eq_none_iff_forall_ne_some.2 fun rest hrest => ?_
        rw [hcut, hu, Option.some.injEq, Prod.mk.injEq] at hrest
        exact hlocal.2 hrest.1

/-- A line declares the same local when words are replaced and that local is not. -/
theorem localName?_eq (hg : Foreign g)
    (hkept : ∀ w ∈ "local".toList :: "array".toList :: datatypes, g w = none)
    (h : Recast g s u) (hx : ∀ x ∈ localName? s, g x = none) : localName? u = localName? s := by
  unfold localName? at hx ⊢
  rcases dropStart?_cases hg hkept (trim hg.smooth h) with ⟨hs, hu⟩ | ⟨rest, rest', hs, hu, hrest⟩
  · rw [hs, hu]
  rw [hs, Option.bind_some] at hx ⊢
  rw [hu, Option.bind_some]
  rcases typedName? hg hkept (fields hg.smooth (sides hg.smooth hrest)) with
    ⟨hfields, hfields'⟩ | ⟨type, type', array, name, name', hfields, hfields', htype, hname⟩
  · rw [hfields, hfields']
  rw [hfields, Option.bind_some] at hx ⊢
  rw [hfields', Option.bind_some]
  dsimp only at hx ⊢
  -- the type is the same, and the name is replaced only if it declares no local
  have hdatatype : isDatatype type' = isDatatype type := by
    by_cases hmem : type ∈ datatypes ∨ type' ∈ datatypes
    · rw [eq_of_mem hg hkept htype (hmem.imp (List.mem_cons_of_mem _ <| List.mem_cons_of_mem _ ·)
        (List.mem_cons_of_mem _ <| List.mem_cons_of_mem _ ·))]
    · rw [not_or] at hmem
      simp [isDatatype, hmem.1, hmem.2]
  rw [hdatatype]
  by_cases hd : isDatatype type = true
  · simp only [hd, Bool.true_and] at hx ⊢
    by_cases hident : isIdent name = true
    · rw [if_pos hident] at hx ⊢
      have heq :=
        (hname.of_isWordChar (Text.isWordChar_of_isIdent hident)
          (Text.ne_nil_of_isIdent hident)).resolve_right
        fun hr => by rw [hx name rfl] at hr; cases hr
      rw [heq, if_pos hident]
    · rw [if_neg hident]
      refine if_neg fun hident' => hident ?_
      have hword := hname.all_isWordChar (Text.isWordChar_of_isIdent hident')
      have hne : name ≠ [] := by
        rintro rfl
        rw [hname.eq_nil] at hident'
        cases hident'
      rcases hname.of_isWordChar hword hne with rfl | hr
      · exact hident'
      · exact hg.ident name name' hr
  · rw [Bool.not_eq_true] at hd
    rw [hd]
    rfl

end Recast

/-- The locals of a function, line by line. -/
theorem localNames_eq_filterMap (f : Function) :
    f.localNames = (Text.pieces '\n' f.body).filterMap localName? := by
  have hlast : ∀ lines : List Text, (lines.filter (· ≠ [])).filterMap localName? =
      lines.filterMap localName? := by
    intro lines
    rw [List.filterMap_filter]
    refine List.filterMap_congr fun line _ => ?_
    split
    · rfl
    · rename_i hnil
      obtain rfl : line = [] := by simpa using hnil
      decide
  rw [Function.localNames, Text.lines, List.filterMap_append, List.filterMap_map, hlast]
  have hreturn : localName? ∘ Text.dropReturn = localName? := funext Naming.localName?_dropReturn
  have hne := Text.pieces_ne_nil '\n' f.body
  rw [hreturn, ← List.filterMap_append, List.getLast?_eq_some_getLast hne, Option.toList_some,
    List.dropLast_append_getLast hne]

/-- The locals of a function stay when words of its body are replaced and none of them is a
local. -/
theorem localNames_eq_of_recast {g : Text → Option Text} (hg : Foreign g)
    (hkept : ∀ w ∈ "local".toList :: "array".toList :: datatypes, g w = none) {f f' : Function}
    (h : Recast g f.body f'.body) (hlocals : ∀ x ∈ f.localNames, g x = none) :
    f'.localNames = f.localNames := by
  rw [localNames_eq_filterMap] at hlocals
  rw [localNames_eq_filterMap, localNames_eq_filterMap]
  have hpieces := Recast.pieces hg.smooth (c := '\n') (by decide) h
  generalize Text.pieces '\n' f.body = lines, Text.pieces '\n' f'.body = lines' at hpieces hlocals
  induction hpieces with
  | nil => rfl
  | @cons line line' rest rest' hline _ ih =>
    have hrest := ih fun x hx => hlocals x (List.mem_filterMap.2 (by
      obtain ⟨l, hl, hlx⟩ := List.mem_filterMap.1 hx
      exact ⟨l, List.mem_cons_of_mem _ hl, hlx⟩))
    have heq := Recast.localName?_eq hg hkept hline fun x hx =>
      hlocals x (List.mem_filterMap.2 ⟨line, List.mem_cons_self, hx⟩)
    rw [List.filterMap_cons, List.filterMap_cons, heq, hrest]

end ScriptMinifier
