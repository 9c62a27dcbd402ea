import ScriptMinifier.Naming.Local
import ScriptMinifier.Proofs.Syntax.Rendering
import ScriptMinifier.Proofs.Text.Replacing

/-! Locals when words are replaced.

A line declares a local by the words `local` and a type before its name. No name that is dealt
and no value is one of these words, so replacing words makes no line declare a local that did
not (`localName?_replaceWords`), and a name that the function binds stays where it stands. So a
local that is dropped when its function has been rewritten would have been dropped before
(`Rewritten.dropped`). The lines that declare no local that is dropped stay
(`exists_mem_pieces_dropLocals`). -/
namespace ScriptMinifier

open Literal (placeholder)
open Syntax (Declaration Function Parameter localName? isDatatype datatypes)
open Text (mark isWordChar isOtherChar isBlank isIdent StartsNoWord Smooth isSmooth fields words)

/-! ### Fields and ends -/

namespace Text

theorem not_isSmooth_of_isBlank {c : Char} (h : isBlank c = true) : isSmooth c = false := by
  have hword := not_isWordChar_of_isOtherChar (isOtherChar_of_isBlank h)
  rw [Bool.eq_false_iff]
  intro hsmooth
  rw [isSmooth, hword, Bool.false_or, Bool.or_eq_true, beq_iff_eq, beq_iff_eq] at hsmooth
  rcases hsmooth with rfl | rfl
  · exact absurd h (by decide)
  · exact absurd h (by decide)

theorem not_isBlank_of_isSmooth {c : Char} (h : isSmooth c = true) : isBlank c = false := by
  rw [Bool.eq_false_iff]
  intro hblank
  rw [not_isSmooth_of_isBlank hblank] at h
  cases h

/-- Replacing words adds no blank but the space. -/
theorem spaced_replaceWords {g : Text → Option Text} (hg : Smooth g) {t : Text}
    (ht : ∀ c ∈ t, isHorizontal c = true → c = ' ') :
    ∀ c ∈ replaceWords g t, isHorizontal c = true → c = ' ' := by
  intro c hc hhorizontal
  by_contra hspace
  have hsmooth := not_isSmooth_of_isBlank (isBlank_of_isHorizontal c hhorizontal)
  exact Sealed.not_mem_replaceWords hg hsmooth (fun hmem => hspace (ht c hmem hhorizontal)) hc

end Text

namespace Sealed

variable {n : Nat} {t : Text} {f : Text → Option Text}

theorem head?_replaceWords (hf : Smooth f) :
    ∀ c ∈ (Text.replaceWords f t).head?, c ∈ t.head? ∨ isSmooth c = true := by
  cases t with
  | nil =>
    rw [Text.replaceWords_nil]
    nofun
  | cons d rest =>
    by_cases hmark : d = mark
    · rw [hmark, Text.replaceWords_mark]
      exact fun c hc => .inl hc
    · by_cases hw : isWordChar d = true
      · rw [Text.replaceWords_word hw]
        obtain ⟨hne, hsmooth⟩ := hf.getD (by simp) (Text.exists_run hw rest).2
        intro c hc
        rw [List.head?_append_of_ne_nil _ hne] at hc
        exact .inr (hsmooth c (List.mem_of_mem_head? hc))
      · rw [Text.replaceWords_other (by simp [isOtherChar, hw, hmark])]
        exact fun c hc => .inl hc

theorem replaceWords_others (h : ∀ c ∈ t, isOtherChar c = true) : Text.replaceWords f t = t := by
  induction t with
  | nil => exact Text.replaceWords_nil
  | cons c rest ih =>
    rw [List.forall_mem_cons] at h
    rw [replaceWords_cons h.1, ih h.2]

theorem trim_replaceWords (hf : Smooth f) (h : Sealed n t) :
    Text.trim (Text.replaceWords f t) = Text.replaceWords f (Text.trim t) := by
  have hcore := h.trim
  have htrimmed : Text.Trimmed (Text.replaceWords f (Text.trim t)) := by
    constructor
    · intro c hc
      rcases head?_replaceWords hf c hc with hhead | hsmooth
      · exact (Text.trimmed_trim t).head c hhead
      · exact Text.not_isBlank_of_isSmooth hsmooth
    · intro c hc
      rcases hcore.getLast?_replaceWords hf c hc with hlast | ⟨hsmooth, -⟩
      · exact (Text.trimmed_trim t).last c hlast
      · exact Text.not_isBlank_of_isSmooth hsmooth
  obtain ⟨lead, trail, hsplit, hlead, htrail⟩ := Text.exists_trim t
  have hother : ∀ {u : Text}, (∀ c ∈ u, isBlank c = true) → ∀ c ∈ u, isOtherChar c = true :=
    fun hu c hc => Text.isOtherChar_of_isBlank (hu c hc)
  have hwhole : Text.replaceWords f t = lead ++ Text.replaceWords f (Text.trim t) ++ trail := by
    conv => lhs; rw [hsplit]
    have hstart : Sealed n lead := of_all_isOtherChar (hother hlead)
    rw [(hstart.append hcore).replaceWords_append, hstart.replaceWords_append,
      replaceWords_others (hother hlead), replaceWords_others (hother htrail)]
    · intro c hc hw
      rw [Text.not_isWordChar_of_isOtherChar (hother hlead c (List.mem_of_getLast? hc))] at hw
      cases hw
    · intro c _ _ d rest hd
      exact Text.not_isWordChar_of_isOtherChar (hother htrail d (hd ▸ List.mem_cons_self))
  rw [hwhole, Text.trim_append hlead htrail, htrimmed.trim_eq]

/-- The parts of a sealed text around a blank. -/
theorem of_field {w t : Text} (ht : ∀ c ∈ t.head?, isBlank c = true) (h : Sealed n (w ++ t)) :
    Sealed n w ∧ Sealed n t := by
  cases t with
  | nil => exact ⟨by simpa using h, .nil⟩
  | cons c rest =>
    obtain ⟨hstart, hrest⟩ := h.of_append_cons (Literal.isFree_of_isBlank (ht c rfl))
    exact ⟨hstart,
      .char (Text.ne_mark_of_isOtherChar (Text.isOtherChar_of_isBlank (ht c rfl))) hrest⟩

/-- The fields of a sealed text are sealed, and have their words replaced one by one. -/
theorem fields_replaceWords (hf : Smooth f) (h : Sealed n t) :
    fields (Text.replaceWords f t) = (fields t).map (Text.replaceWords f) ∧ ∀ g ∈ fields t, g ≠ [] ∧
    Sealed n g := by
  refine Text.fieldwise (motive := fun t => Sealed n t →
    fields (Text.replaceWords f t) = (fields t).map (Text.replaceWords f) ∧ ∀ g ∈ fields t, g ≠ [] ∧
      Sealed n g)
    ?nil ?blank ?field t h
  case nil =>
    intro _
    rw [Text.replaceWords_nil]
    exact ⟨rfl, nofun⟩
  case blank =>
    intro c t hc ih h
    have hother := Text.isOtherChar_of_isBlank hc
    rw [replaceWords_cons hother, Text.fields_blank hc, Text.fields_blank hc]
    exact ih (h.tail (Text.ne_mark_of_isOtherChar hother))
  case field =>
    intro w t hne hw ht ih h
    obtain ⟨hstart, hrest⟩ := h.of_field ht
    obtain ⟨hfields, hsealed⟩ := ih hrest
    have hcut : ∀ c ∈ w.getLast?, isWordChar c = true → StartsNoWord t := by
      intro _ _ _ c rest hc
      exact Text.not_isWordChar_of_isOtherChar
        (Text.isOtherChar_of_isBlank (ht c (by rw [hc]; rfl)))
    have hrun : ∀ c ∈ Text.replaceWords f w, isBlank c = false := by
      intro c hc
      rcases mem_replaceWords hc with hmem | ⟨u, r, hr, hmem⟩
      · exact hw c hmem
      · exact Text.not_isBlank_of_isSmooth ((hf u r hr).2 c hmem)
    have hnext : ∀ c ∈ (Text.replaceWords f t).head?, isBlank c = true := by
      cases t with
      | nil =>
        rw [Text.replaceWords_nil]
        nofun
      | cons d rest =>
        rw [replaceWords_cons (Text.isOtherChar_of_isBlank (ht d rfl))]
        exact fun c hc => ht c hc
    rw [hstart.replaceWords_append hcut, Text.fields_run hne hw ht,
      Text.fields_run (replaceWords_ne_nil hf hne) hrun hnext, hfields, List.map_cons,
      List.forall_mem_cons]
    exact ⟨rfl, ⟨hne, hstart⟩, hsealed⟩

/-- What is no part of a word stays. -/
theorem mem_replaceWords_of_mem (h : Sealed n t) {c : Char} (hc : isWordChar c = false)
    (hmem : c ∈ t) :
    c ∈ Text.replaceWords f t := by
  refine wordwise (motive := fun t => c ∈ t → c ∈ Text.replaceWords f t) ?nil ?other ?word
    ?literal h hmem
  case nil => nofun
  case other =>
    intro d t hd _ ih hmem
    rw [replaceWords_cons hd]
    rcases List.mem_cons.1 hmem with rfl | hmem
    · exact List.mem_cons_self
    · exact List.mem_cons_of_mem d (ih hmem)
  case word =>
    intro w t hne hw hnext _ ih hmem
    rw [Text.replaceWords_run hne hw hnext]
    rcases List.mem_append.1 hmem with hmem | hmem
    · rw [hw c hmem] at hc
      cases hc
    · exact List.mem_append_right _ (ih hmem)
  case literal =>
    intro k t _ _ ih hmem
    rw [Text.replaceWords_placeholder]
    rcases List.mem_append.1 hmem with hmem | hmem
    · exact List.mem_append_left _ hmem
    · exact List.mem_append_right _ (ih hmem)

/-- What becomes a word was one. -/
theorem eq_of_replaceWords_isIdent (h : Sealed n t) (hne : t ≠ [])
    (hident : isIdent (Text.replaceWords f t) = true) :
    (∀ c ∈ t, isWordChar c = true) ∧ (f t).getD t = Text.replaceWords f t := by
  have hw : ∀ c ∈ t, isWordChar c = true := by
    intro c hc
    by_contra hnot
    have hmem := h.mem_replaceWords_of_mem (f := f) (by simpa using hnot) hc
    exact hnot (Text.isWordChar_of_isIdent hident c hmem)
  have hrun := Text.replaceWords_run (f := f) (t := []) hne hw nofun
  rw [List.append_nil, Text.replaceWords_nil, List.append_nil] at hrun
  exact ⟨hw, hrun.symm⟩

end Sealed

/-! ### Lines that declare a local -/

/-- Replacements of identifiers by what is no word of a local's declaration. -/
structure Foreign (f : Text → Option Text) : Prop where
  smooth : Smooth f
  ident : ∀ w r, f w = some r → isIdent w = true
  fresh : ∀ w r, f w = some r → r ∉ "local".toList :: "array".toList :: datatypes

theorem localName?_eq_some {line x : Text} :
    localName? line = some x ↔ ∃ rest type array, Text.trim line = "local ".toList ++ rest ∧
      Declaration.typedName? (fields (Declaration.sides rest).1) = some (type, array, x) ∧
      isDatatype type = true ∧ isIdent x = true := by
  rw [localName?, Option.bind_eq_some_iff]
  constructor
  · rintro ⟨rest, hrest, hname⟩
    rw [Option.bind_eq_some_iff] at hname
    obtain ⟨⟨type, array, name⟩, htyped, hname⟩ := hname
    simp only [Option.ite_none_right_eq_some, Bool.and_eq_true, Option.some.injEq] at hname
    obtain ⟨⟨htype, hident⟩, rfl⟩ := hname
    exact ⟨rest, type, array, Text.dropStart?_eq_some hrest, htyped, htype, hident⟩
  · rintro ⟨rest, type, array, hrest, htyped, htype, hident⟩
    refine ⟨rest, by rw [hrest, Text.dropStart?_append], ?_⟩
    rw [htyped, Option.bind_some]
    show (if (isDatatype type && isIdent x) = true then some x else none) = some x
    rw [htype, hident]
    rfl

section Lines

variable {n : Nat} {f : Text → Option Text} {t : Text}

/-- A word of a local's declaration was there before. -/
theorem Foreign.eq_of_mem (hf : Foreign f) (h : Sealed n t) (hne : t ≠ [])
    (hmem : Text.replaceWords f t ∈ "local".toList :: "array".toList :: datatypes) :
    Text.replaceWords f t = t := by
  have hident : ∀ u ∈ "local".toList :: "array".toList :: datatypes, isIdent u = true := by
    refine List.forall_mem_cons.2 ⟨by decide, List.forall_mem_cons.2 ⟨by decide, ?_⟩⟩
    exact fun u hu => (Syntax.isIdent_datatypes u hu).1
  obtain ⟨-, heq⟩ := h.eq_of_replaceWords_isIdent hne (hident _ hmem)
  cases hft : f t with
  | none =>
    rw [hft] at heq
    exact heq.symm
  | some r =>
    rw [hft, Option.getD_some] at heq
    exact absurd (heq ▸ hmem) (hf.fresh t r hft)

theorem sides_replaceWords (hf : Smooth f) (h : Sealed n t) :
    (Declaration.sides (Text.replaceWords f t)).1 = Text.replaceWords f (Declaration.sides t).1 ∧
      Sealed n (Declaration.sides t).1 := by
  rw [Declaration.sides, Declaration.sides]
  cases hcut : Text.cutAt? '=' t with
  | none =>
    have hnone : Text.cutAt? '=' (Text.replaceWords f t) = none :=
      Text.cutAt?_eq_none.2
        (Sealed.not_mem_replaceWords hf (by decide) (Text.cutAt?_eq_none.1 hcut))
    rw [hnone]
    exact ⟨rfl, h⟩
  | some cut =>
    obtain ⟨left, right⟩ := cut
    have hleft : '=' ∉ left := Text.not_mem_of_cutAt? hcut
    rw [Text.cutAt?_eq_some hcut] at h ⊢
    have hstart := (h.of_append_cons (by decide)).1
    rw [hstart.replaceWords_append_cons (by decide),
      Text.cutAt?_append (Sealed.not_mem_replaceWords hf (by decide) hleft)]
    exact ⟨rfl, hstart⟩

/-- What comes to start with `local` started with it. -/
theorem Foreign.local_of_replaceWords (hf : Foreign f) (h : Sealed n t) {rest' : Text}
    (hlocal : Text.replaceWords f t = "local ".toList ++ rest') :
    ∃ rest, t = "local ".toList ++ rest ∧ Sealed n rest ∧ Text.replaceWords f rest = rest' := by
  have hspace : ' ' ∈ t := by
    by_contra hnone
    refine Sealed.not_mem_replaceWords hf.smooth (by decide) hnone ?_
    rw [hlocal]
    exact List.mem_append_left _ (by decide)
  obtain ⟨w, rest, rfl, hw⟩ := List.eq_append_cons_of_mem hspace
  obtain ⟨hword, hrest⟩ := h.of_append_cons (by decide)
  rw [hword.replaceWords_append_cons (by decide)] at hlocal
  obtain ⟨hstart, hmore⟩ : Text.replaceWords f w = "local".toList ∧
      Text.replaceWords f rest = rest' := by
    have hleft := Text.cutAt?_append (Sealed.not_mem_replaceWords hf.smooth (by decide) hw)
      (Text.replaceWords f rest)
    have hright : Text.cutAt? ' ' ("local".toList ++ ' ' :: rest') = some ("local".toList, rest') :=
      Text.cutAt?_append (by decide) rest'
    rw [hlocal] at hleft
    simpa only [Option.some.injEq, Prod.mk.injEq] using hleft.symm.trans hright
  have hne : w ≠ [] := by
    rintro rfl
    rw [Text.replaceWords_nil] at hstart
    exact absurd hstart (by decide)
  have heq := hf.eq_of_mem hword hne (by rw [hstart]; exact List.mem_cons_self)
  rw [← heq, hstart]
  exact ⟨rest, rfl, hrest, hmore⟩

/-- What comes to be a type and a name was the type and a name. -/
theorem Foreign.typed_of_replaceWords (hf : Foreign f) {fs : List Text} {type x : Text}
    {array : Bool} (hfs : ∀ a ∈ fs, a ≠ [] ∧ Sealed n a)
    (h : Declaration.typedName? (fs.map (Text.replaceWords f)) = some (type, array, x))
    (htype : isDatatype type = true)
    (hx : isIdent x = true) : ∃ w, Declaration.typedName? fs = some (type, array, w) ∧
    isIdent w = true ∧ (f w).getD w = x := by
  have hkept {a u : Text} (ha : a ∈ fs) (hau : Text.replaceWords f a = u)
      (hu : u ∈ "local".toList :: "array".toList :: datatypes) :
      a = u := by
    rw [← hf.eq_of_mem (hfs a ha).2 (hfs a ha).1 (hau ▸ hu), hau]
  have hname {b : Text} (hb : b ∈ fs) (hbx : Text.replaceWords f b = x) : isIdent b = true ∧
      (f b).getD b = x := by
    have heq := ((hfs b hb).2.eq_of_replaceWords_isIdent (hfs b hb).1 (hbx ▸ hx)).2
    rw [hbx] at heq
    refine ⟨?_, heq⟩
    cases hfb : f b with
    | none =>
      rw [hfb, Option.getD_none] at heq
      rwa [heq]
    | some r => exact hf.ident b r hfb
  have htype' : type ∈ "local".toList :: "array".toList :: datatypes :=
    List.mem_cons_of_mem _ (List.mem_cons_of_mem _ (List.contains_iff_mem.1 htype))
  rw [Declaration.typedName?_eq_some] at h
  cases array with
  | false =>
    obtain ⟨a, fs, rfl, ha, hmore⟩ := List.map_eq_cons_iff.1 h
    obtain ⟨b, rfl, hb⟩ := List.map_eq_singleton_iff.1 hmore
    obtain rfl := hkept List.mem_cons_self ha htype'
    exact ⟨b, rfl, hname (by simp) hb⟩
  | true =>
    obtain ⟨a, fs, rfl, ha, hmore⟩ := List.map_eq_cons_iff.1 h
    obtain ⟨m, fs, rfl, hm, hmore⟩ := List.map_eq_cons_iff.1 hmore
    obtain ⟨b, rfl, hb⟩ := List.map_eq_singleton_iff.1 hmore
    obtain rfl := hkept List.mem_cons_self ha htype'
    obtain rfl := hkept (by simp) hm (List.mem_cons_of_mem _ List.mem_cons_self)
    exact ⟨b, Declaration.typedName?_eq_some.2 rfl, hname (by simp) hb⟩

/-- No line comes to declare a local. Where words are replaced, the local that a line
declares is what became of the one it declared. -/
theorem localName?_replaceWords (hf : Foreign f) (h : Sealed n t) {x : Text}
    (hx : localName? (Text.replaceWords f t) = some x) :
    ∃ w, localName? t = some w ∧ (f w).getD w = x := by
  obtain ⟨rest', type, array, htrim, htyped, htype, hident⟩ := localName?_eq_some.1 hx
  rw [h.trim_replaceWords hf.smooth] at htrim
  obtain ⟨rest, hline, hrest, rfl⟩ := hf.local_of_replaceWords h.trim htrim
  obtain ⟨hsides, hleft⟩ := sides_replaceWords hf.smooth hrest
  obtain ⟨hfields, hsealed⟩ := hleft.fields_replaceWords hf.smooth
  rw [hsides, hfields] at htyped
  obtain ⟨w, htyped, hw, heq⟩ := hf.typed_of_replaceWords hsealed htyped htype hident
  exact ⟨w, localName?_eq_some.2 ⟨rest, type, array, hline, htyped, htype, hw⟩, heq⟩

end Lines

/-! ### The locals that are dropped -/

namespace Naming

variable {n : Nat} {g : Text → Option Text} {f f' : Function} {line x : Text}

/-- The count of a word that stays does not fall. -/
theorem occurrences_replaceWords {t : Text} (h : Sealed n t) (hg : Smooth g) (hx : g x = none) :
    occurrences x t ≤ occurrences x (Text.replaceWords g t) := by
  simp only [occurrences]
  refine Sealed.wordwise
    (motive := fun t => (words t).count x ≤ (words (Text.replaceWords g t)).count x)
    ?nil ?other ?word ?literal h
  case nil => simp only [Text.replaceWords_nil, Nat.le_refl]
  case other =>
    intro c t hc _ ih
    rwa [Sealed.replaceWords_cons hc, Text.words_other hc, Text.words_other hc]
  case word =>
    intro w t hne hw hnext _ ih
    have hmark : mark ∉ (g w).getD w := Text.not_mem_of_isSmooth (hg.getD hne hw).2 (by decide)
    rw [Text.replaceWords_run hne hw hnext, Text.words_word hne hw hnext,
      Text.words_append hmark fun _ _ _ => Text.startsNoWord_replaceWords hnext, List.count_append,
      List.count_cons]
    by_cases hwx : w = x
    · rw [hwx] at hne hw ⊢
      have hone := Text.words_word (t := []) hne hw nofun
      rw [List.append_nil, Text.words_nil] at hone
      rw [hx, Option.getD_none, hone, List.count_singleton]
      omega
    · rw [if_neg (by simpa using hwx)]
      omega
  case literal =>
    intro k t _ _ ih
    rwa [Text.replaceWords_placeholder, Sealed.words_placeholder, Sealed.words_placeholder]

theorem localName?_dropReturn (line : Text) :
    localName? (Text.dropReturn line) = localName? line := by
  have htrim : Text.trim (Text.dropReturn line) = Text.trim line := by
    rcases Text.dropReturn_cases line with heq | heq
    · rw [heq]
    · have hnone : ∀ c ∈ ([] : Text), isBlank c = true := nofun
      conv => rhs; rw [heq]
      exact (Text.trim_append hnone (by decide) _).symm
  rw [localName?, localName?, htrim]

theorem mem_localNames (hline : line ∈ Text.pieces '\n' f.body) (hx : localName? line = some x) :
    x ∈ f.localNames := by
  have hne : line ≠ [] := by
    rintro rfl
    rw [show localName? [] = none by decide] at hx
    cases hx
  obtain ⟨line', hmem, hcases⟩ := Text.exists_mem_lines hline hne
  refine List.mem_filterMap.2 ⟨line', hmem, ?_⟩
  rcases hcases with rfl | rfl
  · exact hx
  · rw [localName?_dropReturn, hx]

/-- A function with its words replaced, except those it binds. -/
structure Rewritten (g : Text → Option Text) (f f' : Function) : Prop where
  foreign : Foreign g
  bound : ∀ w ∈ f.scopedNames, g w = none
  params : f'.params = f.params
  body : f'.body = Text.replaceWords g f.body

namespace Rewritten

/-- The lines have their words replaced. -/
theorem pieces_body (h : Rewritten g f f') (hsealed : Sealed n f.body) :
    Text.pieces '\n' f'.body = (Text.pieces '\n' f.body).map (Text.replaceWords g) := by
  rw [h.body, hsealed.pieces_replaceWords (by decide) (by decide) (by decide) h.foreign.smooth]

/-- A line declares the local that it declared before. -/
theorem localName? (h : Rewritten g f f') (hsealed : Sealed n f.body)
    (hline : line ∈ Text.pieces '\n' f.body)
    (hx : Syntax.localName? (Text.replaceWords g line) = some x) :
    Syntax.localName? line = some x ∧ x ∈ f.localNames := by
  obtain ⟨w, hw, heq⟩ :=
    localName?_replaceWords h.foreign (hsealed.pieces (by decide) line hline) hx
  have hlocal := mem_localNames hline hw
  rw [h.bound w (List.mem_append_right _ hlocal), Option.getD_none] at heq
  rw [← heq]
  exact ⟨hw, hlocal⟩

/-- The function binds no more names. -/
theorem scopedNames_subset (h : Rewritten g f f') (hsealed : Sealed n f.body) :
    f'.scopedNames ⊆ f.scopedNames := by
  have hparams : f'.paramNames = f.paramNames := by
    rw [Function.paramNames, h.params, Function.paramNames]
  refine List.append_subset.2
    ⟨hparams ▸ List.subset_append_left _ _, fun x hx => List.mem_append_right _ ?_⟩
  obtain ⟨line, hline, hname⟩ := List.mem_filterMap.1 hx
  obtain ⟨piece, hpiece, heq⟩ := Text.exists_piece_of_mem_lines hline
  rw [h.pieces_body hsealed] at hpiece
  obtain ⟨old, hold, rfl⟩ := List.mem_map.1 hpiece
  have hname' : Syntax.localName? (Text.replaceWords g old) = some x := by
    rcases heq with rfl | rfl
    · exact hname
    · rwa [localName?_dropReturn] at hname
  exact (h.localName? hsealed hold hname').2

/-- A local that is dropped would have been dropped before. A line that declares a local to
be dropped declared it before its words were replaced, and it was to be dropped. -/
theorem dropped (h : Rewritten g f f') (hsealed : Sealed n f.body)
    (hline : line ∈ Text.pieces '\n' f.body)
    (hx : Syntax.localName? (Text.replaceWords g line) = some x)
    (hdropped : x ∈ (renameLocals f').dropped) :
    Syntax.localName? line = some x ∧ x ∈ (renameLocals f).dropped := by
  obtain ⟨hname, hlocal⟩ := h.localName? hsealed hline hx
  refine ⟨hname, ?_⟩
  rw [renameLocals, h.params] at hdropped
  rw [renameLocals]
  cases hparse : Parameter.parseAll? f.params with
  | none =>
    rw [hparse] at hdropped
    cases hdropped
  | some params =>
    rw [hparse] at hdropped
    simp only [unusedLocals, ownLocals, List.mem_filter, Text.mem_distinct] at hdropped ⊢
    refine ⟨⟨hlocal, hdropped.1.2⟩, decide_eq_true ?_⟩
    have hcount :=
      occurrences_replaceWords hsealed h.foreign.smooth (h.bound x (List.mem_append_right _ hlocal))
    have hunused := of_decide_eq_true hdropped.2
    rw [scopedCount, h.body] at hunused
    rw [scopedCount]
    omega

end Rewritten

/-- A line that declares no local to be dropped stays. -/
theorem exists_mem_pieces_dropLocals {names : List Text} {body : Text}
    (hline : line ∈ Text.pieces '\n' body)
    (hne : line ≠ []) (hkept : ∀ x ∈ localName? line, x ∉ names) :
    ∃ line' ∈ Text.pieces '\n' (dropLocals names body), line' = line ∨
    line' = Text.dropReturn line := by
  rw [dropLocals]
  split
  · exact ⟨line, hline, .inl rfl⟩
  · obtain ⟨line', hmem, hcases⟩ := Text.exists_mem_lines hline hne
    have hname : localName? line' = localName? line := by
      rcases hcases with rfl | rfl
      · rfl
      · exact localName?_dropReturn line
    refine ⟨line', ?_, hcases⟩
    have hfilter :
        line' ∈ (Text.lines body).filter fun line => !(localName? line).any names.contains := by
      refine List.mem_filter.2 ⟨hmem, ?_⟩
      rw [hname]
      cases hx : localName? line with
      | none => rfl
      | some x => simpa using hkept x hx
    rw [Text.pieces_joined (List.ne_nil_of_mem hfilter)]
    · exact hfilter
    · exact fun l hl => Text.newline_not_mem_lines (List.mem_filter.1 hl).1

end Naming
end ScriptMinifier
