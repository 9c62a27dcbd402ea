import ScriptMinifier.Proofs.Naming.LocalNames
import ScriptMinifier.Proofs.Syntax.Leading

/-! Lines that open like the declaration of a local.

Which local a line declares is told by the fields before its equals sign, once the line opens with
`local` and a space (`localName?_eq_some_iff`). Squeezing a line that has no blank but the space
lets no other line open so (`OpensLocal.of_squeezeLine`), and squeezes the two sides of the equals
sign apart (`sides_squeezeLine`). -/
namespace ScriptMinifier

open Layout (isTight separates squeezeFrom squeezeLine)
open Syntax (Declaration Function isDatatype localName?)
open Text (fields isBlank isHorizontal isIdent isWordChar trimEnd trimStart words)

namespace Syntax

/-- A line opens with `local` and a space, after blanks or none. -/
def OpensLocal (line : Text) : Prop := ∃ rest, trimStart line = "local ".toList ++ rest

/-- No number with a dollar sign stands where a line may declare a local. -/
def Function.PlainLocals (f : Function) : Prop :=
  ∀ line ∈ Text.pieces '\n' f.body, OpensLocal line → '$' ∉ (Declaration.sides line).1

end Syntax

open Syntax (OpensLocal)

/-! ### The sides of a line -/

section Sides

variable {s t : Text}

/-- What stands before the equals sign goes on to it. -/
theorem sides_append (h : '=' ∉ s) (t : Text) :
    (Declaration.sides (s ++ t)).1 = s ++ (Declaration.sides t).1 := by
  cases hcut : Text.cutAt? '=' t with
  | none =>
    have hnone : '=' ∉ s ++ t := by
      rw [List.mem_append, not_or]
      exact ⟨h, Text.cutAt?_eq_none.1 hcut⟩
    rw [Declaration.sides, Text.cutAt?_eq_none.2 hnone, Declaration.sides, hcut]
  | some cut =>
    obtain ⟨left, right⟩ := cut
    have hleft : '=' ∉ s ++ left := by
      rw [List.mem_append, not_or]
      exact ⟨h, Text.not_mem_of_cutAt? hcut⟩
    rw [Declaration.sides, Declaration.sides, hcut, Text.cutAt?_eq_some hcut, ← List.append_assoc,
      Text.cutAt?_append hleft]

theorem fields_append_blanks (h : ∀ c ∈ t, isBlank c = true) (s : Text) :
    fields (s ++ t) = fields s := by
  have hnone : fields t = [] := by
    clear s
    induction t with
    | nil => rfl
    | cons c rest ih =>
      rw [List.forall_mem_cons] at h
      rw [Text.fields_blank h.1, ih h.2]
  induction s using Text.fieldwise with
  | nil => exact hnone
  | blank c s hc ih => rw [List.cons_append, Text.fields_blank hc, Text.fields_blank hc, ih]
  | field w s hne hw hs ih =>
    have hnext : ∀ c ∈ (s ++ t).head?, isBlank c = true := by
      intro c hc
      cases s with
      | nil => exact h c (List.mem_of_mem_head? hc)
      | cons d more => exact hs c hc
    rw [List.append_assoc, Text.fields_run hne hw hnext, Text.fields_run hne hw hs, ih]

/-- Blanks at the end of a line give its left side no field. -/
theorem fields_sides_append (h : ∀ c ∈ t, isBlank c = true) (s : Text) :
    fields (Declaration.sides (s ++ t)).1 = fields (Declaration.sides s).1 := by
  by_cases hequals : '=' ∈ s
  · obtain ⟨left, right, rfl, hleft⟩ := List.eq_append_cons_of_mem hequals
    rw [List.append_assoc, List.cons_append, Declaration.sides, Text.cutAt?_append hleft,
      Declaration.sides, Text.cutAt?_append hleft]
  · have hblank : '=' ∉ t := fun hmem => absurd (h _ hmem) (by decide)
    have hnone : Text.cutAt? '=' t = none := Text.cutAt?_eq_none.2 hblank
    rw [sides_append hequals, Declaration.sides, hnone, Declaration.sides,
      Text.cutAt?_eq_none.2 hequals]
    exact fields_append_blanks h s

end Sides

/-! ### Which local a line declares -/

section Lines

variable {line rest x : Text}

/-- The fields before the equals sign of a line that opens with `local`. -/
theorem fields_sides_of_opens (h : trimStart line = "local ".toList ++ rest) :
    fields (Declaration.sides line).1 = "local".toList :: fields (Declaration.sides rest).1 := by
  obtain ⟨lead, hline, hlead⟩ : ∃ lead, line = lead ++ trimStart line ∧
      ∀ c ∈ lead, isBlank c = true :=
    ⟨line.takeWhile isBlank, (List.takeWhile_append_dropWhile (p := isBlank)).symm,
      fun c hc => by simpa using List.mem_takeWhile_imp hc⟩
  have hequals : '=' ∉ lead := fun hmem => absurd (hlead _ hmem) (by decide)
  have hblanks : ∀ t, fields (lead ++ t) = fields t := by
    intro t
    clear hline hequals
    induction lead with
    | nil => rfl
    | cons c more ih =>
      rw [List.forall_mem_cons] at hlead
      rw [List.cons_append, Text.fields_blank hlead.1, ih hlead.2]
  have hspace : ∀ c ∈ (' ' :: (Declaration.sides rest).1).head?, isBlank c = true := by
    intro c hc
    rw [← Option.mem_some_iff.1 hc]
    decide
  rw [hline, h, sides_append hequals, sides_append (by decide), hblanks]
  have hopening : "local ".toList ++ (Declaration.sides rest).1 =
      "local".toList ++ ' ' :: (Declaration.sides rest).1 := rfl
  rw [hopening, Text.fields_run (by decide) (by decide) hspace, Text.fields_blank (by decide)]

/-- A line declares a local when it opens so and the fields that follow are a type and a name. -/
theorem localName?_eq_some_iff :
    localName? line = some x ↔ OpensLocal line ∧ ∃ type array,
      Declaration.typedName? ((fields (Declaration.sides line).1).drop 1) = some (type, array, x) ∧
        isDatatype type = true ∧ isIdent x = true := by
  rw [localName?_eq_some]
  constructor
  · rintro ⟨rest, type, array, htrim, htyped, htype, hident⟩
    obtain ⟨blanks, hline, hblanks⟩ := Text.exists_trimEnd (trimStart line)
    have hopens : trimStart line = "local ".toList ++ (rest ++ blanks) := by
      rw [hline, ← List.append_assoc]
      exact congrArg (· ++ blanks) htrim
    refine ⟨⟨_, hopens⟩, type, array, ?_, htype, hident⟩
    rw [fields_sides_of_opens hopens, fields_sides_append hblanks]
    exact htyped
  · rintro ⟨⟨rest, hopens⟩, type, array, htyped, htype, hident⟩
    rw [fields_sides_of_opens hopens, List.drop_one, List.tail_cons] at htyped
    obtain ⟨blanks, hrest, hblanks⟩ := Text.exists_trimEnd rest
    rw [hrest, fields_sides_append hblanks] at htyped
    have htrim : Text.trim line = "loca".toList ++ ['l'] ++ trimEnd (' ' :: rest) := by
      rw [Text.trim, hopens]
      exact Text.trimEnd_append (s := "loca".toList) (by decide) (' ' :: rest)
    rcases Text.trimEnd_cons_cases ' ' rest with heq | ⟨-, hnil⟩
    · rw [heq] at htrim
      exact ⟨trimEnd rest, type, array, htrim, htyped, htype, hident⟩
    · -- nothing but blanks follows, so there is no name
      rw [hnil] at htyped
      cases htyped

end Lines

/-! ### Squeezed lines -/

section Squeezing

variable {before : Option Char} {pending : Bool} {b c : Char} {t w rest line : Text}

/-- After blanks a squeezed text goes on with a space or with a tight character. -/
theorem head?_squeezeFrom_pending (hb : isTight b = false)
    (h : c ∈ (squeezeFrom (some b) true t).head?) :
    c = ' ' ∨ isTight c = true := by
  induction t with
  | nil => cases h
  | cons d rest ih =>
    rw [squeezeFrom] at h
    split at h
    · exact ih h
    · split at h
      · exact .inl (Option.mem_some_iff.1 h).symm
      · rename_i hspace
        obtain rfl := Option.mem_some_iff.1 h
        refine .inr ?_
        simpa [separates, hb] using hspace

/-- A word that a space follows in a squeezed text is followed by one before. -/
theorem exists_of_squeezeFrom_word (hb : isTight b = false)
    (hblanks : ∀ c ∈ t, isHorizontal c = true → c = ' ')
    (hw : ∀ c ∈ w, isWordChar c = true) (h : squeezeFrom (some b) false t = w ++ ' ' :: rest) :
    ∃ rest', t = w ++ ' ' :: rest' := by
  induction w generalizing b t with
  | nil =>
    cases t with
    | nil => cases h
    | cons c t =>
      by_cases hc : isHorizontal c = true
      · rw [hblanks c List.mem_cons_self hc]
        exact ⟨t, rfl⟩
      · rw [squeezeFrom, if_neg hc, Bool.false_and, if_neg Bool.false_ne_true] at h
        rw [(List.cons.inj h).1] at hc
        exact absurd rfl hc
  | cons a w ih =>
    rw [List.forall_mem_cons] at hw
    have htight := Sealed.not_isTight_of_isWordChar hw.1
    cases t with
    | nil => cases h
    | cons c t =>
      rw [List.forall_mem_cons] at hblanks
      by_cases hc : isHorizontal c = true
      · rw [squeezeFrom, if_pos hc] at h
        rcases head?_squeezeFrom_pending hb (by rw [h]; rfl) with rfl | hsqueezed
        · exact absurd hw.1 (by decide)
        · rw [htight] at hsqueezed
          cases hsqueezed
      · rw [squeezeFrom, if_neg hc, Bool.false_and, if_neg Bool.false_ne_true] at h
        obtain ⟨rfl, hmore⟩ := List.cons.inj h
        obtain ⟨rest', rfl⟩ := ih htight hblanks.2 hw.2 hmore
        exact ⟨rest', rfl⟩

theorem Syntax.OpensLocal.of_squeezeFrom (hblanks : ∀ c ∈ t, isHorizontal c = true → c = ' ')
    (h : OpensLocal (squeezeFrom before pending t)) : OpensLocal t := by
  obtain ⟨rest, hrest⟩ := h
  induction t generalizing before pending with
  | nil => cases hrest
  | cons c t ih =>
    rw [List.forall_mem_cons] at hblanks
    have hskip : isBlank c = true → OpensLocal t → OpensLocal (c :: t) := by
      rintro hblank ⟨rest', hrest'⟩
      exact ⟨rest', (List.dropWhile_cons_of_pos hblank).trans hrest'⟩
    by_cases hc : isHorizontal c = true
    · rw [squeezeFrom, if_pos hc] at hrest
      exact hskip (Text.isBlank_of_isHorizontal c hc) (ih hblanks.2 hrest)
    · have hkept : trimStart (c :: squeezeFrom (some c) false t) = "local ".toList ++ rest := by
        rw [squeezeFrom, if_neg hc] at hrest
        split at hrest
        · rwa [trimStart, List.dropWhile_cons_of_pos (by decide)] at hrest
        · exact hrest
      by_cases hblank : isBlank c = true
      · rw [trimStart, List.dropWhile_cons_of_pos hblank] at hkept
        exact hskip hblank (ih hblanks.2 hkept)
      · rw [trimStart, List.dropWhile_cons_of_neg hblank] at hkept
        obtain ⟨rfl, hmore⟩ := List.cons.inj hkept
        obtain ⟨rest', rfl⟩ := exists_of_squeezeFrom_word (w := "ocal".toList) (by decide) hblanks.2
          (by decide) hmore
        exact ⟨rest', List.dropWhile_cons_of_neg hblank⟩

/-- No line comes to open with `local` when it is squeezed. -/
theorem Syntax.OpensLocal.of_squeezeLine (hblanks : ∀ c ∈ line, isHorizontal c = true → c = ' ')
    (h : OpensLocal (squeezeLine line)) : OpensLocal line :=
  .of_squeezeFrom hblanks h

theorem squeezeFrom_append_equals (s t : Text) : squeezeFrom before pending (s ++ '=' :: t) =
    squeezeFrom before pending s ++ '=' :: squeezeFrom (some '=') false t := by
  have htight : isTight '=' = true := by decide
  induction s generalizing before pending with
  | nil =>
    have hspace : (pending && separates before '=') = false := by
      rw [separates, htight, Bool.not_true, Bool.and_false, Bool.and_false]
    show squeezeFrom before pending ('=' :: t) = '=' :: squeezeFrom (some '=') false t
    rw [squeezeFrom, if_neg (by decide), hspace, if_neg Bool.false_ne_true]
  | cons c s ih =>
    rw [List.cons_append, squeezeFrom, squeezeFrom]
    split
    · exact ih
    · split
      · rw [ih]
        rfl
      · rw [ih]
        rfl

/-- The left side of a line is squeezed by itself. -/
theorem sides_squeezeLine (line : Text) :
    (Declaration.sides (squeezeLine line)).1 = squeezeLine (Declaration.sides line).1 := by
  have hnone : ∀ {t : Text}, '=' ∉ t → '=' ∉ squeezeLine t := fun ht hmem =>
    (Layout.mem_squeezeFrom hmem).elim (by decide) ht
  cases hcut : Text.cutAt? '=' line with
  | none =>
    rw [Declaration.sides, Text.cutAt?_eq_none.2 (hnone (Text.cutAt?_eq_none.1 hcut)),
      Declaration.sides, hcut]
  | some cut =>
    obtain ⟨left, right⟩ := cut
    have hleft := hnone (Text.not_mem_of_cutAt? hcut)
    rw [squeezeLine] at hleft
    rw [Declaration.sides, Declaration.sides, hcut, Text.cutAt?_eq_some hcut, squeezeLine,
      squeezeFrom_append_equals, Text.cutAt?_append hleft]
    rfl

end Squeezing
end ScriptMinifier
