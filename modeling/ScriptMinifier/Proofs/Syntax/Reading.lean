import Mathlib
import ScriptMinifier.Proofs.Syntax.Words
import ScriptMinifier.Syntax.Function

/-! What reading says about what was read.

A header, a declaration, a native and a function are each taken apart by a few cuts. The
lemmas here turn a successful reading round: the text is the parts, put together again, and
the names among the parts are identifiers. -/
namespace ScriptMinifier

/-! ### Lists -/

theorem bind_eq_ok {α β ε : Type} {x : Except ε α} {g : α → Except ε β} {b : β} :
    (x >>= g) = .ok b ↔ ∃ a, x = .ok a ∧ g a = .ok b := by
  cases x <;> simp [bind, Except.bind]

/-- Reading every item succeeds just when each can be read. -/
theorem mapM_eq_ok {α β ε : Type} {f : α → Except ε β} {xs : List α} {ys : List β} :
    xs.mapM f = .ok ys ↔ List.Forall₂ (fun x y => f x = .ok y) xs ys := by
  induction xs generalizing ys with
  | nil => simp [pure, Except.pure, eq_comm]
  | cons x rest ih =>
    rw [List.mapM_cons, List.forall₂_cons_left_iff]
    simp only [bind_eq_ok, ih, pure, Except.pure, Except.ok.injEq]
    constructor
    · rintro ⟨y, hy, more, hmore, rfl⟩
      exact ⟨y, more, hy, hmore, rfl⟩
    · rintro ⟨y, more, hy, hmore, rfl⟩
      exact ⟨y, hy, more, hmore, rfl⟩

theorem mapM_eq_some {α β : Type} {f : α → Option β} {xs : List α} {ys : List β} :
    xs.mapM f = some ys ↔ List.Forall₂ (fun x y => f x = some y) xs ys := by
  induction xs generalizing ys with
  | nil => simp [eq_comm]
  | cons x rest ih =>
    rw [List.mapM_cons, List.forall₂_cons_left_iff]
    simp only [Option.bind_eq_bind, Option.bind_eq_some_iff, ih, Option.pure_def, Option.some.injEq]
    constructor
    · rintro ⟨y, hy, more, hmore, rfl⟩
      exact ⟨y, more, hy, hmore, rfl⟩
    · rintro ⟨y, more, hy, hmore, rfl⟩
      exact ⟨y, hy, more, hmore, rfl⟩

theorem map_eq_of_forall₂ {α β γ : Type} {R : α → β → Prop} {xs : List α} {ys : List β} {f : α → γ}
    {g : β → γ}
    (h : List.Forall₂ R xs ys) (heq : ∀ x y, R x y → g y = f x) : ys.map g = xs.map f := by
  induction h with
  | nil => rfl
  | cons hxy _ ih => rw [List.map_cons, List.map_cons, heq _ _ hxy, ih]

theorem exists_of_mem_right {α β : Type} {R : α → β → Prop} {xs : List α} {ys : List β}
    (h : List.Forall₂ R xs ys) {y : β} (hy : y ∈ ys) : ∃ x ∈ xs, R x y := by
  induction h with
  | nil => cases hy
  | cons hxy _ ih =>
    rcases List.mem_cons.1 hy with rfl | hy
    · exact ⟨_, List.mem_cons_self, hxy⟩
    · obtain ⟨x, hx, hR⟩ := ih hy
      exact ⟨x, List.mem_cons_of_mem _ hx, hR⟩

theorem exists_of_mem_left {α β : Type} {R : α → β → Prop} {xs : List α} {ys : List β}
    (h : List.Forall₂ R xs ys) {x : α} (hx : x ∈ xs) : ∃ y ∈ ys, R x y :=
  exists_of_mem_right (R := fun y x => R x y) (List.Forall₂.flip h) hx

theorem exists_getElem?_of_forall₂ {α β : Type} {R : α → β → Prop} {xs : List α} {ys : List β}
    (h : List.Forall₂ R xs ys)
    {k : Nat} {x : α} (hx : xs[k]? = some x) : ∃ y, ys[k]? = some y ∧ R x y := by
  induction h generalizing k with
  | nil => cases hx
  | cons hxy _ ih =>
    cases k with
    | zero =>
      obtain rfl := Option.some.inj hx
      exact ⟨_, rfl, hxy⟩
    | succ k => exact ih hx

theorem forall₂_trans {α β γ : Type} {R : α → β → Prop} {S : β → γ → Prop} {T : α → γ → Prop}
    {xs : List α} {ys : List β} {zs : List γ} (h : ∀ x y z, R x y → S y z → T x z)
    (hR : List.Forall₂ R xs ys) (hS : List.Forall₂ S ys zs) : List.Forall₂ T xs zs := by
  induction hR generalizing zs with
  | nil =>
    cases hS
    exact .nil
  | cons hxy _ ih =>
    cases hS with
    | cons hyz hrest => exact .cons (h _ _ _ hxy hyz) (ih hrest)

namespace Text

theorem mark_not_mem_of_isIdent {t : Text} (h : isIdent t = true) : mark ∉ t := by
  cases t with
  | nil => cases h
  | cons c rest =>
    rw [isIdent, Bool.and_eq_true, List.all_eq_true] at h
    intro hmem
    rcases List.mem_cons.1 hmem with hc | hrest
    · rw [← hc] at h
      exact absurd h.1 (by decide)
    · exact absurd (h.2 mark hrest) (by decide)

theorem cutLast?_eq_some {sep t before after : Text} (h : cutLast? sep t = some (before, after)) :
    t = before ++ sep ++ after := by
  induction t generalizing before with
  | nil => simp [cutLast?] at h
  | cons c rest ih =>
    rw [cutLast?] at h
    split at h
    · rename_i cut hcut
      rw [Option.some.inj h] at hcut
      obtain ⟨tail, rfl, hrest⟩ := extendCut_eq_some.1 hcut
      rw [ih hrest]
      rfl
    · obtain ⟨rest', hdrop, hcut⟩ := Option.map_eq_some_iff.1 h
      rw [Prod.mk.injEq] at hcut
      rw [← hcut.1, ← hcut.2]
      exact dropStart?_eq_some hdrop

theorem not_mem_of_cutAt? {sep : Char} {t before after : Text}
    (h : cutAt? sep t = some (before, after)) :
    sep ∉ before := by
  induction t generalizing before with
  | nil => simp [cutAt?] at h
  | cons c rest ih =>
    rw [cutAt?] at h
    split at h
    · rw [Option.some.injEq, Prod.mk.injEq] at h
      rw [← h.1]
      exact List.not_mem_nil
    · rename_i hc
      obtain ⟨tail, rfl, hcut⟩ := extendCut_eq_some.1 h
      rw [List.mem_cons, not_or]
      exact ⟨Ne.symm hc, ih hcut⟩

theorem cutAt?_eq_none {sep : Char} {t : Text} : cutAt? sep t = none ↔ sep ∉ t := by
  induction t with
  | nil => simp [cutAt?]
  | cons c rest ih =>
    rw [cutAt?]
    by_cases hc : c = sep
    · simp [hc]
    · rw [if_neg hc, extendCut, Option.map_eq_none_iff, ih, List.mem_cons, not_or]
      exact ⟨fun h => ⟨Ne.symm hc, h⟩, fun h => h.2⟩

end Text

namespace Syntax

open Text (isIdent)

/-! ### Datatypes -/

theorem isIdent_of_isDatatype {t : Text} (h : isDatatype t = true) : isIdent t = true :=
  (isIdent_datatypes t (List.contains_iff_mem.1 h)).1

/-! ### Headers -/

/-- A header is its three fields with `takes` and `returns` between them. -/
theorem Header.parse?_eq_some {t : Text} {h : Header} (hparse : Header.parse? t = some h) :
    (∃ name params result,
      Text.trim t = name ++ " takes ".toList ++ (params ++ " returns ".toList ++ result) ∧
        h = ⟨Text.trim name, Text.trim params, Text.trim result⟩) ∧
      isIdent h.name = true ∧ isIdent h.result = true := by
  rw [Header.parse?, Option.bind_eq_some_iff] at hparse
  obtain ⟨⟨name, rest⟩, htakes, hrest⟩ := hparse
  obtain ⟨⟨params, result⟩, hreturns, hfields⟩ := Option.bind_eq_some_iff.1 hrest
  simp only at hfields
  split at hfields
  · rename_i hident
    rw [Bool.and_eq_true] at hident
    rw [← Option.some.inj hfields]
    refine ⟨⟨name, params, result, ?_, rfl⟩, hident⟩
    rw [Text.cutFirst?_eq_some htakes, Text.cutLast?_eq_some hreturns]
  · cases hfields

/-! ### Declarations -/

/-- A line is a left side, and a value after an equals sign if there is one. -/
theorem Declaration.parse?_eq_some {line : Text} {d : Declaration}
    (h : Declaration.parse? line = some d) :
    (∃ left, '=' ∉ left ∧
        ((line = left ∧ d.value = none) ∨ ∃ value, line = left ++ '=' :: value ∧
          d.value = some value)) ∧
      isDatatype d.type = true ∧ isIdent d.name = true ∧ d.uses = 0 := by
  rw [Declaration.parse?] at h
  split at h
  rename_i left value hsides
  simp only at h
  split at h
  · rename_i type array name htyped
    split at h
    · rename_i hident
      rw [Bool.and_eq_true] at hident
      rw [← Option.some.inj h]
      refine ⟨⟨left, ?_⟩, hident.1, hident.2, rfl⟩
      rw [Declaration.sides] at hsides
      split at hsides
      · rename_i before after hcut
        obtain ⟨rfl, rfl⟩ := Prod.mk.inj hsides
        exact ⟨Text.not_mem_of_cutAt? hcut, .inr ⟨after, Text.cutAt?_eq_some hcut, rfl⟩⟩
      · rename_i hcut
        obtain ⟨rfl, rfl⟩ := Prod.mk.inj hsides
        exact ⟨Text.cutAt?_eq_none.1 hcut, .inl ⟨rfl, rfl⟩⟩
    · cases h
  · cases h

/-- The declarations of a block are those of its lines. -/
theorem Declaration.parseAll_eq_ok {block : Text} {ds : List Declaration} :
    Declaration.parseAll block = .ok ds ↔
      List.Forall₂ (fun line d => Declaration.parse? line = some d)
        (((Text.lines block).map Text.trim).filter (· ≠ [])) ds := by
  rw [Declaration.parseAll, mapM_eq_ok]
  constructor <;> refine fun h => h.imp fun line d hd => ?_
  · revert hd
    cases Declaration.parse? line <;> simp
  · rw [hd]

/-! ### Parameters and natives -/

theorem Parameter.parse?_eq_some {t : Text} {q : Parameter} (h : Parameter.parse? t = some q) :
    Text.fields t = [q.type, q.name] ∧ isIdent q.type = true ∧ isIdent q.name = true := by
  rw [Parameter.parse?] at h
  split at h
  · rename_i type name hfields
    split at h
    · rename_i hident
      rw [Bool.and_eq_true] at hident
      rw [← Option.some.inj h]
      exact ⟨hfields, hident⟩
    · cases h
  · cases h

theorem Parameter.parseAll?_eq_some {t : Text} {qs : List Parameter}
    (h : Parameter.parseAll? t = some qs) :
    (Text.trim t = "nothing".toList ∧ qs = []) ∨
      List.Forall₂ (fun piece q => Parameter.parse? piece = some q)
      (Text.pieces ',' (Text.trim t)) qs := by
  rw [Parameter.parseAll?] at h
  split at h
  · rename_i hnothing
    exact .inl ⟨hnothing, (Option.some.inj h).symm⟩
  · exact .inr (mapM_eq_some.1 h)

theorem Parameter.isIdent_of_parseAll? {t : Text} {qs : List Parameter}
    (h : Parameter.parseAll? t = some qs) :
    ∀ q ∈ qs, isIdent q.type = true ∧ isIdent q.name = true := by
  rcases Parameter.parseAll?_eq_some h with ⟨-, rfl⟩ | hall
  · nofun
  · intro q hq
    obtain ⟨piece, -, hpiece⟩ := exists_of_mem_right hall hq
    exact (Parameter.parse?_eq_some hpiece).2

theorem Native.parse_eq_ok {t : Text} {n : Native} (h : Native.parse t = .ok n) :
    isIdent n.name = true ∧ isIdent n.result = true ∧
      ∀ q ∈ n.params, isIdent q.type = true ∧ isIdent q.name = true := by
  rw [Native.parse] at h
  split at h
  · rename_i native hnative
    rw [← Except.ok.inj h]
    obtain ⟨header, hheader, hparams⟩ := Option.bind_eq_some_iff.1 hnative
    obtain ⟨params, hall, rfl⟩ := Option.map_eq_some_iff.1 hparams
    obtain ⟨rest, -, hparse⟩ := Option.bind_eq_some_iff.1 hheader
    have hident := (Header.parse?_eq_some hparse).2
    exact ⟨hident.1, hident.2, Parameter.isIdent_of_parseAll? hall⟩
  · cases h

/-! ### Functions -/

/-- A block is a header line and a body, which may be missing. -/
theorem Function.parse_eq_ok {block : Text} {f : Function} (h : Function.parse block = .ok f) :
    ∃ header fields, Header.parse? header = some fields ∧ '\n' ∉ header ∧
      f = Function.new fields.name fields.params fields.result f.body ∧
      ((Text.trim block = header ∧ f.body = []) ∨ Text.trim block = header ++ '\n' :: f.body) := by
  rw [Function.parse] at h
  split at h
  rename_i header body hcut
  split at h
  · rename_i fields hfields
    rw [← Except.ok.inj h]
    refine ⟨header, fields, hfields, ?_⟩
    cases hline : Text.cutAt? '\n' (Text.trim block) with
    | none =>
      rw [hline, Option.getD_none, Prod.mk.injEq] at hcut
      obtain ⟨rfl, rfl⟩ := hcut
      exact ⟨Text.cutAt?_eq_none.1 hline, rfl, .inl ⟨rfl, rfl⟩⟩
    | some cut =>
      rw [hline, Option.getD_some] at hcut
      rw [hcut] at hline
      exact ⟨Text.not_mem_of_cutAt? hline, rfl, .inr (Text.cutAt?_eq_some hline)⟩
  · cases h

end Syntax
end ScriptMinifier
