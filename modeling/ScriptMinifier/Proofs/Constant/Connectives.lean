import ScriptMinifier.Proofs.Constant.Substituting

/-! Operands in parentheses, joined by an operator.

Two expressions in parentheses with an operator between them have the value that the operator makes
of their values (`eval_joined`), so what `or` and `and` ask of their operands is what `disjoin` and
`conjoin` ask. These ask both for a truth value, but the right one only when the left one does not
settle the result (`eval_connected`). A left operand that settles it hides a right one of another
type, and the same operands the other way round are refused. -/
namespace ScriptMinifier.Constant

variable {ls : Literals} {a b : Text} {x y : Value}

/-! ### Two operands and an operator -/

/-- Two expressions in parentheses with an operator between them. -/
def joined (op : Operator) (a b : Text) : Text :=
  '(' :: (a ++ ')' :: (op.token.text ++ '(' :: (b ++ [')'])))

/-- An operator is read up to a parenthesis after it. -/
theorem Operator.spelt (op : Operator) :
    ∃ stops, Spelt op.token op.token.text stops ∧ stops '(' = true := by
  rcases op with _ | _ | op
  · exact ⟨_, .word rfl, rfl⟩
  · exact ⟨_, .word rfl, rfl⟩
  · exact ⟨_, .symbol rfl, by cases op <;> rfl⟩

theorem tokens_parenthesized {post : Text} {ts us : List Token} (ha : tokens ls a = .ok ts)
    (hpost : tokens ls post = .ok us) :
    tokens ls ('(' :: (a ++ ')' :: post)) = .ok (.leftParen :: (ts ++ .rightParen :: us)) := by
  have hapart : Apart a (')' :: post) := apart_cons a (by decide) (by decide) (by decide) post
  have hclose : tokens ls (')' :: post) = .ok (.rightParen :: us) :=
    (tokens_cons_eq_ok (by decide) rfl).2 ⟨_, us, rfl, rfl, hpost⟩
  have hinner : tokens ls (a ++ ')' :: post) = .ok (ts ++ .rightParen :: us) :=
    (tokens_append_eq_ok (shut_of_tokens ha) hapart).2 ⟨ts, _, rfl, ha, hclose⟩
  exact (tokens_cons_eq_ok (by decide) rfl).2 ⟨_, _, rfl, rfl, hinner⟩

theorem tokens_joined (op : Operator) {ts us : List Token} (ha : tokens ls a = .ok ts)
    (hb : tokens ls b = .ok us) :
    tokens ls (joined op a b) =
      .ok
      (.leftParen :: (ts ++ .rightParen :: op.token :: .leftParen :: (us ++ [.rightParen]))) := by
  obtain ⟨stops, hspelt, hparen⟩ := op.spelt
  have hright : tokens ls ('(' :: (b ++ [')'])) = .ok (.leftParen :: (us ++ [.rightParen])) :=
    tokens_parenthesized hb tokens_nil
  refine tokens_parenthesized ha ((hspelt.tokens_append fun c hc => ?_).2 ⟨_, rfl, hright⟩)
  obtain rfl := Option.some.inj hc
  exact hparen

/-- The value of two joined expressions is what the operator makes of their values. -/
theorem eval_joined (op : Operator) (ha : eval ls a = .ok x) (hb : eval ls b = .ok y) :
    eval ls (joined op a b) = (op.apply x y).mapError .operation := by
  obtain ⟨ts, hts, hx⟩ := bind_eq_ok.1 ha
  obtain ⟨us, hus, hy⟩ := bind_eq_ok.1 hb
  obtain ⟨left, hleft, hvalue⟩ := written_of_evalTokens hx
  obtain ⟨right, hright, hvalue'⟩ := written_of_evalTokens hy
  have hwritten : Written op.level (.operation op left right)
      ((.leftParen :: (ts ++ [.rightParen])) ++ op.token :: .leftParen :: (us ++ [.rightParen])) :=
    .operation op ((Written.parenthesized hleft).of_sign _)
      ((Written.parenthesized hright).of_sign _)
  have htree : (Tree.operation op left right).value = op.apply x y := by
    rw [Tree.value, hvalue, hvalue']
    rfl
  have heval := (hwritten.loosen (p := .disjunction) op.level.looseness_le).evalTokens_eq
  rw [htree] at heval
  rw [eval, tokens_joined op hts hus, ← heval]
  simp [bind, Except.bind]

/-! ### The words that join truth values -/

/-- A word that joins truth values. -/
inductive Connective
  | or
  | and
deriving DecidableEq, Repr

namespace Connective

/-- A connective among the operators. -/
def operator : Connective → Operator
  | or => .or
  | and => .and

/-- What a connective makes of two truth values. -/
def join : Connective → Bool → Bool → Bool
  | or, p, q => p || q
  | and, p, q => p && q

/-- The truth value that settles the result when it stands on the left. -/
def settling : Connective → Bool
  | or => true
  | and => false

/-- What a connective would make of two values if it asked both for a truth value. -/
def checked (c : Connective) (x y : Value) : Except ValueFault Value := do
  return .bool (c.join (← x.asBool) (← y.asBool))

/-- A value that is no truth value stands to the right of one that settles the result. -/
def Hides (c : Connective) (x y : Value) : Prop := x = .bool c.settling ∧ ∀ q, y ≠ .bool q

variable {c : Connective}

theorem apply_of_hides (h : c.Hides x y) : c.operator.apply x y = .ok (.bool c.settling) := by
  rw [h.1]
  cases c <;> rfl

theorem checked_of_not_bool (h : (∀ p, x ≠ .bool p) ∨ ∀ q, y ≠ .bool q) :
    c.checked x y = .error .type := by
  cases x with
  | int n => rfl
  | real r => rfl
  | bool p =>
    have hy := h.resolve_left fun hx => hx p rfl
    cases y with
    | int n => rfl
    | real r => rfl
    | bool q => exact absurd rfl (hy q)

theorem checked_bool (p q : Bool) : c.checked (.bool p) (.bool q) = .ok (.bool (c.join p q)) := rfl

/-- A connective asks both sides for a truth value, unless the left side settles the result. -/
theorem apply_eq_checked_iff : c.operator.apply x y = c.checked x y ↔ ¬ c.Hides x y := by
  constructor
  · intro heq hhides
    rw [apply_of_hides hhides, checked_of_not_bool (.inr hhides.2)] at heq
    cases heq
  · intro hshown
    cases x with
    | int n => cases c <;> rfl
    | real r => cases c <;> rfl
    | bool p =>
      by_cases hp : p = c.settling
      · -- the left side settles the result, so the right one has to be a truth value
        obtain ⟨q, rfl⟩ : ∃ q, y = .bool q := by
          by_contra hnone
          exact hshown ⟨congrArg Value.bool hp, fun q hq => hnone ⟨q, hq⟩⟩
        cases c <;> cases p <;> rfl
      · obtain rfl : p = !c.settling := by
          cases p <;> cases hs : c.settling <;> simp_all
        cases c <;> cases y <;> rfl

/-- There is a value if both sides are truth values, or if the left one hides what the right one
is. -/
theorem exists_apply_iff :
    (∃ v, c.operator.apply x y = .ok v) ↔ ((∃ p, x = .bool p) ∧ ∃ q, y = .bool q) ∨
    c.Hides x y := by
  by_cases hhides : c.Hides x y
  · exact iff_of_true ⟨_, apply_of_hides hhides⟩ (.inr hhides)
  · rw [apply_eq_checked_iff.2 hhides, or_iff_left hhides]
    constructor
    · rintro ⟨v, hv⟩
      by_contra hnone
      rw [checked_of_not_bool] at hv
      · cases hv
      · by_contra hboth
        push Not at hboth
        exact hnone hboth
    · rintro ⟨⟨p, rfl⟩, q, rfl⟩
      exact ⟨_, checked_bool p q⟩

/-- What one operand hides shows when it stands on the left. -/
theorem not_exists_apply_of_hides (h : c.Hides x y) : ¬ ∃ v, c.operator.apply y x = .ok v := by
  rw [exists_apply_iff]
  rintro (⟨⟨q, hq⟩, -⟩ | hother)
  · exact h.2 q hq
  · exact h.2 _ hother.1

end Connective

theorem mapError_operation_eq_ok {u : Except ValueFault Value} {v : Value} :
    u.mapError EvalFault.operation = .ok v ↔ u = .ok v := by
  cases u <;> simp [Except.mapError]

theorem mapError_operation_injective {u w : Except ValueFault Value} :
    u.mapError EvalFault.operation = w.mapError .operation ↔ u = w := by
  cases u <;> cases w <;> simp [Except.mapError]

/-- **`or` and `and` ask both operands for a truth value unless the left one settles the result.**
Two joined expressions have the value of a connective that asks both, truth values in and a fault of
type otherwise, just when the left operand does not hide the right one; when it does, the result is
the left operand. So the operands can change places just when neither hides the other. -/
theorem eval_connected (c : Connective) (ha : eval ls a = .ok x) (hb : eval ls b = .ok y) :
    (eval ls (joined c.operator a b) = (c.checked x y).mapError .operation ↔ ¬ c.Hides x y) ∧
      (c.Hides x y → eval ls (joined c.operator a b) = .ok (.bool c.settling)) ∧
      (((∃ v, eval ls (joined c.operator a b) = .ok v) ↔
        ∃ v, eval ls (joined c.operator b a) = .ok v) ↔
        ¬ c.Hides x y ∧ ¬ c.Hides y x) := by
  rw [eval_joined c.operator ha hb, eval_joined c.operator hb ha]
  simp only [mapError_operation_eq_ok, mapError_operation_injective]
  refine ⟨Connective.apply_eq_checked_iff, Connective.apply_of_hides,
    fun hswap => ⟨fun h => ?_, fun h => ?_⟩, ?_⟩
  · exact Connective.not_exists_apply_of_hides h (hswap.1 ⟨_, Connective.apply_of_hides h⟩)
  · exact Connective.not_exists_apply_of_hides h (hswap.2 ⟨_, Connective.apply_of_hides h⟩)
  · rintro ⟨hleft, hright⟩
    rw [Connective.exists_apply_iff, Connective.exists_apply_iff, or_iff_left hleft,
      or_iff_left hright]
    exact and_comm

theorem eval_comparison_connected :
    (eval {} "1<2".toList = .ok (.bool true) ∧ eval {} "3-1".toList = .ok (.int 2)) ∧
      (eval {} (joined Connective.and.operator "1<2".toList "3-1".toList) =
          (Connective.and.checked (.bool true) (.int 2)).mapError .operation ↔
          ¬ Connective.and.Hides (.bool true) (.int 2)) ∧
      (Connective.and.Hides (.bool true) (.int 2) →
        eval {} (joined Connective.and.operator "1<2".toList "3-1".toList) = .ok (.bool false)) ∧
      (((∃ v, eval {} (joined Connective.and.operator "1<2".toList "3-1".toList) = .ok v) ↔
          ∃ v, eval {} (joined Connective.and.operator "3-1".toList "1<2".toList) = .ok v) ↔
        ¬ Connective.and.Hides (.bool true) (.int 2) ∧ ¬ Connective.and.Hides (.int 2)
        (.bool true)) := by
  have ha : eval {} "1<2".toList = .ok (.bool true) := by decide +kernel
  have hb : eval {} "3-1".toList = .ok (.int 2) := by decide +kernel
  exact ⟨⟨ha, hb⟩, eval_connected .and ha hb⟩

/-- An operand of the wrong type can be hidden: `(true)or(1)` and `(false)and(1)` have values,
though one operand is a number, and with their operands the other way round they have none. -/
theorem number_hidden :
    eval {} "true".toList = .ok (.bool true) ∧ eval {} "false".toList = .ok (.bool false) ∧
      eval {} "1".toList = .ok (.int 1) ∧
      eval {} "(true)or(1)".toList = .ok (.bool true) ∧
      eval {} "(1)or(true)".toList = .error (.operation .type) ∧
      eval {} "(false)and(1)".toList = .ok (.bool false) ∧ eval {} "(1)and(false)".toList = .error
      (.operation .type) := by
  decide +kernel

end ScriptMinifier.Constant
