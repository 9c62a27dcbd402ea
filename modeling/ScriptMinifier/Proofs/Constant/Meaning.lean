import ScriptMinifier.Proofs.Constant.Descent
import ScriptMinifier.Proofs.Constant.Printing

/-! The meaning of an expression.

An expression of integers and truth values means what exact arithmetic and logic say
(`Expr.meaning`). It is safe when no part of it divides by zero or leaves 32 bits (`Expr.Safe`).
However it is printed, with the parentheses that the levels ask for or more, evaluation gives the
meaning of what is safe, and one of the two faults of arithmetic otherwise (`eval_printed`). -/
namespace ScriptMinifier.Constant

/-! ### Typed expressions -/

/-- What an expression gives. -/
inductive Kind
  | number
  | truth
deriving DecidableEq, Repr

namespace Kind

abbrev Carrier : Kind → Type
  | number => Int
  | truth => Bool

/-- What an expression gives, as a value. -/
def value : (k : Kind) → k.Carrier → Value
  | number, n => .int n
  | truth, b => .bool b

end Kind

/-- An expression of integers and truth values in which every operator has operands of its kind. -/
inductive Expr : Kind → Type
  | literal (n : Nat) (h : n < 0x80000000) : Expr .number
  | truth (b : Bool) : Expr .truth
  | minus (e : Expr .number) : Expr .number
  | plus (e : Expr .number) : Expr .number
  | not (e : Expr .truth) : Expr .truth
  | arithmetic (op : Arithmetic) (left right : Expr .number) : Expr .number
  | comparison (op : Comparison) (left right : Expr .number) : Expr .truth
  | same (left right : Expr .truth) : Expr .truth
  | different (left right : Expr .truth) : Expr .truth
  | and (left right : Expr .truth) : Expr .truth
  | or (left right : Expr .truth) : Expr .truth

/-- What an operator computes without bounds. A quotient goes toward zero. -/
def Arithmetic.exact (op : Arithmetic) (a b : Int) : Int :=
  match op with
  | plus => a + b
  | minus => a - b
  | times => a * b
  | divide => a.tdiv b

/-- Whether a comparison holds. -/
def Comparison.holds (op : Comparison) (a b : Int) : Bool :=
  match op with
  | equal => decide (a = b)
  | unequal => decide (a ≠ b)
  | atMost => decide (a ≤ b)
  | atLeast => decide (a ≥ b)
  | less => decide (a < b)
  | greater => decide (a > b)

/-- The signed numbers of 32 bits. -/
def InRange (n : Int) : Prop := -0x80000000 ≤ n ∧ n < 0x80000000

instance (n : Int) : Decidable (InRange n) := inferInstanceAs (Decidable (_ ∧ _))

namespace Expr

/-- The expression without its types. -/
def tree {k : Kind} : Expr k → Tree
  | literal n _ => .leaf (.int n)
  | truth b => .leaf (.bool b)
  | minus e => .minus e.tree
  | plus e => .plus e.tree
  | not e => .complement e.tree
  | arithmetic op left right => .operation (.arithmetic op) left.tree right.tree
  | comparison op left right => .comparison op left.tree right.tree
  | same left right => .comparison .equal left.tree right.tree
  | different left right => .comparison .unequal left.tree right.tree
  | and left right => .operation .and left.tree right.tree
  | or left right => .operation .or left.tree right.tree

/-- What an expression means in exact arithmetic. -/
def meaning {k : Kind} : Expr k → k.Carrier
  | literal n _ => (n : Int)
  | truth b => b
  | minus e => -e.meaning
  | plus e => e.meaning
  | not e => !e.meaning
  | arithmetic op left right => op.exact left.meaning right.meaning
  | comparison op left right => op.holds left.meaning right.meaning
  | same left right => decide (left.meaning = right.meaning)
  | different left right => decide (left.meaning ≠ right.meaning)
  | and left right => left.meaning && right.meaning
  | or left right => left.meaning || right.meaning

/-- No part of an expression divides by zero or leaves the range. -/
def Safe {k : Kind} : Expr k → Prop
  | literal _ _ => True
  | truth _ => True
  | minus e => e.Safe ∧ InRange (-e.meaning)
  | plus e => e.Safe
  | not e => e.Safe
  | arithmetic op left right =>
    left.Safe ∧ right.Safe ∧ (op = .divide → right.meaning ≠ 0) ∧
      InRange (op.exact left.meaning right.meaning)
  | comparison _ left right => left.Safe ∧ right.Safe
  | same left right => left.Safe ∧ right.Safe
  | different left right => left.Safe ∧ right.Safe
  | and left right => left.Safe ∧ right.Safe
  | or left right => left.Safe ∧ right.Safe

instance decidableSafe {k : Kind} : (e : Expr k) → Decidable e.Safe
  | literal _ _ => isTrue trivial
  | truth _ => isTrue trivial
  | minus e => haveI := decidableSafe e; inferInstanceAs (Decidable (_ ∧ _))
  | plus e => decidableSafe e
  | not e => decidableSafe e
  | arithmetic _ left right =>
    haveI := decidableSafe left
    haveI := decidableSafe right
    inferInstanceAs (Decidable (_ ∧ _ ∧ (_ → _) ∧ _))
  | comparison _ left right =>
    haveI := decidableSafe left; haveI := decidableSafe right; inferInstanceAs (Decidable (_ ∧ _))
  | same left right =>
    haveI := decidableSafe left; haveI := decidableSafe right; inferInstanceAs (Decidable (_ ∧ _))
  | different left right =>
    haveI := decidableSafe left; haveI := decidableSafe right; inferInstanceAs (Decidable (_ ∧ _))
  | and left right =>
    haveI := decidableSafe left; haveI := decidableSafe right; inferInstanceAs (Decidable (_ ∧ _))
  | or left right =>
    haveI := decidableSafe left; haveI := decidableSafe right; inferInstanceAs (Decidable (_ ∧ _))

end Expr

/-! ### What is computed -/

/-- A computation gives a value when that is safe, and a fault of arithmetic otherwise. -/
structure Computes (x : Except ValueFault Value) (safe : Prop) (v : Value) : Prop where
  ok : safe → x = .ok v
  fault : ¬ safe → x = .error .divisionByZero ∨ x = .error .overflow

namespace Computes

variable {x : Except ValueFault Value} {f : Value → Except ValueFault Value} {safe more : Prop}
  {v w : Value}

theorem bind (h : Computes x safe v) (hf : Computes (f v) more w) :
    Computes (x >>= f) (safe ∧ more) w where
  ok := fun ⟨hsafe, hmore⟩ => by
    rw [h.ok hsafe]
    exact hf.ok hmore
  fault hnot := by
    by_cases hsafe : safe
    · rw [h.ok hsafe]
      exact hf.fault fun hmore => hnot ⟨hsafe, hmore⟩
    · rcases h.fault hsafe with hx | hx
      · exact .inl (by rw [hx]; rfl)
      · exact .inr (by rw [hx]; rfl)

theorem bind_ok (h : Computes x safe v) (hf : f v = .ok w) : Computes (x >>= f) safe w where
  ok hsafe := by
    rw [h.ok hsafe]
    exact hf
  fault hnot := by
    rcases h.fault hnot with hx | hx
    · exact .inl (by rw [hx]; rfl)
    · exact .inr (by rw [hx]; rfl)

theorem of_ok (h : x = .ok v) : Computes x True v where
  ok _ := h
  fault hnot := absurd trivial hnot

theorem ofInt (n : Int) : Computes (Value.ofInt n) (InRange n) (.int n) := by
  have hfits : fitsInt n = true ↔ InRange n := by simp [fitsInt, InRange]
  constructor
  · intro h
    rw [Value.ofInt, if_pos (hfits.2 h)]
  · intro h
    rw [Value.ofInt, if_neg (mt hfits.1 h)]
    exact .inr rfl

theorem calculate (op : Arithmetic) (a b : Int) :
    Computes (Value.calculate op (.int a) (.int b)) ((op = .divide → b ≠ 0) ∧
      InRange (op.exact a b)) (.int (op.exact a b)) := by
  have hplain (hop : op ≠ .divide)
      (h : Value.calculate op (.int a) (.int b) = Value.ofInt (op.exact a b)) :
      Computes (Value.calculate op (.int a) (.int b))
        ((op = .divide → b ≠ 0) ∧ InRange (op.exact a b))
        (.int (op.exact a b)) := by
    rw [h]
    exact ⟨fun hsafe => (ofInt _).ok hsafe.2, fun hnot => (ofInt _).fault fun hrange => hnot
      ⟨fun heq => absurd heq hop, hrange⟩⟩
  cases op with
  | divide =>
    by_cases hb : b = 0
    · have hzero : Value.calculate .divide (.int a) (.int b) = .error .divisionByZero := if_pos hb
      exact ⟨fun hsafe => absurd hb (hsafe.1 rfl), fun _ => .inl hzero⟩
    · have hvalue : Value.calculate .divide (.int a) (.int b) = Value.ofInt (a.tdiv b) := if_neg hb
      rw [hvalue]
      exact ⟨fun hsafe => (ofInt _).ok hsafe.2, fun hnot => (ofInt _).fault fun hrange => hnot
        ⟨fun _ => hb, hrange⟩⟩
  | _ => exact hplain nofun rfl

end Computes

theorem compareInt_eq_holds (op : Comparison) (a b : Int) :
    Value.compareInt op a b = op.holds a b := by
  cases op <;> simp [Value.compareInt, Comparison.holds] <;> rfl

theorem compare_equal (a b : Bool) :
    Value.compare .equal (.bool a) (.bool b) = .ok (.bool (decide (a = b))) := by
  cases a <;> cases b <;> rfl

theorem compare_unequal (a b : Bool) :
    Value.compare .unequal (.bool a) (.bool b) = .ok (.bool (decide (a ≠ b))) := by
  cases a <;> cases b <;> rfl

theorem conjoin_bool (a b : Bool) :
    Value.conjoin (.bool a) (.bool b) = .ok (.bool (a && b)) := by cases a <;> rfl

theorem disjoin_bool (a b : Bool) :
    Value.disjoin (.bool a) (.bool b) = .ok (.bool (a || b)) := by cases a <;> rfl

/-- The value of a typed expression is its meaning, once that is safe. -/
theorem Expr.computes {k : Kind} (e : Expr k) :
    Computes e.tree.value e.Safe (k.value e.meaning) := by
  induction e with
  | literal | truth => exact .of_ok rfl
  | plus _ ih => exact ih
  | minus e ih => exact ih.bind (.ofInt (-e.meaning))
  | not e ih => exact ih.bind_ok rfl
  | arithmetic op left right ihLeft ihRight => exact ihLeft.bind (ihRight.bind (.calculate op _ _))
  | comparison op left right ihLeft ihRight =>
    refine ihLeft.bind (ihRight.bind_ok ?_)
    exact congrArg (fun b => Except.ok (Value.bool b)) (compareInt_eq_holds op _ _)
  | same left right ihLeft ihRight => exact ihLeft.bind (ihRight.bind_ok (compare_equal _ _))
  | different left right ihLeft ihRight => exact ihLeft.bind (ihRight.bind_ok (compare_unequal _ _))
  | and left right ihLeft ihRight => exact ihLeft.bind (ihRight.bind_ok (conjoin_bool _ _))
  | or left right ihLeft ihRight => exact ihLeft.bind (ihRight.bind_ok (disjoin_bool _ _))

/-- A typed expression is made of literals. -/
theorem Expr.isPlain_leaves {k : Kind} (e : Expr k) : ∀ v ∈ e.tree.leaves, v.token.IsPlain := by
  have happend {xs ys : List Value} (hx : ∀ v ∈ xs, v.token.IsPlain)
      (hy : ∀ v ∈ ys, v.token.IsPlain) :
      ∀ v ∈ xs ++ ys, v.token.IsPlain := fun v hv => (List.mem_append.1 hv).elim (hx v) (hy v)
  induction e with
  | literal n h =>
    intro v hv
    obtain rfl := List.mem_singleton.1 hv
    exact ⟨Int.natCast_nonneg n, Int.ofNat_lt.2 h⟩
  | truth b =>
    intro v hv
    obtain rfl := List.mem_singleton.1 hv
    trivial
  | minus _ ih | plus _ ih | not _ ih => exact ih
  | arithmetic _ _ _ ihLeft ihRight | comparison _ _ _ ihLeft ihRight | same _ _ ihLeft ihRight
  | different _ _ ihLeft ihRight | and _ _ ihLeft ihRight | or _ _ ihLeft ihRight =>
    exact happend ihLeft ihRight

/-- **Evaluation computes the meaning.** However a typed expression is printed, its value is its
meaning when no part of it divides by zero or leaves the range, and there is one of these two faults
otherwise. -/
theorem eval_printed (ls : Literals) {k : Kind} (e : Expr k) {ts : List Token} {t : Text}
    (hts : Written .disjunction e.tree ts) (ht : Printed ts t) :
    (e.Safe → eval ls t = .ok (k.value e.meaning)) ∧
      (¬ e.Safe → eval ls t = .error (.operation .divisionByZero) ∨
        eval ls t = .error (.operation .overflow)) := by
  have hplain : ∀ tok ∈ ts, tok.IsPlain := by
    intro tok htok
    cases tok with
    | int n => exact e.isPlain_leaves _ (hts.mem_leaves (v := .int n) htok)
    | real x => exact e.isPlain_leaves _ (hts.mem_leaves (v := .real x) htok)
    | _ => trivial
  have heval : eval ls t = e.tree.value.mapError .operation := by
    rw [eval, ht.tokens_eq hplain hts.coherent.chain]
    exact hts.evalTokens_eq
  rw [heval]
  refine ⟨fun hsafe => ?_, fun hnot => ?_⟩
  · rw [e.computes.ok hsafe]
    rfl
  · rcases e.computes.fault hnot with h | h
    · exact .inl (by rw [h]; rfl)
    · exact .inr (by rw [h]; rfl)

/-- The expression `not (-(1+2)*3<4 or true!=false)`. -/
def negatedSum : Expr .truth :=
  .not
    (.or
      (.comparison .less
        (.arithmetic .times
          (.minus (.arithmetic .plus (.literal 1 (by decide)) (.literal 2 (by decide))))
    (.literal 3 (by decide))) (.literal 4 (by decide))) (.different (.truth true) (.truth false)))

theorem eval_negatedSum :
    negatedSum.Safe ∧ eval {} (spaced (negatedSum.tree.print .disjunction)) = .ok
    (.bool false) := by
  have hsafe : negatedSum.Safe := by decide
  exact ⟨hsafe,
    (eval_printed {} negatedSum (negatedSum.tree.written_print .disjunction) (printed_spaced _)).1
      hsafe⟩

end ScriptMinifier.Constant
