import ScriptMinifier.Constant.Expression
import ScriptMinifier.Proofs.Syntax.Reading

/-! The grammar of constant expressions.

An expression is a tree, and `Written` says which lists of tokens write it at a level: with the
parentheses that the levels ask for, and with as many more as one likes. No two operands stand side
by side in it (`Written.coherent`). The value of a tree is computed from the values of its parts
alone, so what every operation keeps holds of all values once it holds of the leaves (`Tree.kept`).
What has a value writes a tree of that value (`written_of_evalTokens`). -/
namespace ScriptMinifier.Constant

instance decidableEqExcept {ε α : Type} [DecidableEq ε] [DecidableEq α] : DecidableEq (Except ε α)
  | .ok a, .ok b => decidable_of_iff (a = b) (by simp)
  | .error a, .error b => decidable_of_iff (a = b) (by simp)
  | .ok _, .error _ => isFalse (by simp)
  | .error _, .ok _ => isFalse (by simp)

/-! ### Levels and operators -/

namespace Precedence

/-- The level of the operands of a level. -/
def tighter : Precedence → Precedence
  | disjunction => conjunction
  | conjunction => negation
  | negation => comparison
  | comparison => sum
  | sum => product
  | product => sign
  | sign => sign

/-- How many levels a descent from a level goes through. -/
def looseness : Precedence → Nat
  | disjunction => 7
  | conjunction => 6
  | negation => 5
  | comparison => 4
  | sum => 3
  | product => 2
  | sign => 1

theorem looseness_pos (p : Precedence) : 0 < p.looseness := by cases p <;> decide

theorem looseness_le (p : Precedence) : p.looseness ≤ 7 := by cases p <;> decide

theorem looseness_injective {p q : Precedence} (h : p.looseness = q.looseness) : p = q := by
  cases p <;> cases q <;> first | rfl | cases h

theorem looseness_tighter {p : Precedence} (h : p ≠ sign) :
    p.looseness = p.tighter.looseness + 1 := by
  cases p <;> first | rfl | exact absurd rfl h

end Precedence

/-- The binary operators of the levels that group to the left. -/
inductive Operator
  | or
  | and
  | arithmetic (op : Arithmetic)
deriving DecidableEq, Repr

namespace Operator

/-- The token of an operator. -/
def token : Operator → Token
  | or => .or
  | and => .and
  | arithmetic op => .arithmetic op

/-- The level of an operator. -/
def level : Operator → Precedence
  | or => .disjunction
  | and => .conjunction
  | arithmetic .plus => .sum
  | arithmetic .minus => .sum
  | arithmetic .times => .product
  | arithmetic .divide => .product

/-- What an operator makes of two values. -/
def apply : Operator → Value → Value → Except ValueFault Value
  | or => Value.disjoin
  | and => Value.conjoin
  | arithmetic op => Value.calculate op

theorem level_ne_sign (op : Operator) : op.level ≠ .sign := by
  rcases op with _ | _ | _ | _ | _ | _ <;> decide

end Operator

/-- A level groups to the left, or it is one of the three others. -/
theorem Precedence.operator_cases (p : Precedence) :
    (∃ op : Operator, p = op.level) ∨ p = .negation ∨ p = .comparison ∨ p = .sign := by
  cases p with
  | disjunction => exact .inl ⟨.or, rfl⟩
  | conjunction => exact .inl ⟨.and, rfl⟩
  | sum => exact .inl ⟨.arithmetic .plus, rfl⟩
  | product => exact .inl ⟨.arithmetic .times, rfl⟩
  | negation => exact .inr (.inl rfl)
  | comparison => exact .inr (.inr (.inl rfl))
  | sign => exact .inr (.inr (.inr rfl))

/-! ### Trees -/

/-- A constant expression. -/
inductive Tree
  | leaf (v : Value)
  | minus (e : Tree)
  | plus (e : Tree)
  | complement (e : Tree)
  | comparison (op : Comparison) (left right : Tree)
  | operation (op : Operator) (left right : Tree)

/-- The value of a tree. All of its parts are computed, from the left. -/
def Tree.value : Tree → Except ValueFault Value
  | leaf v => .ok v
  | minus e => e.value >>= Value.negate
  | plus e => e.value
  | complement e => e.value >>= Value.complement
  | comparison op left right => left.value >>= fun v => right.value >>= Value.compare op v
  | operation op left right => left.value >>= fun v => right.value >>= op.apply v

/-- The token that is a value. -/
def Value.token : Value → Token
  | int n => .int n
  | real x => .real x
  | bool b => .bool b

/-- The tokens that write a tree where an operand of a level is asked for. -/
inductive Written : Precedence → Tree → List Token → Prop
  | leaf (v : Value) : Written .sign (.leaf v) [v.token]
  | minus {e : Tree} {ts : List Token} (h : Written .sign e ts) :
      Written .sign (.minus e) (.arithmetic .minus :: ts)
  | plus {e : Tree} {ts : List Token} (h : Written .sign e ts) :
      Written .sign (.plus e) (.arithmetic .plus :: ts)
  | parenthesized {e : Tree} {ts : List Token} (h : Written .disjunction e ts) :
      Written .sign e (.leftParen :: (ts ++ [.rightParen]))
  | complement {e : Tree} {ts : List Token} (h : Written .negation e ts) :
      Written .negation (.complement e) (.not :: ts)
  | comparison (op : Comparison) {left right : Tree} {ts us : List Token}
      (hleft : Written .sum left ts) (hright : Written .sum right us) :
      Written .comparison (.comparison op left right) (ts ++ .comparison op :: us)
  | operation (op : Operator) {left right : Tree} {ts us : List Token}
      (hleft : Written op.level left ts) (hright : Written op.level.tighter right us) :
      Written op.level (.operation op left right) (ts ++ op.token :: us)
  | tighter {p : Precedence} {e : Tree} {ts : List Token} (h : Written p.tighter e ts) :
      Written p e ts

namespace Written

theorem ne_nil {p : Precedence} {e : Tree} {ts : List Token} (h : Written p e ts) : ts ≠ [] := by
  induction h with
  | tighter _ ih => exact ih
  | _ => simp

/-- What binds more tightly can stand where less is asked for. -/
theorem loosen {p q : Precedence} {e : Tree} {ts : List Token} (h : Written q e ts)
    (hq : q.looseness ≤ p.looseness) :
    Written p e ts := by
  induction hn : p.looseness generalizing p with
  | zero =>
    have := p.looseness_pos
    omega
  | succ n ih =>
    by_cases hp : p = q
    · rwa [hp]
    · have hne : p.looseness ≠ q.looseness := fun heq => hp (Precedence.looseness_injective heq)
      have hsign : p ≠ .sign := by
        rintro rfl
        have hone : Precedence.sign.looseness = 1 := rfl
        have := q.looseness_pos
        omega
      have hloose := Precedence.looseness_tighter hsign
      exact .tighter (ih (by omega) (by omega))

/-- What binds tightest can stand anywhere. -/
theorem of_sign {e : Tree} {ts : List Token} (h : Written .sign e ts) (p : Precedence) :
    Written p e ts :=
  h.loosen p.looseness_pos

/-- Nothing that binds as tightly as a comparison starts with `not`. -/
theorem ne_not {p : Precedence} {e : Tree} {ts more : List Token} (h : Written p e ts)
    (hp : p.looseness ≤ Precedence.comparison.looseness) : ts ≠ .not :: more := by
  induction h generalizing more with
  | leaf v => cases v <;> simp [Value.token]
  | minus | plus | parenthesized => simp
  | complement => exact absurd hp (by decide)
  | comparison _ hleft _ ih | operation _ hleft _ ih =>
    obtain ⟨tok, rest, rfl⟩ := List.exists_cons_of_ne_nil hleft.ne_nil
    intro heq
    obtain ⟨rfl, -⟩ := List.cons.inj heq
    exact ih (by first | exact hp | decide) rfl
  | @tighter p _ _ _ ih =>
    refine ih (Nat.le_trans ?_ hp)
    cases p <;> decide

end Written

/-! ### Neighbours -/

namespace Token

/-- Whether an operand may start with a token. -/
def starts : Token → Bool
  | int _ => true
  | real _ => true
  | bool _ => true
  | arithmetic .plus => true
  | arithmetic .minus => true
  | not => true
  | leftParen => true
  | _ => false

/-- Whether an operand ends with a token. -/
def ends : Token → Bool
  | int _ => true
  | real _ => true
  | bool _ => true
  | rightParen => true
  | _ => false

/-- Whether a token goes on after an operand. -/
def goesOn : Token → Bool
  | arithmetic _ => true
  | comparison _ => true
  | and => true
  | or => true
  | rightParen => true
  | _ => false

/-- Whether one token may stand right before another in an expression. -/
def Meets (a b : Token) : Prop := if a.ends then b.goesOn = true else b.starts = true

end Token

/-- The tokens of an operand: they start it and end it, and each meets the next. -/
structure Coherent (ts : List Token) : Prop where
  chain : ts.IsChain Token.Meets
  first : ∃ tok ∈ ts.head?, tok.starts = true
  last : ∃ tok ∈ ts.getLast?, tok.ends = true

namespace Coherent

variable {ts us : List Token} {tok : Token}

theorem cons (htok : tok.ends = false) (hstarts : tok.starts = true) (h : Coherent ts) :
    Coherent (tok :: ts) where
  chain := by
    refine List.isChain_cons.2 ⟨fun b hb => ?_, h.chain⟩
    obtain ⟨b', hb', hfirst⟩ := h.first
    obtain rfl := Option.some.inj (hb.symm.trans hb')
    rwa [Token.Meets, htok, if_neg Bool.false_ne_true]
  first := ⟨tok, rfl, hstarts⟩
  last := by
    obtain ⟨b, hb, hends⟩ := h.last
    exact ⟨b, by rw [List.getLast?_cons, Option.mem_def.1 hb]; rfl, hends⟩

theorem append_cons (hleft : Coherent ts) (hgoes : tok.goesOn = true) (htok : tok.ends = false)
    (hright : Coherent us) :
    Coherent (ts ++ tok :: us) where
  chain := by
    refine List.isChain_append.2 ⟨hleft.chain, ?_, fun a ha b hb => ?_⟩
    · refine List.isChain_cons.2 ⟨fun b hb => ?_, hright.chain⟩
      obtain ⟨b', hb', hfirst⟩ := hright.first
      obtain rfl := Option.some.inj (hb.symm.trans hb')
      rwa [Token.Meets, htok, if_neg Bool.false_ne_true]
    · obtain ⟨a', ha', hlast⟩ := hleft.last
      obtain rfl := Option.some.inj (ha.symm.trans ha')
      obtain rfl := Option.some.inj hb
      rwa [Token.Meets, hlast, if_pos rfl]
  first := by
    obtain ⟨a, ha, hstarts⟩ := hleft.first
    exact ⟨a, by rw [List.head?_append, Option.mem_def.1 ha]; rfl, hstarts⟩
  last := by
    obtain ⟨b, hb, hends⟩ := hright.last
    exact ⟨b, by rw [List.getLast?_append, List.getLast?_cons, Option.mem_def.1 hb]; rfl, hends⟩

theorem parenthesized (h : Coherent ts) : Coherent (.leftParen :: (ts ++ [.rightParen])) where
  chain := by
    refine List.isChain_cons.2
      ⟨fun b hb => ?_,
        List.isChain_append.2 ⟨h.chain, List.isChain_singleton _, fun a ha b hb => ?_⟩⟩
    · obtain ⟨b', hb', hfirst⟩ := h.first
      rw [List.head?_append, Option.mem_def.1 hb'] at hb
      obtain rfl := Option.some.inj hb
      exact hfirst
    · obtain ⟨a', ha', hlast⟩ := h.last
      obtain rfl := Option.some.inj (ha.symm.trans ha')
      obtain rfl := Option.some.inj hb
      rw [Token.Meets, hlast, if_pos rfl]
      rfl
  first := ⟨_, rfl, rfl⟩
  last := ⟨.rightParen, by rw [List.getLast?_cons, List.getLast?_append]; rfl, rfl⟩

end Coherent

/-- The tokens of an expression meet one another. -/
theorem Written.coherent {p : Precedence} {e : Tree} {ts : List Token} (h : Written p e ts) :
    Coherent ts := by
  induction h with
  | leaf v =>
    exact ⟨List.isChain_singleton _, ⟨_, rfl, by cases v <;> rfl⟩, ⟨_, rfl, by cases v <;> rfl⟩⟩
  | minus _ ih | plus _ ih | complement _ ih => exact ih.cons rfl rfl
  | parenthesized _ ih => exact ih.parenthesized
  | comparison op _ _ ihLeft ihRight => exact ihLeft.append_cons rfl rfl ihRight
  | operation op _ _ ihLeft ihRight =>
    exact ihLeft.append_cons (by cases op <;> rfl) (by cases op <;> rfl) ihRight
  | tighter _ ih => exact ih

/-! ### What every operation keeps -/

namespace Value

/-- A property of values that no operation loses. -/
structure Kept (P : Value → Prop) : Prop where
  ofInt : ∀ {n u}, Value.ofInt n = .ok u → P u
  ofReal : ∀ {x u}, Value.ofReal x = .ok u → P u
  neg : ∀ {x}, P (.real x) → P (.real x.neg)
  bool : ∀ b, P (.bool b)

namespace Kept

variable {P : Value → Prop} {u v w : Value}

theorem calculate (hP : Kept P) {op : Arithmetic} (h : Value.calculate op v w = .ok u) : P u := by
  unfold Value.calculate at h
  split at h
  · cases op with
    | divide =>
      simp only [calculateInt] at h
      split at h
      · cases h
      · exact hP.ofInt h
    | _ => exact hP.ofInt h
  · obtain ⟨x, -, h⟩ := bind_eq_ok.1 h
    obtain ⟨y, -, h⟩ := bind_eq_ok.1 h
    cases op with
    | divide =>
      simp only [calculateReal] at h
      split at h
      · cases h
      · exact hP.ofReal h
    | _ => exact hP.ofReal h

theorem negate (hP : Kept P) (hv : P v) (h : v.negate = .ok u) : P u := by
  cases v with
  | int n => exact hP.ofInt h
  | real x =>
    obtain rfl := Except.ok.inj h
    exact hP.neg hv
  | bool b => cases h

theorem complement (hP : Kept P) (h : v.complement = .ok u) : P u := by
  obtain ⟨b, -, h⟩ := bind_eq_ok.1 h
  obtain rfl := Except.ok.inj h
  exact hP.bool _

theorem compare (hP : Kept P) {op : Comparison} (h : Value.compare op v w = .ok u) : P u := by
  unfold Value.compare at h
  split at h
  · split at h
    · obtain rfl := Except.ok.inj h
      exact hP.bool _
    · obtain rfl := Except.ok.inj h
      exact hP.bool _
    · cases h
  · obtain rfl := Except.ok.inj h
    exact hP.bool _
  · obtain ⟨x, -, h⟩ := bind_eq_ok.1 h
    obtain ⟨y, -, h⟩ := bind_eq_ok.1 h
    obtain rfl := Except.ok.inj h
    exact hP.bool _

theorem disjoin (hP : Kept P) (h : v.disjoin w = .ok u) : P u := by
  obtain ⟨b, -, h⟩ := bind_eq_ok.1 h
  split at h
  · obtain rfl := Except.ok.inj h
    exact hP.bool _
  · obtain ⟨b, -, h⟩ := bind_eq_ok.1 h
    obtain rfl := Except.ok.inj h
    exact hP.bool _

theorem conjoin (hP : Kept P) (h : v.conjoin w = .ok u) : P u := by
  obtain ⟨b, -, h⟩ := bind_eq_ok.1 h
  split at h
  · obtain ⟨b, -, h⟩ := bind_eq_ok.1 h
    obtain rfl := Except.ok.inj h
    exact hP.bool _
  · obtain rfl := Except.ok.inj h
    exact hP.bool _

theorem apply (hP : Kept P) {op : Operator} (h : op.apply v w = .ok u) : P u := by
  cases op with
  | or => exact hP.disjoin h
  | and => exact hP.conjoin h
  | arithmetic op => exact hP.calculate h

end Kept

end Value

/-- The values that a tree is made of. -/
def Tree.leaves : Tree → List Value
  | leaf v => [v]
  | minus e => e.leaves
  | plus e => e.leaves
  | complement e => e.leaves
  | comparison _ left right => left.leaves ++ right.leaves
  | operation _ left right => left.leaves ++ right.leaves

/-- What every operation keeps holds of a tree's value once it holds of the leaves. -/
theorem Tree.kept {P : Value → Prop} (hP : Value.Kept P) {e : Tree} (hleaves : ∀ v ∈ e.leaves, P v)
    {v : Value} (h : e.value = .ok v) : P v := by
  induction e generalizing v with
  | leaf u =>
    obtain rfl := Except.ok.inj h
    exact hleaves u List.mem_cons_self
  | plus e ih => exact ih hleaves h
  | minus e ih =>
    obtain ⟨u, hu, h⟩ := bind_eq_ok.1 h
    exact hP.negate (ih hleaves hu) h
  | complement e ih =>
    obtain ⟨u, hu, h⟩ := bind_eq_ok.1 h
    exact hP.complement h
  | comparison op left right =>
    obtain ⟨u, -, h⟩ := bind_eq_ok.1 h
    obtain ⟨w, -, h⟩ := bind_eq_ok.1 h
    exact hP.compare h
  | operation op left right =>
    obtain ⟨u, -, h⟩ := bind_eq_ok.1 h
    obtain ⟨w, -, h⟩ := bind_eq_ok.1 h
    exact hP.apply h

/-- What is written names the leaves. -/
theorem Written.token_mem {p : Precedence} {e : Tree} {ts : List Token} (h : Written p e ts) :
    ∀ v ∈ e.leaves, v.token ∈ ts := by
  induction h with
  | leaf u => simp [Tree.leaves]
  | minus _ ih | plus _ ih | complement _ ih => exact fun v hv => List.mem_cons_of_mem _ (ih v hv)
  | parenthesized _ ih =>
    exact fun v hv => List.mem_cons_of_mem _ (List.mem_append_left _ (ih v hv))
  | comparison _ _ _ ihLeft ihRight | operation _ _ _ ihLeft ihRight =>
    intro v hv
    rcases List.mem_append.1 hv with hv | hv
    · exact List.mem_append_left _ (ihLeft v hv)
    · exact List.mem_append_right _ (List.mem_cons_of_mem _ (ihRight v hv))
  | tighter _ ih => exact ih

theorem Value.token_injective {v w : Value} (h : v.token = w.token) : v = w := by
  cases v <;> cases w <;> simp_all [Value.token]

/-- The values among the tokens are the leaves. -/
theorem Written.mem_leaves {p : Precedence} {e : Tree} {ts : List Token} (h : Written p e ts)
    {v : Value} (hv : v.token ∈ ts) : v ∈ e.leaves := by
  have hne {tok : Token} {more : List Token} (htok : ∀ w : Value, w.token ≠ tok)
      (h : v.token ∈ tok :: more) : v.token ∈ more :=
    (List.mem_cons.1 h).resolve_left (htok v)
  induction h with
  | leaf u =>
    rw [List.mem_singleton] at hv
    simp [Tree.leaves, Value.token_injective hv]
  | minus _ ih | plus _ ih | complement _ ih =>
    exact ih (hne (fun w => by cases w <;> simp [Value.token]) hv)
  | parenthesized _ ih =>
    rcases List.mem_append.1 (hne (fun w => by cases w <;> simp [Value.token]) hv) with hv | hv
    · exact ih hv
    · exact nomatch hne (fun w => by cases w <;> simp [Value.token]) hv
  | comparison op _ _ ihLeft ihRight =>
    rcases List.mem_append.1 hv with hv | hv
    · exact List.mem_append_left _ (ihLeft hv)
    · exact List.mem_append_right _ (ihRight (hne (fun w => by cases w <;> simp [Value.token]) hv))
  | operation op _ _ ihLeft ihRight =>
    rcases List.mem_append.1 hv with hv | hv
    · exact List.mem_append_left _ (ihLeft hv)
    · exact List.mem_append_right _
        (ihRight (hne (fun w => by cases w <;> cases op <;> simp [Value.token, Operator.token]) hv))
  | tighter _ ih => exact ih hv

/-! ### Reading, level by level -/

/-- An evaluation goes on with what it has read. -/
theorem settled_bind (rest : List Token) (x : Except ValueFault Value)
    (f : Value → Except ValueFault Value) :
    settled rest (x >>= f) = settled rest x >>= fun r => settled r.2 (f r.1) := by
  cases x <;> rfl

theorem settled_eq_ok {rest rest' : List Token} {x : Except ValueFault Value} {v : Value} :
    settled rest x = .ok (v, rest') ↔ x = .ok v ∧ rest = rest' := by
  cases x <;> simp [settled]

/-- Two computations agree when they go on alike from every result. -/
theorem bind_congr_ok {α β ε : Type} {x : Except ε α} {f g : α → Except ε β}
    (h : ∀ a, x = .ok a → f a = g a) :
    x >>= f = x >>= g := by
  cases x with
  | error => rfl
  | ok a => exact h a rfl

section Equations

variable (depth : Nat) (op : Operator) (v : Value) (ts : List Token)

theorem evalAt_operator : evalAt (depth + 1) op.level ts =
    evalAt depth op.level.tighter ts >>= fun r => evalOn depth op.level r.1 r.2 := by
  rcases op with _ | _ | _ | _ | _ | _ <;> (simp only [Operator.level]; rw [evalAt]; rfl)

theorem evalOn_operator : evalOn (depth + 1) op.level v (op.token :: ts) =
    evalAt depth op.level.tighter ts >>= fun r => settled r.2 (op.apply v r.1) >>= fun s =>
      evalOn depth op.level s.1 s.2 := by
  rcases op with _ | _ | _ | _ | _ | _ <;>
    (simp only [Operator.level, Operator.token]; rw [evalOn]; rfl)

/-- An expression ends where no operator of its level follows. -/
theorem evalOn_stop {p : Precedence}
    (h : ∀ op : Operator, op.level = p → ts.head? ≠ some op.token) :
    evalOn depth p v ts = .ok (v, ts) := by
  unfold evalOn
  split
  · exact absurd rfl (h .or rfl)
  · exact absurd rfl (h .and rfl)
  · exact absurd rfl (h (.arithmetic .plus) rfl)
  · exact absurd rfl (h (.arithmetic .minus) rfl)
  · exact absurd rfl (h (.arithmetic .times) rfl)
  · exact absurd rfl (h (.arithmetic .divide) rfl)
  · rfl

theorem evalOn_cases (p : Precedence) :
    (∃ op : Operator, ∃ more, p = op.level ∧ ts = op.token :: more) ∨
    ∀ depth, evalOn depth p v ts = .ok (v, ts) := by
  by_cases h : ∃ op : Operator, op.level = p ∧ ts.head? = some op.token
  · obtain ⟨op, hp, hhead⟩ := h
    obtain ⟨more, rfl⟩ := List.head?_eq_some_iff.1 hhead
    exact .inl ⟨op, more, hp.symm, rfl⟩
  · exact .inr fun depth => evalOn_stop depth v ts fun op hop hhead => h ⟨op, hop, hhead⟩

end Equations

/-! ### What has a value is an expression -/

/-- The start of `ts`, up to `rest`, writes a tree of value `v` when `before` stands in front of
it. -/
def Reads (p : Precedence) (before ts : List Token) (v : Value) (rest : List Token) : Prop :=
  ∃ e us, ts = us ++ rest ∧ Written p e (before ++ us) ∧ e.value = .ok v

section Reads

variable {p : Precedence} {ts rest : List Token} {v : Value}

theorem Reads.tighter (h : Reads p.tighter [] ts v rest) : Reads p [] ts v rest := by
  obtain ⟨e, us, hts, he, hv⟩ := h
  exact ⟨e, us, hts, .tighter he, hv⟩

theorem Reads.length_lt (h : Reads p [] ts v rest) : rest.length < ts.length := by
  obtain ⟨e, us, rfl, he, -⟩ := h
  have := List.length_pos_iff.2 he.ne_nil
  simpa using this

/-- One token, and what it makes of the expression after it. -/
theorem Reads.token {p q : Precedence} {tok : Token} {u : Value}
    {f : Value → Except ValueFault Value} {tree : Tree → Tree}
    (hwritten : ∀ {e us}, Written q e us → Written p (tree e) (tok :: us))
    (hvalue : ∀ e, (tree e).value = e.value >>= f) (h : Reads q [] ts v rest) (hf : f v = .ok u) :
    Reads p [] (tok :: ts) u rest := by
  obtain ⟨e, us, rfl, he, hv⟩ := h
  refine ⟨tree e, tok :: us, rfl, hwritten he, ?_⟩
  rw [hvalue, hv]
  exact hf

theorem Reads.of_stop {u : Value} {e : Tree} {before : List Token}
    (hon : Except.ok (v, ts) = (.ok (u, rest) : Evaluation))
    (he : Written p e before) (hv : e.value = .ok v) : Reads p before ts u rest := by
  obtain ⟨rfl, rfl⟩ := Prod.mk.inj (Except.ok.inj hon)
  exact ⟨e, [], rfl, by rwa [List.append_nil], hv⟩

end Reads

section Levels

variable {depth : Nat} {ts rest : List Token} {u : Value}
  (hat : ∀ p ts v rest, evalAt depth p ts = .ok (v, rest) → Reads p [] ts v rest)

include hat

theorem reads_negation (h : evalAt (depth + 1) .negation ts = .ok (u, rest)) :
    Reads .negation [] ts u rest := by
  unfold evalAt at h
  split at h
  · obtain ⟨⟨v, more⟩, hfirst, h⟩ := bind_eq_ok.1 h
    obtain ⟨hu, rfl⟩ := settled_eq_ok.1 h
    exact (hat _ _ _ _ hfirst).token .complement (fun _ => rfl) hu
  · exact Reads.tighter (p := .negation) (hat _ _ _ _ h)

theorem reads_comparison (h : evalAt (depth + 1) .comparison ts = .ok (u, rest)) :
    Reads .comparison [] ts u rest := by
  rw [evalAt] at h
  obtain ⟨⟨v, more⟩, hfirst, hmore⟩ := bind_eq_ok.1 h
  have hreads := hat _ _ _ _ hfirst
  dsimp only at hmore
  split at hmore
  · rename_i op more'
    obtain ⟨⟨w, more''⟩, hsecond, hend⟩ := bind_eq_ok.1 hmore
    obtain ⟨hu, rfl⟩ := settled_eq_ok.1 hend
    obtain ⟨left, us, rfl, hleft, hv⟩ := hreads
    obtain ⟨right, us', rfl, hright, hw⟩ := hat _ _ _ _ hsecond
    refine ⟨.comparison op left right, us ++ .comparison op :: us', by simp,
      .comparison op hleft hright, ?_⟩
    rw [Tree.value, hv, hw]
    exact hu
  · obtain ⟨rfl, rfl⟩ := Prod.mk.inj (Except.ok.inj hmore)
    exact Reads.tighter (p := .comparison) hreads

theorem reads_sign (h : evalAt (depth + 1) .sign ts = .ok (u, rest)) :
    Reads .sign [] ts u rest := by
  unfold evalAt at h
  split at h
  · obtain ⟨⟨v, more⟩, hfirst, h⟩ := bind_eq_ok.1 h
    obtain ⟨hu, rfl⟩ := settled_eq_ok.1 h
    exact (hat _ _ _ _ hfirst).token .minus (fun _ => rfl) hu
  · obtain ⟨e, us, rfl, he, hv⟩ := hat _ _ _ _ h
    exact ⟨.plus e, .arithmetic .plus :: us, rfl, .plus he, hv⟩
  -- a number or a truth value
  iterate 3
    · obtain ⟨rfl, rfl⟩ := Prod.mk.inj (Except.ok.inj h)
      exact ⟨.leaf _, [Value.token _], rfl, .leaf _, rfl⟩
  · obtain ⟨⟨v, more⟩, hfirst, hmore⟩ := bind_eq_ok.1 h
    have hreads := hat _ _ _ _ hfirst
    dsimp only at hmore
    split at hmore
    · obtain ⟨rfl, rfl⟩ := Prod.mk.inj (Except.ok.inj hmore)
      obtain ⟨e, us, rfl, he, hv⟩ := hreads
      exact ⟨e,
        .leftParen :: (us ++ [.rightParen]), by simp, by simpa using Written.parenthesized he, hv⟩
    · cases hmore
  · cases h

end Levels

/-- The induction is on the depth: every level asks for shallower ones only. -/
theorem reads_of_eval (depth : Nat) :
    (∀ p ts v rest, evalAt depth p ts = .ok (v, rest) → Reads p [] ts v rest) ∧
      ∀ p v ts u rest, evalOn depth p v ts = .ok (u, rest) →
        ∀ e before, Written p e before → e.value = .ok v → Reads p before ts u rest := by
  induction depth with
  | zero =>
    constructor
    · intro p ts v rest h
      rw [evalAt] at h
      cases h
    · intro p v ts u rest h e before he hv
      unfold evalOn at h
      exact .of_stop h he hv
  | succ depth ih =>
    obtain ⟨ihAt, ihOn⟩ := ih
    constructor
    · intro p ts u rest h
      rcases p.operator_cases with ⟨op, rfl⟩ | rfl | rfl | rfl
      · rw [evalAt_operator] at h
        obtain ⟨⟨v, more⟩, hfirst, hmore⟩ := bind_eq_ok.1 h
        obtain ⟨e, us, rfl, he, hv⟩ := ihAt _ _ _ _ hfirst
        obtain ⟨e', us', rfl, he', hu⟩ := ihOn _ _ _ _ _ hmore e us (.tighter he) hv
        exact ⟨e', us ++ us', (List.append_assoc ..).symm, he', hu⟩
      · exact reads_negation ihAt h
      · exact reads_comparison ihAt h
      · exact reads_sign ihAt h
    · intro p v ts u rest h e before he hv
      rcases evalOn_cases v ts p with ⟨op, more, rfl, rfl⟩ | hend
      · rw [evalOn_operator] at h
        obtain ⟨⟨w, more'⟩, hnext, hmore⟩ := bind_eq_ok.1 h
        obtain ⟨⟨w', more''⟩, hjoin, hend⟩ := bind_eq_ok.1 hmore
        obtain ⟨hw', rfl⟩ := settled_eq_ok.1 hjoin
        obtain ⟨e', us, rfl, he', hw⟩ := ihAt _ _ _ _ hnext
        have hvalue : (Tree.operation op e e').value = .ok w' := by
          rw [Tree.value, hv, hw]
          exact hw'
        obtain ⟨e'', us', rfl, he'', hu⟩ := ihOn _ _ _ _ _ hend _ _ (.operation op he he') hvalue
        exact ⟨e'', op.token :: us ++ us', by simp, by simpa using he'', hu⟩
      · rw [hend] at h
        exact .of_stop h he hv

/-- What has a value writes a tree of that value. -/
theorem written_of_evalTokens {ts : List Token} {v : Value} (h : evalTokens ts = .ok v) :
    ∃ e, Written .disjunction e ts ∧ e.value = .ok v := by
  obtain ⟨⟨u, rest⟩, hread, hend⟩ := bind_eq_ok.1 h
  simp only at hend
  split at hend
  · rename_i hrest
    obtain ⟨e, us, hts, he, hu⟩ := (reads_of_eval _).1 _ _ _ _ hread
    rw [hrest, List.append_nil] at hts
    rw [hts, ← Except.ok.inj hend]
    exact ⟨e, he, hu⟩
  · cases hend

theorem exists_readInt {base : Nat} {digits : Text} {v : Value}
    (h : (readInt base digits).map Token.int = .ok v.token) :
    ∃ n : Nat, v = .int (wrapInt n) := by
  unfold readInt at h
  split at h
  · cases h
  · split at h
    · cases h
    · cases v with
      | int n =>
        obtain rfl := Token.int.inj (Except.ok.inj h)
        exact ⟨_, rfl⟩
      | real | bool => cases h

/-- The values that pieces are. -/
theorem Piece.token_eq_value {ls : Literals} {p : Piece} {v : Value}
    (h : p.token ls = .ok v.token) :
    (∃ n : Nat, v = .int (wrapInt n)) ∨
      (∃ digits places, p = .fraction digits places ∧ v = .real (.ofDigits digits places)) ∨
      ∃ b, v = .bool b := by
  cases p with
  | placeholder t =>
    simp only [Piece.token] at h
    split at h
    · cases v with
      | int n =>
        obtain rfl := Token.int.inj (Except.ok.inj h)
        exact .inl ⟨_, rfl⟩
      | real | bool => cases h
    · cases h
  | hexadecimal digits => exact .inl (exists_readInt h)
  | whole digits => exact .inl (exists_readInt h)
  | fraction digits places =>
    cases v with
    | real x =>
      obtain rfl := Token.real.inj (Except.ok.inj h)
      exact .inr (.inl ⟨_, _, rfl, rfl⟩)
    | int | bool => cases h
  | word w =>
    cases v with
    | bool b => exact .inr (.inr ⟨b, rfl⟩)
    | int | real =>
      simp only [Piece.token, wordToken] at h
      repeat' split at h
      all_goals cases h
  | unknown c => cases h
  | _ => cases v <;> cases h

/-- What every operation keeps holds of all that has a value once it holds of what is read: of the
reals in the text, and of every integer. -/
theorem kept_of_pieces {P : Value → Prop} (hP : Value.Kept P) {ls : Literals} {t : Text} {v : Value}
    (hint : ∀ n : Nat, P (.int (wrapInt n)))
    (hreal : ∀ digits places, .fraction digits places ∈ piecesOf t →
      P (.real (.ofDigits digits places)))
    (h : eval ls t = .ok v) : P v := by
  obtain ⟨ts, hts, h⟩ := bind_eq_ok.1 h
  obtain ⟨e, he, hv⟩ := written_of_evalTokens h
  refine Tree.kept hP (fun u hu => ?_) hv
  obtain ⟨p, hmem, hp⟩ := exists_of_mem_right (mapM_eq_ok.1 hts) (he.token_mem u hu)
  rcases p.token_eq_value hp with ⟨n, rfl⟩ | ⟨digits, places, rfl, rfl⟩ | ⟨b, rfl⟩
  · exact hint n
  · exact hreal digits places hmem
  · exact hP.bool b

/-- The same where the text does not matter. -/
theorem kept_of_eval {P : Value → Prop} (hP : Value.Kept P) {ls : Literals} {t : Text} {v : Value}
    (hint : ∀ n : Nat, P (.int (wrapInt n)))
    (hreal : ∀ digits places, P (.real (.ofDigits digits places))) (h : eval ls t = .ok v) : P v :=
  kept_of_pieces hP hint (fun digits places _ => hreal digits places) h

end ScriptMinifier.Constant
