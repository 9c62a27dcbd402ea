import ScriptMinifier.Proofs.Constant.Grammar

/-! Reading what writes an expression.

The bound on the depth of a descent is never met (`evaluations_eq`), so readings are taken here at
the depth that always suffices, and go down level by level as the grammar does. What writes a tree
reads as the tree, whatever may follow (`Written.read_eq`), so its value is the tree's value or its
fault (`Written.evalTokens_eq`). -/
namespace ScriptMinifier.Constant

/-! ### The depth of a descent -/

/-- What is read is shorter than what it was read from. -/
theorem length_lt_of_evalAt {depth : Nat} {p : Precedence} {ts rest : List Token} {v : Value}
    (h : evalAt depth p ts = .ok (v, rest)) : rest.length < ts.length :=
  ((reads_of_eval depth).1 p ts v rest h).length_lt

/-- A depth that suffices to read tokens at a level. -/
def depthAt (p : Precedence) (ts : List Token) : Nat := 8 * ts.length + p.looseness

section DepthAt

variable {p q : Precedence} {ts us : List Token}

theorem depthAt_pos (p : Precedence) (ts : List Token) : 0 < depthAt p ts :=
  Nat.lt_of_lt_of_le p.looseness_pos (Nat.le_add_left _ _)

theorem depthAt_lt_of_looseness (h : q.looseness < p.looseness) : depthAt q ts < depthAt p ts :=
  Nat.add_lt_add_left h _

/-- With fewer tokens, the level does not matter. -/
theorem depthAt_lt_of_length_lt (h : us.length < ts.length) : depthAt q us < 8 * ts.length := by
  have := q.looseness_le
  rw [depthAt]
  omega

theorem depthAt_lt (h : us.length < ts.length) : depthAt q us < depthAt p ts :=
  Nat.lt_of_lt_of_le (depthAt_lt_of_length_lt h) (Nat.le_add_right _ _)

theorem depthAt_lt_cons (tok : Token) : depthAt q ts < depthAt p (tok :: ts) :=
  depthAt_lt (Nat.lt_succ_self _)

end DepthAt

/-- Depths that suffice give the same. -/
theorem evaluations_eq (depth : Nat) :
    (∀ depth' p ts, depthAt p ts ≤ depth → depthAt p ts ≤ depth' →
      evalAt depth p ts = evalAt depth' p ts) ∧
      ∀ depth' p v ts, 8 * ts.length ≤ depth → 8 * ts.length ≤ depth' →
        evalOn depth p v ts = evalOn depth' p v ts := by
  induction depth with
  | zero =>
    constructor
    · intro depth' p ts h
      have := depthAt_pos p ts
      omega
    · intro depth' p v ts h
      obtain rfl : ts = [] := List.eq_nil_of_length_eq_zero (by omega)
      rcases evalOn_cases v [] p with ⟨op, more, -, hts⟩ | hend
      · cases hts
      · intro
        rw [hend, hend]
  | succ depth ih =>
    obtain ⟨ihAt, ihOn⟩ := ih
    constructor
    · intro depth' p ts h h'
      obtain ⟨depth', rfl⟩ : ∃ n, depth' = n + 1 := ⟨depth' - 1, by have := depthAt_pos p ts; omega⟩
      -- what is read on the way needs less
      have hat {q : Precedence} {us : List Token} (hlt : depthAt q us < depthAt p ts) :
          evalAt depth q us = evalAt depth' q us :=
        ihAt depth' q us (by omega) (by omega)
      rcases p.operator_cases with ⟨op, rfl⟩ | rfl | rfl | rfl
      · have hloose := Precedence.looseness_tighter op.level_ne_sign
        rw [evalAt_operator, evalAt_operator, hat (depthAt_lt_of_looseness (by omega))]
        refine bind_congr_ok ?_
        rintro ⟨v, rest⟩ hread
        have hlength := length_lt_of_evalAt hread
        have hlt : 8 * rest.length < depthAt op.level ts := by
          rw [depthAt]
          omega
        exact ihOn depth' _ v rest (by omega) (by omega)
      · unfold evalAt
        split
        · rw [hat (depthAt_lt_cons _)]
        · exact hat (depthAt_lt_of_looseness (by decide))
      · rw [evalAt, evalAt, hat (depthAt_lt_of_looseness (by decide))]
        refine bind_congr_ok ?_
        rintro ⟨v, rest⟩ hread
        have hlength := length_lt_of_evalAt hread
        dsimp only
        split
        · rw [hat (depthAt_lt ((Nat.lt_succ_self _).trans hlength))]
        · rfl
      · unfold evalAt
        split
        · rw [hat (depthAt_lt_cons _)]
        · exact hat (depthAt_lt_cons _)
        iterate 3 rfl
        · rw [hat (depthAt_lt_cons _)]
        · rfl
    · intro depth' p v ts h h'
      rcases evalOn_cases v ts p with ⟨op, more, rfl, rfl⟩ | hend
      · have hlt : depthAt op.level.tighter more < 8 * (op.token :: more).length :=
          depthAt_lt_of_length_lt (Nat.lt_succ_self _)
        obtain ⟨depth', rfl⟩ : ∃ n, depth' = n + 1 := ⟨depth' - 1, by omega⟩
        rw [evalOn_operator, evalOn_operator, ihAt depth' _ more (by omega) (by omega)]
        refine bind_congr_ok ?_
        rintro ⟨w, rest⟩ hread
        refine bind_congr_ok ?_
        rintro ⟨u, rest'⟩ hjoin
        have hlength := length_lt_of_evalAt hread
        obtain ⟨-, rfl⟩ := settled_eq_ok.1 hjoin
        rw [List.length_cons] at h h'
        exact ihOn depth' _ u rest (by omega) (by omega)
      · rw [hend, hend]

/-- What an expression of a level reads from the start of some tokens. -/
def read (p : Precedence) (ts : List Token) : Evaluation := evalAt (depthFor ts) p ts

/-- What an expression of a level reads after its first operand. -/
def readOn (p : Precedence) (v : Value) (ts : List Token) : Evaluation :=
  evalOn (depthFor ts) p v ts

theorem evalAt_eq_read {depth : Nat} {p : Precedence} {ts : List Token}
    (h : 8 * ts.length + 7 ≤ depth) :
    evalAt depth p ts = read p ts := by
  have hle : depthAt p ts ≤ 8 * ts.length + 7 := Nat.add_le_add_left p.looseness_le _
  exact (evaluations_eq depth).1 _ p ts (Nat.le_trans hle h) (by rw [depthFor]; omega)

theorem evalOn_eq_readOn {depth : Nat} {p : Precedence} {v : Value} {ts : List Token}
    (h : 8 * ts.length ≤ depth) :
    evalOn depth p v ts = readOn p v ts :=
  (evaluations_eq depth).2 _ p v ts h (by rw [depthFor]; omega)

/-- What follows a sum: a comparison, or nothing of the same expression. -/
def compareOn (v : Value) : List Token → Evaluation
  | .comparison op :: ts => read .sum ts >>= fun r => settled r.2 (Value.compare op v r.1)
  | ts => .ok (v, ts)

/-- What follows the expression in parentheses: the closing one. -/
def closeParen (v : Value) : List Token → Evaluation
  | .rightParen :: ts => .ok (v, ts)
  | ts => .error (.unexpected ts.head?)

section Read

variable (op : Operator) (v : Value) (ts : List Token)

theorem read_operator :
    read op.level ts = read op.level.tighter ts >>= fun r => readOn op.level r.1 r.2 := by
  rw [read, depthFor, Nat.mul_add, evalAt_operator, evalAt_eq_read (by omega)]
  refine bind_congr_ok fun r hread => ?_
  obtain ⟨v, rest⟩ := r
  have hlength := length_lt_of_evalAt hread
  exact evalOn_eq_readOn (by dsimp only; omega)

theorem readOn_operator : readOn op.level v (op.token :: ts) =
    read op.level.tighter ts >>= fun r => settled r.2 (op.apply v r.1) >>=
      fun s => readOn op.level s.1 s.2 := by
  rw [readOn, depthFor, Nat.mul_add, List.length_cons, evalOn_operator, evalAt_eq_read (by omega)]
  refine bind_congr_ok fun ⟨w, rest⟩ hread => bind_congr_ok fun ⟨u, rest'⟩ hjoin => ?_
  have hlength := length_lt_of_evalAt hread
  obtain ⟨-, rfl⟩ := settled_eq_ok.1 hjoin
  exact evalOn_eq_readOn (by dsimp only; omega)

theorem read_not :
    read .negation (.not :: ts) = read .negation ts >>= fun r => settled r.2 r.1.complement := by
  rw [read, depthFor, Nat.mul_add, List.length_cons, evalAt,
    evalAt_eq_read (by omega)]

theorem read_negation (h : ∀ more, ts ≠ .not :: more) :
    read .negation ts = read .comparison ts := by
  rw [read, depthFor, Nat.mul_add]
  unfold evalAt
  split
  · exact absurd rfl (h _)
  · exact evalAt_eq_read (by omega)

theorem read_comparison : read .comparison ts = read .sum ts >>= fun r => compareOn r.1 r.2 := by
  rw [read, depthFor, Nat.mul_add, evalAt, evalAt_eq_read (by omega)]
  refine bind_congr_ok fun r hread => ?_
  obtain ⟨v, rest⟩ := r
  have hlength := length_lt_of_evalAt hread
  rcases rest with _ | ⟨tok, more⟩
  · rfl
  · rw [List.length_cons] at hlength
    cases tok with
    | comparison op =>
      dsimp only [compareOn]
      rw [evalAt_eq_read (by omega)]
    | _ => rfl

theorem read_minus :
    read .sign (.arithmetic .minus :: ts) = read .sign ts >>= fun r => settled r.2 r.1.negate := by
  rw [read, depthFor, Nat.mul_add, List.length_cons, evalAt,
    evalAt_eq_read (by omega)]

theorem read_plus : read .sign (.arithmetic .plus :: ts) = read .sign ts := by
  rw [read, depthFor, Nat.mul_add, List.length_cons, evalAt]
  exact evalAt_eq_read (by omega)

theorem read_token : read .sign (v.token :: ts) = .ok (v, ts) := by
  rw [read, depthFor, Nat.mul_add, List.length_cons]
  cases v <;> (rw [Value.token, evalAt])

theorem read_leftParen :
    read .sign (.leftParen :: ts) = read .disjunction ts >>= fun r => closeParen r.1 r.2 := by
  rw [read, depthFor, Nat.mul_add, List.length_cons, evalAt,
    evalAt_eq_read (by omega)]
  rfl

end Read

/-! ### What writes a tree reads as the tree -/

/-- Nothing that follows binds tighter than a level, nor is it a second comparison. -/
structure Stops (p : Precedence) (rest : List Token) : Prop where
  operators : ∀ op : Operator, rest.head? = some op.token → p.looseness ≤ op.level.looseness
  comparisons : ∀ op, rest.head? = some (.comparison op) →
    p.looseness < Precedence.comparison.looseness

section Stops

variable {p q : Precedence} {rest : List Token} {tok : Token}

theorem Stops.mono (h : Stops p rest) (hq : q.looseness ≤ p.looseness) : Stops q rest where
  operators op hop := Nat.le_trans hq (h.operators op hop)
  comparisons op hop := Nat.lt_of_le_of_lt hq (h.comparisons op hop)

theorem stops_nil (p : Precedence) : Stops p [] where
  operators _ h := nomatch h
  comparisons _ h := nomatch h

theorem stops_rightParen (p : Precedence) (ts : List Token) : Stops p (.rightParen :: ts) where
  operators op h := by cases op <;> cases h
  comparisons _ h := by cases h

theorem stops_comparison (op : Comparison) (ts : List Token) :
    Stops .sum (.comparison op :: ts) where
  operators op' h := by cases op' <;> cases h
  comparisons _ _ := by decide

theorem stops_operator (op : Operator) (ts : List Token) : Stops op.level (op.token :: ts) where
  operators op' h := by
    obtain rfl : op = op' := by
      cases op <;> cases op' <;> cases h <;> rfl
    exact Nat.le_refl _
  comparisons op' h := by cases op <;> cases h

/-- A level whose operators do not follow ends. -/
theorem readOn_stop (h : ∀ op : Operator, op.level = p → rest.head? ≠ some op.token) (v : Value) :
    readOn p v rest = .ok (v, rest) :=
  evalOn_stop _ v rest h

theorem Stops.readOn_eq (h : Stops p rest) (hq : q.looseness < p.looseness) (v : Value) :
    readOn q v rest = .ok (v, rest) := by
  refine readOn_stop (fun op hop hhead => ?_) v
  have := h.operators op hhead
  rw [hop] at this
  omega

theorem Stops.compareOn_eq (h : Stops .comparison rest) (v : Value) :
    compareOn v rest = .ok (v, rest) := by
  unfold compareOn
  split
  · exact absurd (h.comparisons _ rfl) (Nat.lt_irrefl _)
  · rfl

/-- What ends at once adds nothing. -/
theorem settled_bind_readOn (h : ∀ v, readOn q v rest = .ok (v, rest))
    (x : Except ValueFault Value) :
    (settled rest x >>= fun r => readOn q r.1 r.2) = settled rest x := by
  cases x with
  | error => rfl
  | ok v => exact h v

end Stops

/-- The levels without operators of their own. -/
theorem readOn_of_no_operator {p : Precedence} (h : p = .negation ∨ p = .comparison ∨ p = .sign)
    (v : Value) (rest : List Token) : readOn p v rest = .ok (v, rest) := by
  refine readOn_stop (fun op hop => ?_) v
  rcases op with _ | _ | _ | _ | _ | _ <;> rcases h with rfl | rfl | rfl <;> cases hop

/-- What writes a tree reads as the tree's value, and what follows may go on from there. -/
theorem Written.read_eq {p : Precedence} {e : Tree} {ts : List Token} (h : Written p e ts)
    {rest : List Token} (hrest : Stops p rest) :
    read p (ts ++ rest) = settled rest e.value >>= fun r => readOn p r.1 r.2 := by
  have hend {p : Precedence} (hp : p = .negation ∨ p = .comparison ∨ p = .sign) (rest : List Token)
      (x : Except ValueFault Value) : (settled rest x >>= fun r => readOn p r.1 r.2) =
        settled rest x :=
    settled_bind_readOn (fun v => readOn_of_no_operator hp v rest) x
  induction h generalizing rest with
  | leaf v =>
    rw [List.singleton_append, read_token, hend (by decide)]
    rfl
  | minus _ ih =>
    rw [List.cons_append, read_minus, ih hrest, hend (by decide), hend (by decide), Tree.value,
      settled_bind]
  | plus _ ih =>
    rw [List.cons_append, read_plus, ih hrest]
    rfl
  | @parenthesized e _ _ ih =>
    have hclose (v : Value) :
        readOn .disjunction v (.rightParen :: rest) = .ok (v, .rightParen :: rest) :=
      readOn_stop (fun op _ h => by cases op <;> cases h) v
    rw [List.cons_append, List.append_assoc, List.singleton_append, read_leftParen,
      ih (stops_rightParen _ _), settled_bind_readOn hclose, hend (by decide)]
    cases e.value <;> rfl
  | complement _ ih =>
    rw [List.cons_append, read_not, ih hrest, hend (by decide), hend (by decide), Tree.value,
      settled_bind]
  | @comparison op left right _ us _ _ ihLeft ihRight =>
    have hop (v : Value) :
        readOn .sum v (.comparison op :: (us ++ rest)) = .ok (v, .comparison op :: (us ++ rest)) :=
      readOn_stop (fun op' _ h => by cases op' <;> cases h) v
    rw [List.append_assoc, List.cons_append, read_comparison, ihLeft (stops_comparison op _),
      settled_bind_readOn hop, hend (by decide), Tree.value]
    cases left.value with
    | error => rfl
    | ok v =>
      show (read .sum (us ++ rest) >>= fun r => settled r.2 (Value.compare op v r.1)) = _
      rw [ihRight (hrest.mono (by decide)), settled_bind_readOn (hrest.readOn_eq (by decide))]
      exact (settled_bind rest right.value (Value.compare op v)).symm
  | @operation op left right _ us _ _ ihLeft ihRight =>
    have hloose := Precedence.looseness_tighter op.level_ne_sign
    rw [List.append_assoc, List.cons_append, ihLeft (stops_operator op _), Tree.value]
    cases left.value with
    | error => rfl
    | ok v =>
      show readOn op.level v (op.token :: (us ++ rest)) = _
      rw [readOn_operator, ihRight (hrest.mono (by omega)),
        settled_bind_readOn (hrest.readOn_eq (by omega))]
      cases right.value <;> rfl
  | @tighter p e ts hwritten ih =>
    rcases p.operator_cases with ⟨op, rfl⟩ | rfl | rfl | rfl
    · have hloose := Precedence.looseness_tighter op.level_ne_sign
      rw [read_operator, ih (hrest.mono (by omega)),
        settled_bind_readOn (hrest.readOn_eq (by omega))]
    · dsimp only [Precedence.tighter] at ih
      rw [read_negation, ih (hrest.mono (by decide)), hend (by decide), hend (by decide)]
      obtain ⟨tok, more, rfl⟩ := List.exists_cons_of_ne_nil hwritten.ne_nil
      intro more' heq
      obtain ⟨rfl, -⟩ := List.cons.inj heq
      exact hwritten.ne_not (Nat.le_refl _) rfl
    · dsimp only [Precedence.tighter] at ih
      rw [read_comparison, ih (hrest.mono (by decide)),
        settled_bind_readOn (hrest.readOn_eq (by decide)), hend (by decide)]
      cases e.value with
      | error => rfl
      | ok v => exact hrest.compareOn_eq v
    · exact ih hrest

/-- Reading what writes a tree gives the tree's value, or its fault. -/
theorem Written.evalTokens_eq {e : Tree} {ts : List Token} (h : Written .disjunction e ts) :
    evalTokens ts = e.value.mapError .operation := by
  have hread : read .disjunction ts = settled [] e.value := by
    have := h.read_eq (stops_nil _)
    rwa [List.append_nil, settled_bind_readOn (readOn_stop fun _ _ h => by cases h)] at this
  rw [read] at hread
  rw [evalTokens, hread]
  cases e.value <;> rfl

end ScriptMinifier.Constant
