import ScriptMinifier.Proofs.Constant.Pieces
import ScriptMinifier.Proofs.Constant.Descent

/-! A value in the place of its expression.

An operand in parentheses is one tree within another (`Written.exists_context`), and a value binds
as tightly as parentheses do, a sign before it or not. So its text can stand in their place without
any (`eval_value_in_place`), unless it is the least integer: the digits after its minus sign are
read first, as the integer itself, and there is none with the other sign. -/
namespace ScriptMinifier.Constant

open Text (mark isWordChar)

/-! ### Trees with a place in them -/

/-- A tree with a place for another. -/
inductive Context
  | here
  | minus (C : Context)
  | plus (C : Context)
  | complement (C : Context)
  | comparisonLeft (op : Comparison) (C : Context) (right : Tree)
  | comparisonRight (op : Comparison) (left : Tree) (C : Context)
  | operationLeft (op : Operator) (C : Context) (right : Tree)
  | operationRight (op : Operator) (left : Tree) (C : Context)

namespace Context

/-- The tree with another in its place. -/
def fill : Context → Tree → Tree
  | here, e => e
  | minus C, e => .minus (C.fill e)
  | plus C, e => .plus (C.fill e)
  | complement C, e => .complement (C.fill e)
  | comparisonLeft op C right, e => .comparison op (C.fill e) right
  | comparisonRight op left C, e => .comparison op left (C.fill e)
  | operationLeft op C right, e => .operation op (C.fill e) right
  | operationRight op left C, e => .operation op left (C.fill e)

variable {e e' : Tree} {v : Value}

/-- Only the value of what stands in the place matters. -/
theorem value_fill_congr (h : e.value = e'.value) (C : Context) :
    (C.fill e).value = (C.fill e').value := by
  induction C with
  | here => exact h
  | plus C ih => exact ih
  | minus C ih | complement C ih => rw [fill, fill, Tree.value, Tree.value, ih]
  | comparisonLeft op C right ih | operationLeft op C right ih =>
    rw [fill, fill, Tree.value, Tree.value, ih]
  | comparisonRight op left C ih | operationRight op left C ih =>
    rw [fill, fill, Tree.value, Tree.value, ih]

/-- All parts are computed, so what stands in the place of a tree with a value has one. -/
theorem exists_value_of_fill {C : Context} (h : (C.fill e).value = .ok v) :
    ∃ u, e.value = .ok u := by
  induction C generalizing v with
  | here => exact ⟨v, h⟩
  | plus C ih => exact ih h
  | minus C ih | complement C ih | comparisonLeft op C right ih | operationLeft op C right ih =>
    obtain ⟨u, hu, -⟩ := bind_eq_ok.1 h
    exact ih hu
  | comparisonRight op left C ih | operationRight op left C ih =>
    obtain ⟨u, -, h⟩ := bind_eq_ok.1 h
    obtain ⟨w, hw, -⟩ := bind_eq_ok.1 h
    exact ih hw

end Context

/-! ### An operand in parentheses -/

/-- Where an item stands in a list around another item. -/
theorem append_cons_eq_append_cons {α : Type} {a b : α} (hne : a ≠ b) {xs ys pre more : List α}
    (h : xs ++ a :: ys = pre ++ b :: more) :
    (∃ mid, xs = pre ++ b :: mid ∧ more = mid ++ a :: ys) ∨ ∃ mid, pre = xs ++ a :: mid ∧
    ys = mid ++ b :: more := by
  rcases List.append_eq_append_iff.1 h with ⟨mid, rfl, hmid⟩ | ⟨mid, rfl, hmid⟩
  · cases mid with
    | nil => exact absurd (List.cons.inj hmid).1 hne
    | cons c mid =>
      obtain ⟨rfl, rfl⟩ := List.cons.inj hmid
      exact .inr ⟨mid, rfl, rfl⟩
  · cases mid with
    | nil => exact absurd (List.cons.inj hmid).1.symm hne
    | cons c mid =>
      obtain ⟨rfl, rfl⟩ := List.cons.inj hmid
      exact .inl ⟨mid, rfl, rfl⟩

theorem cons_eq_append_cons {α : Type} {a b : α} (hne : a ≠ b) {ys pre more : List α}
    (h : a :: ys = pre ++ b :: more) :
    ∃ mid, pre = a :: mid ∧ ys = mid ++ b :: more := by
  cases pre with
  | nil => exact absurd (List.cons.inj h).1 hne
  | cons c pre =>
    obtain ⟨rfl, htail⟩ := List.cons.inj h
    exact ⟨pre, rfl, htail⟩

/-- What stands around an operand in parentheses: all that binds as tightly can take its place. -/
structure Surrounds (p : Precedence) (e : Tree) (pre more : List Token) (C : Context) (inner : Tree)
    (us post : List Token) : Prop where
  tree : e = C.fill inner
  tokens : more = us ++ .rightParen :: post
  written : Written .disjunction inner us
  replace : ∀ {n vs}, Written .sign n vs → Written p (C.fill n) (pre ++ vs ++ post)

/-- A parenthesis opens an operand, a tree within the tree. -/
theorem Written.exists_context {p : Precedence} {e : Tree} {ts pre more : List Token}
    (h : Written p e ts)
    (hts : ts = pre ++ .leftParen :: more) :
    ∃ C inner us post, Surrounds p e pre more C inner us post := by
  induction h generalizing pre more with
  | leaf v =>
    have hne : v.token ≠ .leftParen := by cases v <;> simp [Value.token]
    obtain ⟨mid, -, hnil⟩ := cons_eq_append_cons hne hts
    simp at hnil
  | minus _ ih =>
    obtain ⟨mid, rfl, hmid⟩ := cons_eq_append_cons (by decide) hts
    obtain ⟨C, inner, us, post, hC⟩ := ih hmid
    exact ⟨.minus C, inner, us, post, congrArg Tree.minus hC.tree, hC.tokens, hC.written,
      fun hn => .minus (hC.replace hn)⟩
  | plus _ ih =>
    obtain ⟨mid, rfl, hmid⟩ := cons_eq_append_cons (by decide) hts
    obtain ⟨C, inner, us, post, hC⟩ := ih hmid
    exact ⟨.plus C, inner, us, post, congrArg Tree.plus hC.tree, hC.tokens, hC.written,
      fun hn => .plus (hC.replace hn)⟩
  | complement _ ih =>
    obtain ⟨mid, rfl, hmid⟩ := cons_eq_append_cons (by decide) hts
    obtain ⟨C, inner, us, post, hC⟩ := ih hmid
    exact ⟨.complement C, inner, us, post, congrArg Tree.complement hC.tree, hC.tokens, hC.written,
      fun hn => .complement (hC.replace hn)⟩
  | @parenthesized e ts hwritten ih =>
    cases pre with
    | nil =>
      exact ⟨.here, e, ts, [], rfl, (List.cons.inj hts).2.symm, hwritten,
        fun hn => by simpa [Context.fill] using hn⟩
    | cons tok pre =>
      obtain ⟨rfl, htail⟩ := List.cons.inj hts
      obtain ⟨mid, rfl, rfl⟩ | ⟨mid, -, hnil⟩ :=
        append_cons_eq_append_cons (a := Token.rightParen) (b := .leftParen) (by decide) htail
      · obtain ⟨C, inner, us, post, hC⟩ := ih rfl
        refine ⟨C, inner, us, post ++ [.rightParen], hC.tree, ?_, hC.written, fun hn => ?_⟩
        · rw [hC.tokens, List.append_assoc, List.cons_append]
        · simpa using Written.parenthesized (hC.replace hn)
      · simp at hnil
  | @comparison op left right ts us hleft hright ihLeft ihRight =>
    obtain ⟨mid, hmid, rfl⟩ | ⟨mid, rfl, hmid⟩ := append_cons_eq_append_cons (by simp) hts
    · obtain ⟨C, inner, us', post, hC⟩ := ihLeft hmid
      refine ⟨.comparisonLeft op C right, inner, us', post ++ .comparison op :: us, ?_, ?_,
        hC.written, fun hn => ?_⟩
      · rw [hC.tree, Context.fill]
      · rw [hC.tokens, List.append_assoc, List.cons_append]
      · simpa [Context.fill] using Written.comparison op (hC.replace hn) hright
    · obtain ⟨C, inner, us', post, hC⟩ := ihRight hmid
      refine ⟨.comparisonRight op left C, inner, us', post, ?_, hC.tokens, hC.written, fun hn => ?_⟩
      · rw [hC.tree, Context.fill]
      · simpa [Context.fill] using Written.comparison op hleft (hC.replace hn)
  | @operation op left right ts us hleft hright ihLeft ihRight =>
    have hne : op.token ≠ .leftParen := by cases op <;> simp [Operator.token]
    obtain ⟨mid, hmid, rfl⟩ | ⟨mid, rfl, hmid⟩ := append_cons_eq_append_cons hne hts
    · obtain ⟨C, inner, us', post, hC⟩ := ihLeft hmid
      refine ⟨.operationLeft op C right, inner, us', post ++ op.token :: us, ?_, ?_, hC.written,
        fun hn => ?_⟩
      · rw [hC.tree, Context.fill]
      · rw [hC.tokens, List.append_assoc, List.cons_append]
      · simpa [Context.fill] using Written.operation op (hC.replace hn) hright
    · obtain ⟨C, inner, us', post, hC⟩ := ihRight hmid
      refine ⟨.operationRight op left C, inner, us', post, ?_, hC.tokens, hC.written, fun hn => ?_⟩
      · rw [hC.tree, Context.fill]
      · simpa [Context.fill] using Written.operation op hleft (hC.replace hn)
  | tighter _ ih =>
    obtain ⟨C, inner, us, post, hC⟩ := ih hts
    exact ⟨C, inner, us, post, hC.tree, hC.tokens, hC.written, fun hn => .tighter (hC.replace hn)⟩

/-- What an expression with a value reads as, up to a closing parenthesis. -/
theorem Written.read_rightParen {e : Tree} {ts : List Token} {v : Value}
    (h : Written .disjunction e ts) (hv : e.value = .ok v) (post : List Token) :
    read .disjunction (ts ++ .rightParen :: post) = .ok (v, .rightParen :: post) := by
  rw [h.read_eq (stops_rightParen _ _), hv]
  exact readOn_stop (fun op _ h => by cases op <;> cases h) v

/-- What takes the place of an expression in parentheses is computed with as the expression was. -/
theorem exists_fill_of_evalTokens {pre ts post : List Token} {v w : Value}
    (hv : evalTokens ts = .ok v)
    (hw : evalTokens (pre ++ .leftParen :: (ts ++ .rightParen :: post)) = .ok w) :
    ∃ (C : Context) (e : Tree), e.value = .ok v ∧ (C.fill e).value = .ok w ∧
      ∀ {n us}, Written .sign n us → evalTokens (pre ++ us ++ post) =
      (C.fill n).value.mapError .operation := by
  obtain ⟨inner, hinner, hv⟩ := written_of_evalTokens hv
  obtain ⟨whole, hwritten, hwhole⟩ := written_of_evalTokens hw
  obtain ⟨C, e, us, post', hC⟩ := hwritten.exists_context rfl
  rw [hC.tree] at hwhole
  obtain ⟨u, hu⟩ := C.exists_value_of_fill hwhole
  -- both readings start at the parenthesis, so they end at the same one
  have hread := hinner.read_rightParen hv post
  rw [hC.tokens, hC.written.read_rightParen hu] at hread
  obtain ⟨rfl, hpost⟩ := Prod.mk.inj (Except.ok.inj hread)
  obtain rfl := (List.cons.inj hpost).2
  exact ⟨C, e, hu, hwhole, fun hn => (hC.replace hn).evalTokens_eq⟩

/-! ### The text of a value -/

namespace Value

/-- No integer beyond 32 bits. -/
def Fits : Value → Prop
  | int n => fitsInt n = true
  | _ => True

theorem kept_fits : Kept Fits where
  ofInt {n u} h := by
    unfold ofInt at h
    split at h
    · obtain rfl := Except.ok.inj h
      assumption
    · cases h
  ofReal {x u} h := by
    unfold ofReal at h
    split at h
    · obtain rfl := Except.ok.inj h
      trivial
    · cases h
  neg _ := trivial
  bool _ := trivial

theorem fits_of_eval {ls : Literals} {t : Text} {v : Value} (h : eval ls t = .ok v) : v.Fits :=
  kept_of_eval kept_fits fitsInt_wrapInt (fun _ _ => trivial) h

/-- The least integer. -/
def least : Value := int (-0x80000000)

/-- Digits after a minus sign are the number with that sign, unless they alone are the least
integer. -/
theorem negate_wrapInt {n : Int} (hneg : n < 0) (hn : -0x80000000 ≤ n) :
    (int (wrapInt n.natAbs)).negate = if int n = least then .error .overflow else .ok (int n) := by
  by_cases hleast : n = -0x80000000
  · subst n
    rfl
  · have hne : int n ≠ least := fun heq => hleast (int.inj heq)
    rw [if_neg hne, wrapInt_eq_self (by omega), negate, ofInt, if_pos,
      Int.ofNat_natAbs_of_nonpos (by omega), Int.neg_neg]
    simp only [fitsInt, Bool.and_eq_true, decide_eq_true_eq]
    omega

/-- The text of an integer or a truth value is an operand, with the same value unless that is the
least integer. -/
theorem exists_written (ls : Literals) {v : Value} (hfits : v.Fits) (hreal : ∀ x, v ≠ real x) :
    ∃ e ts, tokens ls v.text = .ok ts ∧ Written .sign e ts ∧
    e.value = if v = least then .error .overflow else .ok v := by
  cases v with
  | real x => exact absurd rfl (hreal x)
  | bool b =>
    refine ⟨.leaf (.bool b), [.bool b], ?_, .leaf (.bool b), rfl⟩
    exact Spelt.tokens_eq (Spelt.word rfl : Spelt (.bool b) (Token.text (.bool b)) _)
  | int n =>
    simp only [Fits, fitsInt, Bool.and_eq_true, decide_eq_true_eq] at hfits
    have htokens : tokens ls (Text.ofNat n.natAbs) = .ok [.int (wrapInt n.natAbs)] :=
      (spelt_ofNat (by omega)).tokens_eq
    by_cases hneg : n < 0
    · have hsep : isSeparator '-' = false := by decide
      have hvalue (v : Value) : (Tree.minus (.leaf v)).value = v.negate := rfl
      refine ⟨.minus (.leaf (.int (wrapInt n.natAbs))),
        [.arithmetic .minus, .int (wrapInt n.natAbs)], ?_,
        .minus (.leaf _), (hvalue _).trans (negate_wrapInt hneg hfits.1)⟩
      rw [text, Text.ofInt, if_pos hneg]
      exact (tokens_cons_eq_ok hsep rfl).2 ⟨_, _, rfl, rfl, htokens⟩
    · refine ⟨.leaf (.int n), [.int n], ?_, .leaf (.int n), ?_⟩
      · rw [text, Text.ofInt, if_neg hneg, htokens, wrapInt_eq_self (by omega),
          Int.natAbs_of_nonneg (by omega)]
      · have hne : int n ≠ least := fun heq => absurd (int.inj heq) (by omega)
        rw [if_neg hne, Tree.value]

end Value

/-! ### A value in the place of its expression -/

theorem Value.isWordChar_text {v : Value} (hreal : ∀ x, v ≠ .real x) :
    v.text ≠ [] ∧ (∀ c ∈ v.text.getLast?, isWordChar c = true) ∧
    ∀ c ∈ v.text.head?, isWordChar c = true ∨ c = '-' := by
  have hword {w : Text} (hne : w ≠ []) (hw : ∀ c ∈ w, isWordChar c = true) :
      w ≠ [] ∧ (∀ c ∈ w.getLast?, isWordChar c = true) ∧ ∀ c ∈ w.head?, isWordChar c = true ∨
        c = '-' :=
    ⟨hne, fun c hc => hw c (List.mem_of_mem_getLast? hc),
      fun c hc => .inl (hw c (List.mem_of_mem_head? hc))⟩
  have hdigits (n : Nat) : ∀ c ∈ Text.ofNat n, isWordChar c = true :=
    fun c hc => isWordChar_of_isDigit (Literal.isDigit_of_mem_ofNat hc)
  cases v with
  | real x => exact absurd rfl (hreal x)
  | bool b => cases b <;> exact hword (by decide) (by decide)
  | int n =>
    rw [text, Text.ofInt]
    split
    · refine ⟨List.cons_ne_nil _ _, fun c hc => ?_, fun c hc => .inr (Option.some.inj hc).symm⟩
      rw [← List.singleton_append, Text.ofNat,
        List.getLast?_append_of_ne_nil _ Nat.toDigits_ne_nil] at hc
      exact hdigits _ c (List.mem_of_mem_getLast? hc)
    · exact hword Nat.toDigits_ne_nil (hdigits _)

/-- The text of an integer or a truth value runs together with nothing but words and points. -/
theorem Value.apart_text {v : Value} (hreal : ∀ x, v ≠ .real x) {pre post : Text}
    (hpre : ∀ c ∈ pre.getLast?, isWordChar c = false ∧ c ≠ '$' ∧ c ≠ '.')
    (hpost : ∀ c ∈ post.head?, isWordChar c = false ∧ c ≠ '.') :
    Apart pre v.text ∧ Apart (pre ++ v.text) post := by
  obtain ⟨hne, hlast, hhead⟩ := isWordChar_text hreal
  constructor
  · intro a ha b hb
    obtain ⟨hword, hdollar, hpoint⟩ := hpre a ha
    have hequals : b ≠ '=' := by
      rintro rfl
      rcases hhead _ hb with h | h <;> cases h
    simp [joins, hword, hdollar, hpoint, hequals]
  · intro a ha b hb
    rw [List.getLast?_append_of_ne_nil _ hne] at ha
    obtain ⟨hword, hpoint⟩ := hpost b hb
    exact joins_word_eq_false (hlast a ha) hword hpoint

/-- The tokens of an expression in parentheses, and of what follows. -/
theorem exists_tokens_of_parenthesized {ls : Literals} {e post : Text} {ts us : List Token}
    (hts : tokens ls e = .ok ts) (h : tokens ls ('(' :: (e ++ ')' :: post)) = .ok us) :
    ∃ after, us = .leftParen :: (ts ++ .rightParen :: after) ∧ tokens ls post = .ok after := by
  have hapart : Apart e (')' :: post) := apart_cons e (by decide) (by decide) (by decide) post
  obtain ⟨tok, rest, rfl, htok, hrest⟩ := (tokens_cons_eq_ok (by decide) rfl).1 h
  obtain ⟨inner, more, rfl, hinner, hmore⟩ :=
    (tokens_append_eq_ok (shut_of_tokens hts) hapart).1 hrest
  obtain ⟨tok', after, rfl, htok', hafter⟩ := (tokens_cons_eq_ok (by decide) rfl).1 hmore
  obtain rfl := Except.ok.inj htok
  obtain rfl := Except.ok.inj htok'
  obtain rfl := Except.ok.inj (hts.symm.trans hinner)
  exact ⟨after, rfl, hafter⟩

/-- **The text of an integer or a truth value can take the place of an expression with that value**,
without the parentheses, unless it is the least integer. -/
theorem eval_value_in_place {ls : Literals} {pre e post : Text} {v w : Value}
    (hreal : ∀ x, v ≠ .real x)
    (he : eval ls e = .ok v) (hpre : ∀ c ∈ pre.getLast?, isWordChar c = false ∧ c ≠ '$' ∧ c ≠ '.')
    (hpost : ∀ c ∈ post.head?, isWordChar c = false ∧ c ≠ '.')
    (hwhole : eval ls (pre ++ '(' :: (e ++ ')' :: post)) = .ok w) :
    eval ls (pre ++ v.text ++ post) = .ok w ↔ v ≠ .int (-0x80000000) := by
  obtain ⟨ts, hts, hv⟩ := bind_eq_ok.1 he
  obtain ⟨all, hall, hw⟩ := bind_eq_ok.1 hwhole
  have hshut : Shut pre := shut_of_tokens_leftParen hall
  obtain ⟨before, rest, rfl, hbefore, hrest⟩ :=
    (tokens_append_eq_ok hshut (apart_leftParen _ _)).1 hall
  obtain ⟨after, rfl, hafter⟩ := exists_tokens_of_parenthesized hts hrest
  obtain ⟨C, inner, hinner, hfill, hreplace⟩ := exists_fill_of_evalTokens hv hw
  obtain ⟨n, us, hus, hwritten, hn⟩ := v.exists_written ls (Value.fits_of_eval he) hreal
  obtain ⟨hleft, hright⟩ := Value.apart_text hreal hpre hpost
  have hline : tokens ls (pre ++ v.text) = .ok (before ++ us) :=
    (tokens_append_eq_ok hshut hleft).2 ⟨_, _, rfl, hbefore, hus⟩
  have hplaced : tokens ls (pre ++ v.text ++ post) = .ok (before ++ us ++ after) :=
    (tokens_append_eq_ok (shut_of_tokens hline) hright).2 ⟨_, _, rfl, hline, hafter⟩
  have heval : eval ls (pre ++ v.text ++ post) = (C.fill n).value.mapError .operation := by
    rw [eval, hplaced]
    exact hreplace hwritten
  rw [heval]
  split at hn
  · rename_i hleast
    refine iff_of_false (fun hok => ?_) (fun hne => hne hleast)
    cases hvalue : (C.fill n).value with
    | error cause => rw [hvalue] at hok; cases hok
    | ok u =>
      obtain ⟨m, hm⟩ := C.exists_value_of_fill hvalue
      rw [hn] at hm
      cases hm
  · rename_i hleast
    refine iff_of_true ?_ hleast
    rw [C.value_fill_congr (hn.trans hinner.symm), hfill]
    rfl

theorem product_in_place :
    (eval {} "2*3".toList = .ok (.int 6) ∧
      eval {} ("7-".toList ++ '(' :: ("2*3".toList ++ ')' :: "<2".toList)) = .ok (.bool true)) ∧
      (eval {} ("7-".toList ++ (Value.int 6).text ++ "<2".toList) = .ok (.bool true) ↔
        Value.int 6 ≠ .int (-0x80000000)) := by
  have he : eval {} "2*3".toList = .ok (.int 6) := by decide +kernel
  have hwhole : eval {} ("7-".toList ++ '(' :: ("2*3".toList ++ ')' :: "<2".toList)) =
      .ok (.bool true) := by decide +kernel
  exact ⟨⟨he, hwhole⟩, eval_value_in_place (fun x => nofun) he (by decide) (by decide) hwhole⟩

/-- The least integer has no text that is read as it. -/
theorem least_not_in_place :
    ∃ e v w, (∀ x, v ≠ .real x) ∧ eval {} e = .ok v ∧
    eval {} ([] ++ '(' :: (e ++ ')' :: [])) = .ok w ∧
      eval {} ([] ++ v.text ++ []) = .error (.operation .overflow) := by
  refine ⟨"-2147483647-1".toList, .int (-0x80000000), .int (-0x80000000), fun x => nofun, ?_⟩
  decide +kernel

end ScriptMinifier.Constant
