import ScriptMinifier.Proofs.Constant.Pieces
import ScriptMinifier.Proofs.Constant.Grammar

/-! Printed expressions.

Tokens are printed side by side with blanks wherever one likes, and with one where a word would run
into the next (`Printed`). Printed tokens are cut into the same tokens again (`Printed.tokens_eq`):
in an expression no operand stands right after another (`Written.coherent`), so a number ends where
its digits do, and no comparison stands before an equals sign. -/
namespace ScriptMinifier.Constant

open Text (mark isWordChar isDigitOf)

/-! ### Where tokens end -/

namespace Token

/-- A token that is no real and, when it is a number, has no sign and fits 32 bits. -/
def IsPlain : Token → Prop
  | int n => 0 ≤ n ∧ n < 0x80000000
  | real _ => False
  | _ => True

/-- Whether a token that is printed ends before a character. -/
def endsBefore : Token → Char → Bool
  | int _, c => endsDigits c
  | comparison _, c => c != '='
  | tok, c => !(tok.isWord && isWordChar c)

end Token

section Printed

variable {ls : Literals} {tok next : Token} {t : Text} {ts us : List Token}

/-- A token is spelt as it is printed, up to what ends it. -/
theorem Token.exists_spelt (hplain : tok.IsPlain) :
    ∃ stops, Spelt tok tok.text stops ∧ ∀ c, tok.endsBefore c = true → stops c = true := by
  have hword (h : tok.isWord = true)
      (hends : tok.endsBefore = fun c => !(tok.isWord && isWordChar c)) :
      ∃ stops, Spelt tok tok.text stops ∧ ∀ c, tok.endsBefore c = true → stops c = true :=
    ⟨_, .word h, fun c hc => by simpa [hends, h] using hc⟩
  cases tok with
  | real x => exact hplain.elim
  | int n =>
    obtain ⟨hnonneg, hlt⟩ := hplain
    obtain ⟨k, rfl⟩ := Int.eq_ofNat_of_zero_le hnonneg
    have hk : k < 0x80000000 := Int.ofNat_lt.1 hlt
    have hspelt := spelt_ofNat (n := k) (by omega)
    rw [wrapInt_eq_self hk] at hspelt
    exact ⟨endsDigits, hspelt, fun c => id⟩
  | bool b => exact hword rfl rfl
  | not => exact hword rfl rfl
  | and => exact hword rfl rfl
  | or => exact hword rfl rfl
  | comparison op =>
    refine ⟨_, .symbol rfl, fun c hc => ?_⟩
    have hne : c ≠ '=' := by simpa [endsBefore] using hc
    simp [hne]
  | _ => exact ⟨_, .symbol rfl, fun _ _ => rfl⟩

/-- Tokens side by side, with blanks between them; a word has one before a word or a number. -/
inductive Printed : List Token → Text → Prop
  | nil : Printed [] []
  | blank {c : Char} {ts : List Token} {t : Text} (hc : isSeparator c = true) (h : Printed ts t) :
      Printed ts (c :: t)
  | token (tok : Token) {ts : List Token} {t : Text}
      (hword : tok.isWord = true → ∀ c ∈ t.head?, isWordChar c = false)
      (h : Printed ts t) : Printed (tok :: ts) (tok.text ++ t)

/-- The first character of a printed text is a blank or the first character of the first token. -/
theorem Printed.head?_cases (h : Printed ts t) (hplain : ∀ tok ∈ ts, tok.IsPlain) {c : Char}
    (hc : c ∈ t.head?) :
    isSeparator c = true ∨ ∃ tok ∈ ts.head?, c ∈ tok.text.head? := by
  cases h with
  | nil => cases hc
  | blank hsep _ =>
    obtain rfl := Option.some.inj hc
    exact .inl hsep
  | token tok _ _ =>
    obtain ⟨stops, hspelt, -⟩ := Token.exists_spelt (hplain tok List.mem_cons_self)
    rw [List.head?_append_of_ne_nil _ hspelt.ne_nil] at hc
    exact .inr ⟨tok, rfl, hc⟩

/-- What may stand next in an expression ends a token that is no word. -/
theorem Token.Meets.endsBefore (h : tok.Meets next) (hplain : next.IsPlain) {c : Char}
    (hc : c ∈ next.text.head?)
    (hword : tok.isWord = true → isWordChar c = false) : tok.endsBefore c = true := by
  have hother (hends : tok.endsBefore = fun c => !(tok.isWord && isWordChar c)) :
      tok.endsBefore c = true := by
    rw [hends]
    cases hisWord : tok.isWord with
    | false => rfl
    | true => simp [hword hisWord]
  cases tok with
  | int n =>
    have hsymbols : ∀ tok : Token, tok.goesOn = true → tok.text.head?.all (Token.int n).endsBefore =
        true := by
      intro tok htok
      cases tok with
      | arithmetic op => cases op <;> rfl
      | comparison op => cases op <;> rfl
      | and | or | rightParen => rfl
      | _ => cases htok
    have := hsymbols next h
    rw [Option.mem_def.1 hc] at this
    exact this
  | comparison op =>
    have hstarts : ∀ tok : Token, tok.starts = true → tok.IsPlain →
        tok.text.head?.all (· != '=') = true := by
      intro tok htok hplain
      cases tok with
      | int n =>
        obtain ⟨k, rfl⟩ := Int.eq_ofNat_of_zero_le hplain.1
        refine (Option.all_eq_true _ _).2 fun d hd => bne_iff_ne.2 ?_
        rintro rfl
        exact absurd (Literal.isDigit_of_mem_ofNat (List.mem_of_mem_head? hd)) (by decide)
      | real x => exact hplain.elim
      | bool b => cases b <;> rfl
      | arithmetic op => cases op <;> rfl
      | not | leftParen => rfl
      | _ => cases htok
    have := hstarts next h hplain
    rw [Option.mem_def.1 hc] at this
    exact this
  | _ => exact hother rfl

theorem Token.endsBefore_of_isSeparator {c : Char} (hc : isSeparator c = true) (tok : Token) :
    tok.endsBefore c = true := by
  simp only [isSeparator, Bool.or_eq_true, beq_iff_eq] at hc
  rcases hc with (((rfl | rfl) | rfl) | rfl) | rfl <;> cases tok <;> rfl

/-- What is printed is read as the same tokens. -/
theorem Printed.tokens_eq (h : Printed ts t) (hplain : ∀ tok ∈ ts, tok.IsPlain)
    (hchain : ts.IsChain Token.Meets) :
    tokens ls t = .ok ts := by
  induction h with
  | nil => exact tokens_nil
  | blank hc _ ih => rw [tokens_separator hc, ih hplain hchain]
  | @token tok ts t hword h ih =>
    obtain ⟨hfirst, hrest⟩ := List.forall_mem_cons.1 hplain
    obtain ⟨hmeets, hchain⟩ := List.isChain_cons.1 hchain
    obtain ⟨stops, hspelt, hstops⟩ := Token.exists_spelt hfirst
    refine (hspelt.tokens_append fun c hc => hstops c ?_).2 ⟨ts, rfl, ih hrest hchain⟩
    rcases h.head?_cases hrest hc with hsep | ⟨next, hnext, hhead⟩
    · exact Token.endsBefore_of_isSeparator hsep tok
    · exact (hmeets next hnext).endsBefore (hrest next (List.mem_of_mem_head? hnext)) hhead
        fun hw => hword hw c hc

/-- A blank after every token. -/
def spaced (ts : List Token) : Text := ts.flatMap fun tok => tok.text ++ [' ']

theorem printed_spaced (ts : List Token) : Printed ts (spaced ts) := by
  induction ts with
  | nil => exact .nil
  | cons tok ts ih =>
    rw [spaced, List.flatMap_cons, List.append_assoc, List.singleton_append]
    refine .token tok (fun _ c hc => ?_) (.blank (by decide) ih)
    obtain rfl := Option.some.inj hc
    rfl

end Printed

/-! ### The fewest parentheses -/

/-- Tokens with parentheses around them where they are needed. -/
def parenthesizedIf (needed : Bool) (ts : List Token) : List Token :=
  if needed then .leftParen :: (ts ++ [.rightParen]) else ts

/-- A tree where an operand of a level is asked for, with no more parentheses than it takes. -/
def Tree.print : Tree → Precedence → List Token
  | leaf v, _ => [v.token]
  | minus e, _ => .arithmetic .minus :: e.print .sign
  | plus e, _ => .arithmetic .plus :: e.print .sign
  | complement e, p =>
    parenthesizedIf (p.looseness < Precedence.negation.looseness) (.not :: e.print .negation)
  | comparison op left right, p =>
    parenthesizedIf (p.looseness < Precedence.comparison.looseness)
      (left.print .sum ++ .comparison op :: right.print .sum)
  | operation op left right, p =>
    parenthesizedIf (p.looseness < op.level.looseness)
      (left.print op.level ++ op.token :: right.print op.level.tighter)

/-- Every tree can be written at every level. -/
theorem Tree.written_print (e : Tree) (p : Precedence) : Written p e (e.print p) := by
  have hwrap {p q : Precedence} {e : Tree} {ts : List Token} (h : Written q e ts) :
      Written p e (parenthesizedIf (p.looseness < q.looseness) ts) := by
    unfold parenthesizedIf
    split
    · exact (Written.parenthesized (h.loosen q.looseness_le)).of_sign p
    · rename_i hle
      exact h.loosen (by simpa using hle)
  induction e generalizing p with
  | leaf v => exact (Written.leaf v).of_sign p
  | minus e ih => exact (Written.minus (ih .sign)).of_sign p
  | plus e ih => exact (Written.plus (ih .sign)).of_sign p
  | complement e ih => exact hwrap (.complement (ih .negation))
  | comparison op left right ihLeft ihRight =>
    exact hwrap (.comparison op (ihLeft .sum) (ihRight .sum))
  | operation op left right ihLeft ihRight => exact hwrap (.operation op (ihLeft _) (ihRight _))

end ScriptMinifier.Constant
