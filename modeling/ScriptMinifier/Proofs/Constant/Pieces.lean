import ScriptMinifier.Proofs.Constant.Cutting

/-! The ways to spell a token.

A token other than a placeholder is spelt by a number in one of three bases, by a word or by a
symbol, and where it ends is told from the next character alone (`Spelt`). Reading finds just these
spellings (`exists_spelt`, `Spelt.tokens_append`). -/
namespace ScriptMinifier.Constant

open Text (mark isWordChar isOtherChar isQuote isDigitOf)

namespace Token

/-- How a token is printed. -/
def text : Token → Text
  | int n => Text.ofInt n
  | real x => Value.realText x
  | bool b => Value.boolText b
  | arithmetic op => op.text
  | comparison op => op.text
  | not => "not".toList
  | and => "and".toList
  | or => "or".toList
  | leftParen => ['(']
  | rightParen => [')']

/-- Whether a token is printed in letters. -/
def isWord : Token → Bool
  | bool _ => true
  | not => true
  | and => true
  | or => true
  | _ => false

/-- Whether a token is printed as a symbol. -/
def isSymbol : Token → Bool
  | arithmetic _ => true
  | comparison _ => true
  | leftParen => true
  | rightParen => true
  | _ => false

/-- Whether an equals sign makes another symbol of a token. -/
def takesEquals : Token → Bool
  | comparison .less => true
  | comparison .greater => true
  | _ => false

end Token

/-- A token, a text that spells it, and the characters that end it there. -/
inductive Spelt : Token → Text → (Char → Bool) → Prop
  | dollar {digits : Text} {n : Int} (hdigits : ∀ d ∈ digits, isDigitOf 16 d = true)
      (hn : readInt 16 digits = .ok n) :
      Spelt (.int n) ('$' :: digits) (fun b => !isDigitOf 16 b)
  | hexadecimal {x : Char} {digits : Text} {n : Int} (hx : x = 'x' ∨ x = 'X')
      (hdigits : ∀ d ∈ digits, isDigitOf 16 d = true) (hn : readInt 16 digits = .ok n) :
      Spelt (.int n) ('0' :: x :: digits) (fun b => !isDigitOf 16 b)
  | whole {digits : Text} {n : Int} (hdigits : ∀ d ∈ digits, d.isDigit = true)
      (hn : readInt (baseOf digits) digits = .ok n) : Spelt (.int n) digits endsDigits
  | fraction {digits places : Text} (hdigits : ∀ d ∈ digits, d.isDigit = true)
      (hplaces : ∀ d ∈ places, d.isDigit = true) (hne : digits ≠ [] ∨ places ≠ []) :
      Spelt (.real (.ofDigits digits places)) (digits ++ '.' :: places) (fun b => !b.isDigit)
  | word {tok : Token} (h : tok.isWord = true) : Spelt tok tok.text (fun b => !isWordChar b)
  | symbol {tok : Token} (h : tok.isSymbol = true) :
    Spelt tok tok.text (fun b => !(tok.takesEquals && b == '='))

/-- What a word is spelt with. -/
theorem Token.text_of_isWord {tok : Token} (h : tok.isWord = true) :
    tok.text ≠ [] ∧ (∀ d ∈ tok.text, isWordChar d = true) ∧ (∀ d ∈ tok.text, d.isDigit = false) ∧
      wordToken tok.text = .ok tok := by
  cases tok with
  | bool b => cases b <;> exact ⟨by decide, by decide, by decide, rfl⟩
  | not | and | or => exact ⟨by decide, by decide, by decide, rfl⟩
  | _ => cases h

/-- What a symbol is spelt with. -/
theorem Token.text_of_isSymbol {tok : Token} (h : tok.isSymbol = true) :
    tok.text ≠ [] ∧ ∀ c ∈ tok.text, isOtherChar c = true ∧ isQuote c = false ∧ c ≠ '$' ∧
    c ≠ '.' := by
  cases tok with
  | leftParen | rightParen => decide
  | arithmetic op => cases op <;> decide
  | comparison op => cases op <;> decide
  | _ => cases h

theorem Token.isWord_of_wordToken {w : Text} {tok : Token} (h : wordToken w = .ok tok) :
    tok.isWord = true ∧ w = tok.text := by
  unfold wordToken at h
  repeat' split at h
  all_goals first
    | cases h
      rename_i hw
      exact ⟨rfl, hw⟩
    | cases h

/-- The number that digits of a base are read as. -/
theorem exists_readNat_of_readInt {base : Nat} {digits : Text} {m : Int}
    (h : readInt base digits = .ok m) :
    ∃ n, Text.readNat? base digits = some n ∧ n < 0x100000000 ∧ m = wrapInt n := by
  unfold readInt at h
  split at h
  · cases h
  · rename_i n hn
    split_ifs at h with hlarge
    rw [not_or] at hlarge
    rw [List.take_of_length_le (by omega)] at hn
    exact ⟨n, hn, by omega, (Except.ok.inj h).symm⟩

namespace Spelt

variable {ls : Literals} {tok : Token} {u t : Text} {stops : Char → Bool} {ts : List Token}

theorem ne_nil_of_readInt {base : Nat} {digits : Text} {n : Int} (h : readInt base digits = .ok n) :
    digits ≠ [] := by
  rintro rfl
  cases h

/-- What spells a token is cut off before what ends it. -/
theorem exists_cutOff (h : Spelt tok u stops) (ht : ∀ b ∈ t.head?, stops b = true) (ls : Literals) :
    ∃ p, CutOff (u ++ t) p t ∧ p.token ls = .ok tok := by
  cases h with
  | dollar hdigits hn =>
    exact ⟨_, .dollar hdigits (by simpa using ht), by rw [Piece.token, hn]; rfl⟩
  | hexadecimal hx hdigits hn =>
    exact ⟨_, .hexadecimal hx hdigits (by simpa using ht), by rw [Piece.token, hn]; rfl⟩
  | whole hdigits hn =>
    have hends := fun b hb => endsDigits_eq_true.1 (ht b hb)
    refine ⟨_, .whole (ne_nil_of_readInt hn) hdigits
      (fun b hb => ⟨(hends b hb).1, (hends b hb).2.1⟩) fun _ b hb => ?_,
      by rw [Piece.token, hn]; rfl⟩
    exact not_or.2 (hends b hb).2.2
  | fraction hdigits hplaces hne =>
    rw [List.append_assoc, List.cons_append]
    exact ⟨_, .fraction hne hdigits hplaces (by simpa using ht), rfl⟩
  | word h =>
    obtain ⟨hne, hword, hdigit, htok⟩ := Token.text_of_isWord h
    exact ⟨_, .word hne hword (fun d hd => hdigit d (List.mem_of_mem_head? hd))
      (by simpa using ht), htok⟩
  | symbol h =>
    -- the first of two signs is cut off with the second
    have hcut {c : Char} {rest more : Text} {p : Piece}
        (hc : isOtherChar c = true ∧ c ≠ '$' ∧ c ≠ '.')
        (hsymbol : Constant.symbol c rest = (p, more)) : CutOff (c :: rest) p more := by
      have hcut : CutOff (c :: rest) _ _ := .symbol hc.1 hc.2.1 fun hpoint => absurd hpoint hc.2.2
      rwa [hsymbol] at hcut
    cases tok with
    | leftParen | rightParen => exact ⟨_, hcut (by decide) rfl, rfl⟩
    | arithmetic op => cases op <;> exact ⟨_, hcut (by decide) rfl, rfl⟩
    | comparison op =>
      have hless (c : Char) (hc : ∀ b ∈ t.head?, b ≠ '=') :
          Constant.symbol c t = ((Constant.symbol c []).1, t) := by
        cases t with
        | nil => exact Prod.ext rfl (symbol_nil c)
        | cons d more => rw [symbol_cons, if_neg (hc d rfl)]
      have hequals (hop : (Token.comparison op).takesEquals = true) : ∀ b ∈ t.head?, b ≠ '=' := by
        simpa [hop] using ht
      cases op with
      | less => exact ⟨_, hcut (by decide) (hless '<' (hequals rfl)), rfl⟩
      | greater => exact ⟨_, hcut (by decide) (hless '>' (hequals rfl)), rfl⟩
      | _ => exact ⟨_, hcut (by decide) rfl, rfl⟩
    | _ => cases h

theorem ne_nil (h : Spelt tok u stops) : u ≠ [] := by
  obtain ⟨p, hcut, -⟩ := h.exists_cutOff (t := []) nofun {}
  rw [List.append_nil] at hcut
  obtain ⟨c, rest, rfl⟩ := hcut.exists_cons
  exact List.cons_ne_nil _ _

theorem tokens_append (h : Spelt tok u stops) (ht : ∀ b ∈ t.head?, stops b = true) :
    tokens ls (u ++ t) = .ok ts ↔ ∃ us, ts = tok :: us ∧ tokens ls t = .ok us := by
  obtain ⟨p, hcut, htok⟩ := h.exists_cutOff ht ls
  exact hcut.tokens_eq_ok htok

theorem tokens_eq (h : Spelt tok u stops) : tokens ls u = .ok [tok] := by
  have hnone : ∀ b ∈ ([] : Text).head?, stops b = true := nofun
  have happend : tokens ls (u ++ []) = .ok [tok] := (h.tokens_append hnone).2 ⟨[], rfl, tokens_nil⟩
  rwa [List.append_nil] at happend

end Spelt

/-- A number of 32 bits is spelt by its decimal digits. -/
theorem spelt_ofNat {n : Nat} (h : n < 0x100000000) :
    Spelt (.int (wrapInt n)) (Text.ofNat n) endsDigits := by
  refine .whole (fun d hd => Literal.isDigit_of_mem_ofNat hd) ?_
  rw [baseOf_ofNat, readInt_ofNat h]

theorem exists_int_of_map {x : Except EvalFault Int} {tok : Token} (h : x.map Token.int = .ok tok) :
    ∃ n, x = .ok n ∧ tok = .int n := by
  cases x with
  | error => cases h
  | ok n => exact ⟨n, rfl, (Except.ok.inj h).symm⟩

/-- No word of an expression starts like a sign of base 16. -/
theorem head?_of_tokens {ls : Literals} {t : Text} {ts : List Token} (h : tokens ls t = .ok ts)
    {x : Char} (hx : x = 'x' ∨ x = 'X') : t.head? ≠ some x := by
  intro hhead
  obtain ⟨rest, rfl⟩ := List.head?_eq_some_iff.1 hhead
  have hpiece :
      piece x rest = (.word (x :: rest.takeWhile isWordChar), rest.dropWhile isWordChar) := by
    rcases hx with rfl | rfl <;> rfl
  obtain ⟨tok, us, -, htok, -⟩ :=
    (tokens_cons_eq_ok (by rcases hx with rfl | rfl <;> decide) hpiece).1 h
  obtain ⟨hword, htext⟩ := Token.isWord_of_wordToken htok
  have hne : tok.text.head? ≠ some 'x' ∧ tok.text.head? ≠ some 'X' := by
    cases tok with
    | bool b => cases b <;> decide
    | not | and | or => decide
    | _ => cases hword
  rw [← htext] at hne
  rcases hx with rfl | rfl
  · exact hne.1 rfl
  · exact hne.2 rfl

theorem exists_spelt_symbol {c : Char} {rest more : Text} {p : Piece} {tok : Token}
    (h : symbol c rest = (p, more)) (htok : p.token {} = .ok tok) :
    tok.isSymbol = true ∧ c :: rest = tok.text ++ more ∧
    ∀ b ∈ more.head?, (!(tok.takesEquals && b == '=')) = true := by
  have hequals {t : Text} (hnone : ∀ more, t = '=' :: more → False) :
      ∀ b ∈ t.head?, (!(tok.takesEquals && b == '=')) = true := by
    intro b hb
    obtain ⟨more, rfl⟩ := List.head?_eq_some_iff.1 hb
    have hne : b ≠ '=' := by
      rintro rfl
      exact hnone more rfl
    simp [hne]
  unfold symbol at h
  split at h
  all_goals obtain ⟨rfl, rfl⟩ := Prod.mk.inj h
  case h_13 => cases htok
  all_goals obtain rfl := Except.ok.inj htok
  case h_5 hnone => exact ⟨rfl, rfl, hequals hnone⟩
  case h_6 hnone => exact ⟨rfl, rfl, hequals hnone⟩
  all_goals exact ⟨rfl, rfl, fun _ _ => rfl⟩

/-- A piece that is a token spells it. -/
theorem CutOff.exists_spelt {t more : Text} {p : Piece} {tok : Token} (h : CutOff t p more)
    (htok : p.token {} = .ok tok) (hsign : ∀ x, x = 'x' ∨ x = 'X' → more.head? ≠ some x) :
    ∃ u stops, t = u ++ more ∧ Spelt tok u stops ∧ ∀ b ∈ more.head?, stops b = true := by
  cases h with
  | placeholder rest =>
    -- there is no literal to stand for
    have hnone : Literals.lookup? {} (mark :: Text.throughMark rest) = none := by
      simp [Literals.lookup?, Literals.get?]
    rw [Piece.token, hnone] at htok
    cases htok
  | dollar hdigits hends =>
    obtain ⟨n, hn, rfl⟩ := exists_int_of_map htok
    exact ⟨_, _, rfl, .dollar hdigits hn, by simpa using hends⟩
  | hexadecimal hx hdigits hends =>
    obtain ⟨n, hn, rfl⟩ := exists_int_of_map htok
    exact ⟨_, _, rfl, .hexadecimal hx hdigits hn, by simpa using hends⟩
  | whole hne hdigits hends =>
    obtain ⟨n, hn, rfl⟩ := exists_int_of_map htok
    refine ⟨_, _, rfl, .whole hdigits hn, fun b hb => endsDigits_eq_true.2
      ⟨(hends b hb).1, (hends b hb).2, ?_, ?_⟩⟩
    · rintro rfl
      exact hsign 'x' (.inl rfl) hb
    · rintro rfl
      exact hsign 'X' (.inr rfl) hb
  | fraction hne hdigits hplaces hends =>
    obtain rfl := Except.ok.inj htok
    exact ⟨_, _, by rw [List.append_assoc, List.cons_append],
      .fraction hdigits hplaces hne, by simpa using hends⟩
  | word _ _ _ hends =>
    obtain ⟨hword, rfl⟩ := Token.isWord_of_wordToken htok
    exact ⟨_, _, rfl, .word hword, by simpa using hends⟩
  | symbol =>
    obtain ⟨hsymbol, htext, hstops⟩ := exists_spelt_symbol rfl htok
    exact ⟨_, _, htext, .symbol hsymbol, hstops⟩

/-- A text with tokens starts with a blank or with a token that is spelt. -/
theorem exists_spelt {c : Char} {rest : Text} {ts : List Token} (hsep : isSeparator c = false)
    (h : tokens {} (c :: rest) = .ok ts) :
    ∃ tok us u stops t, ts = tok :: us ∧ c :: rest = u ++ t ∧ Spelt tok u stops ∧
    (∀ b ∈ t.head?, stops b = true) ∧
      tokens {} t = .ok us := by
  have hcut := cutOff_piece c rest
  obtain ⟨tok, us, rfl, htok, hus⟩ := (tokens_cons_eq_ok hsep rfl).1 h
  obtain ⟨u, stops, htext, hspelt, hstops⟩ := hcut.exists_spelt htok fun x => head?_of_tokens hus
  exact ⟨tok, us, u, stops, _, rfl, htext, hspelt, hstops, hus⟩

/-- Blanks and spelt tokens, one after the other. -/
inductive Spells : Text → List Token → Prop
  | nil : Spells [] []
  | blank {c : Char} {t : Text} {ts : List Token} (hc : isSeparator c = true) (h : Spells t ts) :
      Spells (c :: t) ts
  | cons {tok : Token} {u t : Text} {stops : Char → Bool} {ts : List Token} (hu : Spelt tok u stops)
      (ht : ∀ b ∈ t.head?, stops b = true) (h : Spells t ts) : Spells (u ++ t) (tok :: ts)

theorem Spells.tokens_eq {t : Text} {ts : List Token} (h : Spells t ts) (ls : Literals) :
    tokens ls t = .ok ts := by
  induction h with
  | nil => exact tokens_nil
  | blank hc _ ih => rw [tokens_separator hc, ih]
  | cons hu ht _ ih => exact (hu.tokens_append ht).2 ⟨_, rfl, ih⟩

/-- A text without literals has the tokens that it spells. -/
theorem tokens_eq_ok_iff_spells {t : Text} {ts : List Token} :
    tokens {} t = .ok ts ↔ Spells t ts := by
  refine ⟨fun h => ?_, fun h => h.tokens_eq {}⟩
  induction hn : t.length using Nat.strong_induction_on generalizing t ts with
  | h n ih =>
    subst hn
    cases t with
    | nil =>
      obtain rfl := Except.ok.inj (tokens_nil.symm.trans h)
      exact .nil
    | cons c rest =>
      by_cases hsep : isSeparator c = true
      · rw [tokens_separator hsep] at h
        exact .blank hsep (ih _ (Nat.lt_succ_self _) h rfl)
      · obtain ⟨tok, us, u, stops, t, rfl, htext, hu, hstops, hus⟩ :=
          exists_spelt (by simpa using hsep) h
        have hpos := List.length_pos_of_ne_nil hu.ne_nil
        rw [htext]
        refine .cons hu hstops (ih _ ?_ hus rfl)
        rw [htext, List.length_append]
        omega

end ScriptMinifier.Constant
