import ScriptMinifier.Proofs.Literal.Rawcodes
import ScriptMinifier.Proofs.Output.Numerals

/-! Short numerals and the value of an expression.

Shortening takes the dollar sign off a number that it writes in decimal. Where a word stands
directly before the sign, its letters and the digits become one word (`fuses`). `Respelt` says token
by token what is left of an expression when its numerals are short and its rawcodes are lifted; all
tokens are what they were unless a word fuses (`Respelt.tokens_eq_ok`), and so is the value
(`evalShortened_eq_ok`). -/
namespace ScriptMinifier.Output

open Text (isWordChar mark isQuote StartsNoWord)
open Literal (placeholder indexLimit)
open Constant (Token Value EvalFault Spelt Spells wrapInt isSeparator tokens eval)

/-- The value of an expression when its numerals are short and its rawcodes are literals. -/
def evalShortened (s : Text) : Except EvalFault Value :=
  eval (Literals.lift {} (shortenNumerals s)).2 (Literals.lift {} (shortenNumerals s)).1

/-- Whether a text starts with a dollar sign that shortening takes off. -/
def losesDollar (t : Text) : Bool := (dollarValue? t).any fun n => numeral n == Text.ofNat n

/-- Whether a word stands directly before a dollar sign that shortening takes off. -/
def fuses : Text → Bool
  | [] => false
  | c :: t => isWordChar c && losesDollar t || fuses t

theorem head?_of_losesDollar {t : Text} (h : losesDollar t = true) : t.head? = some '$' := by
  unfold losesDollar dollarValue? at h
  split at h
  · rfl
  · cases h

theorem fuses_append {u : Text} (hne : u ≠ []) (hdollar : '$' ∉ u.tail) (s : Text) :
    fuses (u ++ s) = (u.getLast?.any isWordChar && losesDollar s || fuses s) := by
  induction u with
  | nil => exact absurd rfl hne
  | cons c u ih =>
    cases u with
    | nil => rfl
    | cons d u =>
      rw [List.tail_cons, List.mem_cons, not_or] at hdollar
      have hkept : losesDollar (d :: u ++ s) = false := by
        by_contra hlost
        have hhead := head?_of_losesDollar (by simpa using hlost)
        exact hdollar.1 (Option.some.inj hhead).symm
      rw [List.cons_append, fuses, hkept, Bool.and_false, Bool.false_or,
        ih (List.cons_ne_nil _ _) hdollar.2, List.getLast?_cons_cons]

end ScriptMinifier.Output

namespace ScriptMinifier

/-! ### Spellings -/

theorem Text.not_isQuote_of_isWordChar {c : Char} (h : isWordChar c = true) :
    isQuote c = false := by
  by_contra hquote
  simp only [isQuote, Bool.not_eq_false, Bool.or_eq_true, beq_iff_eq] at hquote
  rcases hquote with rfl | rfl <;> cases h

theorem Constant.isOtherChar_of_isSeparator {c : Char} (h : isSeparator c = true) :
    Text.isOtherChar c = true ∧ c ≠ '$' ∧ Text.isQuote c = false := by
  simp only [isSeparator, Bool.or_eq_true, beq_iff_eq] at h
  rcases h with (((rfl | rfl) | rfl) | rfl) | rfl <;> decide

namespace Constant.Spelt

open Text (isWordChar isQuote)

variable {tok : Token} {u : Text} {stops : Char → Bool}

/-- No quote is part of a token that is spelt. -/
theorem not_isQuote (h : Spelt tok u stops) : ∀ c ∈ u, isQuote c = false := by
  have hword {c : Char} : isWordChar c = true → isQuote c = false := Text.not_isQuote_of_isWordChar
  cases h with
  | dollar hdigits hn =>
    exact List.forall_mem_cons.2 ⟨rfl, fun d hd => hword (isWordChar_of_isDigitOf (hdigits d hd))⟩
  | hexadecimal hx hdigits hn =>
    refine List.forall_mem_cons.2
      ⟨rfl, List.forall_mem_cons.2 ⟨?_, fun d hd => hword (isWordChar_of_isDigitOf (hdigits d hd))⟩⟩
    rcases hx with rfl | rfl <;> rfl
  | whole hdigits hn => exact fun d hd => hword (isWordChar_of_isDigit (hdigits d hd))
  | fraction hdigits hplaces =>
    refine List.forall_mem_append.2 ⟨fun d hd => hword (isWordChar_of_isDigit (hdigits d hd)), ?_⟩
    exact List.forall_mem_cons.2 ⟨rfl, fun d hd => hword (isWordChar_of_isDigit (hplaces d hd))⟩
  | word h => exact fun d hd => hword ((Token.text_of_isWord h).2.1 d hd)
  | symbol h => exact fun d hd => ((Token.text_of_isSymbol h).2 d hd).2.1

/-- Only at the start of a token is a dollar sign. -/
theorem dollar_not_mem_tail (h : Spelt tok u stops) : '$' ∉ u.tail := by
  have hword {t : Text} (ht : ∀ d ∈ t, isWordChar d = true) : '$' ∉ t :=
    fun hmem => nomatch ht '$' hmem
  cases h with
  | dollar hdigits hn => exact hword fun d hd => isWordChar_of_isDigitOf (hdigits d hd)
  | hexadecimal hx hdigits hn =>
    refine hword fun d hd => ?_
    rcases List.mem_cons.1 hd with rfl | hd
    · rcases hx with rfl | rfl <;> rfl
    · exact isWordChar_of_isDigitOf (hdigits d hd)
  | whole hdigits hn =>
    exact fun hmem => hword (fun d hd => isWordChar_of_isDigit (hdigits d hd))
      (List.mem_of_mem_tail hmem)
  | fraction hdigits hplaces =>
    intro hmem
    rcases List.mem_append.1 (List.mem_of_mem_tail hmem) with hmem | hmem
    · exact hword (fun d hd => isWordChar_of_isDigit (hdigits d hd)) hmem
    · exact hword (fun d hd => isWordChar_of_isDigit (hplaces d hd))
        ((List.mem_cons.1 hmem).resolve_left (by decide))
  | word h => exact fun hmem => hword (Token.text_of_isWord h).2.1 (List.mem_of_mem_tail hmem)
  | symbol h =>
    exact fun hmem => ((Token.text_of_isSymbol h).2 '$' (List.mem_of_mem_tail hmem)).2.2.1 rfl

/-- What starts like a number is one, and no operand goes on with it. -/
theorem not_goesOn (h : Spelt tok u stops) {c : Char} (hc : c ∈ u.head?)
    (hnumber : c = '$' ∨ c = '.' ∨ c.isDigit = true) :
    tok.goesOn = false := by
  cases h with
  | word h =>
    obtain ⟨-, hword, hdigit, -⟩ := Token.text_of_isWord h
    have hc' := hword c (List.mem_of_mem_head? hc)
    rcases hnumber with rfl | rfl | hnumber
    · cases hc'
    · cases hc'
    · rw [hdigit c (List.mem_of_mem_head? hc)] at hnumber
      cases hnumber
  | symbol h =>
    obtain ⟨hother, -, hdollar, hpoint⟩ := (Token.text_of_isSymbol h).2 c (List.mem_of_mem_head? hc)
    rcases hnumber with rfl | rfl | hnumber
    · exact absurd rfl hdollar
    · exact absurd rfl hpoint
    · have hword := isWordChar_of_isDigit hnumber
      rw [Text.not_isWordChar_of_isOtherChar hother] at hword
      cases hword
  | _ => rfl

end Constant.Spelt

namespace Output

open Text (isWordChar mark isQuote StartsNoWord)
open Literal (placeholder indexLimit)
open Constant (Token Value EvalFault Spelt Spells wrapInt isSeparator tokens eval)

/-! ### What is left of an expression -/

/-- A text and its tokens, the literals so far, and what is left when its numerals are short and its
rawcodes are literals. -/
inductive Respelt : Text → List Token → Literals → Text → Literals → Prop
  | nil (ls : Literals) : Respelt [] [] ls [] ls
  | blank {c : Char} {s out : Text} {ts : List Token} {ls ls' : Literals}
      (hc : isSeparator c = true)
      (h : Respelt s ts ls out ls') : Respelt (c :: s) ts ls (c :: out) ls'
  | kept {tok : Token} {u s out : Text} {stops : Char → Bool} {ts : List Token} {ls ls' : Literals}
      (hu : Spelt tok u stops) (hs : ∀ b ∈ s.head?, stops b = true)
      (hdollar : losesDollar (u ++ s) = false)
      (h : Respelt s ts ls out ls') : Respelt (u ++ s) (tok :: ts) ls (u ++ out) ls'
  | decimal {n : Nat} {u s out : Text} {stops : Char → Bool} {ts : List Token} {ls ls' : Literals}
      (hu : Spelt (.int (wrapInt n)) u stops) (hs : StartsNoWord s) (hn : n < 0x100000000)
      (hdollar : losesDollar (u ++ s) = true ∨ ∃ c ∈ u.head?, c.isDigit = true)
      (h : Respelt s ts ls out ls') :
      Respelt (u ++ s) (.int (wrapInt n) :: ts) ls (Text.ofNat n ++ out) ls'
  | rawcode {n : Nat} {u s out raw : Text} {stops : Char → Bool} {ts : List Token}
      {ls ls' : Literals}
      (hu : Spelt (.int (wrapInt n)) u stops) (hs : StartsNoWord s)
      (hraw : Literal.rawcode? n = some raw)
      (hdollar : losesDollar (u ++ s) = false) (h : Respelt s ts (ls.intern raw).2 out ls') :
      Respelt (u ++ s) (.int (wrapInt n) :: ts) ls (placeholder ls.size ++ out) ls'

/-- A short numeral is a rawcode or decimal digits. -/
theorem numeral_cases (n : Nat) :
    numeral n = Text.ofNat n ∨ ∃ raw, Literal.rawcode? n = some raw ∧ numeral n = raw ∧
    numeral n ≠ Text.ofNat n := by
  unfold numeral
  split
  · cases hraw : Literal.rawcode? n with
    | none => exact .inl rfl
    | some raw =>
      refine .inr ⟨raw, rfl, rfl, fun heq => ?_⟩
      obtain ⟨-, -, -, rfl⟩ := Literal.rawcode?_eq_some hraw
      have hdigit :=
        Literal.isDigit_of_mem_ofNat (k := n) (c := '\'') (by rw [← heq]; exact List.mem_cons_self)
      cases hdigit
  · exact .inl rfl

/-- A number in decimal starts with a digit. -/
theorem exists_digit_head? (n : Nat) (t : Text) :
    ∃ d ∈ (Text.ofNat n ++ t).head?, d.isDigit = true := by
  obtain ⟨d, rest, hd⟩ := List.exists_cons_of_ne_nil (Nat.toDigits_ne_nil (b := 10) (n := n))
  have hmem : d ∈ Text.ofNat n := by
    rw [Text.ofNat, hd]
    exact List.mem_cons_self
  exact ⟨d, by rw [Text.ofNat, hd]; rfl, Literal.isDigit_of_mem_ofNat hmem⟩

section Tokens

variable {held : Literals} {us : List Token}

/-- Digits make another word of a word before them. -/
theorem tokens_word_ne {tok : Token} {t : Text} (hword : tok.isWord = true)
    (ht : ∃ d ∈ t.head?, d.isDigit = true) :
    tokens held (tok.text ++ t) ≠ .ok us := by
  obtain ⟨d, hd, hdigit⟩ := ht
  obtain ⟨hne, hletters, hdigits, -⟩ := Token.text_of_isWord hword
  have hrun : ∀ e ∈ tok.text ++ t.takeWhile isWordChar, isWordChar e = true :=
    List.forall_mem_append.2 ⟨hletters, List.all_eq_true.1 List.all_takeWhile⟩
  have hfirst : ∀ e ∈ (tok.text ++ t.takeWhile isWordChar).head?, e.isDigit = false := by
    rw [List.head?_append_of_ne_nil _ hne]
    exact fun e he => hdigits e (List.mem_of_mem_head? he)
  have hcut := Constant.CutOff.word (List.append_ne_nil_of_left_ne_nil hne _) hrun hfirst
    (Text.head?_dropWhile t)
  rw [List.append_assoc, List.takeWhile_append_dropWhile] at hcut
  have hpieces := hcut.piecesOf_eq fun c hc => by
    rw [List.head?_append_of_ne_nil _ hne] at hc
    exact Constant.isSeparator_of_isWordChar (hletters c (List.mem_of_mem_head? hc))
  intro htokens
  obtain ⟨tok', -, htok⟩ :=
    Constant.exists_token_of_mem htokens (by rw [hpieces]; exact List.mem_cons_self)
  obtain ⟨hword', htext'⟩ := Token.isWord_of_wordToken htok
  have hmem : d ∈ tok'.text := by
    obtain ⟨more, rfl⟩ := List.head?_eq_some_iff.1 hd
    rw [← htext', List.takeWhile_cons_of_pos (Constant.isWordChar_of_isDigit hdigit)]
    simp
  rw [(Token.text_of_isWord hword').2.2.1 d hmem] at hdigit
  cases hdigit

/-- A placeholder is the number of its rawcode. -/
theorem tokens_placeholder_append {k n : Nat} {raw t : Text} (hk : k < indexLimit)
    (hget : held.get? k = some raw) (hraw : Literal.rawcodeValue? raw = some n) :
    tokens held (placeholder k ++ t) = .ok us ↔ ∃ vs, us = .int (wrapInt n) :: vs ∧
    tokens held t = .ok vs := by
  have hcut := Constant.CutOff.placeholder (Text.ofNat k ++ mark :: t)
  rw [Text.throughMark_append (Literal.mark_not_mem_ofNat k),
    Text.afterMark_append (Literal.mark_not_mem_ofNat k)] at hcut
  have htoken :
      (Constant.Piece.placeholder (placeholder k)).token held = .ok (.int (wrapInt n)) := by
    rw [Constant.Piece.token, Literals.lookup?, Literal.placeholderId?_placeholder hk,
      Option.bind_some, hget, Option.bind_some, hraw]
  rw [placeholder, List.cons_append, List.cons_append, List.append_assoc, List.singleton_append]
  exact hcut.tokens_eq_ok htoken

end Tokens

/-- Shortening and lifting respell an expression token by token. -/
theorem respelt_of_spells {s : Text} {ts : List Token} (h : Spells s ts) (before : Option Char)
    (ls : Literals) :
    Respelt s ts ls (ls.lift (shortenFrom before s)).1 (ls.lift (shortenFrom before s)).2 := by
  induction h generalizing before ls with
  | nil =>
    rw [shortenFrom_nil, Literals.lift]
    exact .nil ls
  | @blank c t ts hc _ ih =>
    obtain ⟨hother, hdollar, hquote⟩ := Constant.isOtherChar_of_isSeparator hc
    have hlift := ls.lift_append (u := [c]) (by simpa using hquote) (shortenFrom (some c) t)
    rw [List.singleton_append] at hlift
    rw [shortenFrom_other hother (.inl hdollar), hlift]
    exact .blank hc (ih (some c) ls)
  | @cons tok u t stops ts hu hstops h ih =>
    cases outcome_of_spelt hu hstops (fun x => Constant.head?_of_tokens (h.tokens_eq {}))
        before with
    | kept hdollar heq =>
      rw [heq, ls.lift_append hu.not_isQuote]
      exact .kept hu hstops (by rw [losesDollar, hdollar]; rfl) (ih u.getLast? ls)
    | short n htok hn hmore hdollar heq =>
      subst htok
      rw [heq]
      rcases numeral_cases n with hdecimal | ⟨raw, hraw, hnumeral, hne⟩
      · have hplain : ∀ d ∈ Text.ofNat n, isQuote d = false := fun d hd =>
          Text.not_isQuote_of_isWordChar
            (Constant.isWordChar_of_isDigit (Literal.isDigit_of_mem_ofNat hd))
        rw [hdecimal, ls.lift_append hplain]
        refine .decimal hu hmore hn (hdollar.imp_left fun hdollar => ?_) (ih u.getLast? ls)
        rw [losesDollar, hdollar]
        simpa using hdecimal
      · rw [hnumeral, Literals.lift_rawcode hraw]
        refine .rawcode hu hmore hraw ?_ (ih u.getLast? (ls.intern raw).2)
        rcases hdollar with hdollar | ⟨c, hc, hdigit⟩
        · rw [losesDollar, hdollar]
          simpa using hne
        · rw [losesDollar, dollarValue?_eq_none fun d hd => ?_]
          · rfl
          · rw [List.head?_append_of_ne_nil _ hu.ne_nil] at hd
            obtain rfl := Option.some.inj (hc.symm.trans hd)
            rintro rfl
            cases hdigit

namespace Respelt

variable {s out : Text} {ts us : List Token} {ls ls' held : Literals} {tok : Token}

/-- Literals are added after those that are there. -/
theorem texts_prefix (h : Respelt s ts ls out ls') : ls.texts <+: ls'.texts := by
  induction h with
  | nil => exact List.prefix_rfl
  | blank _ _ ih => exact ih
  | kept _ _ _ _ ih => exact ih
  | decimal _ _ _ _ _ ih => exact ih
  | rawcode _ _ _ _ _ ih => exact (List.prefix_append _ _).trans ih

/-- No more literals are added than there are characters. -/
theorem size_le (h : Respelt s ts ls out ls') : ls'.size ≤ ls.size + s.length := by
  induction h with
  | nil => exact Nat.le_refl _
  | blank _ _ ih =>
    rw [List.length_cons]
    omega
  | kept _ _ _ _ ih =>
    rw [List.length_append]
    omega
  | decimal _ _ _ _ _ ih =>
    rw [List.length_append]
    omega
  | @rawcode n u s out raw stops ts ls ls' hu _ _ _ _ ih =>
    have hpos := List.length_pos_of_ne_nil hu.ne_nil
    have hsize : (ls.intern raw).2.size = ls.size + 1 := by simp [Literals.intern, Literals.size]
    rw [List.length_append]
    omega

/-- What is left starts like the text, with a placeholder, or with digits of its first number. -/
theorem head?_cases (h : Respelt s ts ls out ls') :
    out.head? = s.head? ∨ out.head? = some mark ∨
      ∃ d ∈ out.head?, d.isDigit = true ∧
      (losesDollar s = true ∨ ∃ c ∈ s.head?, c.isDigit = true) := by
  cases h with
  | nil => exact .inl rfl
  | blank => exact .inl rfl
  | kept hu =>
    exact .inl
      (by rw [List.head?_append_of_ne_nil _ hu.ne_nil, List.head?_append_of_ne_nil _ hu.ne_nil])
  | @decimal n u s out stops ts ls ls' hu hs hn hdollar h =>
    obtain ⟨d, hd, hdigit⟩ := exists_digit_head? n out
    refine .inr (.inr ⟨d, hd, hdigit, ?_⟩)
    rwa [List.head?_append_of_ne_nil _ hu.ne_nil]
  | rawcode => exact .inr (.inl rfl)

/-- No number follows the end of an operand. -/
theorem not_number_of_ends (h : Respelt s ts ls out ls') (hchain : (tok :: ts).IsChain Token.Meets)
    (hends : tok.ends = true) :
    ∀ c ∈ s.head?, ¬ (c = '$' ∨ c = '.' ∨ c.isDigit = true) := by
  intro c hc hnumber
  have hspelt {tok' : Token} {u t : Text} {stops : Char → Bool} {us : List Token}
      (hu : Spelt tok' u stops)
      (hc : c ∈ (u ++ t).head?) (hchain : (tok :: tok' :: us).IsChain Token.Meets) : False := by
    have hmeets := (List.isChain_cons_cons.1 hchain).1
    rw [List.head?_append_of_ne_nil _ hu.ne_nil] at hc
    rw [Token.Meets, if_pos hends, hu.not_goesOn hc hnumber] at hmeets
    cases hmeets
  cases h with
  | nil => cases hc
  | blank hsep =>
    obtain rfl := Option.some.inj hc
    rcases hnumber with rfl | rfl | hdigit
    · cases hsep
    · cases hsep
    · rw [Constant.isSeparator_of_isWordChar (Constant.isWordChar_of_isDigit hdigit)] at hsep
      cases hsep
  | kept hu => exact hspelt hu hc hchain
  | decimal hu => exact hspelt hu hc hchain
  | rawcode hu => exact hspelt hu hc hchain

theorem losesDollar_of_ends (h : Respelt s ts ls out ls') (hchain : (tok :: ts).IsChain Token.Meets)
    (hends : tok.ends = true) :
    losesDollar s = false := by
  by_contra hlost
  exact h.not_number_of_ends hchain hends '$' (head?_of_losesDollar (by simpa using hlost))
    (.inl rfl)

/-- What ends a number ends it where the text after it is respelt. -/
theorem head?_of_ends (h : Respelt s ts ls out ls') (hchain : (tok :: ts).IsChain Token.Meets)
    (hends : tok.ends = true) :
    out.head? = s.head? ∨ out.head? = some mark := by
  rcases h.head?_cases with hhead | hhead | ⟨d, -, -, hlost | ⟨c, hc, hdigit⟩⟩
  · exact .inl hhead
  · exact .inr hhead
  · rw [h.losesDollar_of_ends hchain hends] at hlost
    cases hlost
  · exact absurd (.inr (.inr hdigit)) (h.not_number_of_ends hchain hends c hc)

/-- What ends a token ends it where the text after it is respelt, unless a word fuses there. -/
theorem stops_head? {u : Text} {stops : Char → Bool} (h : Respelt s ts ls out ls')
    (hu : Spelt tok u stops)
    (hs : ∀ b ∈ s.head?, stops b = true) (hchain : (tok :: ts).IsChain Token.Meets)
    (hfuses : (u.getLast?.any isWordChar && losesDollar s) = false) :
    ∀ b ∈ out.head?, stops b = true := by
  have hmark : stops mark = true := by
    cases hu with
    | symbol => simp [mark]
    | _ => decide
  have hsame (hhead : out.head? = s.head? ∨ out.head? = some mark) :
      ∀ b ∈ out.head?, stops b = true := by
    rcases hhead with hhead | hhead
    · rwa [hhead]
    · rw [hhead]
      rintro b hb
      rwa [← Option.some.inj hb]
  rcases h.head?_cases with hhead | hhead | ⟨d, hd, hdigit, hfirst⟩
  · exact hsame (.inl hhead)
  · exact hsame (.inr hhead)
  · intro b hb
    obtain rfl := Option.some.inj (hd.symm.trans hb)
    cases hu with
    | word hword =>
      obtain ⟨hne, hletters, -⟩ := Token.text_of_isWord hword
      rcases hfirst with hlost | ⟨c, hc, hfirst⟩
      · rw [List.getLast?_eq_some_getLast hne, Option.any_some, hletters _ (List.getLast_mem hne),
          hlost] at hfuses
        cases hfuses
      · have hstops : (!isWordChar c) = true := hs c hc
        rw [Constant.isWordChar_of_isDigit hfirst] at hstops
        cases hstops
    | symbol =>
      have hne : d ≠ '=' := by
        rintro rfl
        cases hdigit
      simp [hne]
    | _ => exact hsame (h.head?_of_ends hchain rfl) d hb

/-- A dollar sign that goes leaves digits. -/
theorem exists_digit_of_losesDollar (h : Respelt s ts ls out ls') (hlost : losesDollar s = true) :
    ∃ d ∈ out.head?, d.isDigit = true := by
  cases h with
  | nil => cases hlost
  | blank hc =>
    obtain rfl := Option.some.inj (head?_of_losesDollar hlost)
    cases hc
  | kept _ _ hdollar =>
    rw [hdollar] at hlost
    cases hlost
  | @decimal n => exact exists_digit_head? n _
  | rawcode _ _ _ hdollar =>
    rw [hdollar] at hlost
    cases hlost

/-- What is left of an expression has its tokens unless a word fuses. -/
theorem tokens_eq_ok (h : Respelt s ts ls out ls') (hchain : ts.IsChain Token.Meets)
    (hheld : ls'.texts <+: held.texts)
    (hlimit : held.size ≤ indexLimit) : tokens held out = .ok us ↔ us = ts ∧ fuses s = false := by
  induction h generalizing us with
  | nil =>
    rw [Constant.tokens_nil, Except.ok.injEq]
    exact ⟨fun h => ⟨h.symm, rfl⟩, fun h => h.1.symm⟩
  | blank hsep h ih =>
    have hother := (Constant.isOtherChar_of_isSeparator hsep).1
    rw [Constant.tokens_separator hsep, ih hchain hheld, fuses,
      Text.not_isWordChar_of_isOtherChar hother, Bool.false_and, Bool.false_or]
  | @kept tok u s out stops ts ls ls' hu hs hdollar h ih =>
    rw [fuses_append hu.ne_nil hu.dollar_not_mem_tail]
    by_cases hfuses : (u.getLast?.any isWordChar && losesDollar s) = true
    · -- the word goes on with the digits
      obtain ⟨hlast, hlost⟩ := Bool.and_eq_true_iff.1 hfuses
      refine iff_of_false (fun htokens => ?_) (by simp [hfuses])
      cases hu with
      | word hword => exact tokens_word_ne hword (h.exists_digit_of_losesDollar hlost) htokens
      | symbol hsymbol =>
        obtain ⟨c, hc, hcword⟩ := (Option.any_eq_true _ _).1 hlast
        have hother := ((Token.text_of_isSymbol hsymbol).2 c (List.mem_of_mem_getLast? hc)).1
        rw [Text.not_isWordChar_of_isOtherChar hother] at hcword
        cases hcword
      | _ =>
        rw [h.losesDollar_of_ends hchain rfl] at hlost
        cases hlost
    · rw [Bool.not_eq_true] at hfuses
      rw [hu.tokens_append (h.stops_head? hu hs hchain hfuses), hfuses, Bool.false_or]
      simp only [ih hchain.tail hheld]
      grind
  | @decimal n u s out stops ts ls ls' hu hs hn hdollar h ih =>
    have hends : ∀ b ∈ out.head?, Constant.endsDigits b = true := by
      rcases h.head?_of_ends hchain rfl with hhead | hhead <;> rw [hhead]
      · intro b hb
        have hword := startsNoWord_iff.1 hs b hb
        obtain ⟨-, hpoint, hdigit⟩ : b ≠ '$' ∧ b ≠ '.' ∧ b.isDigit = false := by
          simpa using h.not_number_of_ends hchain rfl b hb
        refine Constant.endsDigits_eq_true.2 ⟨hdigit, hpoint, ?_, ?_⟩ <;> rintro rfl <;> cases hword
      · intro b hb
        obtain rfl := Option.some.inj hb
        rfl
    rw [fuses_append hu.ne_nil hu.dollar_not_mem_tail, h.losesDollar_of_ends hchain rfl,
      Bool.and_false, Bool.false_or, (Constant.spelt_ofNat hn).tokens_append hends]
    simp only [ih hchain.tail hheld]
    grind
  | @rawcode n u s out raw stops ts ls ls' hu hs hraw hdollar h ih =>
    -- the literal stays at its number
    have hprefix : ls.texts ++ [raw] <+: held.texts := h.texts_prefix.trans hheld
    have hlt : ls.size < held.size := by
      have := hprefix.length_le
      rw [List.length_append, List.length_singleton] at this
      exact this
    have hget : held.get? ls.size = some raw := by
      obtain ⟨more, hmore⟩ := hprefix
      rw [Literals.get?, Literals.size, ← hmore, List.append_assoc,
        List.getElem?_append_right (Nat.le_refl _), Nat.sub_self]
      rfl
    rw [fuses_append hu.ne_nil hu.dollar_not_mem_tail, h.losesDollar_of_ends hchain rfl,
      Bool.and_false, Bool.false_or,
      tokens_placeholder_append (Nat.lt_of_lt_of_le hlt hlimit) hget
        (Literal.rawcodeValue?_rawcode hraw)]
    simp only [ih hchain.tail hheld, Int.toNat_natCast]
    grind

end Respelt

/-- **Short numerals leave an expression its value unless a word fuses**, and then it has none. -/
theorem evalShortened_eq_ok {s : Text} {v : Value} (h : eval {} s = .ok v)
    (hlength : s.length ≤ indexLimit) :
    evalShortened s = .ok v ↔ fuses s = false := by
  obtain ⟨ts, hts, hv⟩ := bind_eq_ok.1 h
  obtain ⟨e, he, -⟩ := Constant.written_of_evalTokens hv
  have hrespelt := respelt_of_spells (Constant.tokens_eq_ok_iff_spells.1 hts) none {}
  have hlimit := hrespelt.size_le
  rw [show Literals.size {} = 0 from rfl, Nat.zero_add] at hlimit
  have htokens (us : List Token) :
      tokens (Literals.lift {} (shortenNumerals s)).2
        (Literals.lift {} (shortenNumerals s)).1 = .ok us ↔
        us = ts ∧ fuses s = false :=
    hrespelt.tokens_eq_ok he.coherent.chain List.prefix_rfl (hlimit.trans hlength)
  rw [evalShortened, eval, bind_eq_ok]
  constructor
  · rintro ⟨us, hus, -⟩
    exact ((htokens us).1 hus).2
  · intro hfuses
    exact ⟨ts, (htokens ts).2 ⟨rfl, hfuses⟩, hv⟩

/-- The first number is left as a literal, and the last in decimal. -/
theorem evalShortened_rawcode :
    eval {} "$41424344==0x41424344 and 10<$10".toList = .ok (.bool true) ∧
      evalShortened "$41424344==0x41424344 and 10<$10".toList = .ok (.bool true) := by
  have h : eval {} "$41424344==0x41424344 and 10<$10".toList = .ok (.bool true) := by decide +kernel
  exact ⟨h, (evalShortened_eq_ok h (by decide +kernel)).2 (by decide +kernel)⟩

/-- The word and the number are one word when the dollar sign between them is gone. -/
theorem evalShortened_fused :
    eval {} "false or$10<20".toList = .ok (.bool true) ∧
      evalShortened "false or$10<20".toList = .error (.notConstant "or16".toList) := by
  decide +kernel

end Output

end ScriptMinifier
