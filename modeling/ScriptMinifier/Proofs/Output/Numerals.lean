import ScriptMinifier.Proofs.Constant.Pieces
import ScriptMinifier.Proofs.Output.Shortening

/-! What shortening makes of the tokens of an expression.

A token that is spelt stays as it is, or it is a number that takes up all of its word, and then its
short numeral stands in its place (`outcome_of_spelt`). What follows is made short as if it stood
alone, behind the last character of the token. -/
namespace ScriptMinifier.Output

open Text (mark isWordChar isOtherChar isDigitOf segments StartsNoWord Segment)
open Constant (Token Spelt wrapInt)

/-! ### Words of an expression -/

theorem startsNoWord_iff {t : Text} : StartsNoWord t ↔ ∀ b ∈ t.head?, isWordChar b = false := by
  constructor
  · intro h b hb
    obtain ⟨rest, rfl⟩ := List.head?_eq_some_iff.1 hb
    exact h b rest rfl
  · rintro h b rest rfl
    exact h b rfl

/-- A word with a letter first stays. -/
theorem shortenWord_of_head (before after : Option Char) {w : Text}
    (h : ∀ c ∈ w.head?, c.isDigit = false) :
    shortenWord before after w = w := by
  rw [shortenWord, if_neg]
  rw [Option.any_eq_true]
  rintro ⟨c, hc, hdigit⟩
  rw [h c hc] at hdigit
  cases hdigit

/-- The rest of a word that a letter goes on with is a word of its own. -/
theorem shortenFrom_rest {r more : Text}
    (hmore : ∀ c ∈ more.head?, isWordChar c = true → c.isDigit = false) :
    more.takeWhile isWordChar ++
      shortenFrom (r ++ more.takeWhile isWordChar).getLast? (more.dropWhile isWordChar) =
      shortenFrom r.getLast? more := by
  have htake : ∀ c ∈ more.takeWhile isWordChar, isWordChar c = true :=
    fun c hc => List.all_eq_true.1 List.all_takeWhile c hc
  have hsplit : more.takeWhile isWordChar ++ more.dropWhile isWordChar = more :=
    List.takeWhile_append_dropWhile
  by_cases hnil : more.takeWhile isWordChar = []
  · rw [hnil, List.nil_append] at hsplit
    rw [hnil, hsplit, List.append_nil, List.nil_append]
  · have hhead : ∀ c ∈ (more.takeWhile isWordChar).head?, c.isDigit = false := by
      intro c hc
      have hmem : c ∈ more.head? := by
        rw [← hsplit, List.head?_append_of_ne_nil _ hnil]
        exact hc
      exact hmore c hmem (htake c (List.mem_of_mem_head? hc))
    have hrest := @shortenFrom_word r.getLast? _ _ hnil htake (Text.startsNoWord_dropWhile more)
    rw [shortenWord_of_head _ _ hhead, hsplit] at hrest
    rw [hrest, List.getLast?_append_of_ne_nil _ hnil]

/-- The start of a word stays when the word does. -/
theorem shortenFrom_word_append {r more : Text} (hne : r ≠ []) (hr : ∀ c ∈ r, isWordChar c = true)
    (hmore : ∀ c ∈ more.head?, isWordChar c = true → c.isDigit = false) (before : Option Char)
    (hkept : shortenWord before (more.dropWhile isWordChar).head? (r ++ more.takeWhile isWordChar) =
      r ++ more.takeWhile isWordChar) :
    shortenFrom before (r ++ more) = r ++ shortenFrom r.getLast? more := by
  have hrun : ∀ c ∈ r ++ more.takeWhile isWordChar, isWordChar c = true := fun c hc =>
    (List.mem_append.1 hc).elim (hr c) fun hc => List.all_eq_true.1 List.all_takeWhile c hc
  have hwhole :=
    @shortenFrom_word before _ _ (by simp [hne]) hrun (Text.startsNoWord_dropWhile more)
  rw [hkept, List.append_assoc, List.takeWhile_append_dropWhile] at hwhole
  rw [hwhole, List.append_assoc, shortenFrom_rest hmore]

/-- The number that a dollar sign at the start of a text goes with. -/
def dollarValue? : Text → Option Nat
  | '$' :: t => hexValue? (t.takeWhile isWordChar)
  | _ => none

theorem dollarValue?_eq_none {t : Text} (h : ∀ c ∈ t.head?, c ≠ '$') : dollarValue? t = none := by
  unfold dollarValue?
  split
  · exact absurd rfl (h '$' rfl)
  · rfl

/-- What follows is as it was, and so is the token or it is a numeral made short. -/
inductive Outcome (before : Option Char) (tok : Token) (u more : Text) : Prop
  | kept (hdollar : dollarValue? (u ++ more) = none)
      (htext : shortenFrom before (u ++ more) = u ++ shortenFrom u.getLast? more)
  | short (n : Nat) (htok : tok = .int (wrapInt n)) (hn : n < 0x100000000)
      (hmore : StartsNoWord more)
      (hdollar : dollarValue? (u ++ more) = some n ∨ ∃ c ∈ u.head?, c.isDigit = true)
      (htext : shortenFrom before (u ++ more) = numeral n ++ shortenFrom u.getLast? more)

section Outcome

variable {more digits : Text} {n : Int}

theorem isDigitOf_sixteen {c : Char} (h : c.isDigit = true) : isDigitOf 16 c = true := by
  have hten := Literal.isDigitOf_ten h
  rw [isDigitOf, Bool.and_eq_true, decide_eq_true_eq] at hten ⊢
  exact ⟨hten.1, by omega⟩

theorem isDigit_of_isDigitOf_ten {c : Char} (h : isDigitOf 10 c = true) : c.isDigit = true := by
  rw [isDigitOf, Text.digitValue, Bool.and_eq_true, decide_eq_true_eq] at h
  by_contra hdigit
  rw [if_neg hdigit] at h
  split_ifs at h <;> omega

theorem takeWhile_of_startsNoWord (h : StartsNoWord more) : more.takeWhile isWordChar = [] := by
  cases more with
  | nil => rfl
  | cons b rest => exact List.takeWhile_cons_of_neg (by simp [h b rest rfl])

/-- Digits that are all of a word are followed by no word. -/
theorem startsNoWord_of_readNat? {base m : Nat}
    (h : Text.readNat? base (digits ++ more.takeWhile isWordChar) = some m)
    (hmore : ∀ b ∈ more.head?, isDigitOf base b = false) : StartsNoWord more := by
  refine startsNoWord_iff.2 fun b hb => ?_
  by_contra hword
  rw [Bool.not_eq_false] at hword
  obtain ⟨rest, rfl⟩ := List.head?_eq_some_iff.1 hb
  unfold Text.readNat? at h
  split at h
  · rename_i hall
    have := List.all_eq_true.1 hall.2 b (by rw [List.takeWhile_cons_of_pos hword]; simp)
    rw [hmore b rfl] at this
    cases this
  · cases h

/-- Digits of base 16 with a value are all of a word. -/
theorem of_hexValue?_eq_some {k : Nat} (hn : Constant.readInt 16 digits = .ok n)
    (hmore : ∀ b ∈ more.head?, isDigitOf 16 b = false)
    (hvalue : hexValue? (digits ++ more.takeWhile isWordChar) = some k) :
    n = wrapInt k ∧ k < 0x100000000 ∧ StartsNoWord more ∧ hexValue? digits = some k := by
  obtain ⟨hread, -⟩ := Option.filter_eq_some_iff.1 hvalue
  have hstarts := startsNoWord_of_readNat? hread hmore
  rw [takeWhile_of_startsNoWord hstarts, List.append_nil] at hread hvalue
  obtain ⟨k', hk', hbound, hn⟩ := Constant.exists_readNat_of_readInt hn
  obtain rfl := Option.some.inj (hread.symm.trans hk')
  exact ⟨hn, hbound, hstarts, hvalue⟩

theorem not_isDigit_of_not_hexadecimal (hmore : ∀ b ∈ more.head?, isDigitOf 16 b = false) :
    ∀ c ∈ more.head?, isWordChar c = true → c.isDigit = false := fun c hc _ => by
  by_contra hdigit
  have := isDigitOf_sixteen (by simpa using hdigit)
  rw [hmore c hc] at this
  cases this

theorem outcome_dollar (hdigits : ∀ d ∈ digits, isDigitOf 16 d = true)
    (hn : Constant.readInt 16 digits = .ok n)
    (hmore : ∀ b ∈ more.head?, isDigitOf 16 b = false) (before : Option Char) :
    Outcome before (.int n) ('$' :: digits) more := by
  have hne := Spelt.ne_nil_of_readInt hn
  have hword : ∀ d ∈ digits, isWordChar d = true :=
    fun d hd => Constant.isWordChar_of_isDigitOf (hdigits d hd)
  have hlast : ('$' :: digits).getLast? = digits.getLast? := by
    rw [← List.singleton_append, List.getLast?_append_of_ne_nil _ hne]
  have hdollar :
      dollarValue? ('$' :: digits ++ more) = hexValue? (digits ++ more.takeWhile isWordChar) := by
    rw [List.cons_append, dollarValue?, List.takeWhile_append_of_pos hword]
  cases hvalue : hexValue? (digits ++ more.takeWhile isWordChar) with
  | none =>
    have hrun : ∀ c ∈ digits ++ more.takeWhile isWordChar, isWordChar c = true := fun c hc =>
      (List.mem_append.1 hc).elim (hword c) fun hc => List.all_eq_true.1 List.all_takeWhile c hc
    have hwhole :=
      @shortenFrom_dollar before _ _ (by simp [hne]) hrun (Text.startsNoWord_dropWhile more)
    rw [hvalue, List.append_assoc, List.takeWhile_append_dropWhile] at hwhole
    refine .kept (hdollar.trans hvalue) ?_
    rw [List.cons_append, hwhole, hlast, ← shortenFrom_rest (not_isDigit_of_not_hexadecimal hmore)]
    simp
  | some k =>
    obtain ⟨hn, hbound, hstarts, hwhole⟩ := of_hexValue?_eq_some hn hmore hvalue
    refine .short k (congrArg Token.int hn) hbound hstarts (.inl (hdollar.trans hvalue)) ?_
    rw [List.cons_append, shortenFrom_dollar hne hword hstarts, hwhole, hlast]

/-- A word that is a number in base 16 is made short when all of it is. -/
theorem shortenWord_hexadecimal {x : Char} (hx : x = 'x' ∨ x = 'X') (before after : Option Char)
    (t : Text) :
    shortenWord before after ('0' :: x :: t) = ((hexValue? t).map numeral).getD
    ('0' :: x :: t) := by
  rcases hx with rfl | rfl <;> rfl

/-- A word of digits stays, or all of it is a number that is made short. -/
theorem shortenWord_whole {c : Char} {t : Text} (hc : c.isDigit = true)
    (ht : ∀ x, x = 'x' ∨ x = 'X' → c = '0' → t.head? ≠ some x) (before after : Option Char) :
    shortenWord before after (c :: t) = c :: t ∨
      ∃ n, c ≠ '0' ∧ Text.readNat? 10 (c :: t) = some n ∧
        shortenWord before after (c :: t) = numeral n := by
  have hdigit : (c :: t).head?.any Char.isDigit = true := hc
  rw [shortenWord, if_pos hdigit]
  by_cases hzero : c = '0'
  · subst hzero
    refine .inl ?_
    unfold shortenNumber
    split
    · rename_i heq
      exact absurd (by rw [(List.cons.inj heq).2]; rfl) (ht 'x' (.inl rfl) rfl)
    · rename_i heq
      exact absurd (by rw [(List.cons.inj heq).2]; rfl) (ht 'X' (.inr rfl) rfl)
    · rfl
    · rename_i hother
      exact absurd rfl (hother t)
  · have hnumber : shortenNumber before after (c :: t) =
        if before = some '.' ∨
            after = some '.' then c ::
              t else ((Text.readNat? 10 (c :: t)).map numeral).getD (c :: t) := by
      unfold shortenNumber
      split
      all_goals first
        | rename_i heq
          exact absurd (List.cons.inj heq).1 hzero
        | rfl
    rw [hnumber]
    split
    · exact .inl rfl
    · cases hread : Text.readNat? 10 (c :: t) with
      | none => exact .inl rfl
      | some n => exact .inr ⟨n, hzero, rfl, rfl⟩

theorem outcome_hexadecimal {x : Char} (hx : x = 'x' ∨ x = 'X')
    (hdigits : ∀ d ∈ digits, isDigitOf 16 d = true)
    (hn : Constant.readInt 16 digits = .ok n) (hmore : ∀ b ∈ more.head?, isDigitOf 16 b = false)
    (before : Option Char) :
    Outcome before (.int n) ('0' :: x :: digits) more := by
  have hword : ∀ d ∈ '0' :: x :: digits, isWordChar d = true := by
    simp only [List.mem_cons]
    rintro d (rfl | rfl | hd)
    · rfl
    · rcases hx with rfl | rfl <;> rfl
    · exact Constant.isWordChar_of_isDigitOf (hdigits d hd)
  cases hvalue : hexValue? (digits ++ more.takeWhile isWordChar) with
  | none =>
    refine .kept rfl (shortenFrom_word_append (List.cons_ne_nil _ _) hword
      (not_isDigit_of_not_hexadecimal hmore) before ?_)
    rw [List.cons_append, List.cons_append, shortenWord_hexadecimal hx, hvalue]
    rfl
  | some k =>
    obtain ⟨hn, hbound, hstarts, hwhole⟩ := of_hexValue?_eq_some hn hmore hvalue
    refine .short k (congrArg Token.int hn) hbound hstarts (.inr ⟨'0', rfl, rfl⟩) ?_
    rw [shortenFrom_word (List.cons_ne_nil _ _) hword hstarts, shortenWord_hexadecimal hx, hwhole]
    rfl

theorem outcome_whole (hdigits : ∀ d ∈ digits, d.isDigit = true)
    (hn : Constant.readInt (Constant.baseOf digits) digits = .ok n)
    (hmore : ∀ b ∈ more.head?, Constant.endsDigits b = true)
    (before : Option Char) : Outcome before (.int n) digits more := by
  have hword : ∀ d ∈ digits, isWordChar d = true :=
    fun d hd => Constant.isWordChar_of_isDigit (hdigits d hd)
  obtain ⟨c, rest, rfl⟩ := List.exists_cons_of_ne_nil (Spelt.ne_nil_of_readInt hn)
  have hc := hdigits c List.mem_cons_self
  have hsign : ∀ x, x = 'x' ∨ x = 'X' → c = '0' →
      (rest ++ more.takeWhile isWordChar).head? ≠ some x := by
    rintro x hx - hhead
    cases rest with
    | nil =>
      have hmem : x ∈ more.head? := by
        rw [← List.takeWhile_append_dropWhile (p := isWordChar) (l := more), List.head?_append,
          ← List.nil_append (List.takeWhile _ _), hhead]
        rfl
      obtain ⟨-, -, hlower, hupper⟩ := Constant.endsDigits_eq_true.1 (hmore x hmem)
      exact hx.elim hlower hupper
    | cons d rest =>
      obtain rfl := Option.some.inj hhead
      have := hdigits d (by simp)
      rcases hx with rfl | rfl <;> cases this
  rcases shortenWord_whole hc hsign before (more.dropWhile isWordChar).head? with
    hkept | ⟨k, hzero, hread, hshort⟩
  · refine .kept (dollarValue?_eq_none fun d hd => ?_)
      (shortenFrom_word_append (List.cons_ne_nil _ _) hword
      (fun b hb _ => (Constant.endsDigits_eq_true.1 (hmore b hb)).1) before hkept)
    obtain rfl := Option.some.inj hd
    rintro rfl
    cases hc
  · have hten : ∀ b ∈ more.head?, isDigitOf 10 b = false := fun b hb => by
      by_contra hdigit
      have := isDigit_of_isDigitOf_ten (by simpa using hdigit)
      rw [(Constant.endsDigits_eq_true.1 (hmore b hb)).1] at this
      cases this
    rw [← List.cons_append] at hread
    have hstarts := startsNoWord_of_readNat? hread hten
    have hdrop : more.dropWhile isWordChar = more := by
      have := List.takeWhile_append_dropWhile (p := isWordChar) (l := more)
      rwa [takeWhile_of_startsNoWord hstarts] at this
    rw [takeWhile_of_startsNoWord hstarts, List.append_nil] at hread hshort
    have hbase : Constant.baseOf (c :: rest) = 10 := by
      rw [Constant.baseOf, if_neg]
      rintro ⟨-, hhead⟩
      exact hzero (Option.some.inj hhead)
    rw [hbase] at hn
    obtain ⟨k', hk', hbound, hn⟩ := Constant.exists_readNat_of_readInt hn
    obtain rfl := Option.some.inj (hread.symm.trans hk')
    refine .short k (congrArg Token.int hn) hbound hstarts (.inr ⟨c, rfl, hc⟩) ?_
    rw [shortenFrom_word (List.cons_ne_nil _ _) hword hstarts, ← hshort, hdrop]

/-- Digits beside a point stay. -/
theorem shortenWord_point {w : Text} (hw : ∀ x, x = 'x' ∨ x = 'X' → ∀ t, w ≠ '0' :: x :: t)
    {before after : Option Char}
    (h : before = some '.' ∨ after = some '.') : shortenWord before after w = w := by
  rw [shortenWord]
  split
  · unfold shortenNumber
    split
    · exact absurd rfl (hw 'x' (.inl rfl) _)
    · exact absurd rfl (hw 'X' (.inr rfl) _)
    · rfl
    · rw [if_pos h]
  · rfl

theorem ne_hexadecimal {w : Text} (h : ∀ d ∈ w, d.isDigit = true) :
    ∀ x, x = 'x' ∨ x = 'X' → ∀ t, w ≠ '0' :: x :: t := by
  rintro x hx t rfl
  have := h x (by simp)
  rcases hx with rfl | rfl <;> cases this

theorem outcome_fraction {places : Text} {x : Constant.Binary32}
    (hdigits : ∀ d ∈ digits, d.isDigit = true)
    (hplaces : ∀ d ∈ places, d.isDigit = true) (hmore : ∀ b ∈ more.head?, b.isDigit = false)
    (hx : ∀ x, x = 'x' ∨ x = 'X' → more.head? ≠ some x) (before : Option Char) :
    Outcome before (.real x) (digits ++ '.' :: places) more := by
  have hdollar : dollarValue? (digits ++ '.' :: places ++ more) = none := by
    refine dollarValue?_eq_none fun c hc => ?_
    cases digits with
    | nil =>
      obtain rfl := Option.some.inj hc
      decide
    | cons d rest =>
      obtain rfl := Option.some.inj hc
      have := hdigits d List.mem_cons_self
      rintro rfl
      cases this
  have hwhole (t : Text) :
      shortenFrom before (digits ++ '.' :: t) = digits ++ '.' :: shortenFrom (some '.') t := by
    have hpoint (before : Option Char) :
        shortenFrom before ('.' :: t) = '.' :: shortenFrom (some '.') t :=
      shortenFrom_other (by decide) (.inl (by decide))
    by_cases hne : digits = []
    · rw [hne, List.nil_append, List.nil_append, hpoint]
    · rw [shortenFrom_word hne (fun d hd => Constant.isWordChar_of_isDigit (hdigits d hd))
        (startsNoWord_iff.2 (by simp [isWordChar])), hpoint, List.head?_cons,
        shortenWord_point (ne_hexadecimal hdigits) (.inr rfl)]
  have hfraction : shortenFrom (some '.') (places ++ more) =
      places ++ shortenFrom ('.' :: places).getLast? more := by
    by_cases hne : places = []
    · rw [hne]
      rfl
    · rw [← List.singleton_append (l := places) (x := '.'), List.getLast?_append_of_ne_nil _ hne]
      refine shortenFrom_word_append hne (fun d hd => Constant.isWordChar_of_isDigit (hplaces d hd))
        (fun b hb _ => hmore b hb) _
        (shortenWord_point ?_ (.inl rfl))
      -- a sign of base 16 does not follow the places, and none of them is one
      rintro x hsign t heq
      cases places with
      | nil => exact hne rfl
      | cons d rest =>
        cases rest with
        | nil =>
          have hhead : (more.takeWhile isWordChar).head? = some x :=
            congrArg List.head? (List.cons.inj heq).2
          refine hx x hsign ?_
          rw [← List.takeWhile_append_dropWhile (p := isWordChar) (l := more), List.head?_append,
            hhead]
          rfl
        | cons e rest =>
          obtain rfl := (List.cons.inj (List.cons.inj heq).2).1
          have := hplaces e (by simp)
          rcases hsign with rfl | rfl <;> cases this
  refine .kept hdollar ?_
  rw [List.append_assoc, List.cons_append, hwhole, hfraction,
    List.getLast?_append_of_ne_nil _ (List.cons_ne_nil _ _), List.append_assoc, List.cons_append]

/-- Characters between words stay. -/
theorem shortenFrom_others {u : Text} (hu : ∀ c ∈ u, isOtherChar c = true ∧ c ≠ '$') (hne : u ≠ [])
    (before : Option Char) :
    shortenFrom before (u ++ more) = u ++ shortenFrom u.getLast? more := by
  induction u generalizing before with
  | nil => exact absurd rfl hne
  | cons c rest ih =>
    obtain ⟨hc, hdollar⟩ := hu c List.mem_cons_self
    rw [List.cons_append, shortenFrom_other hc (.inl hdollar)]
    by_cases hrest : rest = []
    · rw [hrest]
      rfl
    · rw [ih (fun d hd => hu d (List.mem_cons_of_mem c hd)) hrest,
        ← List.singleton_append (l := rest) (x := c), List.getLast?_append_of_ne_nil _ hrest]
      rfl

/-- What spells a token stays, or is a numeral made short. -/
theorem outcome_of_spelt {tok : Token} {u : Text} {stops : Char → Bool} (h : Spelt tok u stops)
    (hmore : ∀ b ∈ more.head?, stops b = true) (hx : ∀ x, x = 'x' ∨ x = 'X' → more.head? ≠ some x)
    (before : Option Char) : Outcome before tok u more := by
  cases h with
  | dollar hdigits hn =>
    exact outcome_dollar hdigits hn (fun b hb => by simpa using hmore b hb) before
  | hexadecimal hsign hdigits hn =>
    exact outcome_hexadecimal hsign hdigits hn (fun b hb => by simpa using hmore b hb) before
  | whole hdigits hn => exact outcome_whole hdigits hn hmore before
  | fraction hdigits hplaces =>
    exact outcome_fraction hdigits hplaces (fun b hb => by simpa using hmore b hb) hx before
  | word hword =>
    obtain ⟨hne, hw, hdigit, -⟩ := Constant.Token.text_of_isWord hword
    have hstarts : StartsNoWord more := startsNoWord_iff.2 fun b hb => by simpa using hmore b hb
    refine .kept (dollarValue?_eq_none fun c hc => ?_) ?_
    · rw [List.head?_append_of_ne_nil _ hne] at hc
      have := hw c (List.mem_of_mem_head? hc)
      rintro rfl
      cases this
    · rw [shortenFrom_word hne hw hstarts,
        shortenWord_of_head _ _ fun c hc => hdigit c (List.mem_of_mem_head? hc)]
  | symbol hsymbol =>
    obtain ⟨hne, hchars⟩ := Constant.Token.text_of_isSymbol hsymbol
    refine .kept (dollarValue?_eq_none fun c hc => ?_)
      (shortenFrom_others (fun c hc => ⟨(hchars c hc).1, (hchars c hc).2.2.1⟩) hne before)
    rw [List.head?_append_of_ne_nil _ hne] at hc
    exact (hchars c (List.mem_of_mem_head? hc)).2.2.1

end Outcome

end ScriptMinifier.Output
