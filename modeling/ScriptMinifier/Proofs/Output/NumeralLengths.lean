import ScriptMinifier.Proofs.Literal.Rawcodes
import ScriptMinifier.Proofs.Literal.Restoring
import ScriptMinifier.Proofs.Output.Shortening
import ScriptMinifier.Proofs.Text.Fields

/-! How long short numerals are.

A hexadecimal numeral is written in decimal whatever its size, so it may get longer. With `0x` it
never does, nor does a decimal numeral that becomes a rawcode. A dollar sign is one byte only, and
from five digits on the decimal form may need two digits more (`outgrows`). Each such number takes
one byte more, and nothing else makes a text longer (`byteLength_shortenNumerals_le`). -/
namespace ScriptMinifier

open Text (byteLength isWordChar isDigitOf dollarWords mark StartsNoWord)

/-! ### Digits -/

namespace Text

theorem utf8Size_of_isWordChar {c : Char} (h : isWordChar c = true) : c.utf8Size = 1 := by
  have hlt : c.val ≤ 0x7f := by
    simp only [isWordChar, Char.isAlphanum, Char.isAlpha, Char.isUpper, Char.isLower, Char.isDigit,
      Bool.or_eq_true, Bool.and_eq_true, decide_eq_true_eq, beq_iff_eq] at h
    rcases h with ((h | h) | h) | rfl
    · exact UInt32.le_trans h.2 (by decide)
    · exact UInt32.le_trans h.2 (by decide)
    · exact UInt32.le_trans h.2 (by decide)
    · decide
  exact Char.utf8Size_eq_one_iff.2 hlt

/-- A word has a byte for each character. -/
theorem byteLength_of_isWordChar {w : Text} (h : ∀ c ∈ w, isWordChar c = true) :
    byteLength w = w.length := by
  induction w with
  | nil => rfl
  | cons c rest ih =>
    rw [List.forall_mem_cons] at h
    rw [byteLength_cons, utf8Size_of_isWordChar h.1, ih h.2, List.length_cons, Nat.add_comm]

theorem readDigits_lt {base : Nat} {t : Text} (h : ∀ c ∈ t, isDigitOf base c = true) (n : Nat) :
    readDigits base t n < (n + 1) * base ^ t.length := by
  induction t generalizing n with
  | nil => simp [readDigits]
  | cons c rest ih =>
    rw [List.forall_mem_cons, isDigitOf, Bool.and_eq_true, decide_eq_true_eq] at h
    calc readDigits base (c :: rest) n
        < (n * base + digitValue c + 1) * base ^ rest.length := ih h.2 _
      _ ≤ ((n + 1) * base) * base ^ rest.length :=
        Nat.mul_le_mul_right _ (by rw [Nat.add_mul, Nat.one_mul]; omega)
      _ = (n + 1) * base ^ (c :: rest).length := by
        rw [List.length_cons, Nat.pow_succ, Nat.mul_assoc, Nat.mul_comm base]

theorem mul_pow_le_readDigits (base : Nat) (t : Text) (n : Nat) :
    n * base ^ t.length ≤ readDigits base t n := by
  induction t generalizing n with
  | nil => simp [readDigits]
  | cons c rest ih =>
    calc n * base ^ (c :: rest).length = n * base * base ^ rest.length := by
          rw [List.length_cons, Nat.pow_succ, Nat.mul_comm (base ^ rest.length), Nat.mul_assoc]
      _ ≤ (n * base + digitValue c) * base ^ rest.length :=
        Nat.mul_le_mul_right _ (Nat.le_add_right _ _)
      _ ≤ readDigits base (c :: rest) n := ih _

theorem ten_le_digitValue {c : Char} (h : c.isDigit = false) : 10 ≤ digitValue c := by
  rw [digitValue, h, if_neg Bool.false_ne_true]
  split
  · omega
  · split <;> omega

/-- A number has fewer values than its digits could spell. -/
theorem lt_of_readNat? {base n : Nat} {t : Text} (h : readNat? base t = some n) :
    n < base ^ t.length := by
  unfold readNat? at h
  split at h
  · rename_i hdigits
    rw [← Option.some.inj h]
    simpa using readDigits_lt (List.all_eq_true.1 hdigits.2) 0
  · cases h

theorem byteLength_ofNat (n : Nat) : byteLength (ofNat n) = (ofNat n).length :=
  byteLength_of_isWordChar fun _ hc => by
    rw [isWordChar, Char.isAlphanum, Nat.isDigit_of_mem_toDigits (by decide) (by decide) hc,
      Bool.or_true, Bool.true_or]

/-- A number has at most so many decimal digits just when it is below the power of ten. -/
theorem byteLength_ofNat_le_iff {n k : Nat} (hk : 0 < k) :
    byteLength (ofNat n) ≤ k ↔ n < 10 ^ k := by
  rw [byteLength_ofNat]
  constructor
  · intro h
    exact Nat.lt_of_lt_of_le (lt_of_readNat? (Literal.readNat?_ofNat n))
      (Nat.pow_le_pow_right (by decide) h)
  · exact Nat.toDigits_length 10 n k hk

end Text

/-! ### Numerals -/

namespace Output

variable {n k : Nat} {w t : Text}

theorem byteLength_rawcode {value : Int} {raw : Text} (h : Literal.rawcode? value = some raw) :
    byteLength raw = 6 := by
  have hdigit : ∀ k < 127, Literal.isPlainDigit k = true → (Char.ofNat k).utf8Size = 1 := by
    decide +kernel
  obtain ⟨-, -, hplain, rfl⟩ := Literal.rawcode?_eq_some h
  simp only [Literal.fourDigits, List.all_cons, List.all_nil, Bool.and_true,
    Bool.and_eq_true] at hplain
  obtain ⟨ha, hb, hc, hd⟩ := hplain
  have hsize {k : Nat} (hk : Literal.isPlainDigit k = true) :=
    hdigit k (Literal.lt_of_isPlainDigit hk) hk
  simp only [Literal.fourDigits, List.map_cons, List.map_nil, Text.byteLength_cons,
    Text.byteLength_append, Text.byteLength_nil, hsize ha, hsize hb, hsize hc, hsize hd]
  rfl

/-- A numeral is decimal, or a rawcode for a number of more digits than a rawcode has bytes. -/
theorem numeral_eq_or_byteLength (n : Nat) :
    (numeral n = Text.ofNat n ∧ (n ≤ decimalLimit ∨ Literal.rawcode? n = none)) ∨
      (decimalLimit < n ∧ byteLength (numeral n) = 6 ∧ Literal.rawcode? n ≠ none) := by
  unfold numeral
  split
  · rename_i hlarge
    cases hraw : Literal.rawcode? n with
    | none => exact .inl ⟨rfl, .inr rfl⟩
    | some raw => exact .inr ⟨hlarge, byteLength_rawcode hraw, nofun⟩
  · rename_i hsmall
    exact .inl ⟨rfl, .inl (Nat.le_of_not_lt hsmall)⟩

theorem numeral_ne_nil (n : Nat) : numeral n ≠ [] := by
  rcases numeral_eq_or_byteLength n with ⟨heq, -⟩ | ⟨-, hsix, -⟩
  · rw [heq]
    exact Nat.toDigits_ne_nil
  · intro hnil
    rw [hnil] at hsix
    cases hsix

/-- A numeral takes no more room than so many decimal digits. -/
theorem byteLength_numeral_le (hk : 0 < k) (h : n < 10 ^ k) : byteLength (numeral n) ≤ k := by
  rcases numeral_eq_or_byteLength n with ⟨heq, -⟩ | ⟨hlarge, heq, -⟩
  · rw [heq]
    exact (Text.byteLength_ofNat_le_iff hk).2 h
  · rw [heq]
    by_contra hlt
    have : 10 ^ k ≤ 10 ^ 6 := Nat.pow_le_pow_right (by decide) (by omega)
    unfold decimalLimit at hlarge
    omega

/-- Of a hexadecimal number the value is bounded by its digits and by the integers of the
language. -/
theorem lt_of_hexValue? (h : hexValue? w = some n) : n < 16 ^ w.length ∧ n < 0x80000000 := by
  obtain ⟨hread, hlt⟩ := Option.filter_eq_some_iff.1 h
  exact ⟨Text.lt_of_readNat? hread, of_decide_eq_true hlt⟩

/-- Two decimal digits more than the hexadecimal ones are always enough. -/
theorem lt_ten_pow_of_hexValue? (h : hexValue? w = some n) : n < 10 ^ (w.length + 2) := by
  obtain ⟨hdigits, hlt⟩ := lt_of_hexValue? h
  generalize w.length = k at hdigits ⊢
  by_cases hk : k ≤ 8
  · interval_cases k <;> omega
  · have : 10 ^ 10 ≤ 10 ^ (k + 2) := Nat.pow_le_pow_right (by decide) (by omega)
    omega

/-- A number after a dollar sign that takes more room than its digits and the sign: it has no
rawcode, and two decimal digits more than hexadecimal ones. -/
def outgrows (w : Text) : Bool :=
  (hexValue? w).any fun (n : Nat) => (Literal.rawcode? (n : Int)).isNone && decide
    (10 ^ (w.length + 1) ≤ n)

theorem outgrows_eq_true (h : hexValue? w = some n) :
    outgrows w = true ↔ Literal.rawcode? (n : Int) = none ∧ 10 ^ (w.length + 1) ≤ n := by
  rw [outgrows, h, Option.any_some, Bool.and_eq_true, decide_eq_true_eq, Option.isNone_iff_eq_none]

/-- Six digits in decimal are five in base 16 at the least. -/
theorem length_of_decimalLimit_lt (h : hexValue? w = some n) (hlarge : decimalLimit < n) :
    5 ≤ w.length := by
  obtain ⟨hdigits, -⟩ := lt_of_hexValue? h
  by_contra hlt
  have : 16 ^ w.length ≤ 16 ^ 4 := Nat.pow_le_pow_right (by decide) (by omega)
  unfold decimalLimit at hlarge
  omega

/-- A number after a dollar sign takes the room it took, or less, unless it outgrows it by one
byte. -/
theorem byteLength_numeral_of_hexValue? (h : hexValue? w = some n) :
    if outgrows w then byteLength (numeral n) = w.length + 2
    else byteLength (numeral n) ≤ w.length + 1 := by
  obtain ⟨hdigits, -⟩ := lt_of_hexValue? h
  have hupper := byteLength_numeral_le (Nat.succ_pos _) (lt_ten_pow_of_hexValue? h)
  rcases numeral_eq_or_byteLength n with ⟨heq, hcases⟩ | ⟨hlarge, heq, hsome⟩
  · split
    · rename_i hout
      have hlower := mt (Text.byteLength_ofNat_le_iff (Nat.succ_pos w.length)).1
        (Nat.not_lt.2 ((outgrows_eq_true h).1 hout).2)
      rw [heq] at hupper ⊢
      omega
    · rename_i hout
      refine byteLength_numeral_le (Nat.succ_pos _)
        (Nat.lt_of_not_le fun hle => hout ((outgrows_eq_true h).2 ⟨?_, hle⟩))
      refine hcases.resolve_left fun hsmall => ?_
      -- a number of at most six digits has no room to outgrow its own
      unfold decimalLimit at hsmall
      generalize w.length = k at hdigits hle
      by_cases hk : k ≤ 4
      · interval_cases k <;> omega
      · have : 10 ^ 6 ≤ 10 ^ (k + 1) := Nat.pow_le_pow_right (by decide) (by omega)
        omega
  · have hlength := length_of_decimalLimit_lt h hlarge
    rw [if_neg fun hout => hsome ((outgrows_eq_true h).1 hout).1]
    omega

/-- A hexadecimal number that starts with a letter has the least digits that such a number has. -/
theorem le_of_hexValue?_of_isIdent (hw : Text.isIdent w = true) (h : hexValue? w = some n) :
    10 * 16 ^ (w.length - 1) ≤ n := by
  obtain ⟨c, rest, rfl⟩ := List.exists_cons_of_ne_nil (Text.ne_nil_of_isIdent hw)
  have hdigit := Text.not_isDigit_of_isIdent hw c rfl
  obtain ⟨hread, -⟩ := Option.filter_eq_some_iff.1 h
  unfold Text.readNat? at hread
  split at hread
  · rw [← Option.some.inj hread]
    refine Nat.le_trans ?_ (Text.mul_pow_le_readDigits 16 rest (0 * 16 + Text.digitValue c))
    exact Nat.mul_le_mul_right _ (by simpa using Text.ten_le_digitValue hdigit)
  · cases hread

/-- A short name that is a number after a dollar sign takes as much room in decimal: it has a digit
more. -/
theorem byteLength_numeral_of_isIdent (hw : Text.isIdent w = true) (hlength : w.length ≤ 4)
    (h : hexValue? w = some n) :
    byteLength (numeral n) = w.length + 1 := by
  have hleast := le_of_hexValue?_of_isIdent hw h
  obtain ⟨hmost, -⟩ := lt_of_hexValue? h
  have hpos := List.length_pos_of_ne_nil (Text.ne_nil_of_isIdent hw)
  have hdecimal : numeral n = Text.ofNat n := by
    refine if_neg (Nat.not_lt.2 ?_)
    have : 16 ^ w.length ≤ 16 ^ 4 := Nat.pow_le_pow_right (by decide) hlength
    unfold decimalLimit
    omega
  have hupper : byteLength (Text.ofNat n) ≤ w.length + 1 := by
    refine (Text.byteLength_ofNat_le_iff (Nat.succ_pos _)).2 ?_
    generalize w.length = k at hlength hmost
    interval_cases k <;> omega
  have hlower : ¬ byteLength (Text.ofNat n) ≤ w.length := by
    refine mt (Text.byteLength_ofNat_le_iff hpos).1 ?_
    generalize w.length = k at hlength hleast hpos
    interval_cases k <;> omega
  rw [hdecimal]
  omega

/-! ### Words -/

theorem shortenWord_ne_nil (before after : Option Char) (hne : w ≠ []) :
    shortenWord before after w ≠ [] := by
  have hgetD (value : Option Nat) : (value.map numeral).getD w ≠ [] := by
    cases value with
    | none => exact hne
    | some n => exact numeral_ne_nil n
  rw [shortenWord]
  split
  · unfold shortenNumber
    repeat' split
    all_goals first | exact hne | exact hgetD _
  · exact hne

/-- No word gets longer. -/
theorem byteLength_shortenWord_le (before after : Option Char) (hw : ∀ c ∈ w, isWordChar c = true) :
    byteLength (shortenWord before after w) ≤ byteLength w := by
  have hhexadecimal : ∀ (x : Char) (digits : Text), '0' :: x :: digits = w →
      byteLength (((hexValue? digits).map numeral).getD w) ≤ byteLength w := by
    rintro x digits rfl
    cases hvalue : hexValue? digits with
    | none => exact Nat.le_refl _
    | some n =>
      rw [Text.byteLength_of_isWordChar hw]
      exact byteLength_numeral_le (Nat.succ_pos _) (lt_ten_pow_of_hexValue? hvalue)
  rw [shortenWord]
  split
  · unfold shortenNumber
    split
    · exact hhexadecimal 'x' _ rfl
    · exact hhexadecimal 'X' _ rfl
    · exact Nat.le_refl _
    · split
      · exact Nat.le_refl _
      · cases hread : Text.readNat? 10 w with
        | none => exact Nat.le_refl _
        | some n =>
          have hne : w ≠ [] := by
            rintro rfl
            cases hread
          rw [Text.byteLength_of_isWordChar hw]
          exact byteLength_numeral_le (List.length_pos_of_ne_nil hne) (Text.lt_of_readNat? hread)
  · exact Nat.le_refl _

/-! ### Texts -/

theorem dollarWords_dollar (hne : w ≠ []) (hw : ∀ c ∈ w, isWordChar c = true)
    (ht : StartsNoWord t) :
    dollarWords ('$' :: (w ++ t)) = w :: dollarWords t := by
  rw [dollarWords, if_neg (by decide), if_pos rfl, Text.lead?_append ht, Text.lead?_word hne hw,
    Text.dollarWords_append fun c hc => Text.isPlain_of_isWordChar (hw c hc)]
  rfl

theorem dollarWords_other {c : Char} (hc : Text.isOtherChar c = true)
    (h : c ≠ '$' ∨ StartsNoWord t) :
    dollarWords (c :: t) = dollarWords t := by
  by_cases hdollar : c = '$'
  · rw [dollarWords, if_neg (Text.ne_mark_of_isOtherChar hc), if_pos hdollar,
      Text.lead?_of_startsNoWord (h.resolve_left (not_not_intro hdollar))]
    rfl
  · exact Text.dollarWords_plain (by simp [Text.isPlain, hdollar, Text.ne_mark_of_isOtherChar hc]) t

theorem byteLength_shortenFrom_le (before : Option Char) (t : Text) :
    byteLength (shortenFrom before t) ≤ byteLength t + (dollarWords t).countP outgrows := by
  induction t using Text.numeralwise generalizing before with
  | nil => simp
  | placeholder rest ih =>
    have hsplit := congrArg byteLength (Text.throughMark_append_afterMark rest)
    have hrest := ih none
    rw [shortenFrom_mark, Text.dollarWords_mark]
    simp only [List.cons_append, Text.byteLength_cons, Text.byteLength_append] at hsplit ⊢
    rw [shortenNumerals, ← shortenFrom]
    omega
  | word w t hne hw ht ih =>
    have hword := byteLength_shortenWord_le before t.head? hw
    have hrest := ih w.getLast?
    rw [shortenFrom_word hne hw ht,
      Text.dollarWords_append fun c hc => Text.isPlain_of_isWordChar (hw c hc),
      Text.byteLength_append, Text.byteLength_append]
    omega
  | dollar w t hne hw ht ih =>
    have hrest := ih w.getLast?
    have hbytes := Text.byteLength_of_isWordChar hw
    have hsign : '$'.utf8Size = 1 := rfl
    rw [shortenFrom_dollar hne hw ht, dollarWords_dollar hne hw ht, List.countP_cons]
    cases hvalue : hexValue? w with
    | none =>
      simp only [List.cons_append, Text.byteLength_cons, Text.byteLength_append]
      omega
    | some n =>
      have hnumeral := byteLength_numeral_of_hexValue? hvalue
      simp only [Text.byteLength_cons, Text.byteLength_append]
      split at hnumeral <;> rename_i hout
      · rw [if_pos hout]
        omega
      · rw [if_neg hout]
        omega
  | other c t hc h ih =>
    have hrest := ih (some c)
    rw [shortenFrom_other hc h, dollarWords_other hc h, Text.byteLength_cons, Text.byteLength_cons]
    omega

/-- A number after a dollar sign by itself. -/
theorem byteLength_shortenNumerals_dollar (hne : w ≠ []) (hw : ∀ c ∈ w, isWordChar c = true) :
    (byteLength (shortenNumerals ('$' :: w)) = byteLength ('$' :: w) + 1) ↔ outgrows w = true := by
  have hshort : shortenFrom none ('$' :: (w ++ [])) = _ := shortenFrom_dollar hne hw nofun
  rw [List.append_nil, shortenFrom_nil, List.append_nil] at hshort
  have hbytes := Text.byteLength_of_isWordChar hw
  have hsign : '$'.utf8Size = 1 := rfl
  rw [show shortenNumerals ('$' :: w) = _ from hshort, Text.byteLength_cons]
  cases hvalue : hexValue? w with
  | none =>
    simp only [Text.byteLength_cons, outgrows, hvalue, Option.any_none, Bool.false_eq_true,
      iff_false]
    omega
  | some n =>
    have hnumeral := byteLength_numeral_of_hexValue? hvalue
    split at hnumeral <;> rename_i hout
    · simp only [hout, iff_true]
      omega
    · simp only [hout, Bool.false_eq_true, iff_false]
      omega

/-- **Short numerals make a text longer only by the numbers that outgrow their dollar sign**, and by
one byte for each of them. -/
theorem byteLength_shortenNumerals_le (t : Text) :
    byteLength (shortenNumerals t) ≤ byteLength t + (dollarWords t).countP outgrows ∧
      ∀ w ∈ dollarWords t,
      (byteLength (shortenNumerals ('$' :: w)) = byteLength ('$' :: w) + 1 ↔
        outgrows w = true) := by
  refine ⟨byteLength_shortenFrom_le none t, fun w hw => ?_⟩
  obtain ⟨hne, hchars⟩ := Text.mem_dollarWords hw
  exact byteLength_shortenNumerals_dollar hne hchars

/-- A million outgrows its five digits. -/
theorem million_outgrows :
    "F4240".toList ∈ dollarWords "$F4240".toList ∧ outgrows "F4240".toList = true ∧
      byteLength (shortenNumerals "$F4240".toList) = byteLength "$F4240".toList + 1 :=
  have hmem : "F4240".toList ∈ dollarWords "$F4240".toList := by decide +kernel
  have hout : outgrows "F4240".toList = true := by decide +kernel
  ⟨hmem, hout, ((byteLength_shortenNumerals_le "$F4240".toList).2 _ hmem).2 hout⟩

/-- So a text may get longer. -/
theorem dollar_lengthens : ¬ ∀ t, byteLength (shortenNumerals t) ≤ byteLength t := fun h =>
  absurd (h "$F4240".toList) (by decide +kernel)

end Output
end ScriptMinifier
