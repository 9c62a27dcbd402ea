import ScriptMinifier.Proofs.Constant.Names
import ScriptMinifier.Proofs.Constant.Substituting

/-! Values as literals.

A value is written as a literal of its type, unless it is an infinite real. Sums, products and
quotients that leave the range have no value, and an integer of 32 bits is small for a real. But
digits that stand for too large a real are read as infinity without a fault, and every infinite
value comes from such digits (`isLiteral_text_of_evalAs`). -/
namespace ScriptMinifier.Constant

/-! ### Finite values -/

namespace Binary32

/-- Rounding goes no further than to the next whole number. -/
theorem roundEven_le (num den : Nat) : roundEven num den ≤ num / den + 1 := by
  have : num / den % 2 ≤ 1 := Nat.le_of_lt_succ (Nat.mod_lt _ (by decide))
  unfold roundEven
  dsimp only
  split
  · omega
  · split <;> omega

/-- A fraction of few units is finite: at its 24th bit it is below twice the weight of the
exponent's last. -/
theorem magnitudeOf_lt {num den k : Nat} (h : num * unitsPerOne / den < 2 ^ (k + 24))
    (hk : k < 253) :
    magnitudeOf num den < infinityBits := by
  have hshift : (num * unitsPerOne / den).log2 - 23 ≤ k := by
    by_cases hzero : num * unitsPerOne / den = 0
    · rw [hzero]
      exact Nat.zero_le k
    · have := (Nat.log2_lt hzero).2 h
      omega
  have hbits : num * unitsPerOne / (den * Nat.pow 2 ((num * unitsPerOne / den).log2 - 23)) <
      2 ^ 24 := by
    rw [← Nat.div_div_eq_div_mul]
    refine (Nat.div_lt_iff_lt_mul (Nat.two_pow_pos _)).2 ?_
    calc num * unitsPerOne / den < 2 ^ ((num * unitsPerOne / den).log2 + 1) := Nat.lt_log2_self
      _ ≤ 2 ^ (24 + ((num * unitsPerOne / den).log2 - 23)) :=
        Nat.pow_le_pow_right (by decide) (by omega)
      _ = 2 ^ 24 * 2 ^ ((num * unitsPerOne / den).log2 - 23) := Nat.pow_add ..
  have hround :=
    roundEven_le (num * unitsPerOne) (den * Nat.pow 2 ((num * unitsPerOne / den).log2 - 23))
  refine Nat.lt_of_le_of_lt (Nat.min_le_left _ _) ?_
  unfold infinityBits exponentUnit
  omega

theorem isInfinite_ofMagnitude {negative : Bool} {m : Nat} (h : m < infinityBits) :
    (ofMagnitude negative m).isInfinite = false := by
  rw [isInfinite, magnitude_ofMagnitude _ (Nat.le_of_lt h)]
  exact beq_eq_false_iff_ne.2 (Nat.ne_of_lt h)

/-- Integers of 32 bits are far from infinity. -/
theorem isInfinite_ofInt {n : Int} (h : fitsInt n = true) : (ofInt n).isInfinite = false := by
  have hle : n.natAbs ≤ 2 ^ 31 := by
    simp only [fitsInt, Bool.and_eq_true, decide_eq_true_eq] at h
    omega
  refine isInfinite_ofMagnitude (magnitudeOf_lt (k := 157) ?_ (by decide))
  calc n.natAbs * unitsPerOne / 1
      ≤ 2 ^ 31 * 2 ^ 149 := by rw [Nat.div_one]; exact Nat.mul_le_mul_right _ hle
    _ < 2 ^ (157 + 24) := by decide

theorem isInfinite_of_isFinite {x : Binary32} (h : x.isFinite = true) : x.isInfinite = false := by
  rw [isFinite, decide_eq_true_eq] at h
  exact beq_eq_false_iff_ne.2 (Nat.ne_of_lt h)

theorem isInfinite_neg {x : Binary32} (h : x.isNaN = false) : x.neg.isInfinite = x.isInfinite := by
  rw [isInfinite, neg, magnitude_ofMagnitude _ (by simpa [isNaN] using h), isInfinite]

end Binary32

namespace Value

/-- A value that is no infinite real. -/
def Finite : Value → Prop
  | real x => x.isInfinite = false
  | _ => True

theorem kept_finite : Kept fun v => v.Proper ∧ v.Finite where
  ofInt h := by
    refine ⟨proper_ofInt h, ?_⟩
    unfold ofInt at h
    split at h <;> cases h
    trivial
  ofReal h := by
    refine ⟨proper_ofReal h, ?_⟩
    unfold ofReal at h
    split at h <;> cases h
    exact Binary32.isInfinite_of_isFinite ‹_›
  neg h := ⟨Binary32.isNaN_neg h.1, (Binary32.isInfinite_neg h.1).trans h.2⟩
  bool _ := ⟨trivial, trivial⟩

theorem finite_coerce {u v : Value} {type : Text} (hfits : u.Fits) (hu : u.Finite)
    (h : u.coerce type = .ok v) : v.Finite := by
  unfold coerce at h
  repeat' split at h
  all_goals cases h
  all_goals first | exact hu | exact Binary32.isInfinite_ofInt hfits

end Value

/-- Every infinite value comes from a real that is infinite as it stands. -/
theorem exists_infinite_of_evalAs {ls : Literals} {type t : Text} {v : Value}
    (h : evalAs ls type t = .ok v) (hv : ¬ v.Finite) :
    ∃ digits places, .fraction digits places ∈ piecesOf t ∧
    (Binary32.ofDigits digits places).isInfinite = true := by
  obtain ⟨u, hu, hcoerce⟩ := evalAs_eq_ok h
  by_contra hnone
  have hreal (digits places : Text) (hmem : .fraction digits places ∈ piecesOf t) :
      (Binary32.ofDigits digits places).isInfinite = false := by
    by_contra hinfinite
    exact hnone ⟨digits, places, hmem, Bool.eq_true_of_not_eq_false hinfinite⟩
  obtain ⟨-, hfinite⟩ := kept_of_pieces Value.kept_finite (fun _ => ⟨trivial, trivial⟩)
    (fun digits places hmem => ⟨Binary32.isNaN_ofFraction _ _ _, hreal digits places hmem⟩) hu
  exact hv (Value.finite_coerce (Value.fits_of_eval hu) hfinite hcoerce)

/-! ### Literals -/

/-- The literals of a type: the truth values, and digits after a minus sign or none; a real has a
point among its digits. -/
inductive IsLiteral : Text → Text → Prop
  | boolean (b : Bool) : IsLiteral "boolean".toList (Value.boolText b)
  | integer {sign digits : Text} (hsign : sign = [] ∨ sign = ['-'])
      (hdigits : ∀ c ∈ digits, c.isDigit = true)
      (hne : digits ≠ []) : IsLiteral "integer".toList (sign ++ digits)
  | real {sign whole places : Text} (hsign : sign = [] ∨ sign = ['-'])
      (hdigits : ∀ c ∈ whole ++ places, c.isDigit = true)
      (hne : whole ++ places ≠ []) : IsLiteral "real".toList (sign ++ whole ++ '.' :: places)

/-- A literal that is no truth value is made of digits, a minus sign and a point. -/
theorem IsLiteral.all_isNumeric {type t : Text} (h : IsLiteral type t) :
    (∃ b, t = Value.boolText b) ∨ t.all isNumeric = true := by
  have hsigned {sign digits : Text} (hsign : sign = [] ∨ sign = ['-'])
      (hdigits : ∀ c ∈ digits, c.isDigit = true ∨ c = '.') :
      (sign ++ digits).all isNumeric = true := by
    rw [List.all_append, Bool.and_eq_true]
    refine ⟨by rcases hsign with rfl | rfl <;> decide,
      List.all_eq_true.2 fun c hc => isNumeric_of_cases c ?_⟩
    exact (hdigits c hc).imp_right .inr
  cases h with
  | boolean b => exact .inl ⟨b, rfl⟩
  | integer hsign hdigits => exact .inr (hsigned hsign fun c hc => .inl (hdigits c hc))
  | real hsign hdigits =>
    rw [List.append_assoc]
    refine .inr (hsigned hsign fun c hc => ?_)
    rcases List.mem_append.1 hc with hc | hc
    · exact .inl (hdigits c (List.mem_append_left _ hc))
    · exact (List.mem_cons.1 hc).symm.imp_left fun hc => hdigits c (List.mem_append_right _ hc)

/-- A decimal has a digit before its point. -/
theorem Decimal.parts_fst_ne_nil (d : Decimal) : d.parts.1 ≠ [] := by
  have hdigits : Text.ofNat d.digits ≠ [] := Nat.toDigits_ne_nil
  rw [parts]
  split
  · simp [hdigits]
  · refine List.ne_nil_of_length_pos ?_
    dsimp only
    rw [List.length_take, List.length_append, List.length_replicate]
    omega

theorem Decimal.plain_cases (d : Decimal) :
    d.plain = d.parts.1 ++ '.' :: d.parts.2 ∨ d.parts.2 = [] ∧ d.plain = d.parts.1 := by
  rw [plain]
  dsimp only
  split
  · exact .inr ⟨‹_›, rfl⟩
  · exact .inl rfl

/-- A finite real is printed as digits, with a point among them or without, after its sign. -/
theorem Binary32.plain_cases {x : Binary32} (hnan : x.isNaN = false)
    (hfinite : x.isInfinite = false) :
    ∃ sign whole places : Text, (sign = [] ∨ sign = ['-']) ∧
    (∀ c ∈ whole ++ places, c.isDigit = true) ∧ whole ≠ [] ∧
      (x.plain = sign ++ whole ++ '.' :: places ∨ places = [] ∧ x.plain = sign ++ whole) := by
  have hsign : (if x.negative then ['-'] else []) = [] ∨
      (if x.negative then ['-'] else []) = ['-'] := by
    cases x.negative
    · exact .inl rfl
    · exact .inr rfl
  simp only [plain, textWith, hnan, hfinite, Bool.false_eq_true, if_false]
  generalize (if x.negative then ['-'] else []) = sign at hsign ⊢
  split
  · exact ⟨sign, ['0'], [], hsign, by decide, by decide, .inr ⟨rfl, rfl⟩⟩
  · generalize Decimal.shortest x = d
    obtain ⟨hwhole, hplaces⟩ := d.all_parts fun _ hc => hc
    refine ⟨sign, d.parts.1, d.parts.2, hsign, fun c hc => ?_, d.parts_fst_ne_nil, ?_⟩
    · exact (List.mem_append.1 hc).elim (List.all_eq_true.1 hwhole c) (List.all_eq_true.1 hplaces c)
    · rcases d.plain_cases with heq | ⟨hnone, heq⟩
      · rw [heq]
        exact .inl (List.append_assoc ..).symm
      · exact .inr ⟨hnone, by rw [heq]⟩

/-- A finite real is written as a literal: without the zero that stands alone before the point. -/
theorem Value.isLiteral_realText {x : Binary32} (hnan : x.isNaN = false)
    (hfinite : x.isInfinite = false) :
    IsLiteral "real".toList (realText x) := by
  obtain ⟨sign, whole, places, hsign, hdigits, hne, hplain⟩ := Binary32.plain_cases hnan hfinite
  have hdigit {c : Char} (hc : c ∈ whole ++ places) : c ≠ '.' ∧ c ≠ '-' := by
    have := hdigits c hc
    constructor <;> (rintro rfl; cases this)
  have hpointed : (if x.plain.contains '.' then x.plain else x.plain ++ ['.']) =
      sign ++ whole ++ '.' :: places := by
    rcases hplain with heq | ⟨rfl, heq⟩
    · rw [heq, if_pos (by simp)]
    · rw [heq, if_neg]
      rw [List.contains_iff_mem, List.mem_append]
      rintro (hc | hc)
      · rcases hsign with rfl | rfl <;> simp at hc
      · exact (hdigit (List.mem_append_left _ hc)).1 rfl
  -- what is left has a digit, or takes one
  have hliteral {sign whole : Text} (hsign : sign = [] ∨ sign = ['-'])
      (hdigits : ∀ c ∈ whole ++ places, c.isDigit = true)
      (t : Text) (ht : t = sign ++ whole ++ '.' :: places) :
      IsLiteral "real".toList (if t = ['.'] ∨ t = ['-', '.'] then ['0', '.'] else t) := by
    split
    · exact @IsLiteral.real [] ['0'] [] (.inl rfl) (by decide) (by decide)
    · rename_i hsome
      subst ht
      refine .real hsign hdigits fun hnone => hsome ?_
      obtain ⟨rfl, rfl⟩ := List.append_eq_nil_iff.1 hnone
      rcases hsign with rfl | rfl
      · exact .inl rfl
      · exact .inr rfl
  -- a zero right before the point is all of the whole part
  have hzero {rest places' : Text} (hwhole : whole = '0' :: rest)
      (heq : rest ++ '.' :: places = '.' :: places') :
      places' = places := by
    cases rest with
    | nil => exact (List.cons.inj heq).2.symm
    | cons c more =>
      obtain rfl := (List.cons.inj heq).1
      exact absurd rfl (hdigit (c := '.') (by simp [hwhole])).1
  obtain ⟨d, rest, hwhole⟩ := List.exists_cons_of_ne_nil hne
  have hplaces : ∀ c ∈ [] ++ places, c.isDigit = true :=
    fun c hc => hdigits c (List.mem_append_right _ hc)
  rw [realText, hpointed]
  split
  · rename_i places' heq
    rcases hsign with rfl | rfl
    · rw [hwhole] at heq
      obtain ⟨rfl, hrest⟩ := List.cons.inj heq
      exact hliteral (.inl rfl) hplaces _ (by rw [hzero hwhole hrest]; rfl)
    · cases heq
  · rename_i places' heq
    rcases hsign with rfl | rfl
    · rw [hwhole] at heq
      obtain ⟨rfl, heq⟩ := List.cons.inj heq
      exact absurd rfl (hdigit (c := '-') (by simp [hwhole])).2
    · rw [hwhole] at heq
      obtain ⟨rfl, hrest⟩ := List.cons.inj (List.cons.inj heq).2
      exact hliteral (.inr rfl) hplaces _ (by rw [hzero hwhole hrest]; rfl)
  · exact hliteral hsign hdigits _ rfl

/-- The text of an infinite real. -/
def infinityText (negative : Bool) : Text := if negative then "-inf.".toList else "inf.".toList

theorem Value.realText_of_isInfinite {x : Binary32} (hnan : x.isNaN = false)
    (h : x.isInfinite = true) :
    realText x = infinityText x.negative := by
  have hplain : x.plain = (if x.negative then ['-'] else []) ++ "inf".toList := by
    rw [Binary32.plain, Binary32.textWith, if_neg (by simp [hnan]), if_pos h]
  rw [realText, hplain]
  cases x.negative <;> decide

/-- No literal spells infinity. -/
theorem not_isLiteral_infinityText (type : Text) (negative : Bool) :
    ¬ IsLiteral type (infinityText negative) := by
  have htruth : ∀ negative b, infinityText negative ≠ Value.boolText b := by decide
  have hnumeric : ∀ negative, (infinityText negative).all isNumeric = false := by decide
  intro h
  rcases h.all_isNumeric with ⟨b, hb⟩ | hall
  · exact htruth negative b hb
  · rw [hnumeric negative] at hall
    cases hall

theorem Value.isLiteral_ofInt (n : Int) : IsLiteral "integer".toList (Text.ofInt n) := by
  have hdigits : ∀ c ∈ Text.ofNat n.natAbs, c.isDigit = true :=
    fun c => Literal.isDigit_of_mem_ofNat
  have hne : Text.ofNat n.natAbs ≠ [] := Nat.toDigits_ne_nil
  rw [Text.ofInt]
  split
  · exact @IsLiteral.integer ['-'] _ (.inr rfl) hdigits hne
  · exact @IsLiteral.integer [] _ (.inl rfl) hdigits hne

/-- A finite value is written as a literal of the type that takes it. -/
theorem Value.isLiteral_text {u v : Value} {type : Text} (hproper : v.Proper) (hfinite : v.Finite)
    (h : u.coerce type = .ok v) : IsLiteral type v.text := by
  unfold coerce at h
  repeat' split at h
  all_goals cases h
  all_goals
    rename_i htype
    rw [htype]
  all_goals rw [text]
  · exact isLiteral_ofInt _
  · exact isLiteral_realText hproper hfinite
  · exact isLiteral_realText hproper hfinite
  · exact .boolean _

/-- **A value is written as a literal of its type just when it is finite**, and an infinite one
comes from a real that is infinite as it stands. -/
theorem isLiteral_text_of_evalAs {ls : Literals} {type t : Text} {v : Value}
    (h : evalAs ls type t = .ok v) :
    (IsLiteral type v.text ↔ v.Finite) ∧
      (¬ v.Finite → (∃ negative, v.text = infinityText negative) ∧
        ∃ digits places, .fraction digits places ∈ piecesOf t ∧
        (Binary32.ofDigits digits places).isInfinite = true) := by
  obtain ⟨u, -, hcoerce⟩ := evalAs_eq_ok h
  have hproper := proper_evalAs h
  have htext (hv : ¬ v.Finite) : ∃ negative, v.text = infinityText negative := by
    cases v with
    | real x => exact ⟨_, Value.realText_of_isInfinite hproper (Bool.eq_true_of_not_eq_false hv)⟩
    | int | bool => exact absurd trivial hv
  refine ⟨⟨fun hliteral => ?_, fun hfinite => Value.isLiteral_text hproper hfinite hcoerce⟩,
    fun hv => ⟨htext hv, exists_infinite_of_evalAs h hv⟩⟩
  by_contra hv
  obtain ⟨negative, hinfinity⟩ := htext hv
  exact not_isLiteral_infinityText type negative (hinfinity ▸ hliteral)

/-- Digits with a point have the nearest real as their value. -/
theorem evalAs_fraction (ls : Literals) {digits places : Text}
    (hdigits : ∀ c ∈ digits, c.isDigit = true)
    (hplaces : ∀ c ∈ places, c.isDigit = true) (hne : digits ≠ [] ∨ places ≠ []) :
    evalAs ls "real".toList (digits ++ '.' :: places) = .ok (.real (.ofDigits digits places)) := by
  have htokens : tokens ls (digits ++ '.' :: places) = .ok [.real (.ofDigits digits places)] :=
    (Spelt.fraction hdigits hplaces hne).tokens_eq
  have heval : eval ls (digits ++ '.' :: places) = .ok (.real (.ofDigits digits places)) := by
    rw [eval, htokens]
    exact ((Written.leaf (.real (.ofDigits digits places))).of_sign .disjunction).evalTokens_eq
  rw [evalAs, heval]
  rfl

/-- A half is written without the zero before its point. -/
theorem half_isLiteral :
    evalAs {} "real".toList "0.5".toList = .ok (.real (.ofDigits ['0'] ['5'])) ∧
    IsLiteral "real".toList (Value.real (.ofDigits ['0'] ['5'])).text :=
  have heval := @evalAs_fraction {} ['0'] ['5'] (by decide) (by decide) (.inl (by decide))
  have hfinite : (Binary32.ofDigits ['0'] ['5']).isInfinite = false := by decide +kernel
  ⟨heval, (isLiteral_text_of_evalAs heval).1.2 hfinite⟩

/-- Ten to the power 39 is too large for a real. -/
theorem infinity_no_literal :
    ¬ ∀ (ls : Literals) (type t : Text) (v : Value), evalAs ls type t = .ok v →
    IsLiteral type v.text := by
  intro h
  have heval := @evalAs_fraction {} ('1' :: List.replicate 39 '0') [] (by decide) (by decide)
    (.inl (by decide))
  have htext : (Value.real (.ofDigits ('1' :: List.replicate 39 '0') [])).text =
      infinityText false := by decide +kernel
  exact not_isLiteral_infinityText _ false (htext ▸ h _ _ _ _ heval)

end ScriptMinifier.Constant
