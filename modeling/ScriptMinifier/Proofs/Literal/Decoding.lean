import ScriptMinifier.Proofs.Literal.Rawcodes
import ScriptMinifier.Proofs.Steps

/-! How large a rawcode gets while it is decoded.

The digits of a rawcode are packed as they are read, and how many they are is asked in the end. The
numbers on the way grow (`exists_runningFrom_iff`), and a signed number of 64 bits holds eight
digits less the sign, so a rawcode of more leaves the range (`leaves64Bits_iff`). It has no value
then: numbers that wrap around give the values that exact ones do (`decoding_leaves64Bits`), and
numbers that are checked fail where there is none. A script can hold such a rawcode as a constant
(`nineLetters_leave64Bits`). -/
namespace ScriptMinifier.Literal

/-! ### Digits -/

/-- The digits of a rawcode up to the first escape that is unknown, where decoding gives up. -/
def digitsRead : List UInt8 → List UInt8
  | [] => []
  | [b] => if b = 0x5c then [] else [b]
  | b :: c :: rest =>
    if b = 0x5c then
      match escapedByte? c with
      | some digit => digit :: digitsRead rest
      | none => []
    else b :: digitsRead (c :: rest)

theorem digitsRead_eq {bs digits : List UInt8} (h : unescape? bs = some digits) :
    digitsRead bs = digits := by
  fun_induction digitsRead bs generalizing digits with
  | case1 => simpa [unescape?] using h
  | case2 => simp [unescape?] at h
  | case3 b hb => simpa [unescape?, hb] using h
  | case4 c rest digit hdigit ih =>
    rw [unescape?, if_pos rfl, hdigit, Option.bind_some, Option.map_eq_some_iff] at h
    obtain ⟨more, hmore, rfl⟩ := h
    rw [ih hmore]
  | case5 c rest hnone =>
    rw [unescape?, if_pos rfl, hnone] at h
    cases h
  | case6 b c rest hb ih =>
    rw [unescape?, if_neg hb, Option.map_eq_some_iff] at h
    obtain ⟨more, hmore, rfl⟩ := h
    rw [ih hmore]

/-! ### Running values -/

/-- The numbers on the way from `n` when digits are added to it. -/
def runningFrom (n : Nat) : List UInt8 → List Nat
  | [] => []
  | digit :: rest => (n * 256 + digit.toNat) :: runningFrom (n * 256 + digit.toNat) rest

/-- A number with digits added to it. -/
def packFrom (n : Nat) (digits : List UInt8) : Nat :=
  digits.foldl (fun n digit => n * 256 + digit.toNat) n

/-- The bounds that the digits to come set. -/
theorem packFrom_bounds (n : Nat) (digits : List UInt8) :
    n * 256 ^ digits.length ≤ packFrom n digits ∧ packFrom n digits < (n + 1) * 256 ^
      digits.length := by
  induction digits generalizing n with
  | nil => simp [packFrom]
  | cons digit rest ih =>
    have hdigit := digit.toNat_lt
    obtain ⟨hlow, hhigh⟩ := ih (n * 256 + digit.toNat)
    rw [List.length_cons, pow_succ']
    constructor
    · calc n * (256 * 256 ^ rest.length)
          = n * 256 * 256 ^ rest.length := by ring
        _ ≤ (n * 256 + digit.toNat) * 256 ^ rest.length := Nat.mul_le_mul_right _ (by omega)
        _ ≤ packFrom n (digit :: rest) := hlow
    · calc packFrom n (digit :: rest)
          < (n * 256 + digit.toNat + 1) * 256 ^ rest.length := hhigh
        _ ≤ (n + 1) * 256 * 256 ^ rest.length := Nat.mul_le_mul_right _ (by omega)
        _ = (n + 1) * (256 * 256 ^ rest.length) := by ring

theorem le_packFrom (n : Nat) (digits : List UInt8) : n ≤ packFrom n digits :=
  (Nat.le_mul_of_pos_right n (by positivity)).trans (packFrom_bounds n digits).1

/-- The numbers on the way grow, so one is out of bounds just when the last is. -/
theorem exists_runningFrom_iff {bound n : Nat} (h : n < bound) (digits : List UInt8) :
    (∃ m ∈ runningFrom n digits, bound ≤ m) ↔ bound ≤ packFrom n digits := by
  induction digits generalizing n with
  | nil => simpa [runningFrom, packFrom] using h
  | cons digit rest ih =>
    rw [runningFrom, List.exists_mem_cons_iff]
    by_cases hnext : bound ≤ n * 256 + digit.toNat
    · exact iff_of_true (.inl hnext) (hnext.trans (le_packFrom _ rest))
    · rw [or_iff_right hnext, ih (by omega)]
      rfl

theorem getLast?_runningFrom {n : Nat} {digits : List UInt8} (h : digits ≠ []) :
    (runningFrom n digits).getLast? = some (packFrom n digits) := by
  induction digits generalizing n with
  | nil => exact absurd rfl h
  | cons digit rest ih =>
    rw [runningFrom, List.getLast?_cons]
    cases rest with
    | nil => rfl
    | cons second more =>
      rw [ih (by simp)]
      rfl

/-- Zeros in front add nothing. -/
theorem pack_dropWhile_zero (digits : List UInt8) :
    pack (digits.dropWhile (· == 0)) = pack digits := by
  induction digits with
  | nil => rfl
  | cons digit rest ih =>
    rw [List.dropWhile_cons]
    split
    · rename_i hzero
      rw [ih, beq_iff_eq.1 hzero]
      rfl
    · rfl

/-! ### Sixty-four bits -/

/-- Digits without zeros in front that are too many for a signed 64-bit number. -/
def Exceeds64 (digits : List UInt8) : Prop :=
  8 < digits.length ∨ digits.length = 8 ∧ ∃ first ∈ digits.head?, 128 ≤ first.toNat

theorem le_pack_iff_exceeds64 {digits : List UInt8} (h : ∀ first ∈ digits.head?, first ≠ 0) :
    2 ^ 63 ≤ pack digits ↔ Exceeds64 digits := by
  cases digits with
  | nil => simp [pack, Exceeds64]
  | cons first rest =>
    have hpos : 0 < first.toNat := by
      have hne := h first rfl
      rw [Ne, ← UInt8.toNat_inj] at hne
      exact Nat.pos_of_ne_zero hne
    have hlt := first.toNat_lt
    have hpack : pack (first :: rest) = packFrom first.toNat rest := by
      rw [pack, List.foldl_cons, Nat.zero_mul, Nat.zero_add, packFrom]
    obtain ⟨hlow, hhigh⟩ := packFrom_bounds first.toNat rest
    simp only [hpack, Exceeds64, List.length_cons, List.head?_cons, Option.mem_some_iff,
      exists_eq_left']
    rcases Nat.lt_trichotomy rest.length 7 with hshort | height | hlong
    · have hpow : 256 ^ rest.length ≤ 256 ^ 6 := Nat.pow_le_pow_right (by decide) (by omega)
      have hsmall : (first.toNat + 1) * 256 ^ rest.length ≤ 256 * 256 ^ 6 :=
        Nat.mul_le_mul (by omega) hpow
      exact iff_of_false (by omega) (by omega)
    · rw [height] at hlow hhigh ⊢
      omega
    · have hpow : 256 ^ 8 ≤ 256 ^ rest.length := Nat.pow_le_pow_right (by decide) hlong
      have hlarge : 1 * 256 ^ 8 ≤ first.toNat * 256 ^ rest.length := Nat.mul_le_mul hpos hpow
      exact iff_of_true (by omega) (.inl (by omega))

/-! ### Rawcodes -/

/-- The digits that are read of a literal between quotes. -/
def digitsIn (lit : Text) : List UInt8 := digitsRead (Text.bytes (lit.drop 1).dropLast)

/-- The number after each digit that is read of a literal. Only what stands between single quotes is
read. -/
def runningValues (lit : Text) : List Nat :=
  if isRawcode lit then runningFrom 0 (digitsIn lit) else []

/-- Which rawcodes leave the signed 64-bit range while they are decoded. -/
theorem leaves64Bits_iff {lit : Text} : (∃ n ∈ runningValues lit, 2 ^ 63 ≤ n) ↔
    isRawcode lit = true ∧ Exceeds64 ((digitsIn lit).dropWhile (· == 0)) := by
  rw [runningValues]
  split
  · rename_i hquoted
    rw [exists_runningFrom_iff (by decide), and_iff_right hquoted, ← le_pack_iff_exceeds64 ?_,
      pack_dropWhile_zero]
    · rfl
    · intro first hfirst
      have hhead := List.head?_dropWhile_not (· == (0 : UInt8)) (digitsIn lit)
      rw [Option.mem_def.1 hfirst] at hhead
      simpa using hhead
  · rename_i hquoted
    exact iff_of_false nofun fun h => hquoted h.1

/-- Digits packed in signed 64-bit numbers that wrap around. -/
def packWrapping (digits : List UInt8) : Int64 :=
  digits.foldl (fun n digit => n * 256 + Int64.ofNat digit.toNat) 0

theorem packWrapping_eq (digits : List UInt8) :
    packWrapping digits = Int64.ofNat (pack digits) := by
  have hfrom : ∀ n : Nat,
      digits.foldl (fun n digit => n * 256 + Int64.ofNat digit.toNat) (Int64.ofNat n) =
        Int64.ofNat (packFrom n digits) := by
    induction digits with
    | nil => exact fun _ => rfl
    | cons digit rest ih =>
      intro n
      rw [List.foldl_cons, show (256 : Int64) = Int64.ofNat 256 from rfl, ← Int64.ofNat_mul,
        ← Int64.ofNat_add]
      exact ih _
  exact hfrom 0

/-- A rawcode that has a value is one of few digits. -/
theorem pack_digitsIn {lit : Text} {value : Nat} (h : rawcodeValue? lit = some value) :
    isRawcode lit = true ∧ digitsIn lit ≠ [] ∧ pack (digitsIn lit) = value ∧ value < 2 ^ 32 := by
  rw [rawcodeValue?] at h
  split at h
  swap
  · cases h
  rename_i hquoted
  obtain ⟨digits, hdigits, hvalue⟩ := Option.bind_eq_some_iff.1 h
  split at hvalue
  swap
  · cases hvalue
  rename_i hlength
  obtain rfl := Option.some.inj hvalue
  rw [digitsIn, digitsRead_eq hdigits]
  refine ⟨hquoted, ?_, rfl, ?_⟩
  · rintro rfl
    revert hlength
    decide
  · calc pack digits
        < 1 * 256 ^ digits.length := (packFrom_bounds 0 digits).2
      _ ≤ 1 * 256 ^ 4 := Nat.mul_le_mul_left 1 (Nat.pow_le_pow_right (by decide) (by omega))
      _ = 2 ^ 32 := by decide

/-- **Decoding leaves the signed 64-bit range** just when there are too many digits, and then there
is no value. -/
theorem decoding_leaves64Bits (lit : Text) :
    ((∃ n ∈ runningValues lit, 2 ^ 63 ≤ n) ↔
      isRawcode lit = true ∧ Exceeds64 ((digitsIn lit).dropWhile (· == 0))) ∧
    ∀ value, rawcodeValue? lit = some value → (∀ n ∈ runningValues lit, n < 2 ^ 63) ∧
      (runningValues lit).getLast? = some value ∧
      (packWrapping (digitsIn lit)).toInt = value := by
  refine ⟨leaves64Bits_iff, fun value h => ?_⟩
  obtain ⟨hquoted, hne, rfl, hlt⟩ := pack_digitsIn h
  rw [runningValues, if_pos hquoted]
  refine ⟨?_, getLast?_runningFrom hne, ?_⟩
  · by_contra! hlarge
    have hpack : 2 ^ 63 ≤ pack (digitsIn lit) := (exists_runningFrom_iff (by decide) _).1 hlarge
    omega
  · rw [packWrapping_eq]
    exact Int64.toInt_ofNat_of_lt (by omega)

theorem footman_stays64Bits : rawcodeValue? "'hfoo'".toList = some 0x68666f6f ∧
    (∀ n ∈ runningValues "'hfoo'".toList, n < 2 ^ 63) ∧
      (runningValues "'hfoo'".toList).getLast? = some 0x68666f6f ∧
      (packWrapping (digitsIn "'hfoo'".toList)).toInt = 0x68666f6f := by
  have hvalue : rawcodeValue? "'hfoo'".toList = some 0x68666f6f := by
    rw [String.toList_ofList]
    decide +kernel
  exact ⟨hvalue, (decoding_leaves64Bits _).2 _ hvalue⟩

/-- A program of one constant, a literal. -/
def constantProgram (lit : Text) : Program where
  literals := ⟨[lit]⟩
  declarations := [⟨true, false, "integer".toList, ['X'], some (placeholder 0), 0⟩]

/-- Nine letters leave the range, and the folder decodes them when a constant is written so. -/
theorem nineLetters_leave64Bits :
    ∃ p d ph lit, readProgram "globals\nconstant integer X='aaaaaaaaa'\nendglobals".toList = .ok p ∧
      d ∈ p.declarations ∧ Constant.candidateValue? d = some ph ∧
      Constant.piecesOf ph = [.placeholder ph] ∧
      p.literals.lookup? ph = some lit ∧ ∃ n ∈ runningValues lit, 2 ^ 63 ≤ n := by
  have hread : (readProgram "globals\nconstant integer X='aaaaaaaaa'\nendglobals".toList).toOption =
      some (constantProgram ('\'' :: List.replicate 9 'a' ++ ['\''])) := by
    rw [String.toList_ofList]
    decide +kernel
  refine ⟨_, _, placeholder 0, '\'' :: List.replicate 9 'a' ++ ['\''], eq_ok_of_toOption hread,
    List.mem_cons_self, ?_⟩
  decide +kernel

end ScriptMinifier.Literal
