import ScriptMinifier.Proofs.Text.Segment

/-! Characters and their bytes.

The bytes of an ASCII character are its number; any other character has a first byte from 192 on and
then bytes from 128 to 191, so where characters start can be told from the bytes
(`isBoundary_bytes`). A test of bytes that answers alike for all bytes of a character, and as a test
of the character does (`Bytewise`), finds runs of bytes where the other finds runs of characters
(`takeWhile_bytes`). A text can be cut at a byte exactly if a character starts or the text ends
there (`cutByte?_eq_some_iff`). -/
namespace ScriptMinifier.Text

/-! ### Bytes -/

/-- The byte of an ASCII letter, a digit or the underscore. -/
def isWordByte (b : UInt8) : Bool :=
  (0x30 ≤ b && b ≤ 0x39) || (0x41 ≤ b && b ≤ 0x5a) || (0x61 ≤ b && b ≤ 0x7a) || b == 0x5f

/-- Neither the byte of a word character nor that of a mark. -/
def isOtherByte (b : UInt8) : Bool := !isWordByte b && b != 0

/-- A byte of a character that is not its first. -/
def isContinuation (b : UInt8) : Bool := 0x80 ≤ b && b < 0xc0

/-- Whether a character starts or the text ends at a byte. -/
def isBoundary (bs : List UInt8) (n : Nat) : Bool :=
  match bs[n]? with
  | some b => !isContinuation b
  | none => n == bs.length

/-- What stands before and after a byte; none inside a character and past the end. -/
def cutByte? : Nat → Text → Option (Text × Text)
  | 0, t => some ([], t)
  | _ + 1, [] => none
  | n + 1, c :: rest =>
    if c.utf8Size ≤ n + 1 then extendCut c (cutByte? (n + 1 - c.utf8Size) rest) else none

/-! ### The bytes of a character -/

variable {c : Char} {t : Text}

theorem isContinuation_iff {b : UInt8} :
    isContinuation b = true ↔ 128 ≤ b.toNat ∧ b.toNat < 192 := by
  simp [isContinuation, UInt8.le_iff_toNat_le, UInt8.lt_iff_toNat_lt]

/-- An ASCII character is one byte, any other a first byte and continuations. -/
theorem utf8EncodeChar_cases (c : Char) :
    (c.toNat < 128 ∧ String.utf8EncodeChar c = [UInt8.ofNat c.toNat]) ∨
    128 ≤ c.toNat ∧ ∃ b more, String.utf8EncodeChar c = b :: more ∧ 192 ≤ b.toNat ∧
      ∀ d ∈ more, isContinuation d = true := by
  have hlast : ∀ n, isContinuation (UInt8.ofNat (n % 64 + 128)) = true := by
    intro n
    rw [isContinuation_iff, UInt8.toNat_ofNat']
    omega
  fun_cases String.utf8EncodeChar c with
  | case1 v h => exact .inl ⟨Nat.lt_succ_of_le h, rfl⟩
  | case2 v h =>
    refine .inr ⟨Nat.not_le.1 h, _, _, rfl, ?_, List.forall_mem_singleton.2 (hlast _)⟩
    rw [UInt8.toNat_ofNat']
    omega
  | case3 v h =>
    refine .inr ⟨Nat.not_le.1 h, _, _, rfl, ?_, List.forall_mem_cons.2 ⟨hlast _,
      List.forall_mem_singleton.2 (hlast _)⟩⟩
    rw [UInt8.toNat_ofNat']
    omega
  | case4 v h =>
    refine .inr ⟨Nat.not_le.1 h, _, _, rfl, ?_, List.forall_mem_cons.2 ⟨hlast _,
      List.forall_mem_cons.2 ⟨hlast _, List.forall_mem_singleton.2 (hlast _)⟩⟩⟩
    rw [UInt8.toNat_ofNat']
    omega

/-- The first byte of a character is no continuation, and the others are. -/
theorem exists_first_byte (c : Char) :
    ∃ b more, String.utf8EncodeChar c = b :: more ∧ isContinuation b = false ∧
    ∀ d ∈ more, isContinuation d = true := by
  rcases utf8EncodeChar_cases c with ⟨hc, hbytes⟩ | ⟨-, b, more, hbytes, hb, hmore⟩
  · refine ⟨_, [], hbytes, ?_, nofun⟩
    rw [← Bool.not_eq_true, isContinuation_iff, UInt8.toNat_ofNat']
    omega
  · refine ⟨b, more, hbytes, ?_, hmore⟩
    rw [← Bool.not_eq_true, isContinuation_iff]
    omega

theorem tail_bytes_of_ascii (h : c.toNat < 128) : (String.utf8EncodeChar c).tail = [] := by
  rcases utf8EncodeChar_cases c with ⟨-, hbytes⟩ | ⟨hhigh, -⟩
  · rw [hbytes, List.tail_cons]
  · omega

/-! ### Tests of bytes and of characters -/

/-- A test of bytes answers for every byte of a character as a test of the character does. -/
def Bytewise (q : UInt8 → Bool) (p : Char → Bool) : Prop :=
  ∀ c, ∀ b ∈ String.utf8EncodeChar c, q b = p c

/-- It is enough to look at ASCII characters, if no byte from 128 on and no other character
passes. -/
theorem bytewise_of_ascii {q : UInt8 → Bool} {p : Char → Bool} {v : Bool}
    (hascii : ∀ n < 128, q (UInt8.ofNat n) = p (Char.ofNat n))
    (hbyte : ∀ b : UInt8, 128 ≤ b.toNat → q b = v)
    (hchar : ∀ c : Char, 128 ≤ c.toNat → p c = v) : Bytewise q p := by
  intro c b hb
  rcases utf8EncodeChar_cases c with ⟨hc, hbytes⟩ | ⟨hc, first, more, hbytes, hfirst, hmore⟩
  · rw [hbytes, List.mem_singleton] at hb
    rw [hb, hascii c.toNat hc, Char.ofNat_toNat]
  · have hhigh : 128 ≤ b.toNat := by
      rw [hbytes, List.mem_cons] at hb
      rcases hb with rfl | hb
      · omega
      · exact (isContinuation_iff.1 (hmore b hb)).1
    rw [hbyte b hhigh, hchar c hc]

theorem toNat_lt_of_isWordChar (h : isWordChar c = true) : c.toNat < 128 := by
  rw [isWordChar, Bool.or_eq_true, beq_iff_eq] at h
  rcases h with h | rfl
  · simp only [Char.isAlphanum, Char.isAlpha, Char.isUpper, Char.isLower, Char.isDigit,
      Bool.or_eq_true, Bool.and_eq_true, decide_eq_true_eq, UInt32.le_iff_toNat_le, ge_iff_le] at h
    change ((65 ≤ c.toNat ∧ c.toNat ≤ 90) ∨ 97 ≤ c.toNat ∧ c.toNat ≤ 122) ∨ 48 ≤ c.toNat ∧
      c.toNat ≤ 57 at h
    omega
  · decide

theorem bytewise_word : Bytewise isWordByte isWordChar := by
  refine bytewise_of_ascii (v := false) (by decide) (fun b hb => ?_) fun c hc => ?_
  · simp [isWordByte, UInt8.le_iff_toNat_le, ← UInt8.toNat_inj]
    omega
  · exact Bool.eq_false_iff.2 fun hword => Nat.not_lt.2 hc (toNat_lt_of_isWordChar hword)

theorem bytewise_mark : Bytewise (· != 0) (· != mark) := by
  refine bytewise_of_ascii (v := true) (by decide) (fun b hb => ?_) fun c hc => ?_
  · rw [bne_iff_ne]
    rintro rfl
    exact absurd hb (by decide)
  · rw [bne_iff_ne]
    rintro rfl
    exact absurd hc (by decide)

theorem bytewise_other : Bytewise isOtherByte isOtherChar := by
  intro c b hb
  have hmark : (b != 0) = (c != mark) := bytewise_mark c b hb
  rw [isOtherByte, isOtherChar, bytewise_word c b hb, hmark]

/-- A run of bytes is the bytes of a run of characters. -/
theorem takeWhile_bytes {q : UInt8 → Bool} {p : Char → Bool} (h : Bytewise q p) (t : Text) :
    (bytes t).takeWhile q = bytes (t.takeWhile p) := by
  induction t with
  | nil => rfl
  | cons c rest ih =>
    have hbytes : bytes (c :: rest) = String.utf8EncodeChar c ++ bytes rest := List.flatMap_cons
    rw [hbytes]
    by_cases hc : p c = true
    · rw [List.takeWhile_append_of_pos fun b hb => (h c b hb).trans hc, ih,
        List.takeWhile_cons_of_pos hc]
      rfl
    · obtain ⟨b, more, hfirst, -⟩ := exists_first_byte c
      have hb : ¬ q b = true := by rwa [h c b (hfirst ▸ List.mem_cons_self)]
      rw [hfirst, List.cons_append, List.takeWhile_cons_of_neg hb, List.takeWhile_cons_of_neg hc]
      rfl

/-! ### Boundaries -/

theorem bytes_append (s t : Text) : bytes (s ++ t) = bytes s ++ bytes t := List.flatMap_append

theorem drop_bytes (s t : Text) : (bytes (s ++ t)).drop (byteLength s) = bytes t := by
  rw [bytes_append, ← length_bytes, List.drop_left]

theorem isBoundary_append (t : Text) (bs : List UInt8) (n : Nat) :
    isBoundary (bytes t ++ bs) (byteLength t + n) = isBoundary bs n := by
  rw [isBoundary, isBoundary, ← length_bytes, List.getElem?_append_right (Nat.le_add_right _ _),
    Nat.add_sub_cancel_left, List.length_append]
  cases bs[n]? with
  | some b => rfl
  | none => rw [Bool.eq_iff_iff, beq_iff_eq, beq_iff_eq, Nat.add_left_cancel_iff]

theorem isBoundary_zero (t : Text) : isBoundary (bytes t) 0 = true := by
  cases t with
  | nil => rfl
  | cons c rest =>
    obtain ⟨b, more, hbytes, hb, -⟩ := exists_first_byte c
    rw [bytes, List.flatMap_cons, hbytes, isBoundary, List.cons_append, List.getElem?_cons_zero]
    simp [hb]

theorem not_isBoundary_inside {n : Nat} (hpos : 0 < n) (hlt : n < c.utf8Size) :
    isBoundary (bytes (c :: t)) n = false := by
  obtain ⟨b, more, hbytes, -, hmore⟩ := exists_first_byte c
  obtain ⟨k, rfl⟩ : ∃ k, n = k + 1 := ⟨n - 1, by omega⟩
  have hk : k < more.length := by
    rw [← String.length_utf8EncodeChar, hbytes, List.length_cons] at hlt
    omega
  rw [bytes, List.flatMap_cons, hbytes, isBoundary, List.cons_append, List.getElem?_cons_succ,
    List.getElem?_append_left hk, List.getElem?_eq_getElem hk]
  simp [hmore _ (List.getElem_mem hk)]

/-- A boundary is where a beginning of the text ends. -/
theorem isBoundary_bytes {n : Nat} :
    isBoundary (bytes t) n = true ↔ ∃ before after, t = before ++ after ∧
    byteLength before = n := by
  constructor
  · intro h
    induction t generalizing n with
    | nil =>
      exact ⟨[], [], rfl,
        (beq_iff_eq.1 (show (n == 0) = true by simpa [bytes, isBoundary] using h)).symm⟩
    | cons c rest ih =>
      rcases Nat.eq_zero_or_pos n with rfl | hpos
      · exact ⟨[], c :: rest, rfl, rfl⟩
      · have hle : c.utf8Size ≤ n := by
          refine Nat.not_lt.1 fun hlt => ?_
          rw [not_isBoundary_inside hpos hlt] at h
          cases h
        obtain ⟨m, rfl⟩ := Nat.exists_eq_add_of_le hle
        have hrest : isBoundary (bytes rest) m = true := by
          rw [← h, ← isBoundary_append [c] (bytes rest) m, ← bytes_append]
          rfl
        obtain ⟨before, after, rfl, rfl⟩ := ih hrest
        exact ⟨c :: before, after, rfl, rfl⟩
  · rintro ⟨before, after, rfl, rfl⟩
    have h := isBoundary_append before (bytes after) 0
    rwa [isBoundary_zero, ← bytes_append, Nat.add_zero] at h

/-! ### Cutting at a byte -/

theorem cutByte?_cons (c : Char) (t : Text) (n : Nat) :
    cutByte? (c.utf8Size + n) (c :: t) = extendCut c (cutByte? n t) := by
  obtain ⟨k, hk⟩ : ∃ k, c.utf8Size + n = k + 1 :=
    ⟨c.utf8Size + n - 1, by have := Char.utf8Size_pos c; omega⟩
  rw [hk, cutByte?, if_pos (by omega), show k + 1 - c.utf8Size = n by omega]

theorem cutByte?_append (s t : Text) : cutByte? (byteLength s) (s ++ t) = some (s, t) := by
  induction s with
  | nil =>
    rw [byteLength_nil, cutByte?]
    rfl
  | cons c rest ih =>
    rw [byteLength_cons, List.cons_append, cutByte?_cons, ih]
    rfl

/-- A text is cut at the byte at which its first part ends. -/
theorem cutByte?_eq_some_iff {n : Nat} {before after : Text} :
    cutByte? n t = some (before, after) ↔ t = before ++ after ∧ byteLength before = n := by
  constructor
  · intro h
    fun_induction cutByte? n t generalizing before with
    | case1 t =>
      obtain ⟨rfl, rfl⟩ := Prod.mk.inj (Option.some.inj h)
      exact ⟨rfl, rfl⟩
    | case2 n => cases h
    | case3 n c rest hle ih =>
      obtain ⟨tail, rfl, htail⟩ := extendCut_eq_some.1 h
      obtain ⟨rfl, hlength⟩ := ih htail
      rw [byteLength_cons, hlength]
      exact ⟨rfl, Nat.add_sub_cancel' hle⟩
    | case4 n c rest hle => cases h
  · rintro ⟨rfl, rfl⟩
    exact cutByte?_append before after

end ScriptMinifier.Text
