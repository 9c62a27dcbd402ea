import ScriptMinifier.Proofs.Literal.Rawcodes

/-! Numbers and rawcodes, each way.

A number is written as a rawcode just when it is a signed 32-bit integer that is not negative and
each of its four digits of base 256 is plain (`isSome_rawcode?`). Four bytes and the number that
they are packed into determine each other (`fourDigits_pack`), so four plain characters between
quotes are what their number is written as (`rawcode?_pack`), and writing and reading undo each
other (`rawcodes_round_trip`). -/
namespace ScriptMinifier.Literal

/-- A digit that is written as it is: visible ASCII, no quote and no backslash. -/
def Plain (digit : Nat) : Prop :=
  0x21 ≤ digit ∧ digit ≤ 0x7e ∧ digit ≠ '\''.toNat ∧ digit ≠ '"'.toNat ∧ digit ≠ '\\'.toNat

theorem isPlainDigit_iff {digit : Nat} : isPlainDigit digit = true ↔ Plain digit := by
  simp only [isPlainDigit, Plain, Bool.and_eq_true, decide_eq_true_eq, bne_iff_ne, and_assoc]
  rfl

/-! ### Writing -/

/-- The digits of a number, counted from the lowest. -/
theorem all_fourDigits {n : Nat} :
    (fourDigits n).all isPlainDigit = true ↔ ∀ k < 4, Plain (n / 256 ^ k % 256) := by
  simp only [fourDigits, List.all_cons, List.all_nil, Bool.and_eq_true, isPlainDigit_iff]
  constructor
  · rintro ⟨h3, h2, h1, h0, -⟩ k hk
    interval_cases k
    · simpa using h0
    · simpa using h1
    · exact h2
    · exact h3
  · intro h
    exact ⟨h 3 (by decide),
      h 2 (by decide), by simpa using h 1 (by decide), by simpa using h 0 (by decide), trivial⟩

/-- Which numbers have a rawcode. -/
theorem isSome_rawcode? {value : Int} : (rawcode? value).isSome = true ↔
    0 ≤ value ∧ value ≤ 2 ^ 31 - 1 ∧ ∀ k < 4, Plain (value.toNat / 256 ^ k % 256) := by
  have hbound : value < 0x80000000 ↔ value ≤ 2 ^ 31 - 1 := by omega
  rw [rawcode?, ← all_fourDigits, ← hbound]
  split
  · rename_i h
    exact iff_of_true rfl h
  · rename_i h
    exact iff_of_false Bool.false_ne_true h

/-! ### Reading -/

theorem fourDigits_pack {digits : List UInt8} (h : digits.length = 4) :
    fourDigits (pack digits) = digits.map UInt8.toNat := by
  match digits, h with
  | [a, b, c, d], _ =>
    have ha := a.toNat_lt
    have hb := b.toNat_lt
    have hc := c.toNat_lt
    have hd := d.toNat_lt
    simp only [pack, fourDigits, List.foldl_cons, List.foldl_nil, List.map_cons, List.map_nil,
      List.cons.injEq, and_true]
    omega

/-- Four digits of which the highest is below 128 are packed into a signed 32-bit integer. -/
theorem pack_lt {a b c d : UInt8} (h : a.toNat < 0x80) : pack [a, b, c, d] < 0x80000000 := by
  have hb := b.toNat_lt
  have hc := c.toNat_lt
  have hd := d.toNat_lt
  simp only [pack, List.foldl_cons, List.foldl_nil]
  omega

/-- The digits of plain characters are their bytes. -/
theorem digits_plain {cs : Text} (h : ∀ c ∈ cs, Plain c.toNat) :
    unescape? (Text.bytes cs) = some (cs.map fun c => UInt8.ofNat c.toNat) := by
  have hplain : (cs.map Char.toNat).all isPlainDigit = true := by
    rw [List.all_map, List.all_eq_true]
    exact fun c hc => isPlainDigit_iff.2 (h c hc)
  have hchars : (cs.map Char.toNat).map Char.ofNat = cs := by
    rw [List.map_map]
    exact List.map_id'' (fun c => c.ofNat_toNat) cs
  have hbytes := bytes_plainDigits hplain
  rw [hchars, List.map_map] at hbytes
  have hbackslash : (0x5c : UInt8) ∉ Text.bytes cs := by
    rw [hbytes, List.mem_map]
    rintro ⟨c, hc, heq⟩
    have hdigit := isPlainDigit_iff.2 (h c hc)
    exact (plainDigit_table _ (lt_of_isPlainDigit hdigit) hdigit).2.2.2 heq
  rw [unescape?_of_not_mem hbackslash, hbytes]
  rfl

theorem toNat_ofNat_of_plain {digit : Nat} (h : Plain digit) :
    (UInt8.ofNat digit).toNat = digit := by
  rw [UInt8.toNat_ofNat', Nat.mod_eq_of_lt]
  have hle := h.2.1
  omega

/-- Four plain digits are written as they are. -/
theorem rawcode?_pack {digits : List UInt8} (hlength : digits.length = 4)
    (h : ∀ digit ∈ digits, Plain digit.toNat) :
    rawcode? (pack digits) = some
    ('\'' :: digits.map (fun digit => Char.ofNat digit.toNat) ++ ['\'']) := by
  have hlt : pack digits < 0x80000000 := by
    match digits, hlength with
    | [a, b, c, d], _ =>
      have hle := (h a (by simp)).2.1
      exact pack_lt (by omega)
  have hplain : (digits.map UInt8.toNat).all isPlainDigit = true := by
    rw [List.all_map, List.all_eq_true]
    exact fun digit hdigit => isPlainDigit_iff.2 (h digit hdigit)
  rw [rawcode?, Int.toNat_natCast, fourDigits_pack hlength, if_pos ⟨by omega, by omega, hplain⟩,
    List.map_map]
  rfl

/-- A literal of four plain characters is the rawcode of its number. -/
theorem rawcode?_of_plain {cs : Text} (hlength : cs.length = 4) (h : ∀ c ∈ cs, Plain c.toNat) :
    (rawcodeValue? ('\'' :: cs ++ ['\''])).bind (fun n => rawcode? n) = some
    ('\'' :: cs ++ ['\'']) := by
  have hquoted : isRawcode ('\'' :: cs ++ ['\'']) = true := by
    rw [isRawcode, List.cons_append, List.head?_cons, ← List.cons_append, List.getLast?_concat]
    simp
  have hdigits : (cs.map fun c => UInt8.ofNat c.toNat).length = 4 := by
    rw [List.length_map, hlength]
  have hplain : ∀ digit ∈ cs.map fun c => UInt8.ofNat c.toNat, Plain digit.toNat := by
    rw [List.forall_mem_map]
    intro c hc
    rw [toNat_ofNat_of_plain (h c hc)]
    exact h c hc
  have hback :
      (cs.map fun c => UInt8.ofNat c.toNat).map (fun digit => Char.ofNat digit.toNat) = cs := by
    rw [List.map_map]
    refine (List.map_congr_left fun c hc => ?_).trans (List.map_id cs)
    rw [Function.comp_apply, toNat_ofNat_of_plain (h c hc), Char.ofNat_toNat, id]
  rw [rawcodeValue?, if_pos hquoted, List.cons_append, List.drop_succ_cons, List.drop_zero,
    List.dropLast_concat, digits_plain h, Option.bind_some, if_pos (.inr hdigits), Option.bind_some,
    rawcode?_pack hdigits hplain, hback]
  rfl

/-- **Writing and reading rawcodes undo each other.** -/
theorem rawcodes_round_trip :
    (∀ value : Int, (rawcode? value).isSome = true ↔
      0 ≤ value ∧ value ≤ 2 ^ 31 - 1 ∧ ∀ k < 4, Plain (value.toNat / 256 ^ k % 256)) ∧
    (∀ (value : Int) (lit : Text), rawcode? value = some lit →
      (rawcodeValue? lit).map Int.ofNat = some value) ∧
    ∀ cs : Text, cs.length = 4 → (∀ c ∈ cs, Plain c.toNat) →
      (rawcodeValue? ('\'' :: cs ++ ['\''])).bind (fun n => rawcode? n) = some
      ('\'' :: cs ++ ['\'']) := by
  refine ⟨fun _ => isSome_rawcode?, fun value lit h => ?_, fun _ => rawcode?_of_plain⟩
  rw [rawcodeValue?_rawcode h, Option.map_some]
  exact congrArg some (Int.toNat_of_nonneg (rawcode?_eq_some h).1)

theorem footman_round_trips :
    (rawcode? 0x68666f6f = some ['\'', 'h', 'f', 'o', 'o', '\''] ∧ ∀ c ∈ ['h', 'f', 'o', 'o'],
      Plain c.toNat) ∧
      (rawcodeValue? ['\'', 'h', 'f', 'o', 'o', '\'']).map Int.ofNat = some 0x68666f6f ∧
      (rawcodeValue? ['\'', 'h', 'f', 'o', 'o', '\'']).bind (fun n => rawcode? n) = some
      ['\'', 'h', 'f', 'o', 'o', '\''] := by
  have hwritten : rawcode? 0x68666f6f = some ['\'', 'h', 'f', 'o', 'o', '\''] := by decide +kernel
  have hplain : ∀ c ∈ ['h', 'f', 'o', 'o'], Plain c.toNat := by simp [Plain]
  exact ⟨⟨hwritten, hplain⟩, rawcodes_round_trip.2.1 _ _ hwritten,
    rawcodes_round_trip.2.2 ['h', 'f', 'o', 'o'] rfl hplain⟩

end ScriptMinifier.Literal
