import Mathlib
import ScriptMinifier.Literal.Rawcode
import ScriptMinifier.Literal.Table

/-! Numbers as rawcodes.

A number that has a rawcode is spelt in four plain characters, and reading them gives the number
back (`rawcodeValue?_rawcode`). A rawcode closes at its own quote, so lifting takes it out whole
(`lift_rawcode`). -/
namespace ScriptMinifier.Literal

open Text (closeQuote? isQuote)

/-- A plain digit is one byte, and neither a quote nor a backslash. -/
theorem plainDigit_table : ∀ k < 127, isPlainDigit k = true →
    String.utf8EncodeChar (Char.ofNat k) = [UInt8.ofNat k] ∧ Char.ofNat k ≠ '\'' ∧
    Char.ofNat k ≠ '\\' ∧
      UInt8.ofNat k ≠ 0x5c := by
  decide +kernel

theorem lt_of_isPlainDigit {k : Nat} (h : isPlainDigit k = true) : k < 127 := by
  simp only [isPlainDigit, Bool.and_eq_true, decide_eq_true_eq] at h
  omega

theorem pack_fourDigits {n : Nat} (h : n < 0x80000000) :
    pack ((fourDigits n).map UInt8.ofNat) = n := by
  simp only [pack, fourDigits, List.map_cons, List.map_nil, List.foldl_cons, List.foldl_nil,
    UInt8.toNat_ofNat']
  omega

/-- Bytes without a backslash spell themselves. -/
theorem unescape?_of_not_mem {bs : List UInt8} (h : (0x5c : UInt8) ∉ bs) :
    unescape? bs = some bs := by
  fun_induction unescape? bs <;> simp_all

theorem bytes_plainDigits {ks : List Nat} (h : ks.all isPlainDigit = true) :
    Text.bytes (ks.map Char.ofNat) = ks.map UInt8.ofNat := by
  induction ks with
  | nil => rfl
  | cons k ks ih =>
    rw [List.all_cons, Bool.and_eq_true] at h
    obtain ⟨hbyte, -⟩ := plainDigit_table k (lt_of_isPlainDigit h.1) h.1
    have := ih h.2
    rw [Text.bytes] at this ⊢
    rw [List.map_cons, List.flatMap_cons, hbyte, this]
    rfl

/-- The digits of a rawcode stand between its quotes. -/
theorem rawcode?_eq_some {value : Int} {raw : Text} (h : rawcode? value = some raw) :
    0 ≤ value ∧ value < 0x80000000 ∧ (fourDigits value.toNat).all isPlainDigit = true ∧
      raw = '\'' :: ((fourDigits value.toNat).map Char.ofNat ++ ['\'']) := by
  unfold rawcode? at h
  split at h
  · rename_i hplain
    exact ⟨hplain.1, hplain.2.1, hplain.2.2, (Option.some.inj h).symm⟩
  · cases h

/-- A rawcode is read as the number it was written for. -/
theorem rawcodeValue?_rawcode {value : Int} {raw : Text} (h : rawcode? value = some raw) :
    rawcodeValue? raw = some value.toNat := by
  obtain ⟨hnonneg, hlt, hplain, rfl⟩ := rawcode?_eq_some h
  have hquoted : isRawcode ('\'' :: ((fourDigits value.toNat).map Char.ofNat ++ ['\''])) =
      true := by
    simp [isRawcode, fourDigits]
  have hbackslash : (0x5c : UInt8) ∉ (fourDigits value.toNat).map UInt8.ofNat := by
    intro hmem
    obtain ⟨k, hk, hbyte⟩ := List.mem_map.1 hmem
    have hdigit := List.all_eq_true.1 hplain k hk
    exact (plainDigit_table k (lt_of_isPlainDigit hdigit) hdigit).2.2.2 hbyte
  rw [rawcodeValue?, if_pos hquoted, List.drop_succ_cons, List.drop_zero, List.dropLast_concat,
    bytes_plainDigits hplain, unescape?_of_not_mem hbackslash, Option.bind_some, if_pos (.inr rfl),
    pack_fourDigits (by omega)]

/-- Plain digits stand before the quote that closes them. -/
theorem closeQuote?_plainDigits {ks : List Nat} (h : ks.all isPlainDigit = true) (t : Text) :
    closeQuote? '\'' (ks.map Char.ofNat ++ '\'' :: t) = some (ks.map Char.ofNat ++ ['\''], t) := by
  induction ks with
  | nil => rfl
  | cons k ks ih =>
    rw [List.all_cons, Bool.and_eq_true] at h
    obtain ⟨-, hquote, hbackslash, -⟩ := plainDigit_table k (lt_of_isPlainDigit h.1) h.1
    rw [List.map_cons, List.cons_append]
    unfold closeQuote?
    split
    · rename_i heq
      cases heq
    · rename_i heq
      exact absurd (List.cons.inj heq).1 hbackslash
    · rename_i heq
      obtain ⟨rfl, rfl⟩ := List.cons.inj heq
      rw [if_neg hquote, ih h.2]
      rfl

end Literal

namespace Literals

open Text (isQuote)

theorem lift_cons {c : Char} (h : isQuote c = false) (ls : Literals) (t : Text) :
    ls.lift (c :: t) = (c :: (ls.lift t).1, (ls.lift t).2) := by
  rw [lift, if_neg (by rw [h]; exact Bool.false_ne_true)]

/-- Lifting leaves what is no quote in place. -/
theorem lift_append {u : Text} (h : ∀ c ∈ u, isQuote c = false) (ls : Literals) (t : Text) :
    ls.lift (u ++ t) = (u ++ (ls.lift t).1, (ls.lift t).2) := by
  induction u with
  | nil => rfl
  | cons c u ih =>
    rw [List.forall_mem_cons] at h
    rw [List.cons_append, lift_cons h.1, ih h.2]
    rfl

/-- A literal that is closed is lifted whole. -/
theorem lift_closed {quote : Char} {rest inside after : Text} (hquote : isQuote quote = true)
    (hclose : Text.closeQuote? quote rest = some (inside, after)) (ls : Literals) :
    ls.lift (quote :: rest) =
      (Literal.placeholder ls.size ++ ((ls.intern (quote :: inside)).2.lift after).1,
        ((ls.intern (quote :: inside)).2.lift after).2) := by
  rw [lift, if_pos hquote]
  split
  · rename_i hnone
    rw [hclose] at hnone
    cases hnone
  · rename_i inside' after' hsome
    rw [hclose] at hsome
    obtain ⟨rfl, rfl⟩ := Prod.mk.inj (Option.some.inj hsome)
    rfl

/-- A literal that is never closed stays in place. -/
theorem lift_unclosed {quote : Char} {rest : Text} (hquote : isQuote quote = true)
    (hopen : Text.closeQuote? quote rest = none) (ls : Literals) :
    ls.lift (quote :: rest) = (quote :: rest, ls) := by
  rw [lift, if_pos hquote]
  split
  · rfl
  · rename_i hsome
    rw [hopen] at hsome
    cases hsome

/-- A rawcode is lifted whole. -/
theorem lift_rawcode {value : Int} {raw : Text} (h : Literal.rawcode? value = some raw)
    (ls : Literals) (t : Text) :
    ls.lift (raw ++ t) =
      (Literal.placeholder ls.size ++ ((ls.intern raw).2.lift t).1,
        ((ls.intern raw).2.lift t).2) := by
  obtain ⟨-, -, hplain, rfl⟩ := Literal.rawcode?_eq_some h
  rw [List.cons_append, List.append_assoc, List.singleton_append,
    lift_closed (by decide) (Literal.closeQuote?_plainDigits hplain t)]

end Literals
end ScriptMinifier
