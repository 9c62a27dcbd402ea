import Mathlib
import ScriptMinifier.Naming.Pool

/-! The candidates of a pool.

Every number has a candidate, and no two numbers have the same one
(`candidate_injective`): within a pattern the number can be read off the characters, two
patterns of one length differ in the class of some position, and the long names of
different lengths differ in length. Candidates never get shorter (`length_candidate_mono`).
A scheme does not take all of them, but it takes one of any 62 in a row
(`exists_admitted`): a short global name has an upper-case letter by its pattern, and among
the long ones every number divisible by 62 ends in `A`. -/
namespace ScriptMinifier.Naming

/-! ### The names of a pattern -/

/-- A name with each character from the class at its position. -/
def Spells (p : Pattern) (name : Text) : Prop := List.Forall₂ (· ∈ ·) name p

/-- Every position has a choice, and no character is listed twice. -/
def Pattern.Proper (p : Pattern) : Prop := ∀ chars ∈ p, chars ≠ [] ∧ chars.Nodup

instance (p : Pattern) : Decidable p.Proper := by
  unfold Pattern.Proper
  infer_instance

theorem spells_spell (p : Pattern) (hp : p.Proper) (n : Nat) : Spells p (spell p n) := by
  induction p with
  | nil => exact .nil
  | cons chars rest ih =>
    obtain ⟨hne, -⟩ := hp chars List.mem_cons_self
    refine .cons ?_ (ih fun cs h => hp cs (List.mem_cons_of_mem _ h))
    have hlt : n / capacity rest % chars.length < chars.length :=
      Nat.mod_lt _ (List.length_pos_iff.2 hne)
    rw [List.getD_eq_getElem _ _ hlt]
    exact List.getElem_mem hlt

/-- Only the remainder by the capacity counts. -/
theorem spell_mod (p : Pattern) (n : Nat) : spell p (n % capacity p) = spell p n := by
  induction p generalizing n with
  | nil => rfl
  | cons chars rest ih =>
    have hhead : n % (chars.length * capacity rest) / capacity rest % chars.length =
        n / capacity rest % chars.length := by
      rw [Nat.mod_mul_left_div_self, Nat.mod_mod]
    have htail : spell rest (n % (chars.length * capacity rest)) = spell rest n := by
      rw [← ih, Nat.mod_mul_left_mod, ih]
    rw [capacity, spell, spell, hhead, htail]

theorem spell_injective (p : Pattern) (hp : p.Proper) {n m : Nat} (hn : n < capacity p)
    (hm : m < capacity p) (heq : spell p n = spell p m) : n = m := by
  induction p generalizing n m with
  | nil =>
    simp only [capacity] at hn hm
    omega
  | cons chars rest ih =>
    obtain ⟨-, hnodup⟩ := hp chars List.mem_cons_self
    have hrest : Pattern.Proper rest := fun cs h => hp cs (List.mem_cons_of_mem _ h)
    simp only [spell, List.cons.injEq] at heq
    simp only [capacity] at hn hm
    have hpos : 0 < capacity rest := by
      refine Nat.pos_of_ne_zero fun h0 => ?_
      rw [h0, Nat.mul_zero] at hn
      exact absurd hn (Nat.not_lt_zero n)
    have hdn : n / capacity rest < chars.length := Nat.div_lt_of_lt_mul (by rwa [Nat.mul_comm])
    have hdm : m / capacity rest < chars.length := Nat.div_lt_of_lt_mul (by rwa [Nat.mul_comm])
    have hdiv : n / capacity rest = m / capacity rest := by
      rw [Nat.mod_eq_of_lt hdn, Nat.mod_eq_of_lt hdm] at heq
      exact (List.getD_inj hdn hdm hnodup).1 heq.1
    have hmod : n % capacity rest = m % capacity rest := by
      refine ih hrest (Nat.mod_lt _ hpos) (Nat.mod_lt _ hpos) ?_
      rw [spell_mod, spell_mod]
      exact heq.2
    rw [← Nat.div_add_mod n (capacity rest), ← Nat.div_add_mod m (capacity rest), hdiv, hmod]

/-! ### Patterns without a common name -/

/-- Whether two patterns differ in length or, at some position, share no character. -/
def apart : Pattern → Pattern → Bool
  | [], [] => false
  | a :: p, b :: q => (a.all fun c => !b.contains c) || apart p q
  | _, _ => true

theorem apart_eq_false_of_spells {p q : Pattern} {name : Text} (hp : Spells p name)
    (hq : Spells q name) : apart p q = false := by
  unfold Spells at hp
  induction hp generalizing q with
  | nil =>
    cases hq
    rfl
  | @cons c a name p hc _ ih =>
    cases hq with
    | @cons _ b _ q hb hq =>
      rw [apart, ih hq, Bool.or_false]
      exact Bool.eq_false_iff.2 fun hall => by simpa [hb] using List.all_eq_true.1 hall c hc

/-! ### The tables

What is used of the patterns and the letters of a scheme is read off them here, once. -/

/-- What holds of the patterns of a scheme, the long ones included. -/
@[mk_iff]
structure Suits (s : Scheme) (p : Pattern) : Prop where
  proper : p.Proper
  short : p.length < 4
  nonempty : p ≠ []
  initial : (p.headD []).all Char.isAlpha = true
  alphanumeric : ∀ chars ∈ p, chars.all Char.isAlphanum = true
  lower : s = .locals → ∀ chars ∈ p, (chars.all fun c => !c.isUpper) = true

instance (s : Scheme) (p : Pattern) : Decidable (Suits s p) := decidable_of_iff' _ (suits_iff s p)

theorem patterns_table (s : Scheme) : (∀ p ∈ s.patterns, Suits s p ∧ (s = .globals → uppers ∈ p)) ∧
    s.patterns.Pairwise fun p q => apart p q = true ∧ p.length ≤ q.length := by
  cases s <;> decide +kernel

theorem letters_table (s : Scheme) : Suits s [s.letters, s.letters ++ digits] := by
  cases s <;> decide +kernel

/-- The first of the 62 characters of a long name of a global is an upper-case letter. -/
theorem letters_globals : (Scheme.letters .globals ++ digits).length = 62 ∧
    ((Scheme.letters .globals ++ digits).getD 0 'a').isUpper = true ∧
    uppers.all Char.isUpper = true := by
  decide +kernel

theorem proper_patterns (s : Scheme) : ∀ p ∈ s.patterns, Pattern.Proper p := fun p hp =>
  ((patterns_table s).1 p hp).1.proper

theorem length_of_mem_patterns (s : Scheme) : ∀ p ∈ s.patterns, p.length < 4 := fun p hp =>
  ((patterns_table s).1 p hp).1.short

/-- A position of a long name has one of two classes. -/
theorem mem_of_mem_longPattern {s : Scheme} {length : Nat} {chars : List Char}
    (h : chars ∈ s.longPattern length) :
    chars ∈ [s.letters, s.letters ++ digits] := by
  rcases List.mem_cons.1 h with rfl | h
  · exact List.mem_cons_self
  · exact List.mem_cons_of_mem _ (List.eq_of_mem_replicate h ▸ List.mem_cons_self)

theorem proper_longPattern (s : Scheme) (length : Nat) : Pattern.Proper (s.longPattern length) :=
  fun chars h =>
    (letters_table s).proper chars (mem_of_mem_longPattern h)

theorem length_of_spells_longPattern {s : Scheme} {length : Nat} {name : Text} (hpos : 0 < length)
    (h : Spells (s.longPattern length) name) : name.length = length := by
  rw [List.Forall₂.length_eq h, Scheme.longPattern, List.length_cons, List.length_replicate]
  omega

/-! ### Long names -/

theorem spells_longName (s : Scheme) (length n : Nat) :
    ∃ l, length ≤ l ∧ Spells (s.longPattern l) (longName s length n) := by
  fun_induction longName s length n with
  | case1 length n _ =>
    exact ⟨length, Nat.le_refl _, spells_spell _ (proper_longPattern s length) n⟩
  | case2 length n _ ih =>
    obtain ⟨l, hl, h⟩ := ih
    exact ⟨l, by omega, h⟩

/-- Names further on are longer. -/
theorem spell_ne_longName (s : Scheme) {length : Nat} (hpos : 0 < length) (n m : Nat) :
    spell (s.longPattern length) n ≠ longName s (length + 1) m := by
  intro heq
  have hspell := spells_spell _ (proper_longPattern s length) n
  obtain ⟨l, hl, hlong⟩ := spells_longName s (length + 1) m
  rw [← heq] at hlong
  have h := length_of_spells_longPattern hpos hspell
  have h' := length_of_spells_longPattern (by omega) hlong
  omega

theorem longName_injective (s : Scheme) {length : Nat} (hpos : 0 < length) {n m : Nat}
    (heq : longName s length n = longName s length m) : n = m := by
  fun_induction longName s length n generalizing m with
  | case1 length n hn =>
    rw [longName] at heq
    split at heq
    · rename_i hm
      exact spell_injective _ (proper_longPattern s length) hn hm heq
    · exact absurd heq (spell_ne_longName s hpos _ _)
  | case2 length n hn ih =>
    rw [longName.eq_def s length m] at heq
    split at heq
    · exact absurd heq.symm (spell_ne_longName s hpos _ _)
    · have := ih (Nat.succ_pos _) heq
      omega

/-! ### All candidates -/

theorem spells_nameFrom (s : Scheme) (ps : List Pattern) (hps : ∀ p ∈ ps, Pattern.Proper p)
    (n : Nat) :
    (∃ p ∈ ps, Spells p (nameFrom s ps n)) ∨
      ∃ l, 4 ≤ l ∧ Spells (s.longPattern l) (nameFrom s ps n) := by
  induction ps generalizing n with
  | nil => exact .inr (spells_longName s 4 n)
  | cons p rest ih =>
    rw [nameFrom]
    split
    · exact .inl ⟨p, List.mem_cons_self, spells_spell p (hps p List.mem_cons_self) n⟩
    · rcases ih (fun q hq => hps q (List.mem_cons_of_mem _ hq)) (n - capacity p) with ⟨q, hq, h⟩ | h
      · exact .inl ⟨q, List.mem_cons_of_mem _ hq, h⟩
      · exact .inr h

/-- What makes the names of a list of patterns, and the long ones after them, distinct. -/
structure Separate (ps : List Pattern) : Prop where
  proper : ∀ p ∈ ps, Pattern.Proper p
  short : ∀ p ∈ ps, p.length < 4
  apart : ps.Pairwise fun p q => apart p q = true

theorem Separate.tail {p : Pattern} {rest : List Pattern} (h : Separate (p :: rest)) :
    Separate rest :=
  ⟨fun q hq => h.proper q (List.mem_cons_of_mem _ hq),
    fun q hq => h.short q (List.mem_cons_of_mem _ hq), (List.pairwise_cons.1 h.apart).2⟩

theorem spell_ne_nameFrom (s : Scheme) {p : Pattern} {rest : List Pattern}
    (h : Separate (p :: rest)) (n m : Nat) : spell p n ≠ nameFrom s rest m := by
  intro heq
  have hp := spells_spell p (h.proper p List.mem_cons_self) n
  rw [heq] at hp
  rcases spells_nameFrom s rest h.tail.proper m with ⟨q, hq, hspells⟩ | ⟨l, hl, hspells⟩
  · have hapart := (List.pairwise_cons.1 h.apart).1 q hq
    rw [apart_eq_false_of_spells hp hspells] at hapart
    exact Bool.false_ne_true hapart
  · have hlong := length_of_spells_longPattern (by omega) hspells
    have hshort := h.short p List.mem_cons_self
    rw [← List.Forall₂.length_eq hp] at hshort
    omega

theorem nameFrom_injective (s : Scheme) {ps : List Pattern} (h : Separate ps) {n m : Nat}
    (heq : nameFrom s ps n = nameFrom s ps m) : n = m := by
  induction ps generalizing n m with
  | nil => exact longName_injective s (by decide) heq
  | cons p rest ih =>
    rw [nameFrom, nameFrom] at heq
    split at heq <;> split at heq
    · exact spell_injective p (h.proper p List.mem_cons_self) ‹_› ‹_› heq
    · exact absurd heq (spell_ne_nameFrom s h _ _)
    · exact absurd heq.symm (spell_ne_nameFrom s h _ _)
    · have := ih h.tail heq
      omega

theorem separate_patterns (s : Scheme) : Separate s.patterns :=
  ⟨proper_patterns s, length_of_mem_patterns s, (patterns_table s).2.imp And.left⟩

/-- No two numbers have the same candidate. -/
theorem candidate_injective (s : Scheme) : Function.Injective (candidate s) :=
  fun _ _ heq => nameFrom_injective s (separate_patterns s) heq

/-! ### Lengths of candidates -/

theorem length_spell (p : Pattern) (n : Nat) : (spell p n).length = p.length := by
  induction p with
  | nil => rfl
  | cons chars rest ih => rw [spell, List.length_cons, List.length_cons, ih]

theorem le_length_longName (s : Scheme) {length : Nat} (hpos : 0 < length) (n : Nat) :
    length ≤ (longName s length n).length := by
  obtain ⟨l, hl, h⟩ := spells_longName s length n
  rw [length_of_spells_longPattern (by omega) h]
  exact hl

theorem length_longName_mono (s : Scheme) {length : Nat} (hpos : 0 < length) {n m : Nat}
    (h : n ≤ m) :
    (longName s length n).length ≤ (longName s length m).length := by
  fun_induction longName s length n generalizing m with
  | case1 length n _ =>
    have hlength : (spell (s.longPattern length) n).length = length :=
      length_of_spells_longPattern hpos (spells_spell _ (proper_longPattern s length) n)
    rw [hlength]
    exact le_length_longName s hpos m
  | case2 length n hn ih =>
    rw [longName.eq_def s length m, if_neg (by omega)]
    exact ih (by omega) (by omega)

/-- What makes the names of a list of patterns, and the long ones after them, never shorter. -/
structure Rising (ps : List Pattern) : Prop where
  short : ∀ p ∈ ps, p.length < 4
  sorted : ps.Pairwise fun p q => p.length ≤ q.length

theorem Rising.tail {p : Pattern} {rest : List Pattern} (h : Rising (p :: rest)) : Rising rest :=
  ⟨fun q hq => h.short q (List.mem_cons_of_mem _ hq), (List.pairwise_cons.1 h.sorted).2⟩

theorem le_length_nameFrom (s : Scheme) {k : Nat} (hk : k < 4) {ps : List Pattern}
    (hps : ∀ p ∈ ps, k ≤ p.length) (n : Nat) : k ≤ (nameFrom s ps n).length := by
  induction ps generalizing n with
  | nil => exact Nat.le_trans (Nat.le_of_lt hk) (le_length_longName s (by decide) n)
  | cons p rest ih =>
    rw [nameFrom]
    split
    · rw [length_spell]
      exact hps p List.mem_cons_self
    · exact ih (fun q hq => hps q (List.mem_cons_of_mem _ hq)) _

theorem length_nameFrom_mono (s : Scheme) {ps : List Pattern} (h : Rising ps) {n m : Nat}
    (hle : n ≤ m) :
    (nameFrom s ps n).length ≤ (nameFrom s ps m).length := by
  induction ps generalizing n m with
  | nil => exact length_longName_mono s (by decide) hle
  | cons p rest ih =>
    have hlonger := (List.pairwise_cons.1 h.sorted).1
    rw [nameFrom, nameFrom]
    split <;> split
    · rw [length_spell, length_spell]
    · rw [length_spell]
      exact le_length_nameFrom s (h.short p List.mem_cons_self) hlonger _
    · omega
    · exact ih h.tail (by omega)

theorem rising_patterns (s : Scheme) : Rising s.patterns :=
  ⟨length_of_mem_patterns s, (patterns_table s).2.imp And.right⟩

/-- Candidates never get shorter. -/
theorem length_candidate_mono (s : Scheme) {n m : Nat} (h : n ≤ m) :
    (candidate s n).length ≤ (candidate s m).length :=
  length_nameFrom_mono s (rising_patterns s) h

/-! ### What candidates are made of -/

theorem Spells.of_all {p : Pattern} {name : Text} (h : Spells p name) {P : Char → Bool}
    (hp : ∀ chars ∈ p, chars.all P = true) : name.all P = true := by
  unfold Spells at h
  induction h with
  | nil => rfl
  | @cons c chars name p hc _ ih =>
    rw [List.all_cons, ih fun cs hcs => hp cs (List.mem_cons_of_mem _ hcs), Bool.and_true]
    exact List.all_eq_true.1 (hp chars List.mem_cons_self) c hc

/-- A candidate is spelled by a pattern of its scheme or by a long one. -/
theorem exists_pattern (s : Scheme) (n : Nat) : ∃ p, Spells p (candidate s n) ∧
    ((p.headD []).all Char.isAlpha = true ∧ p ≠ []) ∧
    (∀ chars ∈ p, chars.all Char.isAlphanum = true) ∧
      (s = .locals → ∀ chars ∈ p, (chars.all fun c => !c.isUpper) = true) := by
  rcases spells_nameFrom s s.patterns (proper_patterns s) n with ⟨p, hp, h⟩ | ⟨l, _, h⟩
  · have hsuits := ((patterns_table s).1 p hp).1
    exact ⟨p, h, ⟨hsuits.initial, hsuits.nonempty⟩, hsuits.alphanumeric, hsuits.lower⟩
  · have hsuits := letters_table s
    exact ⟨_, h, ⟨hsuits.initial, nofun⟩, fun chars hchars => hsuits.alphanumeric chars
      (mem_of_mem_longPattern hchars),
      fun hs chars hchars => hsuits.lower hs chars (mem_of_mem_longPattern hchars)⟩

/-- Candidates are made of letters and digits. -/
theorem candidate_alphanumeric (s : Scheme) (n : Nat) :
    (candidate s n).all Char.isAlphanum = true := by
  obtain ⟨p, h, -, halphanumeric, -⟩ := exists_pattern s n
  exact h.of_all halphanumeric

/-- Candidates for locals have no upper-case letter. -/
theorem not_any_isUpper_candidate (n : Nat) : (candidate .locals n).any Char.isUpper = false := by
  obtain ⟨p, h, -, -, hlower⟩ := exists_pattern .locals n
  rw [← Bool.not_eq_true', List.not_any_eq_all_not]
  exact h.of_all (hlower rfl)

theorem Spells.isIdent {chars : List Char} {p : Pattern} {name : Text}
    (h : Spells (chars :: p) name)
    (hfirst : chars.all Char.isAlpha = true) (hall : name.all Char.isAlphanum = true) :
    Text.isIdent name = true := by
  unfold Spells at h
  cases h with
  | @cons c _ rest _ hc hmore =>
    rw [List.all_cons, Bool.and_eq_true] at hall
    rw [Text.isIdent, List.all_eq_true.1 hfirst c hc, Bool.true_and]
    refine List.all_eq_true.2 fun d hd => ?_
    rw [Text.isWordChar, List.all_eq_true.1 hall.2 d hd, Bool.true_or]

/-- Candidates start with a letter. -/
theorem isIdent_candidate (s : Scheme) (n : Nat) : Text.isIdent (candidate s n) = true := by
  obtain ⟨p, h, ⟨hinitial, hne⟩, -, -⟩ := exists_pattern s n
  obtain ⟨chars, rest, rfl⟩ := List.exists_cons_of_ne_nil hne
  exact h.isIdent hinitial (candidate_alphanumeric s n)

theorem candidate_ne_nil (s : Scheme) (n : Nat) : candidate s n ≠ [] := by
  intro hnil
  have hident := isIdent_candidate s n
  rw [hnil] at hident
  cases hident

/-! ### Candidates that are names of the scheme -/

theorem any_upper_of_spells {p : Pattern} {name : Text} (h : Spells p name) (hp : uppers ∈ p) :
    name.any Char.isUpper = true := by
  unfold Spells at h
  induction h with
  | nil => cases hp
  | @cons c chars name p hc _ ih =>
    rw [List.any_cons]
    rcases List.mem_cons.1 hp with rfl | hp
    · rw [List.all_eq_true.1 letters_globals.2.2 c hc, Bool.true_or]
    · rw [ih hp, Bool.or_true]

/-- The last of several positions that start with `A` stands at it when the number is a
multiple of 62. -/
theorem any_upper_spell_replicate (k : Nat) {n : Nat} (h : n % 62 = 0) :
    (spell (List.replicate (k + 1) (Scheme.letters .globals ++ digits)) n).any Char.isUpper =
      true := by
  induction k with
  | zero =>
    obtain ⟨hlen, hA, -⟩ := letters_globals
    rw [List.replicate_succ, List.replicate_zero, spell, spell, capacity, Nat.div_one, hlen, h,
      List.any_cons, hA, Bool.true_or]
  | succ k ih => rw [List.replicate_succ, spell, List.any_cons, ih, Bool.or_true]

theorem capacity_longPattern_mod (length : Nat) (h : 2 ≤ length) :
    capacity (Scheme.longPattern .globals length) % 62 = 0 := by
  obtain ⟨k, rfl⟩ : ∃ k, length = k + 2 := ⟨length - 2, by omega⟩
  rw [Scheme.longPattern, show k + 2 - 1 = k + 1 by omega, List.replicate_succ, capacity, capacity,
    letters_globals.1, ← Nat.mul_assoc, Nat.mul_comm _ 62, Nat.mul_assoc, Nat.mul_mod_right]

theorem any_upper_spell_longPattern {length : Nat} (hlen : 2 ≤ length) {n : Nat} (h : n % 62 = 0) :
    (spell (Scheme.longPattern .globals length) n).any Char.isUpper = true := by
  obtain ⟨k, rfl⟩ : ∃ k, length = k + 2 := ⟨length - 2, by omega⟩
  rw [Scheme.longPattern, spell, List.any_cons, show k + 2 - 1 = k + 1 by omega,
    any_upper_spell_replicate k h, Bool.or_true]

theorem any_upper_longName {length : Nat} (hlen : 2 ≤ length) {n : Nat} (h : n % 62 = 0) :
    (longName .globals length n).any Char.isUpper = true := by
  fun_induction longName .globals length n with
  | case1 length n _ => exact any_upper_spell_longPattern hlen h
  | case2 length n _ ih =>
    have := capacity_longPattern_mod length hlen
    exact ih (by omega) (by omega)

theorem exists_upper_nameFrom (ps : List Pattern) (hps : ∀ p ∈ ps, Pattern.Proper p ∧ uppers ∈ p)
    (n : Nat) : ∃ k, k < 62 ∧ (nameFrom .globals ps (n + k)).any Char.isUpper = true := by
  induction ps generalizing n with
  | nil => exact ⟨(62 - n % 62) % 62, by omega, any_upper_longName (by decide) (by omega)⟩
  | cons p rest ih =>
    obtain ⟨hproper, hupper⟩ := hps p List.mem_cons_self
    by_cases hn : n < capacity p
    · refine ⟨0, by decide, ?_⟩
      rw [nameFrom, Nat.add_zero, if_pos hn]
      exact any_upper_of_spells (spells_spell p hproper n) hupper
    · obtain ⟨k, hk, h⟩ := ih (fun q hq => hps q (List.mem_cons_of_mem _ hq)) (n - capacity p)
      refine ⟨k, hk, ?_⟩
      rw [nameFrom, if_neg (by omega), show n + k - capacity p = n - capacity p + k by omega]
      exact h

/-- Of any 62 candidates in a row one is a name of the scheme. -/
theorem exists_admitted (s : Scheme) (n : Nat) :
    ∃ k, k < 62 ∧ s.admits (candidate s (n + k)) = true := by
  cases s with
  | globals =>
    refine exists_upper_nameFrom _ (fun p hp => ?_) n
    obtain ⟨hsuits, hupper⟩ := (patterns_table .globals).1 p hp
    exact ⟨hsuits.proper, hupper rfl⟩
  | locals => exact ⟨0, by decide, rfl⟩

end ScriptMinifier.Naming
