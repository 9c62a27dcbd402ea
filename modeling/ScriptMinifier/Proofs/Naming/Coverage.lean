import ScriptMinifier.Proofs.Naming.Answers

/-! The names that a pool comes to.

A name of three characters is of one of some shapes, which say for each position whether an
upper-case letter, a lower-case letter or a digit stands there. The patterns for locals have all
shapes that such a name can have; those for globals leave four out (`Scheme.leftOut`). Every other
name of a scheme is a candidate (`exists_number_iff`). So a name is shorter than the one that a pool
deals only if it has been dealt, is reserved, or is of a shape left out (`shorter_names_taken`), and
after 130650 names the pool of globals goes on with `AAAA`, although `AaA` is free
(`aaA_passed_over`). -/
namespace ScriptMinifier.Naming

/-! ### Shapes -/

/-- The kinds of characters that names are made of. -/
inductive CharClass
  | upper
  | lower
  | digit
deriving DecidableEq, Repr

namespace CharClass

/-- The characters of a class. -/
def chars : CharClass → List Char
  | upper => uppers
  | lower => lowers
  | digit => digits

/-- The class of a letter or digit. -/
def of (c : Char) : CharClass := if c.isUpper then upper else if c.isLower then lower else digit

end CharClass

open CharClass (upper lower digit)

/-- The classes of the characters of a name. -/
def shape (name : Text) : List CharClass := name.map CharClass.of

/-- The names of a shape. -/
def ofShape (classes : List CharClass) : Pattern := classes.map CharClass.chars

namespace Scheme

/-- The shapes of the patterns of a scheme. -/
def shapes : Scheme → List (List CharClass)
  | globals => [
      [upper],
      [upper, upper], [lower, upper], [upper, lower], [upper, digit],
      [upper, upper, upper], [upper, lower, lower], [upper, upper, lower],
      [upper, upper, digit], [upper, digit, digit], [upper, digit, upper],
      [lower, upper, upper], [lower, lower, upper], [lower, upper, lower],
      [lower, upper, digit]]
  | locals => [
      [lower],
      [lower, lower], [lower, digit],
      [lower, lower, lower], [lower, lower, digit], [lower, digit, digit],
      [lower, digit, lower]]

/-- The shapes of short names that no pattern has. -/
def leftOut : Scheme → List (List CharClass)
  | globals => [
      [upper, lower, upper], [upper, lower, digit], [upper, digit, lower], [lower, digit, upper]]
  | locals => []

theorem patterns_eq (s : Scheme) : s.patterns = s.shapes.map ofShape := by
  cases s <;> rfl

theorem length_of_mem_leftOut (s : Scheme) :
    ∀ classes ∈ s.leftOut, classes.length = 3 ∧ classes ∉ s.shapes := by
  cases s <;> decide

end Scheme

/-! ### Characters -/

/-- A letter or digit is in its class, -/
theorem mem_chars_of {c : Char} (h : c.isAlphanum = true) : c ∈ (CharClass.of c).chars := by
  have hascii : ∀ n < 128, (Char.ofNat n).isAlphanum = true →
      (CharClass.of (Char.ofNat n)).chars.contains (Char.ofNat n) = true := by
    decide +kernel
  have hlt : c.toNat < 128 := by
    simp only [Char.isAlphanum, Char.isAlpha, Char.isUpper, Char.isLower, Char.isDigit,
      Bool.or_eq_true, Bool.and_eq_true, decide_eq_true_eq, UInt32.le_iff_toNat_le, ge_iff_le] at h
    have : c.toNat = c.val.toNat := rfl
    have : 'Z'.val.toNat = 90 := rfl
    have : 'z'.val.toNat = 122 := rfl
    have : '9'.val.toNat = 57 := rfl
    omega
  have hmem := hascii c.toNat hlt
  rw [Char.ofNat_toNat] at hmem
  exact List.contains_iff_mem.1 (hmem h)

/-- and in no other. -/
theorem of_eq_of_mem_chars {a : CharClass} {c : Char} (h : c ∈ a.chars) : CharClass.of c = a := by
  have hall : (a.chars.all fun c => CharClass.of c == a) = true := by
    cases a <;> decide +kernel
  exact eq_of_beq (List.all_eq_true.1 hall c h)

theorem shape_of_spells {classes : List CharClass} {name : Text}
    (h : Spells (ofShape classes) name) :
    shape name = classes := by
  induction classes generalizing name with
  | nil =>
    cases h
    rfl
  | cons a rest ih =>
    cases h with
    | @cons c _ more _ hc hmore =>
      rw [shape, List.map_cons, of_eq_of_mem_chars hc, ← shape, ih hmore]

theorem spells_ofShape {name : Text} (h : name.all Char.isAlphanum = true) :
    Spells (ofShape (shape name)) name := by
  rw [Spells, ofShape, shape, List.map_map, List.forall₂_map_right_iff, List.forall₂_same]
  exact fun c hc => mem_chars_of (List.all_eq_true.1 h c hc)

/-! ### Numbers of names -/

theorem exists_spell {p : Pattern} {name : Text} (h : Spells p name) :
    ∃ n, n < capacity p ∧ spell p n = name := by
  unfold Spells at h
  induction h with
  | nil => exact ⟨0, Nat.one_pos, rfl⟩
  | @cons c chars name rest hc _ ih =>
    obtain ⟨m, hm, rfl⟩ := ih
    obtain ⟨i, hi, rfl⟩ := List.mem_iff_getElem.1 hc
    have hpos : 0 < capacity rest := Nat.zero_lt_of_lt hm
    refine ⟨capacity rest * i + m, ?_, ?_⟩
    · calc capacity rest * i + m < capacity rest * (i + 1) := by rw [Nat.mul_succ]; omega
        _ ≤ capacity rest * chars.length := Nat.mul_le_mul_left _ hi
        _ = capacity (chars :: rest) := Nat.mul_comm _ _
    · rw [spell, Nat.mul_add_div hpos, Nat.div_eq_of_lt hm, Nat.add_zero, Nat.mod_eq_of_lt hi,
        List.getD_eq_getElem _ _ hi, ← spell_mod rest (_ + m), Nat.mul_add_mod, spell_mod]

/-- Every name of a long pattern is among the long names. -/
theorem exists_longName {s : Scheme} {name : Text} (k : Nat) {length : Nat}
    (h : Spells (s.longPattern (length + k)) name) : ∃ n, longName s length n = name := by
  induction k generalizing length with
  | zero =>
    obtain ⟨n, hn, rfl⟩ := exists_spell h
    rw [Nat.add_zero] at hn ⊢
    exact ⟨n, by rw [longName, if_pos hn]⟩
  | succ k ih =>
    rw [← Nat.add_assoc, Nat.add_right_comm] at h
    obtain ⟨n, rfl⟩ := ih h
    refine ⟨capacity (s.longPattern length) + n, ?_⟩
    rw [longName, if_neg (Nat.not_lt.2 (Nat.le_add_right _ _)), Nat.add_sub_cancel_left]

/-- After the names of some patterns come the long ones. -/
theorem nameFrom_sum (s : Scheme) (ps : List Pattern) (n : Nat) :
    nameFrom s ps ((ps.map capacity).sum + n) = longName s 4 n := by
  induction ps with
  | nil => rw [List.map_nil, List.sum_nil, Nat.zero_add, nameFrom]
  | cons p rest ih =>
    rw [List.map_cons, List.sum_cons, nameFrom, if_neg (by omega), Nat.add_assoc,
      Nat.add_sub_cancel_left, ih]

/-- The numbers before them belong to the patterns. -/
theorem exists_spells_of_lt {s : Scheme} {ps : List Pattern} (hps : ∀ p ∈ ps, p.Proper) {n : Nat}
    (h : n < (ps.map capacity).sum) : ∃ p ∈ ps, Spells p (nameFrom s ps n) := by
  induction ps generalizing n with
  | nil => exact absurd h (Nat.not_lt_zero n)
  | cons p rest ih =>
    rw [List.map_cons, List.sum_cons] at h
    rw [List.forall_mem_cons] at hps
    rw [nameFrom]
    split
    · exact ⟨p, List.mem_cons_self, spells_spell p hps.1 n⟩
    · obtain ⟨q, hq, hspells⟩ := ih hps.2 (show n - capacity p < (rest.map capacity).sum by omega)
      exact ⟨q, List.mem_cons_of_mem _ hq, hspells⟩

theorem exists_nameFrom {s : Scheme} {ps : List Pattern} {p : Pattern} (hp : p ∈ ps) {name : Text}
    (h : Spells p name) :
    ∃ n, nameFrom s ps n = name := by
  induction ps with
  | nil => cases hp
  | cons q rest ih =>
    rcases List.mem_cons.1 hp with rfl | hp
    · obtain ⟨n, hn, rfl⟩ := exists_spell h
      exact ⟨n, by rw [nameFrom, if_pos hn]⟩
    · obtain ⟨n, rfl⟩ := ih hp
      refine ⟨capacity q + n, ?_⟩
      rw [nameFrom, if_neg (Nat.not_lt.2 (Nat.le_add_right _ _)), Nat.add_sub_cancel_left]

/-! ### The shapes of names -/

variable {s : Scheme} {name : Text}

theorem Scheme.Names.head (h : s.Names name) : ∃ a rest, shape name = a :: rest ∧ a ≠ digit := by
  cases name with
  | nil => exact absurd h.ident (by decide)
  | cons c rest =>
    refine ⟨_, _, rfl, fun hdigit => ?_⟩
    have halpha := h.ident
    rw [Text.isIdent, Bool.and_eq_true, Char.isAlpha, Bool.or_eq_true] at halpha
    unfold CharClass.of at hdigit
    rcases halpha.1 with hupper | hlower
    · rw [if_pos hupper] at hdigit
      cases hdigit
    · rw [if_pos hlower] at hdigit
      split at hdigit <;> cases hdigit

theorem upper_mem_shape_iff : upper ∈ shape name ↔ name.any Char.isUpper = true := by
  rw [shape, List.mem_map, List.any_eq_true]
  refine exists_congr fun c => and_congr_right fun _ => ?_
  rw [CharClass.of]
  split
  · simp [*]
  · split <;> simp [*]

theorem Scheme.Names.upper_mem (h : s.Names name) :
    CharClass.upper ∈ shape name ↔ s = .globals := by
  rw [upper_mem_shape_iff, h.upper, decide_eq_true_iff]

/-- The short shapes are those of the patterns and those left out. -/
theorem mem_shapes_or_leftOut (s : Scheme) : ∀ a b c : CharClass, a ≠ digit →
    ((upper ∈ [a] ↔ s = .globals) → [a] ∈ s.shapes ∨ [a] ∈ s.leftOut) ∧
    ((upper ∈ [a, b] ↔ s = .globals) → [a, b] ∈ s.shapes ∨ [a, b] ∈ s.leftOut) ∧
    ((upper ∈ [a, b, c] ↔ s = .globals) → [a, b, c] ∈ s.shapes ∨ [a, b, c] ∈ s.leftOut) := by
  intro a b c
  cases s <;> cases a <;> cases b <;> cases c <;> decide

theorem Scheme.Names.shape_cases (h : s.Names name) (hshort : name.length < 4) :
    shape name ∈ s.shapes ∨ shape name ∈ s.leftOut := by
  obtain ⟨a, rest, hshape, hletter⟩ := h.head
  have hupper := h.upper_mem
  have hlength : (shape name).length < 4 := by rwa [shape, List.length_map]
  rw [hshape] at hupper hlength ⊢
  match rest with
  | [] => exact (mem_shapes_or_leftOut s a a a hletter).1 hupper
  | [b] => exact (mem_shapes_or_leftOut s a b b hletter).2.1 hupper
  | [b, c] => exact (mem_shapes_or_leftOut s a b c hletter).2.2 hupper
  | _ :: _ :: _ :: _ =>
    simp only [List.length_cons] at hlength
    omega

/-- Where no upper-case letter stands in a name, all its characters are of the locals. -/
theorem Scheme.Names.spells_long (h : s.Names name) : Spells (s.longPattern name.length) name := by
  have hchar : ∀ c ∈ name, c ∈ s.letters ++ digits ∧ (c.isAlpha = true → c ∈ s.letters) := by
    intro c hc
    have hclass := mem_chars_of (List.all_eq_true.1 h.alphanumeric c hc)
    have hglobals : CharClass.of c = CharClass.upper → s = .globals := fun heq =>
      h.upper_mem.1 (heq ▸ List.mem_map_of_mem hc)
    cases heq : CharClass.of c with
    | upper =>
      obtain rfl := hglobals heq
      rw [heq] at hclass
      have hmem : c ∈ Scheme.letters .globals := List.mem_append_left _ hclass
      exact ⟨List.mem_append_left _ hmem, fun _ => hmem⟩
    | lower =>
      rw [heq] at hclass
      have hmem : c ∈ s.letters := by
        cases s with
        | globals => exact List.mem_append_right _ hclass
        | locals => exact hclass
      exact ⟨List.mem_append_left _ hmem, fun _ => hmem⟩
    | digit =>
      rw [heq] at hclass
      refine ⟨List.mem_append_right _ hclass, fun halpha => ?_⟩
      have hnone : (digits.all fun c => !c.isAlpha) = true := by decide +kernel
      have hnot := List.all_eq_true.1 hnone c hclass
      rw [halpha] at hnot
      cases hnot
  cases name with
  | nil => exact absurd h.ident (by decide)
  | cons c rest =>
    have halpha := h.ident
    rw [Text.isIdent, Bool.and_eq_true] at halpha
    rw [List.forall_mem_cons] at hchar
    refine .cons (hchar.1.2 halpha.1) ?_
    rw [List.length_cons, Nat.add_sub_cancel, ← List.map_const, List.forall₂_map_right_iff,
      List.forall₂_same]
    exact fun d hd => (hchar.2 d hd).1

/-! ### Which names are candidates -/

/-- A name of a scheme is a candidate if and only if its shape is not left out. -/
theorem exists_number_iff (h : s.Names name) :
    (∃ n, candidate s n = name) ↔ shape name ∉ s.leftOut := by
  constructor
  · rintro ⟨n, rfl⟩ hleft
    obtain ⟨hlength, hnone⟩ := s.length_of_mem_leftOut _ hleft
    rw [shape, List.length_map] at hlength
    rcases spells_nameFrom s s.patterns (proper_patterns s) n with
      ⟨p, hp, hspells⟩ | ⟨l, hl, hspells⟩
    · rw [s.patterns_eq, List.mem_map] at hp
      obtain ⟨classes, hclasses, rfl⟩ := hp
      rw [candidate, shape_of_spells hspells] at hnone
      exact hnone hclasses
    · have hlong := length_of_spells_longPattern (by omega) hspells
      rw [candidate] at hlength
      omega
  · intro hleft
    by_cases hshort : name.length < 4
    · refine exists_nameFrom ?_ (spells_ofShape h.alphanumeric)
      rw [s.patterns_eq]
      exact List.mem_map_of_mem ((h.shape_cases hshort).resolve_right hleft)
    · obtain ⟨k, hk⟩ := Nat.exists_eq_add_of_le (Nat.not_lt.1 hshort)
      have hspells := h.spells_long
      rw [hk] at hspells
      obtain ⟨n, rfl⟩ := exists_longName k hspells
      refine ⟨(s.patterns.map capacity).sum + n, ?_⟩
      rw [candidate, nameFrom_sum]

namespace Pool

/-! ### What a pool has gone past -/

variable {pool : Pool}

/-- A candidate that a pool goes past is dealt or reserved, if it is a name of the scheme. -/
theorem dealt_or_reserved_of_lt_next {requests : List Request} {n : Nat} (hle : pool.next ≤ n)
    (hlt : n < (pool.after requests).next)
    (hadmits : pool.scheme.admits (candidate pool.scheme n) = true) :
    candidate pool.scheme n ∈ pool.dealt requests ∨
    candidate pool.scheme n ∈ (pool.after requests).reserved := by
  induction requests generalizing pool with
  | nil => exact absurd hlt (Nat.not_lt.2 hle)
  | cons r rest ih =>
    by_cases hpassed : n < (pool.serve r).next
    · -- the request goes past it
      cases r with
      | reserve names => exact absurd hpassed (Nat.not_lt.2 hle)
      | peek => exact absurd hpassed (Nat.not_lt.2 hle)
      | draw =>
        rcases Nat.lt_or_eq_of_le (Nat.lt_succ_iff.1 hpassed) with hbefore | rfl
        · exact .inr (reserved_subset_after _ (.draw :: rest)
            (mem_reserved_of_admits hadmits (not_isFree_of_lt_nextFree hle hbefore)))
        · exact .inl List.mem_cons_self
    · have hrest := ih (Nat.not_lt.1 hpassed) hlt (by rwa [serve_scheme])
      rw [serve_scheme] at hrest
      exact hrest.imp_left (List.mem_append_right _)

theorem admits_of_names (h : s.Names name) : s.admits name = true := by
  cases s with
  | globals => exact h.upper
  | locals => rfl

/-- **A name of the scheme that is shorter than the one dealt has been dealt or is reserved, unless
its shape is left out**, and a name of such a shape is never dealt. -/
theorem shorter_names_taken (s : Scheme) (requests : List Request) (name : Text)
    (hname : s.Names name) (hshorter : name.length < ((new s).after requests).draw.1.length) :
    (shape name ∉ s.leftOut →
      name ∈ Syntax.keywords ++ Syntax.datatypes ++ reservedBy requests ∨
      name ∈ (new s).dealt requests) ∧
    (shape name ∈ s.leftOut → name ∉ (new s).dealt requests) := by
  have hscheme : ((new s).after requests).scheme = s := after_scheme _ _
  constructor
  · intro hleft
    obtain ⟨n, rfl⟩ := (exists_number_iff hname).2 hleft
    -- candidates get no shorter, so the pool has gone past this one
    have hbefore : n < ((new s).after requests).nextFree := by
      refine Nat.not_le.1 fun hle => ?_
      have hlonger := length_candidate_mono s hle
      rw [draw_fst, hscheme] at hshorter
      omega
    have htaken : candidate s n ∈ (new s).dealt requests ∨
        candidate s n ∈ ((new s).after requests).reserved := by
      by_cases hpassed : n < ((new s).after requests).next
      · exact dealt_or_reserved_of_lt_next (Nat.zero_le n) hpassed (admits_of_names hname)
      · have hnot :
            ((new s).after requests).isFree (candidate ((new s).after requests).scheme n) = false :=
          not_isFree_of_lt_nextFree (Nat.not_lt.1 hpassed) hbefore
        rw [hscheme] at hnot
        exact .inr (mem_reserved_of_admits (by rw [hscheme]; exact admits_of_names hname) hnot)
    rcases htaken with hdealt | hreserved
    · exact .inr hdealt
    · exact .inl (List.mem_append.2 (mem_reserved_after.1 hreserved).symm)
  · intro hleft hdealt
    obtain ⟨n, -, rfl⟩ := exists_number_of_mem_dealt hdealt
    exact (exists_number_iff hname).1 ⟨n, rfl⟩ hleft

/-- With the letters from `b` on reserved the locals go on with `aa` after `a`, which is no longer
to be had. -/
theorem shorter_names_taken_locals :
    Scheme.Names .locals ['a'] ∧
      ['a'].length <
      ((new .locals).after [.reserve (lowers.tail.map fun c => [c]), .draw]).draw.1.length ∧
      (['a'] ∈ Syntax.keywords ++ Syntax.datatypes ++
        reservedBy [.reserve (lowers.tail.map fun c => [c]), .draw] ∨
        ['a'] ∈ (new .locals).dealt [.reserve (lowers.tail.map fun c => [c]), .draw]) := by
  have hname : Scheme.Names .locals ['a'] := ⟨by decide, by decide, by decide⟩
  have hshorter : ['a'].length <
      ((new .locals).after [.reserve (lowers.tail.map fun c => [c]), .draw]).draw.1.length := by
    decide +kernel
  exact ⟨hname, hshorter, (shorter_names_taken .locals _ ['a'] hname hshorter).1 List.not_mem_nil⟩

/-! ### Where the short names of globals end -/

/-- How many candidates of up to three characters there are for globals. -/
theorem sum_capacity_globals :
    ((Scheme.patterns .globals).map capacity).sum = 130650 := by decide +kernel

/-- All of them are free in a new pool. -/
theorem isFree_candidate_globals {n : Nat} (h : n < 130650) :
    (new .globals).isFree (candidate .globals n) = true := by
  rw [← sum_capacity_globals] at h
  obtain ⟨p, hp, hspells⟩ := exists_spells_of_lt (s := .globals) (proper_patterns .globals) h
  have hupper := any_upper_of_spells hspells (((patterns_table .globals).1 p hp).2 rfl)
  rw [← dealsLike_unreserved.free, isFree]
  exact (Bool.and_true _).trans hupper

theorem nextFree_of_isFree (h : pool.isFree (candidate pool.scheme pool.next) = true) :
    pool.nextFree = pool.next :=
  nextFree_eq (Nat.le_refl _) h fun _ hle hlt => absurd hlt (Nat.not_lt.2 hle)

/-- So they are dealt one by one. -/
theorem after_draws (k : Nat) (pool : Pool) (h : pool.next + k ≤ 130650)
    (hscheme : pool.scheme = .globals) (hreserved : pool.reserved = (new .globals).reserved) :
    pool.after (List.replicate k .draw) = { pool with next := pool.next + k } := by
  induction k generalizing pool with
  | zero => rfl
  | succ k ih =>
    have hsame : pool.isFree (candidate pool.scheme pool.next) =
        (new .globals).isFree (candidate pool.scheme pool.next) :=
      isFree_congr hscheme hreserved _
    have hfree : pool.isFree (candidate pool.scheme pool.next) = true := by
      rw [hsame, hscheme]
      exact isFree_candidate_globals (by omega)
    have hdraw : pool.draw.2 = { pool with next := pool.next + 1 } := by
      rw [draw, nextFree_of_isFree hfree]
    have hrest := ih { pool with next := pool.next + 1 } (by dsimp only; omega) hscheme hreserved
    rw [List.replicate_succ, after, serve, hdraw, hrest]
    dsimp only
    rw [Nat.add_right_comm, Nat.add_assoc]

theorem candidate_long : candidate .globals 130650 = "AAAA".toList := by
  rw [candidate, ← sum_capacity_globals, ← Nat.add_zero (List.sum _), nameFrom_sum, longName,
    if_pos (by decide +kernel)]
  decide +kernel

/-- After 130650 names the pool of globals goes on with `AAAA`; the shorter name `AaA` is neither
reserved nor has it been dealt. -/
theorem aaA_passed_over :
    ((new .globals).after (List.replicate 130650 .draw)).draw.1 = "AAAA".toList ∧
      Scheme.Names .globals "AaA".toList ∧
      "AaA".toList ∉ Syntax.keywords ++ Syntax.datatypes ++
        reservedBy (List.replicate 130650 .draw) ∧
      "AaA".toList ∉ (new .globals).dealt (List.replicate 130650 .draw) := by
  have hname : Scheme.Names .globals "AaA".toList := ⟨by decide, by decide, by decide⟩
  refine ⟨?_, hname, ?_, ?_⟩
  · have hlong : (new .globals).isFree "AAAA".toList = true := by
      rw [← dealsLike_unreserved.free]
      decide
    rw [after_draws 130650 (new .globals) (Nat.le_of_eq (Nat.zero_add _)) rfl rfl, draw_fst]
    generalize hstand : ({ new .globals with next := (new .globals).next + 130650 } : Pool) = pool
    have hnext : pool.next = 130650 := by rw [← hstand]; exact Nat.zero_add _
    have hscheme : pool.scheme = .globals := by rw [← hstand]; rfl
    have hfree : pool.isFree (candidate pool.scheme pool.next) = true := by
      rw [hscheme, hnext, candidate_long, ← hlong, ← hstand]
      rfl
    rw [nextFree_of_isFree hfree, hscheme, hnext, candidate_long]
  · intro hmem
    rcases List.mem_append.1 hmem with hlanguage | hreserved
    · exact absurd (Syntax.not_any_isUpper_language _ hlanguage) (by decide)
    · obtain ⟨r, hr, hmem⟩ := List.mem_flatMap.1 hreserved
      rw [List.eq_of_mem_replicate hr] at hmem
      cases hmem
  · intro hdealt
    obtain ⟨n, -, hn⟩ := exists_number_of_mem_dealt hdealt
    exact (exists_number_iff hname).1 ⟨n, hn.symm⟩ (by decide)

end Pool
end ScriptMinifier.Naming
