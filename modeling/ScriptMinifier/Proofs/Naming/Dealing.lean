import ScriptMinifier.Proofs.Naming.Candidates
import ScriptMinifier.Proofs.Syntax.Words

/-! What a pool deals.

A pool always finds a free name (`isFree_peek`): among the candidates it looks at there are
more names of the scheme than reserved names, and all are distinct. It goes forward only, so
the names it deals in a row are candidates of rising numbers (`exists_numbers`); they are
free, pairwise distinct and never get shorter, whatever the pool has dealt and reserved before
(`isFree_of_mem_drawMany`, `nodup_drawMany`, `pairwise_length_drawMany`). What they are is
settled by the place where a pool stands and by its free names (`DealsLike.drawMany`). -/
namespace ScriptMinifier.Naming.Pool

/-! ### The search for a free candidate -/

theorem le_search (pool : Pool) (tries n : Nat) : n ≤ pool.search tries n := by
  induction tries generalizing n with
  | zero => exact Nat.le_refl n
  | succ tries ih =>
    rw [search]
    split
    · exact Nat.le_refl n
    · exact Nat.le_trans (Nat.le_succ n) (ih (n + 1))

/-- A search that does not end at a free candidate has met none. -/
theorem not_isFree_of_search {pool : Pool} {tries n : Nat}
    (h : pool.isFree (candidate pool.scheme (pool.search tries n)) = false) :
    ∀ k, k < tries → pool.isFree (candidate pool.scheme (n + k)) = false := by
  induction tries generalizing n with
  | zero => intro k hk; exact absurd hk (Nat.not_lt_zero k)
  | succ tries ih =>
    rw [search] at h
    split at h
    · rename_i hfree
      rw [hfree] at h
      exact absurd h.symm Bool.false_ne_true
    · rename_i hfree
      intro k hk
      cases k with
      | zero => simpa using hfree
      | succ k =>
        rw [show n + (k + 1) = n + 1 + k by omega]
        exact ih h k (by omega)

/-- A candidate that is a name of the scheme and not free is reserved. -/
theorem mem_reserved_of_admits {pool : Pool} {name : Text} (ha : pool.scheme.admits name = true)
    (hf : pool.isFree name = false) : name ∈ pool.reserved := by
  rw [isFree, ha, Bool.true_and, Bool.not_eq_eq_eq_not, Bool.not_false, isReserved] at hf
  exact List.contains_iff_mem.1 hf

/-- A number that suits in each block of 62. -/
theorem exists_block_numbers {p : Nat → Prop} (hp : ∀ n, ∃ k, k < 62 ∧ p (n + k)) (start : Nat) :
    ∃ number : Nat → Nat, ∀ j, start + 62 * j ≤ number j ∧ number j < start + 62 * (j + 1) ∧
    p (number j) := by
  have h : ∀ j, ∃ n, start + 62 * j ≤ n ∧ n < start + 62 * (j + 1) ∧ p n := by
    intro j
    obtain ⟨k, hk, ha⟩ := hp (start + 62 * j)
    exact ⟨start + 62 * j + k, by omega, by omega, ha⟩
  exact ⟨fun j => (h j).choose, fun j => (h j).choose_spec⟩

/-- Of distinct names, one of any 62 in a row admitted, a free one is found among 62 for each
reserved name and 62 more. -/
theorem exists_free {s : Scheme} {f : Nat → Text} (hf : Function.Injective f)
    (hadmits : ∀ n, ∃ k, k < 62 ∧ s.admits (f (n + k)) = true) (start : Nat)
    (reserved : List Text) :
    ∃ k, k < 62 * (reserved.length + 1) ∧
      (s.admits (f (start + k)) && !reserved.contains (f (start + k))) = true := by
  by_contra hnot
  obtain ⟨number, hnumber⟩ :=
    exists_block_numbers (p := fun n => s.admits (f n) = true) hadmits start
  let names := (List.range (reserved.length + 1)).map fun j => f (number j)
  -- One admitted name in each block, all of them reserved: one too many.
  have hnodup : names.Nodup := by
    refine List.Nodup.map_on (fun i _ j _ heq => ?_) List.nodup_range
    have := hf heq
    have hi := hnumber i
    have hj := hnumber j
    omega
  have hsubset : names ⊆ reserved := by
    intro name hname
    obtain ⟨j, hj, rfl⟩ := List.mem_map.1 hname
    obtain ⟨hle, hlt, hadmitted⟩ := hnumber j
    have hj' := List.mem_range.1 hj
    by_contra hmem
    refine hnot ⟨number j - start, by omega, ?_⟩
    rw [Nat.add_sub_cancel' (by omega), hadmitted, Bool.true_and, Bool.not_eq_true',
      Bool.eq_false_iff]
    exact hmem ∘ List.contains_iff_mem.1
  have hle := hnodup.length_le_of_subset hsubset
  rw [List.length_map, List.length_range] at hle
  omega

/-- There is a free name among the candidates that a pool looks at. -/
theorem exists_isFree (pool : Pool) :
    ∃ k, k < pool.tries ∧ pool.isFree (candidate pool.scheme (pool.next + k)) = true :=
  exists_free (candidate_injective pool.scheme) (exists_admitted pool.scheme) pool.next
    pool.reserved

/-- The name to be dealt next is free. -/
theorem isFree_peek (pool : Pool) : pool.isFree pool.peek = true := by
  by_contra hnot
  obtain ⟨k, hk, hfree⟩ := exists_isFree pool
  have hmet := not_isFree_of_search (Bool.eq_false_iff.2 hnot) k hk
  exact Bool.false_ne_true (hmet.symm.trans hfree)

theorem next_le_nextFree (pool : Pool) : pool.next ≤ pool.nextFree := le_search pool _ _

/-! ### Dealing one name -/

@[simp] theorem draw_fst (pool : Pool) : pool.draw.1 = candidate pool.scheme pool.nextFree := rfl

@[simp] theorem draw_scheme (pool : Pool) : pool.draw.2.scheme = pool.scheme := rfl

@[simp] theorem draw_reserved (pool : Pool) : pool.draw.2.reserved = pool.reserved := rfl

@[simp] theorem draw_next (pool : Pool) : pool.draw.2.next = pool.nextFree + 1 := rfl

theorem isFree_congr {pool pool' : Pool} (hs : pool'.scheme = pool.scheme)
    (hr : pool'.reserved = pool.reserved) (name : Text) : pool'.isFree name = pool.isFree name := by
  rw [isFree, isFree, isReserved, isReserved, hs, hr]

/-- Reserving names leaves the others as they are. -/
theorem isFree_reserve (pool : Pool) (names : List Text) (name : Text) :
    (pool.reserve names).isFree name = (pool.isFree name && !names.contains name) := by
  have hreserved :
      (pool.reserve names).isReserved name = (names.contains name || pool.isReserved name) := by
    rw [isReserved, Pool.reserve, List.contains_append, isReserved]
  rw [isFree, isFree, hreserved, Bool.not_or, Bool.and_comm (!names.contains name), Bool.and_assoc]
  rfl

/-! ### Dealing several names -/

theorem length_drawMany (pool : Pool) (n : Nat) : (pool.drawMany n).1.length = n := by
  induction n generalizing pool with
  | zero => rfl
  | succ n ih => exact congrArg Nat.succ (ih pool.draw.2)

theorem isFree_of_mem_drawMany {pool : Pool} {n : Nat} {name : Text}
    (h : name ∈ (pool.drawMany n).1) :
    pool.isFree name = true := by
  induction n generalizing pool with
  | zero => cases h
  | succ n ih =>
    rcases List.mem_cons.1 h with rfl | h
    · exact isFree_peek pool
    · have hrest : pool.draw.2.isFree name = true := ih h
      rwa [isFree_congr (draw_scheme pool) (draw_reserved pool)] at hrest

/-- The names dealt are the candidates of rising numbers, from the pool's next one on. -/
theorem exists_numbers (pool : Pool) (n : Nat) : ∃ numbers : List Nat,
    (pool.drawMany n).1 = numbers.map (candidate pool.scheme) ∧ numbers.Pairwise (· < ·) ∧
      ∀ k ∈ numbers, pool.next ≤ k := by
  induction n generalizing pool with
  | zero => exact ⟨[], rfl, .nil, fun k hk => nomatch hk⟩
  | succ n ih =>
    obtain ⟨numbers, hnames, hrising, hfrom⟩ := ih pool.draw.2
    have hnext := next_le_nextFree pool
    refine ⟨pool.nextFree :: numbers, congrArg (List.cons _) hnames, ?_, ?_⟩
    · refine List.pairwise_cons.2 ⟨fun k hk => ?_, hrising⟩
      have := hfrom k hk
      rw [draw_next] at this
      omega
    · intro k hk
      rcases List.mem_cons.1 hk with rfl | hk
      · exact hnext
      · have := hfrom k hk
        rw [draw_next] at this
        omega

theorem nodup_drawMany (pool : Pool) (n : Nat) : (pool.drawMany n).1.Nodup := by
  obtain ⟨numbers, hnames, hrising, -⟩ := exists_numbers pool n
  rw [hnames]
  exact (hrising.imp fun h => Nat.ne_of_lt h).map _ fun i j hne heq => hne
    (candidate_injective _ heq)

/-- Names that are dealt in a row never get shorter. -/
theorem pairwise_length_drawMany (pool : Pool) (n : Nat) :
    (pool.drawMany n).1.Pairwise fun a b => a.length ≤ b.length := by
  obtain ⟨numbers, hnames, hrising, -⟩ := exists_numbers pool n
  rw [hnames, List.pairwise_map]
  exact hrising.imp fun h => length_candidate_mono _ (Nat.le_of_lt h)

/-- Names are words. -/
theorem isWord_of_mem_drawMany {pool : Pool} {n : Nat} {name : Text}
    (h : name ∈ (pool.drawMany n).1) :
    name ≠ [] ∧ name.all Text.isWordChar = true := by
  obtain ⟨numbers, hnames, -, -⟩ := exists_numbers pool n
  rw [hnames] at h
  obtain ⟨k, -, rfl⟩ := List.mem_map.1 h
  refine ⟨candidate_ne_nil _ k, List.all_eq_true.2 fun c hc => ?_⟩
  rw [Text.isWordChar, List.all_eq_true.1 (candidate_alphanumeric _ k) c hc, Bool.true_or]

theorem isIdent_of_mem_drawMany {pool : Pool} {n : Nat} {name : Text}
    (h : name ∈ (pool.drawMany n).1) :
    Text.isIdent name = true := by
  obtain ⟨numbers, hnames, -, -⟩ := exists_numbers pool n
  rw [hnames] at h
  obtain ⟨k, -, rfl⟩ := List.mem_map.1 h
  exact isIdent_candidate _ k

/-! ### Dealing a name for each item -/

theorem deal_fst (pool : Pool) (items : List Text) :
    (pool.deal items).1 = items.zip (pool.drawMany items.length).1 := rfl

theorem map_fst_deal (pool : Pool) (items : List Text) :
    (pool.deal items).1.map Prod.fst = items := by
  rw [deal_fst, List.map_fst_zip (Nat.le_of_eq (length_drawMany pool _).symm)]

theorem map_snd_deal (pool : Pool) (items : List Text) :
    (pool.deal items).1.map Prod.snd = (pool.drawMany items.length).1 := by
  rw [deal_fst, List.map_snd_zip (Nat.le_of_eq (length_drawMany pool _))]

theorem mem_drawMany_of_mem_deal {pool : Pool} {items : List Text} {old new : Text}
    (h : (old, new) ∈ (pool.deal items).1) : new ∈ (pool.drawMany items.length).1 := by
  rw [← map_snd_deal]
  exact List.mem_map_of_mem h

/-- Two items that were dealt one name are the same. -/
theorem deal_injective {pool : Pool} {items : List Text} {u v new : Text}
    (hu : (u, new) ∈ (pool.deal items).1) (hv : (v, new) ∈ (pool.deal items).1) : u = v := by
  have hnodup : ((pool.deal items).1.map Prod.snd).Nodup := by
    rw [map_snd_deal]
    exact nodup_drawMany pool _
  have := List.inj_on_of_nodup_map hnodup hu hv rfl
  exact congrArg Prod.fst this

/-! ### Pools that deal alike -/

/-- Before the candidate that is dealt next none is free. -/
theorem not_isFree_of_lt_search {pool : Pool} {tries n m : Nat} (hle : n ≤ m)
    (hlt : m < pool.search tries n) :
    pool.isFree (candidate pool.scheme m) = false := by
  induction tries generalizing n with
  | zero =>
    rw [search] at hlt
    omega
  | succ tries ih =>
    rw [search] at hlt
    split at hlt
    · omega
    · rename_i hfree
      rcases Nat.eq_or_lt_of_le hle with rfl | hle
      · simpa using hfree
      · exact ih hle hlt

/-- Two pools that stand at one place and have the same free names. -/
structure DealsLike (pool pool' : Pool) : Prop where
  scheme : pool'.scheme = pool.scheme
  next : pool'.next = pool.next
  free : ∀ name, pool'.isFree name = pool.isFree name

namespace DealsLike

variable {pool pool' : Pool}

theorem symm (h : DealsLike pool pool') : DealsLike pool' pool :=
  ⟨h.scheme.symm, h.next.symm, fun name => (h.free name).symm⟩

theorem nextFree_le (h : DealsLike pool pool') : pool'.nextFree ≤ pool.nextFree := by
  by_contra hlt
  have hbefore : pool'.next ≤ pool.nextFree := by
    rw [h.next]
    exact next_le_nextFree pool
  have hnot := not_isFree_of_lt_search hbefore (Nat.not_le.1 hlt)
  have hfree : pool.isFree (candidate pool.scheme pool.nextFree) = true := isFree_peek pool
  rw [h.free, h.scheme, hfree] at hnot
  cases hnot

theorem nextFree (h : DealsLike pool pool') : pool'.nextFree = pool.nextFree :=
  Nat.le_antisymm h.nextFree_le h.symm.nextFree_le

theorem draw (h : DealsLike pool pool') :
    pool'.draw.1 = pool.draw.1 ∧ DealsLike pool.draw.2 pool'.draw.2 := by
  refine ⟨by rw [draw_fst, draw_fst, h.scheme, h.nextFree], h.scheme, ?_, fun name => ?_⟩
  · rw [draw_next, draw_next, h.nextFree]
  · rw [isFree_congr (draw_scheme pool) (draw_reserved pool),
      isFree_congr (draw_scheme pool') (draw_reserved pool'), h.free]

theorem reserve (h : DealsLike pool pool') (names : List Text) :
    DealsLike (pool.reserve names) (pool'.reserve names) :=
  ⟨h.scheme, h.next, fun name => by rw [isFree_reserve, isFree_reserve, h.free]⟩

theorem drawMany (h : DealsLike pool pool') (n : Nat) :
    (pool'.drawMany n).1 = (pool.drawMany n).1 := by
  induction n generalizing pool pool' with
  | zero => rfl
  | succ n ih =>
    obtain ⟨hname, hrest⟩ := h.draw
    exact congrArg₂ List.cons hname (ih hrest)

theorem deal (h : DealsLike pool pool') (items : List Text) :
    (pool'.deal items).1 = (pool.deal items).1 := by
  rw [deal_fst, deal_fst, h.drawMany]

end DealsLike

/-- A pool for globals in which nothing is reserved. -/
def unreserved : Pool := { scheme := .globals, reserved := [] }

/-- No word of the language has an upper-case letter, so for globals none needs to be reserved. -/
theorem dealsLike_unreserved : DealsLike (new .globals) unreserved := by
  refine ⟨rfl, rfl, fun name => ?_⟩
  rw [isFree, isFree]
  cases hadmits : (new .globals).scheme.admits name with
  | false =>
    rw [show unreserved.scheme = (new .globals).scheme from rfl, hadmits, Bool.false_and,
      Bool.false_and]
  | true =>
    have hfree : (new .globals).isReserved name = false := by
      rw [isReserved, Bool.eq_false_iff]
      intro hmem
      have hlower := Syntax.not_any_isUpper_language name (List.contains_iff_mem.1 hmem)
      rw [show name.any Char.isUpper = true from hadmits] at hlower
      cases hlower
    rw [show unreserved.scheme = (new .globals).scheme from rfl, hadmits, hfree]
    rfl

end ScriptMinifier.Naming.Pool
