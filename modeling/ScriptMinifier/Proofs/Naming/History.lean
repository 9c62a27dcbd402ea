import ScriptMinifier.Proofs.Naming.Dealing

/-! The life of a pool.

A pool is asked to reserve names, to show the next one and to deal it, in any order. It goes
forward only and forgets no reservation, so after any list of requests it deals names that it
has not dealt before (`not_mem_dealt_of_mem_drawMany`) and that are no words of the language
(`not_mem_language_of_mem_drawMany`). The names of globals have an upper-case letter
(`any_isUpper_of_mem_drawMany`), and those of locals have none
(`not_any_isUpper_of_mem_drawMany`). -/
namespace ScriptMinifier.Naming.Pool

/-! ### Requests -/

/-- What is asked of a pool. -/
inductive Request
  | reserve (names : List Text)
  | peek
  | draw
deriving DecidableEq, Repr

/-- The pool after a request. Looking at the next name leaves it as it is. -/
def serve (pool : Pool) : Request → Pool
  | .reserve names => pool.reserve names
  | .peek => pool
  | .draw => pool.draw.2

/-- The name that a request takes out of the pool. -/
def taken? (pool : Pool) : Request → Option Text
  | .draw => some pool.draw.1
  | _ => none

/-- The pool after a list of requests. -/
def after (pool : Pool) : List Request → Pool
  | [] => pool
  | r :: rest => (pool.serve r).after rest

/-- The names that a list of requests takes out of the pool. -/
def dealt (pool : Pool) : List Request → List Text
  | [] => []
  | r :: rest => (pool.taken? r).toList ++ (pool.serve r).dealt rest

/-! ### What a request leaves -/

variable {pool : Pool} {name : Text}

@[simp] theorem serve_scheme (pool : Pool) (r : Request) : (pool.serve r).scheme = pool.scheme := by
  cases r <;> rfl

theorem reserved_subset_serve (pool : Pool) (r : Request) :
    pool.reserved ⊆ (pool.serve r).reserved := by
  cases r with
  | reserve names => exact List.subset_append_right _ _
  | peek => exact List.Subset.refl _
  | draw => exact List.Subset.refl _

theorem next_le_serve (pool : Pool) (r : Request) : pool.next ≤ (pool.serve r).next := by
  cases r with
  | reserve names => exact Nat.le_refl _
  | peek => exact Nat.le_refl _
  | draw => exact Nat.le_succ_of_le (next_le_nextFree pool)

/-- A name is taken from where the pool stands, and the pool goes past it. -/
theorem exists_number_of_taken? {r : Request} (h : pool.taken? r = some name) :
    ∃ n, n < (pool.serve r).next ∧ name = candidate pool.scheme n := by
  cases r with
  | reserve names => cases h
  | peek => cases h
  | draw =>
    rw [taken?, Option.some.injEq] at h
    exact ⟨pool.nextFree, Nat.lt_succ_self _, h.symm⟩

/-! ### What a list of requests leaves -/

@[simp] theorem after_scheme (pool : Pool) (requests : List Request) :
    (pool.after requests).scheme = pool.scheme := by
  induction requests generalizing pool with
  | nil => rfl
  | cons r rest ih => rw [after, ih, serve_scheme]

theorem reserved_subset_after (pool : Pool) (requests : List Request) :
    pool.reserved ⊆ (pool.after requests).reserved := by
  induction requests generalizing pool with
  | nil => exact List.Subset.refl _
  | cons r rest ih => exact List.Subset.trans (reserved_subset_serve pool r) (ih _)

theorem next_le_after (pool : Pool) (requests : List Request) :
    pool.next ≤ (pool.after requests).next := by
  induction requests generalizing pool with
  | nil => exact Nat.le_refl _
  | cons r rest ih => exact Nat.le_trans (next_le_serve pool r) (ih _)

/-- What has been dealt are candidates that the pool has gone past. -/
theorem exists_number_of_mem_dealt {requests : List Request} (h : name ∈ pool.dealt requests) :
    ∃ n, n < (pool.after requests).next ∧ name = candidate pool.scheme n := by
  induction requests generalizing pool with
  | nil => cases h
  | cons r rest ih =>
    rw [dealt, List.mem_append, Option.mem_toList] at h
    rcases h with htaken | hrest
    · obtain ⟨n, hn, rfl⟩ := exists_number_of_taken? htaken
      exact ⟨n, Nat.lt_of_lt_of_le hn (next_le_after _ rest), rfl⟩
    · obtain ⟨n, hn, rfl⟩ := ih hrest
      exact ⟨n, hn, by rw [serve_scheme]⟩

/-! ### Dealing after requests

More names may be reserved before the pool deals. -/

/-- No name is dealt again. -/
theorem not_mem_dealt_of_mem_drawMany {requests : List Request} {names : List Text} {n : Nat}
    (h : name ∈ (((pool.after requests).reserve names).drawMany n).1) :
    name ∉ pool.dealt requests := by
  intro hdealt
  obtain ⟨k, hk, heq⟩ := exists_number_of_mem_dealt hdealt
  obtain ⟨numbers, hnumbers, -, hfrom⟩ := exists_numbers ((pool.after requests).reserve names) n
  rw [hnumbers] at h
  obtain ⟨m, hm, rfl⟩ := List.mem_map.1 h
  have hscheme : ((pool.after requests).reserve names).scheme = pool.scheme :=
    after_scheme pool requests
  rw [hscheme] at heq
  have hlater : (pool.after requests).next ≤ m := hfrom m hm
  have hsame := candidate_injective _ heq
  omega

theorem not_mem_reserved_of_isFree (h : pool.isFree name = true) : name ∉ pool.reserved := by
  intro hmem
  rw [isFree, isReserved, List.contains_iff_mem.2 hmem, Bool.not_true, Bool.and_false] at h
  cases h

/-- A pool in which the words of the language are reserved deals none of them. -/
theorem not_mem_language_of_mem_drawMany
    (hreserved : Syntax.keywords ++ Syntax.datatypes ⊆ pool.reserved) {n : Nat}
    (h : name ∈ (pool.drawMany n).1) : name ∉ Syntax.keywords ++ Syntax.datatypes := fun hmem =>
  not_mem_reserved_of_isFree (isFree_of_mem_drawMany h) (hreserved hmem)

/-- A new pool has them reserved, whatever is asked of it. -/
theorem language_subset_reserved (scheme : Scheme) (requests : List Request) (names : List Text) :
    Syntax.keywords ++ Syntax.datatypes ⊆ (((new scheme).after requests).reserve names).reserved :=
  fun _ hmem =>
    List.mem_append_right names (reserved_subset_after (new scheme) requests hmem)

/-- The names of globals have an upper-case letter. -/
theorem any_isUpper_of_mem_drawMany (hscheme : pool.scheme = .globals) {n : Nat}
    (h : name ∈ (pool.drawMany n).1) :
    name.any Char.isUpper = true := by
  have hfree := isFree_of_mem_drawMany h
  rw [isFree, hscheme, Bool.and_eq_true] at hfree
  exact hfree.1

/-- The names of locals have none. -/
theorem not_any_isUpper_of_mem_drawMany (hscheme : pool.scheme = .locals) {n : Nat}
    (h : name ∈ (pool.drawMany n).1) :
    name.any Char.isUpper = false := by
  obtain ⟨numbers, hnumbers, -, -⟩ := exists_numbers pool n
  rw [hnumbers, hscheme] at h
  obtain ⟨k, -, rfl⟩ := List.mem_map.1 h
  exact not_any_isUpper_candidate k

/-! ### Pools that deal alike -/

namespace DealsLike

variable {pool pool' : Pool}

theorem serve (h : DealsLike pool pool') (r : Request) :
    pool'.taken? r = pool.taken? r ∧ DealsLike (pool.serve r) (pool'.serve r) := by
  cases r with
  | reserve names => exact ⟨rfl, h.reserve names⟩
  | peek => exact ⟨rfl, h⟩
  | draw => exact ⟨congrArg some h.draw.1, h.draw.2⟩

theorem after (h : DealsLike pool pool') (requests : List Request) :
    DealsLike (pool.after requests) (pool'.after requests) := by
  induction requests generalizing pool pool' with
  | nil => exact h
  | cons r rest ih => exact ih (h.serve r).2

theorem dealt (h : DealsLike pool pool') (requests : List Request) :
    pool'.dealt requests = pool.dealt requests := by
  induction requests generalizing pool pool' with
  | nil => rfl
  | cons r rest ih =>
    obtain ⟨htaken, hrest⟩ := h.serve r
    rw [Pool.dealt, Pool.dealt, htaken, ih hrest]

end DealsLike

end ScriptMinifier.Naming.Pool
