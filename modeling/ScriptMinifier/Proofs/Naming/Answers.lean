import ScriptMinifier.Proofs.Naming.History

/-! What a pool answers.

Over its life a pool is asked to reserve names, to show the next one and to deal it. `safe_new`
says what its answers are worth, whatever is asked in whatever order: the names it deals are
distinct, never get shorter and are names of its scheme, none is a word of the language or
reserved by then, and a name that was shown is the next to be dealt unless it has been reserved
since.

Showing a name leaves a pool as it is, so it may be done by taking the name out and keeping it
until it is dealt or reserved. A pool that does so answers the same (`answers_keeper`). -/
namespace ScriptMinifier.Naming

/-- An identifier of letters and digits, with an upper-case letter for a global and none for a
local. -/
structure Scheme.Names (s : Scheme) (name : Text) : Prop where
  ident : Text.isIdent name = true
  alphanumeric : name.all Char.isAlphanum = true
  upper : name.any Char.isUpper = decide (s = .globals)

namespace Pool

variable {pool : Pool} {name : Text}

/-! ### Reservations -/

/-- The names that a request reserves. -/
def Request.reserved : Request → List Text
  | .reserve names => names
  | .peek => []
  | .draw => []

/-- The names that a list of requests reserves. -/
def reservedBy (requests : List Request) : List Text := requests.flatMap Request.reserved

theorem mem_reserved_serve {r : Request} :
    name ∈ (pool.serve r).reserved ↔ name ∈ r.reserved ∨ name ∈ pool.reserved := by
  cases r with
  | reserve names => exact List.mem_append
  | peek => simp [serve, Request.reserved]
  | draw => simp [serve, Request.reserved]

/-- A pool holds reserved what it held, and what it was asked to. -/
theorem mem_reserved_after {requests : List Request} :
    name ∈ (pool.after requests).reserved ↔ name ∈ reservedBy requests ∨ name ∈ pool.reserved := by
  induction requests generalizing pool with
  | nil => simp [after, reservedBy]
  | cons r rest ih =>
    rw [after, ih, mem_reserved_serve, reservedBy, reservedBy, List.flatMap_cons, List.mem_append,
      ← or_assoc, or_comm (a := name ∈ r.reserved)]

theorem after_append (pool : Pool) (before later : List Request) :
    pool.after (before ++ later) = (pool.after before).after later := by
  induction before generalizing pool with
  | nil => rfl
  | cons r rest ih => exact ih _

/-! ### The names dealt -/

/-- The names dealt over a life are candidates of rising numbers. -/
theorem exists_numbers_dealt (pool : Pool) (requests : List Request) : ∃ numbers : List Nat,
    pool.dealt requests = numbers.map (candidate pool.scheme) ∧ numbers.Pairwise (· < ·) ∧
      ∀ k ∈ numbers, pool.next ≤ k := by
  induction requests generalizing pool with
  | nil => exact ⟨[], rfl, .nil, nofun⟩
  | cons r rest ih =>
    obtain ⟨numbers, hnames, hrising, hfrom⟩ := ih (pool.serve r)
    rw [serve_scheme] at hnames
    have hlater : ∀ k ∈ numbers, pool.next ≤ k :=
      fun k hk => Nat.le_trans (next_le_serve pool r) (hfrom k hk)
    cases r with
    | reserve names => exact ⟨numbers, hnames, hrising, hlater⟩
    | peek => exact ⟨numbers, hnames, hrising, hlater⟩
    | draw =>
      refine ⟨pool.nextFree :: numbers, congrArg (List.cons _) hnames, ?_, ?_⟩
      · exact List.pairwise_cons.2 ⟨fun k hk => hfrom k hk, hrising⟩
      · exact List.forall_mem_cons.2 ⟨next_le_nextFree pool, hlater⟩

theorem nodup_dealt (pool : Pool) (requests : List Request) : (pool.dealt requests).Nodup := by
  obtain ⟨numbers, hnames, hrising, -⟩ := exists_numbers_dealt pool requests
  rw [hnames]
  exact (hrising.imp fun h => Nat.ne_of_lt h).map _ fun i j hne heq => hne
    (candidate_injective _ heq)

theorem pairwise_length_dealt (pool : Pool) (requests : List Request) :
    (pool.dealt requests).Pairwise fun a b => a.length ≤ b.length := by
  obtain ⟨numbers, hnames, hrising, -⟩ := exists_numbers_dealt pool requests
  rw [hnames, List.pairwise_map]
  exact hrising.imp fun h => length_candidate_mono _ (Nat.le_of_lt h)

/-- A name is dealt by the pool that the requests before it leave. -/
theorem exists_draw_of_mem_dealt {requests : List Request} (h : name ∈ pool.dealt requests) :
    ∃ before, name = (pool.after before).draw.1 := by
  induction requests generalizing pool with
  | nil => cases h
  | cons r rest ih =>
    rw [dealt, List.mem_append, Option.mem_toList] at h
    rcases h with htaken | hrest
    · cases r with
      | reserve names => cases htaken
      | peek => cases htaken
      | draw => exact ⟨[], (Option.some.inj htaken).symm⟩
    · obtain ⟨before, hbefore⟩ := ih hrest
      exact ⟨r :: before, hbefore⟩

theorem isFree_draw (pool : Pool) : pool.isFree pool.draw.1 = true := isFree_peek pool

/-- A pool deals names of its scheme. -/
theorem names_draw (pool : Pool) : pool.scheme.Names pool.draw.1 where
  ident := isIdent_candidate _ _
  alphanumeric := candidate_alphanumeric _ _
  upper := by
    have hfree := isFree_draw pool
    rw [isFree, Bool.and_eq_true] at hfree
    cases hscheme : pool.scheme with
    | globals =>
      rw [hscheme] at hfree
      exact hfree.1
    | locals =>
      rw [draw_fst, hscheme]
      exact not_any_isUpper_candidate _

/-! ### The next free candidate -/

/-- The number of the next free candidate is the first from where the pool stands. -/
theorem nextFree_eq {n : Nat} (hle : pool.next ≤ n)
    (hfree : pool.isFree (candidate pool.scheme n) = true)
    (hfirst : ∀ m, pool.next ≤ m → m < n → pool.isFree (candidate pool.scheme m) = false) :
    pool.nextFree = n := by
  refine Nat.le_antisymm (Nat.not_lt.1 fun hlt => ?_) (Nat.not_lt.1 fun hlt => ?_)
  · have hnot : pool.isFree (candidate pool.scheme n) = false := not_isFree_of_lt_search hle hlt
    rw [hfree] at hnot
    cases hnot
  · have hnot := hfirst pool.nextFree (next_le_nextFree pool) hlt
    have hpeek : pool.isFree (candidate pool.scheme pool.nextFree) = true := isFree_peek pool
    rw [hpeek] at hnot
    cases hnot

theorem not_isFree_of_lt_nextFree {m : Nat} (hle : pool.next ≤ m) (hlt : m < pool.nextFree) :
    pool.isFree (candidate pool.scheme m) = false :=
  not_isFree_of_lt_search hle hlt

/-- Reserving other names does not change which one is next. -/
theorem nextFree_reserve {names : List Text} (h : pool.peek ∉ names) :
    (pool.reserve names).nextFree = pool.nextFree := by
  refine nextFree_eq (next_le_nextFree pool) ?_ fun m hle hlt => ?_
  · show (pool.reserve names).isFree pool.peek = true
    rw [isFree_reserve, isFree_peek, Bool.true_and, Bool.not_eq_true']
    simpa using h
  · have hnot : pool.isFree (candidate pool.scheme m) = false := not_isFree_of_lt_nextFree hle hlt
    show (pool.reserve names).isFree (candidate pool.scheme m) = false
    rw [isFree_reserve, hnot, Bool.false_and]

/-- A name that was shown is shown until it is dealt or reserved. -/
theorem peek_after {requests : List Request} (hdraw : Request.draw ∉ requests)
    (hreserved : pool.peek ∉ reservedBy requests) : (pool.after requests).peek = pool.peek := by
  induction requests generalizing pool with
  | nil => rfl
  | cons r rest ih =>
    rw [List.mem_cons, not_or] at hdraw
    rw [reservedBy, List.flatMap_cons, List.mem_append, not_or] at hreserved
    have hstep : (pool.serve r).peek = pool.peek := by
      cases r with
      | reserve names => exact congrArg (candidate pool.scheme) (nextFree_reserve hreserved.1)
      | peek => rfl
      | draw => exact absurd rfl hdraw.1
    rw [← hstep] at hreserved ⊢
    exact ih hdraw.2 hreserved.2

/-! ### A pool that keeps what it has shown -/

/-- What a request is answered with. -/
def answer? (pool : Pool) : Request → Option Text
  | .reserve _ => none
  | .peek => some pool.peek
  | .draw => some pool.draw.1

/-- The answers to a list of requests. -/
def answers (pool : Pool) : List Request → List (Option Text)
  | [] => []
  | r :: rest => pool.answer? r :: (pool.serve r).answers rest

/-- A pool beside the name that it has taken out to show it. -/
structure Keeper where
  pool : Pool
  kept? : Option Text := none

namespace Keeper

/-- The name that is shown or dealt: the one kept, or else a new one. -/
def first (k : Keeper) : Text := k.kept?.getD k.pool.draw.1

/-- The pool once the first name has been taken out of it. -/
def rest (k : Keeper) : Pool := if k.kept?.isSome then k.pool else k.pool.draw.2

/-- The keeper after a request. A name that is reserved is kept no longer. -/
def serve (k : Keeper) : Request → Keeper
  | .reserve names =>
    ⟨k.pool.reserve names, k.kept?.filter fun name => !(k.pool.reserve names).isReserved name⟩
  | .peek => ⟨k.rest, some k.first⟩
  | .draw => ⟨k.rest, none⟩

/-- What a request is answered with. -/
def answer? (k : Keeper) : Request → Option Text
  | .reserve _ => none
  | .peek => some k.first
  | .draw => some k.first

/-- The answers to a list of requests. -/
def answers (k : Keeper) : List Request → List (Option Text)
  | [] => []
  | r :: rest => k.answer? r :: (k.serve r).answers rest

/-- A keeper has taken out of a pool the free name that it keeps, and gone past no other. -/
structure Follows (k : Keeper) (pool : Pool) : Prop where
  scheme : k.pool.scheme = pool.scheme
  reserved : k.pool.reserved = pool.reserved
  ahead : pool.next ≤ k.pool.next
  passed : ∀ m, pool.next ≤ m → m < k.pool.next → pool.isFree (candidate pool.scheme m) = true →
    k.kept? = some (candidate pool.scheme m)
  kept : ∀ name, k.kept? = some name → name = pool.peek ∧ k.pool.next = pool.nextFree + 1

namespace Follows

variable {k : Keeper}

theorem isFree (h : k.Follows pool) (name : Text) : k.pool.isFree name = pool.isFree name :=
  isFree_congr h.scheme h.reserved name

/-- Without a name kept, the next one is the same. -/
theorem nextFree (h : k.Follows pool) (hnone : k.kept? = none) :
    pool.nextFree = k.pool.nextFree := by
  refine nextFree_eq (Nat.le_trans h.ahead (next_le_nextFree _)) ?_ fun m hle hlt => ?_
  · rw [← h.isFree, ← h.scheme]
    exact isFree_peek k.pool
  · by_cases hm : m < k.pool.next
    · rw [← Bool.not_eq_true]
      intro hfree
      rw [h.passed m hle hm hfree] at hnone
      cases hnone
    · rw [← h.isFree, ← h.scheme]
      exact not_isFree_of_lt_nextFree (Nat.not_lt.1 hm) hlt

/-- The first name of a keeper is the pool's next one, and then it stands behind it. -/
theorem first (h : k.Follows pool) : k.first = pool.peek ∧ k.rest.next = pool.nextFree + 1 := by
  cases hkept : k.kept? with
  | some name =>
    obtain ⟨hname, hnext⟩ := h.kept name hkept
    rw [Keeper.first, Keeper.rest, hkept]
    exact ⟨hname, hnext⟩
  | none =>
    rw [Keeper.first, Keeper.rest, hkept, Pool.peek, h.nextFree hkept, ← h.scheme]
    exact ⟨rfl, rfl⟩

theorem rest (h : k.Follows pool) :
    k.rest.scheme = pool.scheme ∧ k.rest.reserved = pool.reserved := by
  rw [Keeper.rest]
  split
  · exact ⟨h.scheme, h.reserved⟩
  · exact ⟨h.scheme, h.reserved⟩

theorem peek (h : k.Follows pool) : (k.serve .peek).Follows pool where
  scheme := h.rest.1
  reserved := h.rest.2
  ahead := by
    show pool.next ≤ k.rest.next
    rw [h.first.2]
    exact Nat.le_succ_of_le (next_le_nextFree pool)
  passed := by
    intro m hle hlt hfree
    show some k.first = _
    replace hlt : m < k.rest.next := hlt
    rw [h.first.2] at hlt
    -- before the next free candidate none is free
    rcases Nat.lt_or_eq_of_le (Nat.lt_succ_iff.1 hlt) with hbefore | rfl
    · rw [not_isFree_of_lt_nextFree hle hbefore] at hfree
      cases hfree
    · rw [h.first.1, Pool.peek]
  kept := by
    intro name hname
    rw [← Option.some.inj hname]
    exact h.first

theorem draw (h : k.Follows pool) : (k.serve .draw).Follows pool.draw.2 where
  scheme := h.rest.1
  reserved := h.rest.2
  ahead := Nat.le_of_eq h.first.2.symm
  passed := by
    intro m hle hlt
    replace hlt : m < k.rest.next := hlt
    rw [h.first.2] at hlt
    exact absurd hlt (Nat.not_lt.2 hle)
  kept := nofun

theorem reserve (h : k.Follows pool) (names : List Text) :
    (k.serve (.reserve names)).Follows (pool.reserve names) where
  scheme := h.scheme
  reserved := congrArg (names ++ ·) h.reserved
  ahead := h.ahead
  passed := by
    intro m hle hlt hfree
    have hkeeper : (k.pool.reserve names).isFree (candidate pool.scheme m) = true := by
      rw [isFree_reserve, h.isFree, ← isFree_reserve]
      exact hfree
    rw [isFree_reserve, Bool.and_eq_true] at hfree
    rw [Pool.isFree, Bool.and_eq_true] at hkeeper
    show k.kept?.filter _ = _
    rw [h.passed m hle hlt hfree.1]
    exact Option.filter_some_pos hkeeper.2
  kept := by
    intro name hname
    obtain ⟨hkept, hfree⟩ := Option.filter_eq_some_iff.1 (show k.kept?.filter _ = _ from hname)
    obtain ⟨rfl, hnext⟩ := h.kept name hkept
    have hpeek : pool.peek ∉ names := by
      intro hmem
      rw [Bool.not_eq_true', isReserved, Bool.eq_false_iff] at hfree
      exact hfree (List.contains_iff_mem.2 (List.mem_append_left _ hmem))
    rw [nextFree_reserve hpeek]
    exact ⟨congrArg (candidate pool.scheme) (nextFree_reserve hpeek).symm, hnext⟩

theorem serve (h : k.Follows pool) (r : Request) :
    k.answer? r = pool.answer? r ∧ (k.serve r).Follows (pool.serve r) := by
  cases r with
  | reserve names => exact ⟨rfl, h.reserve names⟩
  | peek => exact ⟨congrArg some h.first.1, h.peek⟩
  | draw => exact ⟨congrArg some h.first.1, h.draw⟩

theorem answers (h : k.Follows pool) (requests : List Request) :
    k.answers requests = pool.answers requests := by
  induction requests generalizing k pool with
  | nil => rfl
  | cons r rest ih =>
    obtain ⟨hanswer, hrest⟩ := h.serve r
    exact congrArg₂ List.cons hanswer (ih hrest)

end Follows

theorem follows_new (pool : Pool) : Keeper.Follows ⟨pool, none⟩ pool :=
  ⟨rfl, rfl, Nat.le_refl _, fun _ hle hlt => absurd hlt (Nat.not_lt.2 hle), nofun⟩

end Keeper

/-- A pool that keeps the name it has shown answers as one that does not. -/
theorem answers_keeper (pool : Pool) (requests : List Request) :
    Keeper.answers ⟨pool, none⟩ requests = pool.answers requests :=
  (Keeper.follows_new pool).answers requests

/-! ### What the answers are worth -/

/-- What the answers of a new pool are worth, over a list of requests. -/
structure Safe (s : Scheme) (requests : List Request) : Prop where
  /-- No name is dealt twice, -/
  distinct : ((new s).dealt requests).Nodup
  /-- and names never get shorter. -/
  rising : ((new s).dealt requests).Pairwise fun a b => a.length ≤ b.length
  /-- Each is an identifier, -/
  ident : ∀ name ∈ (new s).dealt requests, Text.isIdent name = true
  /-- ends in a letter or a digit, -/
  last : ∀ name ∈ (new s).dealt requests, ∃ c ∈ name.getLast?, c.isAlphanum = true
  /-- has an upper-case letter if and only if it is for a global, -/
  upper : ∀ name ∈ (new s).dealt requests, name.any Char.isUpper = true ↔ s = .globals
  /-- and is no word of the language. -/
  language : ∀ name ∈ (new s).dealt requests, name ∉ Syntax.keywords ++ Syntax.datatypes
  /-- A name is not reserved when it is dealt. -/
  unreserved : ∀ before later, requests = before ++ .draw :: later →
    ((new s).after before).draw.1 ∉ reservedBy before
  /-- The name that was shown last is dealt, if it has not been reserved since. -/
  shown : ∀ before between later, requests = before ++ .peek :: (between ++ .draw :: later) →
    .draw ∉ between → ((new s).after before).peek ∉ reservedBy between →
      ((new s).after (before ++ .peek :: between)).draw.1 = ((new s).after before).peek
  /-- It makes no difference whether the name is kept in between. -/
  kept : Keeper.answers ⟨new s, none⟩ requests = (new s).answers requests

/-- **The names of a pool are distinct, never get shorter, are names of its scheme and free when
they are dealt, and what was shown is dealt next**, over every list of requests. -/
theorem safe_new (s : Scheme) (requests : List Request) : Safe s requests := by
  have hnames : ∀ name ∈ (new s).dealt requests, s.Names name := by
    intro name hname
    obtain ⟨before, rfl⟩ := exists_draw_of_mem_dealt hname
    have hscheme : ((new s).after before).scheme = s := after_scheme _ _
    have hdrawn := names_draw ((new s).after before)
    rwa [hscheme] at hdrawn
  have hfree :
      ∀ before, ((new s).after before).draw.1 ∉ ((new s).after before).reserved := fun before =>
    not_mem_reserved_of_isFree (isFree_draw _)
  constructor
  case distinct => exact nodup_dealt _ _
  case rising => exact pairwise_length_dealt _ _
  case ident => exact fun name hname => (hnames name hname).ident
  case last =>
    intro name hname
    have hne : name ≠ [] := by
      rintro rfl
      exact absurd (hnames [] hname).ident (by decide)
    refine ⟨name.getLast hne, List.getLast?_eq_some_getLast hne, ?_⟩
    exact List.all_eq_true.1 (hnames name hname).alphanumeric _ (List.getLast_mem hne)
  case upper =>
    intro name hname
    rw [(hnames name hname).upper, decide_eq_true_iff]
  case language =>
    intro name hname hmem
    obtain ⟨before, rfl⟩ := exists_draw_of_mem_dealt hname
    exact hfree before (mem_reserved_after.2 (.inr hmem))
  case unreserved =>
    intro before later _ hmem
    exact hfree before (mem_reserved_after.2 (.inl hmem))
  case shown =>
    intro before between later _ hdraw hreserved
    have hpeek : (((new s).after before).after between).peek = ((new s).after before).peek :=
      peek_after hdraw hreserved
    rw [after_append]
    exact hpeek
  case kept => exact answers_keeper _ _

end Pool
end ScriptMinifier.Naming
