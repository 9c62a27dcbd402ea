import ScriptMinifier.Proofs.Naming.Cursor

/-! Drawing names.

A dealer is a pool that goes through the candidates with a cursor, and that keeps the name it has
shown until it is dealt or reserved. Its loops have no bound, so that it need not give an answer. It
always does: whatever is asked of it in whatever order, every request is answered, and both loops
end wherever it has come to (`drawing_ends`). The pool that looks for a free name among a number of
candidates finds one before that number is used up, and the dealer answers as it does
(`Follows.answers`) as long as 64 bits hold the numbers of the candidates. -/
namespace ScriptMinifier.Naming

open Pool (Keeper Request)

/-- A pool that goes through the candidates, beside the name that it has taken out to show it. -/
structure Dealer where
  scheme : Scheme
  cursor : Cursor := {}
  /-- The names that must not be dealt. -/
  reserved : List Text := Syntax.keywords ++ Syntax.datatypes
  kept? : Option Text := none
deriving DecidableEq, Repr

namespace Dealer

/-- The dealer of a scheme, with the words of the language reserved. -/
def new (scheme : Scheme) : Dealer := { scheme }

/-- The dealer with more names reserved. A name that is reserved is kept no longer. -/
def reserve (d : Dealer) (names : List Text) : Dealer :=
  let reserved := names ++ d.reserved
  { d with reserved, kept? := d.kept?.filter (!reserved.contains ·) }

/-- Takes out the name that is shown or dealt: the one kept, or else a new one. -/
inductive Takes (d : Dealer) : Text → Dealer → Prop
  | kept {name : Text} : d.kept? = some name → d.Takes name { d with kept? := none }
  | new {names : List Text} {taken : Text × Cursor} : d.kept? = none →
      TakesFree d.scheme d.reserved d.cursor names taken →
        d.Takes taken.1 { d with cursor := taken.2 }

/-- Serves a request, with the answer to it and the dealer after it. -/
inductive Serves (d : Dealer) : Request → Option Text → Dealer → Prop
  | reserve (names : List Text) : d.Serves (.reserve names) none (d.reserve names)
  | peek {name : Text} {d' : Dealer} :
      d.Takes name d' → d.Serves .peek (some name) { d' with kept? := some name }
  | draw {name : Text} {d' : Dealer} : d.Takes name d' → d.Serves .draw (some name) d'

/-- Serves a list of requests. -/
inductive Runs : Dealer → List Request → List (Option Text) → Dealer → Prop
  | nil {d : Dealer} : Runs d [] [] d
  | cons {d d' d'' : Dealer} {r : Request} {rest : List Request} {answer : Option Text}
      {answers : List (Option Text)} : d.Serves r answer d' → Runs d' rest answers d'' →
      Runs d (r :: rest) (answer :: answers) d''

/-! ### Every request is answered -/

theorem exists_takes (d : Dealer) : ∃ name d', d.Takes name d' := by
  cases hkept : d.kept? with
  | some name => exact ⟨name, _, .kept hkept⟩
  | none =>
    obtain ⟨names, taken, htaken, -⟩ := exists_takesFree d.scheme d.reserved d.cursor
    exact ⟨taken.1, _, .new hkept htaken⟩

/-- A dealer answers every request, -/
theorem exists_serves (d : Dealer) (r : Request) : ∃ answer d', d.Serves r answer d' := by
  obtain ⟨name, d', htakes⟩ := d.exists_takes
  cases r with
  | reserve names => exact ⟨none, _, .reserve names⟩
  | peek => exact ⟨some name, _, .peek htakes⟩
  | draw => exact ⟨some name, d', .draw htakes⟩

/-- and every list of requests. -/
theorem exists_runs (d : Dealer) (requests : List Request) :
    ∃ answers d', Runs d requests answers d' := by
  induction requests generalizing d with
  | nil => exact ⟨[], d, .nil⟩
  | cons r rest ih =>
    obtain ⟨answer, between, hserves⟩ := d.exists_serves r
    obtain ⟨answers, d', hruns⟩ := ih between
    exact ⟨answer :: answers, d', .cons hserves hruns⟩

/-! ### What is reserved -/

/-- A dealer has the scheme of a pool and the same names reserved. -/
structure Alike (d : Dealer) (pool : Pool) : Prop where
  scheme : d.scheme = pool.scheme
  reserved : d.reserved = pool.reserved

section

variable {d d' : Dealer} {pool : Pool} {name : Text}

theorem Takes.alike (h : d.Takes name d') (halike : d.Alike pool) : d'.Alike pool := by
  cases h with
  | kept => exact ⟨halike.scheme, halike.reserved⟩
  | new => exact ⟨halike.scheme, halike.reserved⟩

theorem Serves.alike {r : Request} {answer : Option Text} (h : d.Serves r answer d')
    (halike : d.Alike pool) :
    d'.Alike (pool.serve r) := by
  cases h with
  | reserve names => exact ⟨halike.scheme, congrArg (names ++ ·) halike.reserved⟩
  | peek htakes => exact ⟨(htakes.alike halike).scheme, (htakes.alike halike).reserved⟩
  | draw htakes => exact ⟨(htakes.alike halike).scheme, (htakes.alike halike).reserved⟩

theorem Runs.alike {requests : List Request} {answers : List (Option Text)}
    (h : Runs d requests answers d') (halike : d.Alike pool) : d'.Alike (pool.after requests) := by
  induction h generalizing pool with
  | nil => exact halike
  | cons hserves _ ih => exact ih (hserves.alike halike)

end

end Dealer

/-! ### The search of a pool -/

namespace Pool

/-- The search for a free candidate ends before its tries are used up. -/
theorem nextFree_lt (pool : Pool) : pool.nextFree < pool.next + pool.tries := by
  obtain ⟨k, hk, hfree⟩ := exists_isFree pool
  have hle : pool.nextFree ≤ pool.next + k := by
    by_contra hlt
    have hnot := not_isFree_of_lt_nextFree (Nat.le_add_right pool.next k) (Nat.not_le.1 hlt)
    exact Bool.false_ne_true (hnot.symm.trans hfree)
  exact Nat.lt_of_le_of_lt hle (Nat.add_lt_add_left hk _)

/-- A pool goes forward only. -/
theorem nextFree_le_serve (pool : Pool) (r : Request) :
    pool.nextFree ≤ (pool.serve r).nextFree := by
  cases r with
  | reserve names =>
    by_contra hlt
    have hnot : pool.isFree (pool.reserve names).peek = false :=
      not_isFree_of_lt_nextFree (next_le_nextFree (pool.reserve names)) (Nat.not_le.1 hlt)
    have hfree := isFree_peek (pool.reserve names)
    rw [isFree_reserve, hnot, Bool.false_and] at hfree
    cases hfree
  | peek => exact Nat.le_refl _
  | draw => exact Nat.le_trans (Nat.le_succ _) (next_le_nextFree pool.draw.2)

theorem nextFree_le_after (pool : Pool) (requests : List Request) :
    pool.nextFree ≤ (pool.after requests).nextFree := by
  induction requests generalizing pool with
  | nil => exact Nat.le_refl _
  | cons r rest ih => exact Nat.le_trans (nextFree_le_serve pool r) (ih _)

end Pool

namespace Dealer

/-! ### The answers are those of the pool -/

/-- A dealer has a keeper's pool as its own, and its cursor stands where the pool does. -/
structure Follows (d : Dealer) (k : Keeper) : Prop extends d.Alike k.pool where
  kept : d.kept? = k.kept?
  stands : Stands k.pool.scheme k.pool.next d.cursor

theorem follows_new (s : Scheme) : (new s).Follows ⟨Pool.new s, none⟩ :=
  ⟨⟨rfl, rfl⟩, rfl, stands_start s⟩

namespace Follows

variable {d d' : Dealer} {k : Keeper} {pool : Pool}

theorem takes {name : Text} (h : d.Follows k) (hk : k.Follows pool)
    (hheld : pool.nextFree < largestHeld)
    (htakes : d.Takes name d') : name = k.first ∧ d'.Follows ⟨k.rest, none⟩ := by
  rw [Keeper.first, Keeper.rest]
  cases htakes with
  | kept hkept =>
    rw [← h.kept, hkept]
    exact ⟨rfl, ⟨h.scheme, h.reserved⟩, rfl, h.stands⟩
  | new hnone htaken =>
    rw [hk.nextFree (h.kept.symm.trans hnone)] at hheld
    rw [h.scheme, h.reserved] at htaken
    obtain ⟨hname, hstands⟩ :=
      h.stands.takesFree htaken (Nat.le_refl _) (Pool.next_le_nextFree _) hheld
    rw [← h.kept, hnone]
    exact ⟨hname, ⟨h.scheme, h.reserved⟩, rfl, hstands⟩

theorem reserve (h : d.Follows k) (names : List Text) :
    (d.reserve names).Follows (k.serve (.reserve names)) where
  scheme := h.scheme
  reserved := congrArg (names ++ ·) h.reserved
  kept := by
    show d.kept?.filter (fun name => !(names ++ d.reserved).contains name) = _
    rw [h.kept, h.reserved]
    rfl
  stands := h.stands

theorem serves {r : Request} {answer : Option Text} (h : d.Follows k) (hk : k.Follows pool)
    (hheld : pool.nextFree < largestHeld) (hserves : d.Serves r answer d') :
    answer = k.answer? r ∧ d'.Follows (k.serve r) := by
  cases hserves with
  | reserve names => exact ⟨rfl, h.reserve names⟩
  | peek htakes =>
    obtain ⟨rfl, hd'⟩ := h.takes hk hheld htakes
    exact ⟨rfl, ⟨hd'.scheme, hd'.reserved⟩, rfl, hd'.stands⟩
  | draw htakes =>
    obtain ⟨rfl, hd'⟩ := h.takes hk hheld htakes
    exact ⟨rfl, hd'⟩

/-- A dealer answers as a pool does, as long as 64 bits hold the numbers of the candidates. -/
theorem answers {requests : List Request} {answers : List (Option Text)} (h : d.Follows k)
    (hk : k.Follows pool)
    (hheld : (pool.after requests).nextFree < largestHeld) (hruns : Runs d requests answers d') :
    answers = pool.answers requests := by
  induction hruns generalizing k pool with
  | nil => rfl
  | @cons _ _ _ r rest _ _ hserves _ ih =>
    have hnow : pool.nextFree < largestHeld :=
      Nat.lt_of_le_of_lt (pool.nextFree_le_after (r :: rest)) hheld
    obtain ⟨hanswer, hbetween⟩ := h.serves hk hnow hserves
    obtain ⟨hkeeper, hk'⟩ := hk.serve r
    exact congrArg₂ List.cons (hanswer.trans hkeeper) (ih hbetween hk' hheld)

end Follows

/-! ### Where the loops end -/

/-- Both loops end where a dealer has come to. -/
structure LoopsEnd (d : Dealer) : Prop where
  /-- The loop of candidates ends at the stage of the cursor or at the next one. -/
  candidate : ∃ c, (c = d.cursor ∨ c = d.cursor.nextStage) ∧
    ∀ taken, TakesCandidate d.scheme d.cursor taken ↔ taken = (c.name d.scheme, c.nextName)
  /-- The loop of free candidates passes over fewer than 62 names for each reserved name and 62
  more, each once. -/
  free : ∃ names taken, names.length < 62 * (d.reserved.length + 1) ∧ names.Nodup ∧
    ∀ names' taken', TakesFree d.scheme d.reserved d.cursor names' taken' ↔ names' = names ∧
      taken' = taken
  /-- It takes a name of the scheme that is not reserved, -/
  taken : ∀ names taken, TakesFree d.scheme d.reserved d.cursor names taken →
    d.scheme.admits taken.1 = true ∧ taken.1 ∉ d.reserved
  /-- and those that it passes over are no names of the scheme or reserved. -/
  passed : ∀ names taken, TakesFree d.scheme d.reserved d.cursor names taken → ∀ name ∈ names,
    d.scheme.admits name = false ∨ name ∈ d.reserved

theorem loopsEnd (d : Dealer) : d.LoopsEnd where
  candidate := by
    refine ⟨d.cursor.settle d.scheme, ?_, fun taken => takesCandidate_iff⟩
    unfold Cursor.settle
    split
    · exact .inl rfl
    · exact .inr rfl
  free := by
    obtain ⟨names, taken, htaken, hlength, hnodup⟩ := exists_takesFree d.scheme d.reserved d.cursor
    refine ⟨names, taken, hlength, hnodup, fun names' taken' => ⟨htaken.unique, ?_⟩⟩
    rintro ⟨rfl, rfl⟩
    exact htaken
  taken := by
    intro names taken h
    have hfree := h.frees
    rwa [Scheme.frees, Bool.and_eq_true, Bool.not_eq_true', List.contains_eq_mem,
      decide_eq_false_iff_not] at hfree
  passed := by
    intro names taken h name hname
    have hnot := h.not_frees name hname
    rwa [Scheme.frees, Bool.and_eq_false_iff, Bool.not_eq_false', List.contains_iff_mem] at hnot

end Dealer

/-! ### Drawing ends -/

/-- Drawing ends over a list of requests. -/
structure DrawingEnds (s : Scheme) (requests : List Request) : Prop where
  /-- A pool finds a free name before the tries of its search are used up. -/
  found : ((Pool.new s).after requests).nextFree <
      ((Pool.new s).after requests).next + ((Pool.new s).after requests).tries ∧
    ((Pool.new s).after requests).isFree ((Pool.new s).after requests).peek = true
  /-- A dealer answers every request. -/
  answered : ∃ answers d, Dealer.Runs (Dealer.new s) requests answers d
  /-- Where it has come to both loops end, whatever it has reserved, -/
  ended : ∀ answers d, Dealer.Runs (Dealer.new s) requests answers d →
    d.Alike ((Pool.new s).after requests) ∧ d.LoopsEnd
  /-- and its answers are those of the pool as long as 64 bits hold the numbers of the
  candidates. -/
  agreed : ((Pool.new s).after requests).nextFree < largestHeld → ∀ answers d,
    Dealer.Runs (Dealer.new s) requests answers d → answers = (Pool.new s).answers requests

/-- **Drawing a name always ends**, whatever has been asked of a pool before. -/
theorem drawing_ends (s : Scheme) (requests : List Request) : DrawingEnds s requests where
  found := ⟨Pool.nextFree_lt _, Pool.isFree_peek _⟩
  answered := Dealer.exists_runs _ requests
  ended _ d hruns := ⟨hruns.alike (Dealer.follows_new s).toAlike, d.loopsEnd⟩
  agreed hheld _ _ hruns := (Dealer.follows_new s).answers (Keeper.follows_new _) hheld hruns

end ScriptMinifier.Naming
