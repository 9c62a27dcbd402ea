import ScriptMinifier.Proofs.Naming.Answers

/-! Going through the candidates.

A cursor holds a stage and a counter: the stage tells the pattern, and the counter how many of its
names have been passed. The loop of candidates takes the next name of the pattern, or goes on to the
next stage if none is left; the loop of free candidates takes candidates until one is free. How many
names a pattern has is held in 64 bits, so of a very long pattern only a part is gone through.
Neither loop has a bound, and both end wherever a cursor stands (`takesCandidate_iff`,
`exists_takesFree`): every pattern has a name, no two candidates are the same (`name_injective`),
and of any 62 in a row one is a name of the scheme (`exists_admitted_spot`).

As long as the numbers of candidates are less than the largest that 64 bits hold, the cursor goes
through the candidates in the order of their numbers (`Stands.takesCandidate`), and the loop of free
candidates takes the one that a pool deals next (`Stands.takesFree`). -/
namespace ScriptMinifier.Naming

/-- The largest number that 64 bits hold. -/
def largestHeld : Nat := 2 ^ 64 - 1

/-- How many names a pattern has, as far as 64 bits hold it. -/
def heldCapacity (p : Pattern) : Nat :=
  p.foldl (fun n chars => min (n * chars.length) largestHeld) 1

/-- The pattern of a stage: first the short ones, then the long ones, length by length. -/
def Scheme.patternAt (s : Scheme) (stage : Nat) : Pattern :=
  if h : stage < s.patterns.length then s.patterns[stage]
    else s.longPattern (stage - s.patterns.length + 4)

/-- Where the candidates are gone through. -/
structure Cursor where
  stage : Nat := 0
  counter : Nat := 0
deriving DecidableEq, Repr

namespace Cursor

/-- The name at a cursor. -/
def name (s : Scheme) (c : Cursor) : Text := spell (s.patternAt c.stage) c.counter

/-- Whether the pattern of a cursor has a name left. -/
def Within (s : Scheme) (c : Cursor) : Prop := c.counter < heldCapacity (s.patternAt c.stage)

instance (s : Scheme) (c : Cursor) : Decidable (c.Within s) := inferInstanceAs (Decidable (_ < _))

def nextName (c : Cursor) : Cursor := { c with counter := c.counter + 1 }

def nextStage (c : Cursor) : Cursor := { stage := c.stage + 1 }

end Cursor

/-! ### The loops

They are told by what they take, with the cursor after it. A loop that goes on forever takes
nothing. -/

/-- The loop of candidates goes on from stage to stage until one has a name left. -/
inductive TakesCandidate (s : Scheme) : Cursor → Text × Cursor → Prop
  | here {c : Cursor} : c.Within s → TakesCandidate s c (c.name s, c.nextName)
  | onward {c : Cursor} {taken : Text × Cursor} :
      ¬ c.Within s → TakesCandidate s c.nextStage taken →
      TakesCandidate s c taken

/-- Whether a candidate is a name of the scheme that is not reserved. -/
def Scheme.frees (s : Scheme) (reserved : List Text) (name : Text) : Bool :=
  s.admits name && !reserved.contains name

/-- The loop of free candidates passes over some names until one is free. -/
inductive TakesFree (s : Scheme) (reserved : List Text) : Cursor → List Text → Text × Cursor → Prop
  | found {c : Cursor} {taken : Text × Cursor} :
      TakesCandidate s c taken → s.frees reserved taken.1 = true →
      TakesFree s reserved c [] taken
  | passed {c : Cursor} {other taken : Text × Cursor} {names : List Text} :
      TakesCandidate s c other →
      s.frees reserved other.1 = false → TakesFree s reserved other.2 names taken →
      TakesFree s reserved c (other.1 :: names) taken

/-! ### The number of names of a pattern -/

theorem foldl_heldCapacity {p : Pattern} (hp : p.Proper) (n : Nat) :
    p.foldl (fun n chars => min (n * chars.length) largestHeld) (min n largestHeld) =
      min (n * capacity p) largestHeld := by
  induction p generalizing n with
  | nil => rw [List.foldl_nil, capacity, Nat.mul_one]
  | cons chars rest ih =>
    have hchars : 1 ≤ chars.length := List.length_pos_iff.2 (hp chars List.mem_cons_self).1
    have hheld : min (min n largestHeld * chars.length) largestHeld =
        min (n * chars.length) largestHeld := by
      rcases Nat.le_total n largestHeld with hn | hn
      · rw [Nat.min_eq_left hn]
      · rw [Nat.min_eq_right hn, Nat.min_eq_right (Nat.le_mul_of_pos_right _ hchars),
          Nat.min_eq_right (Nat.le_trans hn (Nat.le_mul_of_pos_right _ hchars))]
    rw [List.foldl_cons, hheld, ih (fun cs hcs => hp cs (List.mem_cons_of_mem _ hcs)), capacity,
      Nat.mul_assoc]

theorem heldCapacity_eq {p : Pattern} (hp : p.Proper) :
    heldCapacity p = min (capacity p) largestHeld := by
  have h := foldl_heldCapacity hp 1
  rwa [Nat.one_mul] at h

/-- The global names of eleven characters are the first that 64 bits do not count. -/
example :
    heldCapacity (Scheme.longPattern .globals 10) = capacity (Scheme.longPattern .globals 10) ∧
    heldCapacity (Scheme.longPattern .globals 11) = largestHeld := by
  decide +kernel

theorem capacity_pos {p : Pattern} (hp : p.Proper) : 0 < capacity p := by
  induction p with
  | nil => exact Nat.one_pos
  | cons chars rest ih =>
    exact Nat.mul_pos (List.length_pos_iff.2 (hp chars List.mem_cons_self).1)
      (ih fun cs hcs => hp cs (List.mem_cons_of_mem _ hcs))

/-! ### The pattern of a stage -/

namespace Scheme

variable {s : Scheme} {stage stage' : Nat} {name : Text}

theorem patternAt_of_lt (h : stage < s.patterns.length) : s.patternAt stage = s.patterns[stage] :=
  dif_pos h

theorem patternAt_of_le (h : s.patterns.length ≤ stage) :
    s.patternAt stage = s.longPattern (stage - s.patterns.length + 4) := dif_neg (Nat.not_lt.2 h)

theorem proper_patternAt (s : Scheme) (stage : Nat) : (s.patternAt stage).Proper := by
  rcases Nat.lt_or_ge stage s.patterns.length with h | h
  · rw [patternAt_of_lt h]
    exact proper_patterns s _ (List.getElem_mem h)
  · rw [patternAt_of_le h]
    exact proper_longPattern s _

theorem spells_stage_le (h : Spells (s.patternAt stage) name)
    (h' : Spells (s.patternAt stage') name) :
    stage' ≤ stage := by
  by_contra hlt
  have hlength := (List.Forall₂.length_eq h).symm.trans (List.Forall₂.length_eq h')
  rcases Nat.lt_or_ge stage' s.patterns.length with hshort | hlong'
  · -- two short patterns have no name in common
    have hstage : stage < s.patterns.length := by omega
    rw [patternAt_of_lt hstage] at h
    rw [patternAt_of_lt hshort] at h'
    have hapart :=
      List.pairwise_iff_getElem.1 (separate_patterns s).apart stage stage' hstage hshort (by omega)
    rw [apart_eq_false_of_spells h h'] at hapart
    cases hapart
  · -- a long name is longer than any of a stage before
    rw [patternAt_of_le hlong', longPattern, List.length_cons, List.length_replicate] at hlength
    rcases Nat.lt_or_ge stage s.patterns.length with hshort | hlong
    · have hfour := length_of_mem_patterns s _ (List.getElem_mem hshort)
      rw [patternAt_of_lt hshort] at hlength
      omega
    · rw [patternAt_of_le hlong, longPattern, List.length_cons, List.length_replicate] at hlength
      omega

/-- No name belongs to two stages. -/
theorem spells_stage_inj (h : Spells (s.patternAt stage) name)
    (h' : Spells (s.patternAt stage') name) :
    stage = stage' :=
  Nat.le_antisymm (spells_stage_le h' h) (spells_stage_le h h')

end Scheme

/-! ### Names at cursors -/

namespace Cursor

variable {s : Scheme} {c d : Cursor}

theorem within_of_counter_zero (h : c.counter = 0) : c.Within s := by
  rw [Within, h, heldCapacity_eq (s.proper_patternAt _)]
  exact Nat.lt_min.2 ⟨capacity_pos (s.proper_patternAt _), by decide⟩

theorem Within.lt_capacity (h : c.Within s) : c.counter < capacity (s.patternAt c.stage) := by
  rw [Within, heldCapacity_eq (s.proper_patternAt _)] at h
  exact (Nat.lt_min.1 h).1

theorem spells_name (s : Scheme) (c : Cursor) : Spells (s.patternAt c.stage) (c.name s) :=
  spells_spell _ (s.proper_patternAt _) _

/-- No two cursors have the same name. -/
theorem name_injective (hc : c.Within s) (hd : d.Within s) (heq : c.name s = d.name s) : c = d := by
  obtain ⟨stage, n⟩ := c
  obtain ⟨stage', m⟩ := d
  have hname := spells_name s ⟨stage', m⟩
  rw [← heq] at hname
  obtain rfl : stage = stage' := Scheme.spells_stage_inj (spells_name s ⟨stage, n⟩) hname
  obtain rfl : n = m := spell_injective _ (s.proper_patternAt _) hc.lt_capacity hd.lt_capacity heq
  rfl

/-- A short name of a global has an upper-case letter by its pattern, and a long one ends in `A`
every 62 names. -/
theorem admits_name (h : c.counter % 62 = 0) : s.admits (c.name s) = true := by
  cases s with
  | locals => rfl
  | globals =>
    show (c.name .globals).any Char.isUpper = true
    rcases Nat.lt_or_ge c.stage (Scheme.patterns .globals).length with hshort | hlong
    · have hname := spells_name .globals c
      rw [Scheme.patternAt_of_lt hshort] at hname
      exact any_upper_of_spells hname
        (((patterns_table .globals).1 _ (List.getElem_mem hshort)).2 rfl)
    · rw [name, Scheme.patternAt_of_le hlong]
      exact any_upper_spell_longPattern (by omega) h

/-! ### Spots

The spots of a cursor are where the candidates are found that are taken from there on. -/

/-- Where the next candidate is found. -/
def settle (s : Scheme) (c : Cursor) : Cursor := if c.Within s then c else c.nextStage

/-- Where the next candidate is found once one has been taken. -/
def step (s : Scheme) (c : Cursor) : Cursor := c.nextName.settle s

/-- Where a candidate is found after a number of others. -/
def spot (s : Scheme) (c : Cursor) (n : Nat) : Cursor := (step s)^[n] (c.settle s)

theorem within_settle (s : Scheme) (c : Cursor) : (c.settle s).Within s := by
  unfold settle
  split
  · assumption
  · exact within_of_counter_zero rfl

theorem spot_succ (s : Scheme) (c : Cursor) (n : Nat) :
    c.spot s (n + 1) = (c.settle s).nextName.spot s n :=
  Function.iterate_succ_apply (step s) n (c.settle s)

theorem spot_add (s : Scheme) (c : Cursor) (n k : Nat) :
    c.spot s (n + k) = (step s)^[k] (c.spot s n) := by
  rw [spot, Nat.add_comm, Function.iterate_add_apply]
  rfl

theorem within_spot (s : Scheme) (c : Cursor) (n : Nat) : (c.spot s n).Within s := by
  cases n with
  | zero => exact within_settle s c
  | succ n =>
    rw [spot, Function.iterate_succ_apply']
    exact within_settle s _

/-- A spot is the next one of its stage, or the first of the next stage. -/
theorem step_cases (s : Scheme) (c : Cursor) : c.step s = c.nextName ∨ c.step s = c.nextStage := by
  unfold step settle
  split
  · exact .inl rfl
  · exact .inr rfl

theorem spot_injective (s : Scheme) (c : Cursor) : Function.Injective (c.spot s) := by
  have hstrict : StrictMono fun n => toLex ((c.spot s n).stage, (c.spot s n).counter) := by
    refine strictMono_nat_of_lt_succ fun n => ?_
    rw [spot_add, Function.iterate_one, Prod.Lex.toLex_lt_toLex]
    rcases step_cases s (c.spot s n) with h | h
    · rw [h]
      exact .inr ⟨rfl, Nat.lt_succ_self _⟩
    · rw [h]
      exact .inl (Nat.lt_succ_self _)
  intro n m heq
  refine hstrict.injective ?_
  show toLex _ = toLex _
  rw [heq]

theorem name_spot_injective (s : Scheme) (c : Cursor) :
    Function.Injective fun n => (c.spot s n).name s :=
  fun n m heq => spot_injective s c (name_injective (within_spot s c n) (within_spot s c m) heq)

/-- From a cursor on, counters grow by one until they start again. -/
theorem counter_iterate_step (s : Scheme) (c : Cursor) (n : Nat) :
    (∃ k ≤ n, ((step s)^[k] c).counter = 0) ∨ ((step s)^[n] c).counter = c.counter + n := by
  induction n with
  | zero => exact .inr rfl
  | succ n ih =>
    rcases ih with ⟨k, hk, hzero⟩ | hcounter
    · exact .inl ⟨k, Nat.le_succ_of_le hk, hzero⟩
    · rw [Function.iterate_succ_apply']
      rcases step_cases s ((step s)^[n] c) with h | h
      · right
        rw [h, nextName, hcounter, Nat.add_assoc]
      · exact .inl ⟨n + 1, Nat.le_refl _, by rw [Function.iterate_succ_apply', h]; rfl⟩

/-- Of any 62 spots in a row one has a name of the scheme. -/
theorem exists_admitted_spot (s : Scheme) (c : Cursor) (n : Nat) :
    ∃ k, k < 62 ∧ s.admits ((c.spot s (n + k)).name s) = true := by
  have hcounter : ∃ k, k < 62 ∧ (c.spot s (n + k)).counter % 62 = 0 := by
    rcases counter_iterate_step s (c.spot s n) ((62 - (c.spot s n).counter % 62) % 62) with
      ⟨k, hk, hzero⟩ | hsum
    · refine ⟨k, by omega, ?_⟩
      rw [spot_add, hzero]
    · refine ⟨(62 - (c.spot s n).counter % 62) % 62, by omega, ?_⟩
      rw [spot_add, hsum]
      omega
  obtain ⟨k, hk, hmod⟩ := hcounter
  exact ⟨k, hk, admits_name hmod⟩

end Cursor

/-! ### The loops end -/

variable {s : Scheme} {reserved : List Text}

/-- The loop of candidates ends, at its first turn or at its second. -/
theorem takesCandidate_iff {c : Cursor} {taken : Text × Cursor} :
    TakesCandidate s c taken ↔ taken = ((c.settle s).name s, (c.settle s).nextName) := by
  unfold Cursor.settle
  constructor
  · intro h
    cases h with
    | here hwithin => rw [if_pos hwithin]
    | onward hnot hnext =>
      rw [if_neg hnot]
      cases hnext with
      | here => rfl
      | onward hnot' => exact absurd (Cursor.within_of_counter_zero rfl) hnot'
  · rintro rfl
    split
    · exact .here ‹_›
    · exact .onward ‹_› (.here (Cursor.within_of_counter_zero rfl))

theorem TakesCandidate.unique {c : Cursor} {taken other : Text × Cursor}
    (h : TakesCandidate s c taken) (hother : TakesCandidate s c other) : other = taken :=
  (takesCandidate_iff.1 hother).trans (takesCandidate_iff.1 h).symm

namespace TakesFree

variable {c : Cursor} {names names' : List Text} {taken taken' : Text × Cursor}

/-- The loop takes one name only, and there is one way to it. -/
theorem unique (h : TakesFree s reserved c names taken)
    (h' : TakesFree s reserved c names' taken') :
    names' = names ∧ taken' = taken := by
  induction h generalizing names' with
  | found hcandidate hfree =>
    cases h' with
    | found hcandidate' => exact ⟨rfl, hcandidate.unique hcandidate'⟩
    | passed hcandidate' hnot =>
      rw [hcandidate.unique hcandidate', hfree] at hnot
      cases hnot
  | passed hcandidate hnot _ ih =>
    cases h' with
    | found hcandidate' hfree =>
      rw [hcandidate.unique hcandidate', hnot] at hfree
      cases hfree
    | passed hcandidate' _ hrest' =>
      obtain rfl := hcandidate.unique hcandidate'
      obtain ⟨rfl, rfl⟩ := ih hrest'
      exact ⟨rfl, rfl⟩

/-- What is taken is free, -/
theorem frees (h : TakesFree s reserved c names taken) : s.frees reserved taken.1 = true := by
  induction h with
  | found _ hfree => exact hfree
  | passed _ _ _ ih => exact ih

/-- and what is passed over is not. -/
theorem not_frees (h : TakesFree s reserved c names taken) :
    ∀ name ∈ names, s.frees reserved name = false := by
  induction h with
  | found => exact nofun
  | passed _ hnot _ ih => exact List.forall_mem_cons.2 ⟨hnot, ih⟩

/-- The loop ends at the first spot with a free name. -/
theorem of_spots {n : Nat} (hfree : s.frees reserved ((c.spot s n).name s) = true)
    (hbefore : ∀ m < n, s.frees reserved ((c.spot s m).name s) = false) :
    TakesFree s reserved c ((List.range n).map fun m => (c.spot s m).name s)
      ((c.spot s n).name s, (c.spot s n).nextName) := by
  induction n generalizing c with
  | zero => exact .found (takesCandidate_iff.2 rfl) hfree
  | succ n ih =>
    rw [Cursor.spot_succ] at hfree ⊢
    have hrest := ih hfree fun m hm => by
      rw [← Cursor.spot_succ]
      exact hbefore (m + 1) (Nat.succ_lt_succ hm)
    simp only [← Cursor.spot_succ s c] at hrest
    rw [List.range_succ_eq_map, List.map_cons, List.map_map, ← Cursor.spot_succ]
    exact .passed (takesCandidate_iff.2 rfl) (hbefore 0 (Nat.succ_pos n)) hrest

end TakesFree

/-- The loop of free candidates ends. It passes over fewer than 62 names for each reserved name and
62 more, and over none of them twice. -/
theorem exists_takesFree (s : Scheme) (reserved : List Text) (c : Cursor) : ∃ names taken,
    TakesFree s reserved c names taken ∧ names.length < 62 * (reserved.length + 1) ∧
    names.Nodup := by
  obtain ⟨k, hk, hfree⟩ :=
    Pool.exists_free (Cursor.name_spot_injective s c) (Cursor.exists_admitted_spot s c) 0 reserved
  rw [Nat.zero_add] at hfree
  have hexists : ∃ n, s.frees reserved ((c.spot s n).name s) = true := ⟨k, hfree⟩
  have hbefore :
      ∀ m < Nat.find hexists, s.frees reserved ((c.spot s m).name s) = false := fun m hm =>
    Bool.eq_false_iff.2 (Nat.find_min hexists hm)
  refine ⟨_, _, .of_spots (Nat.find_spec hexists) hbefore, ?_, ?_⟩
  · rw [List.length_map, List.length_range]
    exact Nat.lt_of_le_of_lt (Nat.find_min' hexists hfree) hk
  · exact List.nodup_range.map (Cursor.name_spot_injective s c)

/-! ### Candidates by number -/

/-- The names from a stage on, by number. -/
def namesFrom (s : Scheme) (stage n : Nat) : Text :=
  if stage ≤ s.patterns.length then nameFrom s (s.patterns.drop stage) n
  else longName s (stage - s.patterns.length + 4) n

theorem namesFrom_of_le {stage : Nat} (h : s.patterns.length ≤ stage) (n : Nat) :
    namesFrom s stage n = longName s (stage - s.patterns.length + 4) n := by
  unfold namesFrom
  split
  · obtain rfl : stage = s.patterns.length := by omega
    rw [List.drop_length, nameFrom, Nat.sub_self]
  · rfl

/-- They are those of the stage and after them those from the next stage on. -/
theorem namesFrom_eq (s : Scheme) (stage n : Nat) : namesFrom s stage n =
    if n < capacity (s.patternAt stage) then spell (s.patternAt stage) n
    else namesFrom s (stage + 1) (n - capacity (s.patternAt stage)) := by
  rcases Nat.lt_or_ge stage s.patterns.length with h | h
  · rw [namesFrom, if_pos (Nat.le_of_lt h), List.drop_eq_getElem_cons h, nameFrom,
      Scheme.patternAt_of_lt h, namesFrom, if_pos (Nat.succ_le_of_lt h)]
  · rw [namesFrom_of_le h, longName, Scheme.patternAt_of_le h,
      namesFrom_of_le (Nat.le_succ_of_le h),
      show stage + 1 - s.patterns.length + 4 = stage - s.patterns.length + 4 + 1 by omega]

/-- A cursor stands at a number: the candidates from there on are the names from the cursor on. -/
structure Stands (s : Scheme) (n : Nat) (c : Cursor) : Prop where
  counter_le : c.counter ≤ n
  within : c.counter ≤ capacity (s.patternAt c.stage)
  names : ∀ k, candidate s (n - c.counter + k) = namesFrom s c.stage k

theorem stands_start (s : Scheme) : Stands s 0 {} where
  counter_le := Nat.le_refl 0
  within := Nat.zero_le _
  names k := by
    rw [Nat.zero_sub, Nat.zero_add, candidate, namesFrom, if_pos (Nat.zero_le _), List.drop_zero]

namespace Stands

variable {n : Nat} {c : Cursor}

theorem name_eq (h : Stands s n c) (hlt : c.counter < capacity (s.patternAt c.stage)) :
    c.name s = candidate s n := by
  have hname := h.names c.counter
  rw [Nat.sub_add_cancel h.counter_le, namesFrom_eq, if_pos hlt] at hname
  exact hname.symm

theorem nextName (h : Stands s n c) (hlt : c.counter < capacity (s.patternAt c.stage)) :
    Stands s (n + 1) c.nextName where
  counter_le := Nat.succ_le_succ h.counter_le
  within := hlt
  names k := by
    rw [Cursor.nextName, Nat.add_sub_add_right]
    exact h.names k

theorem nextStage (h : Stands s n c) (heq : c.counter = capacity (s.patternAt c.stage)) :
    Stands s n c.nextStage where
  counter_le := Nat.zero_le n
  within := Nat.zero_le _
  names k := by
    have hname := h.names (c.counter + k)
    rw [← Nat.add_assoc, Nat.sub_add_cancel h.counter_le, namesFrom_eq, if_neg (by omega), heq,
      Nat.add_sub_cancel_left] at hname
    exact hname

/-- The loop of candidates takes the candidate of the number at which the cursor stands, if 64 bits
hold it. -/
theorem takesCandidate {taken : Text × Cursor} (h : Stands s n c) (hn : n < largestHeld)
    (htaken : TakesCandidate s c taken) : taken.1 = candidate s n ∧ Stands s (n + 1) taken.2 := by
  have hwithin : c.Within s ↔ c.counter < capacity (s.patternAt c.stage) := by
    have := h.counter_le
    rw [Cursor.Within, heldCapacity_eq (s.proper_patternAt _), Nat.lt_min]
    omega
  rw [takesCandidate_iff.1 htaken, Cursor.settle]
  split
  · rename_i hlt
    exact ⟨h.name_eq (hwithin.1 hlt), h.nextName (hwithin.1 hlt)⟩
  · rename_i hnot
    have hnext := h.nextStage (Nat.le_antisymm h.within (Nat.not_lt.1 (hnot ∘ hwithin.2)))
    have hpos : c.nextStage.counter < capacity (s.patternAt c.nextStage.stage) :=
      capacity_pos (s.proper_patternAt _)
    exact ⟨hnext.name_eq hpos, hnext.nextName hpos⟩

/-- The loop of free candidates takes the one that a pool deals next. -/
theorem takesFree {pool : Pool} {names : List Text} {taken : Text × Cursor}
    (htaken : TakesFree pool.scheme pool.reserved c names taken) (h : Stands pool.scheme n c)
    (hle : pool.next ≤ n) (hn : n ≤ pool.nextFree) (hheld : pool.nextFree < largestHeld) :
    taken.1 = pool.peek ∧ Stands pool.scheme (pool.nextFree + 1) taken.2 := by
  induction htaken generalizing n with
  | found hcandidate hfree =>
    obtain ⟨hname, hstands⟩ := h.takesCandidate (Nat.lt_of_le_of_lt hn hheld) hcandidate
    have hnext : pool.nextFree = n := by
      refine Pool.nextFree_eq hle (hname ▸ hfree) fun m hm hlt => ?_
      exact Pool.not_isFree_of_lt_nextFree hm (Nat.lt_of_lt_of_le hlt hn)
    rw [Pool.peek, hnext]
    exact ⟨hname, hstands⟩
  | passed hcandidate hnot _ ih =>
    obtain ⟨hname, hstands⟩ := h.takesCandidate (Nat.lt_of_le_of_lt hn hheld) hcandidate
    refine ih hstands (Nat.le_succ_of_le hle) (Nat.lt_of_le_of_ne hn ?_)
    rintro rfl
    have hfree : pool.isFree pool.peek = true := Pool.isFree_peek pool
    rw [hname] at hnot
    exact Bool.false_ne_true (hnot.symm.trans hfree)

end Stands

end ScriptMinifier.Naming
