import ScriptMinifier.Proofs.Usage.Reachability

/-! What pruning keeps of the functions.

A function stays when it is an entry or has a call site in what is reached
(`dropFunctions_countCalls`). Whatever is reached stays, and under the same name, so what
stays reaches the same names through the same call sites (`reached_retained`) and counting
again finds the same uses. Nothing more goes in a second round.

Counting goes by the first function of a name. `recount` says the same from left to right,
with the names passed so far, which is the form in which functions can be left out. -/
namespace ScriptMinifier.Usage

open Pruning (dropFunctions keepsFunction)
open Syntax (Function)

variable {p : Program} {name : Text}

/-! ### The functions that stay -/

/-- The function at a position is the first of its name and has a call site in what is
reached. -/
def Called (p : Program) (k : Nat) (f : Function) : Prop :=
  f.name ∉ p.functionNames.take k ∧
    ∃ caller g, Reached p caller ∧ p.function? caller = some g ∧ 0 < callSites p.literals g f.name

theorem totalSites_pos : 0 < totalSites p name ↔
    ∃ caller g, Reached p caller ∧ p.function? caller = some g ∧
    0 < callSites p.literals g name := by
  rw [totalSites, Finset.sum_pos_iff]
  constructor
  · rintro ⟨caller, hmem, hpos⟩
    have hreached := mem_reachedNames.1 hmem
    obtain ⟨g, hg⟩ := hreached.exists_function
    rw [sitesIn, hg] at hpos
    exact ⟨caller, g, hreached, hg, hpos⟩
  · rintro ⟨caller, g, hreached, hg, hpos⟩
    refine ⟨caller, mem_reachedNames.2 hreached, ?_⟩
    rw [sitesIn, hg]
    exact hpos

theorem sitesTo_pos {k : Nat} {f : Function} : 0 < sitesTo p k f ↔ Called p k f := by
  rw [sitesTo, Called, ← totalSites_pos]
  split
  · rename_i hearlier
    exact ⟨fun h => absurd h (Nat.lt_irrefl 0), fun h => absurd hearlier h.1⟩
  · rename_i hfirst
    exact ⟨fun h => ⟨hfirst, h⟩, And.right⟩

theorem keepsFunction_counted (p : Program) (k : Nat) (f : Function) :
    keepsFunction (counted p k f) = true ↔ f.entry = true ∨ Called p k f := by
  rw [keepsFunction, Bool.or_eq_true, decide_eq_true_iff, ← sitesTo_pos, counted]
  by_cases he : f.entry = true
  · simp only [he, true_or]
  · simp only [he, false_or, Bool.false_eq_true, if_false, Nat.add_zero]

open Classical in
/-- Entries and called functions stay, in their order. -/
theorem dropFunctions_countCalls (p : Program) :
    (dropFunctions (countCalls p)).functions =
      (p.functions.zipIdx.filter fun (f, k) => decide (f.entry = true ∨ Called p k f)).map
        fun (f, k) => counted p k f := by
  rw [countCalls_eq, dropFunctions, List.filter_map]
  refine congrArg _ (List.filter_congr fun ⟨f, k⟩ _ => ?_)
  rw [Bool.eq_iff_iff, decide_eq_true_iff]
  exact keepsFunction_counted p k f

/-! ### Counting from left to right -/

/-- Functions counted with the names passed so far: the total for the first of a name, and
one for an entry. -/
def recount (total : Text → Nat) : List Text → List Function → List Function
  | _, [] => []
  | seen, f :: rest =>
    { f with uses := (if f.name ∈ seen then 0 else total f.name) + if f.entry then 1 else 0 } ::
      recount total (seen ++ [f.name]) rest

theorem map_counted_eq_recount (p : Program) (before rest : List Function)
    (h : p.functions = before ++ rest) :
    (rest.zipIdx before.length).map (fun (f, k) => counted p k f) =
      recount (totalSites p) (before.map Function.name) rest := by
  induction rest generalizing before with
  | nil => rfl
  | cons f rest ih =>
    have htake : p.functionNames.take before.length = before.map Function.name := by
      rw [Program.functionNames, h, List.map_append]
      exact List.take_left' (List.length_map _)
    have hrest := ih (before ++ [f]) (by rw [h, List.append_assoc, List.singleton_append])
    rw [List.length_append, List.length_singleton, List.map_append] at hrest
    have hhead : counted p before.length f =
        { f with uses := (if f.name ∈ before.map Function.name then 0 else totalSites p f.name) +
            if f.entry then 1 else 0 } := by
      rw [counted, sitesTo, htake]
    rw [List.zipIdx_cons, List.map_cons, hrest, recount]
    exact congrArg (List.cons · _) hhead

theorem countCalls_eq_recount (p : Program) :
    countCalls p = { p with functions := recount (totalSites p) [] p.functions } := by
  have h := map_counted_eq_recount p [] p.functions rfl
  rw [List.length_nil, List.map_nil] at h
  rw [countCalls_eq, h]

section Recount

variable {total : Text → Nat} {entry : Text → Bool}

theorem keepsFunction_recounted {seen : List Text} {f : Function} :
    keepsFunction { f with uses := (if f.name ∈ seen then 0 else total f.name) +
      if f.entry then 1 else 0 } = true ↔
      f.entry = true ∨ f.name ∉ seen ∧ 0 < total f.name := by
  rw [keepsFunction, Bool.or_eq_true, decide_eq_true_iff]
  by_cases he : f.entry = true
  · simp only [he, true_or]
  · by_cases hs : f.name ∈ seen
    · simp [he, hs]
    · simp [he, hs]

/-- Functions left out do not change the counts of the others. `kept` holds the names passed
so far of which a function has stayed. -/
theorem recount_filter {seen kept : List Text} {fs : List Function}
    (hentry : ∀ f ∈ fs, f.entry = entry f.name)
    (hkept : ∀ n, n ∈ kept ↔ n ∈ seen ∧ (entry n = true ∨ 0 < total n)) :
    recount total kept ((recount total seen fs).filter keepsFunction) =
      (recount total seen fs).filter keepsFunction := by
  induction fs generalizing seen kept with
  | nil => rfl
  | cons f rest ih =>
    have hf := hentry f List.mem_cons_self
    have hrest : ∀ g ∈ rest, g.entry = entry g.name :=
      fun g hg => hentry g (List.mem_cons_of_mem _ hg)
    rw [recount]
    by_cases hstays : f.entry = true ∨ f.name ∉ seen ∧ 0 < total f.name
    · rw [List.filter_cons_of_pos (keepsFunction_recounted.2 hstays), recount]
      -- a second function of a name stays as an entry only, and then so does the first
      have hseen : f.name ∈ kept ↔ f.name ∈ seen := by
        rw [hkept, ← hf]
        refine ⟨And.left, fun hs => ⟨hs, ?_⟩⟩
        exact hstays.imp id fun h => absurd hs h.1
      have hagain : recount total (kept ++ [f.name])
          ((recount total (seen ++ [f.name]) rest).filter keepsFunction) =
            (recount total (seen ++ [f.name]) rest).filter keepsFunction := by
        refine ih hrest fun n => ?_
        rw [List.mem_append, List.mem_append, hkept, List.mem_singleton]
        constructor
        · rintro (⟨hs, hn⟩ | rfl)
          · exact ⟨.inl hs, hn⟩
          · exact ⟨.inr rfl, hf ▸ hstays.imp id And.right⟩
        · rintro ⟨hs | rfl, hn⟩
          · exact .inl ⟨hs, hn⟩
          · exact .inr rfl
      rw [hagain]
      simp only [hseen]
    · rw [List.filter_cons_of_neg fun h => hstays (keepsFunction_recounted.1 h)]
      rw [not_or, not_and'] at hstays
      refine ih hrest fun n => ?_
      rw [hkept, List.mem_append, List.mem_singleton]
      refine ⟨fun h => ⟨.inl h.1, h.2⟩, ?_⟩
      rintro ⟨hs | rfl, hn⟩
      · exact ⟨hs, hn⟩
      · refine ⟨by_contra fun hs => ?_, hn⟩
        rcases hn with he | hpos
        · exact hstays.1 (hf.trans he)
        · exact hstays.2 hpos hs

theorem find?_of_named {f : Function} (h : f.name = name) (rest : List Function) :
    (f :: rest).find? (·.name == name) = some f := List.find?_cons_of_pos (beq_iff_eq.2 h)

theorem find?_of_other {f : Function} (h : f.name ≠ name) (rest : List Function) :
    (f :: rest).find? (·.name == name) = rest.find? (·.name == name) :=
  List.find?_cons_of_neg fun heq => h (beq_iff_eq.1 heq)

/-- No function stays whose name is passed and is not an entry's. -/
theorem find?_filter_recount_of_seen {seen : List Text} {fs : List Function}
    (hentry : ∀ f ∈ fs, f.entry = entry f.name) (hseen : name ∈ seen) (hnot : entry name = false) :
    ((recount total seen fs).filter keepsFunction).find? (·.name == name) = none := by
  induction fs generalizing seen with
  | nil => rfl
  | cons f rest ih =>
    have hrest :=
      ih (fun g hg => hentry g (List.mem_cons_of_mem _ hg)) (List.mem_append_left [f.name] hseen)
    rw [recount]
    by_cases hstays : f.entry = true ∨ f.name ∉ seen ∧ 0 < total f.name
    · have hne : f.name ≠ name := by
        rintro rfl
        rw [← hentry f List.mem_cons_self] at hnot
        rcases hstays with he | hfresh
        · rw [he] at hnot
          exact absurd hnot.symm Bool.false_ne_true
        · exact hfresh.1 hseen
      rw [List.filter_cons_of_pos (keepsFunction_recounted.2 hstays), find?_of_other, hrest]
      exact hne
    · rw [List.filter_cons_of_neg fun h => hstays (keepsFunction_recounted.1 h), hrest]

/-- The function that a name stands for among those that stay is the one it stood for. -/
theorem find?_filter_recount {seen : List Text} {fs : List Function}
    (hentry : ∀ f ∈ fs, f.entry = entry f.name) (hseen : name ∉ seen) :
    ((recount total seen fs).filter keepsFunction).find? (·.name == name) =
      if entry name = true ∨ 0 < total name then
        (fs.find? (·.name == name)).map fun f =>
          { f with uses := total name + if f.entry then 1 else 0 }
      else none := by
  induction fs generalizing seen with
  | nil => simp [recount]
  | cons f rest ih =>
    have hf := hentry f List.mem_cons_self
    have hrest : ∀ g ∈ rest, g.entry = entry g.name :=
      fun g hg => hentry g (List.mem_cons_of_mem _ hg)
    rw [recount]
    by_cases hname : f.name = name
    · subst hname
      rw [find?_of_named rfl]
      by_cases hstays : entry f.name = true ∨ 0 < total f.name
      · rw [if_pos hstays, List.filter_cons_of_pos, find?_of_named, if_neg hseen]
        · rfl
        · rfl
        · exact keepsFunction_recounted.2 (hstays.imp (hf.trans ·) (⟨hseen, ·⟩))
      · rw [if_neg hstays, List.filter_cons_of_neg]
        · rw [not_or] at hstays
          exact find?_filter_recount_of_seen hrest (List.mem_append_right _ List.mem_cons_self)
            (Bool.eq_false_iff.2 hstays.1)
        · exact fun h => hstays ((keepsFunction_recounted.1 h).imp (hf.symm.trans ·) And.right)
    · have hseen' : name ∉ seen ++ [f.name] := by
        rw [List.mem_append, List.mem_singleton, not_or]
        exact ⟨hseen, fun h => hname h.symm⟩
      rw [find?_of_other hname, ← ih hrest hseen']
      by_cases hstays : f.entry = true ∨ f.name ∉ seen ∧ 0 < total f.name
      · rw [List.filter_cons_of_pos (keepsFunction_recounted.2 hstays), find?_of_other]
        exact hname
      · rw [List.filter_cons_of_neg fun h => hstays (keepsFunction_recounted.1 h)]

end Recount

/-! ### A second round -/

/-- Whether the function that a name stands for is an entry. -/
def isEntryName (p : Program) (name : Text) : Bool := (p.function? name).any Function.entry

theorem EntriesAgree.entry_eq (h : EntriesAgree p) :
    ∀ f ∈ p.functions, f.entry = isEntryName p f.name := by
  intro f hf
  obtain ⟨g, hg⟩ : ∃ g, p.function? f.name = some g := by
    refine Option.isSome_iff_exists.1 (List.find?_isSome.2 ⟨f, hf, ?_⟩)
    exact beq_self_eq_true f.name
  rw [isEntryName, hg]
  exact h f hf g (mem_of_function? hg) (name_of_function? hg).symm

/-- What pruning leaves of a program's functions, with their uses. -/
def retained (p : Program) : Program := dropFunctions (countCalls p)

theorem retained_functions (p : Program) :
    (retained p).functions = (recount (totalSites p) [] p.functions).filter keepsFunction := by
  rw [retained, countCalls_eq_recount, dropFunctions]

theorem function?_retained (h : EntriesAgree p) (name : Text) :
    (retained p).function? name =
      if isEntryName p name = true ∨ 0 < totalSites p name then
        (p.function? name).map fun f =>
          { f with uses := totalSites p name + if f.entry then 1 else 0 }
      else none := by
  rw [Program.function?, retained_functions]
  exact find?_filter_recount h.entry_eq List.not_mem_nil

/-- Whatever is reached stays. -/
theorem Reached.stays (h : Reached p name) : isEntryName p name = true ∨ 0 < totalSites p name := by
  cases h with
  | entry hf he =>
    refine .inl ?_
    rw [isEntryName, hf]
    exact he
  | call hr hf _ hs => exact .inr (totalSites_pos.2 ⟨_, _, hr, hf, hs⟩)

/-- A name stands for the same entry and body after pruning, if it still stands for one. -/
theorem exists_of_function?_retained (h : EntriesAgree p) {g : Function}
    (hg : (retained p).function? name = some g) :
    ∃ f, p.function? name = some f ∧ g.entry = f.entry ∧ g.body = f.body := by
  rw [function?_retained h] at hg
  split at hg
  · obtain ⟨f, hf, rfl⟩ := Option.map_eq_some_iff.1 hg
    exact ⟨f, hf, rfl, rfl⟩
  · cases hg

theorem function?_retained_of_reached (h : EntriesAgree p) (hreached : Reached p name)
    {f : Function} (hf : p.function? name = some f) :
    ∃ g, (retained p).function? name = some g ∧ g.entry = f.entry ∧ g.body = f.body := by
  rw [function?_retained h, if_pos hreached.stays, hf]
  exact ⟨_, rfl, rfl, rfl⟩

theorem callSites_congr {f g : Function} (h : g.body = f.body) (ls : Literals) (name : Text) :
    callSites ls g name = callSites ls f name := by
  rw [callSites, callSites, h]

/-- What stays reaches the same names. -/
theorem reached_retained (h : EntriesAgree p) : Reached (retained p) name ↔ Reached p name := by
  constructor
  · intro hreached
    induction hreached with
    | entry hg he =>
      obtain ⟨f, hf, hentry, -⟩ := exists_of_function?_retained h hg
      exact .entry hf (hentry ▸ he)
    | call _ hg hg' hs ih =>
      obtain ⟨f, hf, -, hbody⟩ := exists_of_function?_retained h hg
      obtain ⟨f', hf', -, -⟩ := exists_of_function?_retained h hg'
      exact .call ih hf hf' (callSites_congr hbody _ _ ▸ hs)
  · intro hreached
    induction hreached with
    | entry hf he =>
      obtain ⟨g, hg, hentry, -⟩ := function?_retained_of_reached h (.entry hf he) hf
      exact .entry hg (hentry.trans he)
    | call hr hf hf' hs ih =>
      obtain ⟨g, hg, -, hbody⟩ := function?_retained_of_reached h hr hf
      obtain ⟨g', hg', -, -⟩ := function?_retained_of_reached h (.call hr hf hf' hs) hf'
      exact .call ih hg hg' ((callSites_congr hbody _ _).symm ▸ hs)

/-- Every name keeps its call sites. -/
theorem totalSites_retained (h : EntriesAgree p) : totalSites (retained p) = totalSites p := by
  funext name
  have hnames : reachedNames (retained p) = reachedNames p := by
    ext caller
    rw [mem_reachedNames, mem_reachedNames, reached_retained h]
  rw [totalSites, totalSites, hnames]
  refine Finset.sum_congr rfl fun caller hcaller => ?_
  obtain ⟨f, hf⟩ := (mem_reachedNames.1 hcaller).exists_function
  obtain ⟨g, hg, -, hbody⟩ := function?_retained_of_reached h (mem_reachedNames.1 hcaller) hf
  rw [sitesIn, sitesIn, hf, hg]
  exact callSites_congr hbody _ _

/-- Counting what stays finds the uses it has. -/
theorem countCalls_retained (h : EntriesAgree p) : countCalls (retained p) = retained p := by
  rw [countCalls_eq_recount, totalSites_retained h, retained_functions,
    recount_filter h.entry_eq fun n => by simp, ← retained_functions]

theorem dropFunctions_retained (p : Program) : dropFunctions (retained p) = retained p := by
  have hfilter : (retained p).functions.filter keepsFunction = (retained p).functions :=
    List.filter_eq_self.2 fun f hf => (List.mem_filter.1 hf).2
  rw [dropFunctions, hfilter]

open Classical in
/-- **Counting and pruning are exact.** Every function is used once for each call site in what
the entries reach, and once as an entry; entries and functions with such a call site stay, in
their order; a second round drops nothing and finds the same uses. -/
theorem counting_and_pruning_exact (p : Program) :
    countCalls p = { p with functions := p.functions.zipIdx.map fun (f, k) => counted p k f } ∧
      (dropFunctions (countCalls p)).functions =
        (p.functions.zipIdx.filter fun (f, k) => decide (f.entry = true ∨ Called p k f)).map
          (fun (f, k) => counted p k f) ∧
      (EntriesAgree p →
        countCalls (dropFunctions (countCalls p)) = dropFunctions (countCalls p) ∧
          dropFunctions (countCalls (dropFunctions (countCalls p))) = dropFunctions
            (countCalls p)) := by
  refine ⟨countCalls_eq p, dropFunctions_countCalls p, fun h => ⟨countCalls_retained h, ?_⟩⟩
  exact (congrArg dropFunctions (countCalls_retained h)).trans (dropFunctions_retained p)

/-- Two functions that call each other, one of them itself, a name given in a string, and two
functions that nothing reaches, one under the name of another. -/
def callingProgram : Program where
  literals := ⟨["\"Later\"".toList]⟩
  functions := [
    .new "main".toList "nothing".toList "nothing".toList
      "call A()\ncall A()\ncall ExecuteFunc(\x000\x00)".toList,
    .new "A".toList "nothing".toList "nothing".toList "call B()".toList,
    .new "B".toList "nothing".toList "nothing".toList "call B()\ncall A()".toList,
    .new "Later".toList "nothing".toList "nothing".toList [],
    .new "Dead".toList "nothing".toList "nothing".toList "call A()".toList,
    .new "A".toList "nothing".toList "nothing".toList "call Dead()".toList,
    .new "config".toList "nothing".toList "nothing".toList []]

theorem callingProgram_stable :
    EntriesAgree callingProgram ∧
      (dropFunctions (countCalls callingProgram)).functions.map Function.uses = [1, 3, 2, 1, 1] ∧
      countCalls (dropFunctions (countCalls callingProgram)) = dropFunctions
      (countCalls callingProgram) := by
  have hagree : EntriesAgree callingProgram := by
    unfold EntriesAgree
    decide +kernel
  refine ⟨hagree, ?_, ((counting_and_pruning_exact callingProgram).2.2 hagree).1⟩
  decide +kernel

end ScriptMinifier.Usage
