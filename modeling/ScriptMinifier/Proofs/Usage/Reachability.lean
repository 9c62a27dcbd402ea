import ScriptMinifier.Proofs.Text.Segment
import ScriptMinifier.Proofs.Usage.Expansion
import ScriptMinifier.Pruning

/-! What the entries reach, and how often it is called.

A name stands for the first function that has it. `Reached` says which names the entries
reach, in terms of call sites alone: the words of a body and the names it gives to
`ExecuteFunc`. Counting calls by expanding a frontier agrees with it whatever the order of
expansion (`mem_expansion_iff`): a function is used once for each call site in what is
reached, and once more as an entry (`countCalls_eq`). -/
namespace ScriptMinifier.Usage

open Syntax (Function)

/-! ### Call sites and what they reach -/

/-- How many call sites of a name a body has: words, and names given to `ExecuteFunc`. -/
def callSites (ls : Literals) (f : Function) (name : Text) : Nat :=
  (Text.words f.body).count name + (Idiom.executeFunc.names ls f.body).count name

/-- The names whose functions the entries reach through call sites. -/
inductive Reached (p : Program) : Text → Prop
  | entry {name : Text} {f : Function} (hf : p.function? name = some f) (he : f.entry = true) :
      Reached p name
  | call {caller callee : Text} {f g : Function} (hr : Reached p caller)
      (hf : p.function? caller = some f) (hg : p.function? callee = some g)
      (hs : 0 < callSites p.literals f callee) : Reached p callee

open Classical in
/-- The reached names, as a finite set. -/
noncomputable def reachedNames (p : Program) : Finset Text :=
  p.functionNames.toFinset.filter (Reached p)

/-- The call sites of a name in the function that another name stands for. -/
def sitesIn (p : Program) (caller name : Text) : Nat :=
  ((p.function? caller).map fun f => callSites p.literals f name).getD 0

/-- All call sites of a name in what is reached. -/
noncomputable def totalSites (p : Program) (name : Text) : Nat :=
  ∑ caller ∈ reachedNames p, sitesIn p caller name

/-- All call sites of the function at a position. Only the first of its name has any. -/
noncomputable def sitesTo (p : Program) (k : Nat) (f : Function) : Nat :=
  if f.name ∈ p.functionNames.take k then 0 else totalSites p f.name

/-- The function at a position, used once for each call site and once as an entry. -/
noncomputable def counted (p : Program) (k : Nat) (f : Function) : Function :=
  { f with uses := sitesTo p k f + if f.entry then 1 else 0 }

/-- Functions of one name are entries together. -/
def EntriesAgree (p : Program) : Prop :=
  ∀ f ∈ p.functions, ∀ g ∈ p.functions, f.name = g.name → f.entry = g.entry

variable {p : Program} {name : Text}

theorem count_calledNames (ls : Literals) (f : Function) (name : Text) :
    (calledNames ls f).count name = callSites ls f name := List.count_append

theorem callSites_pos {ls : Literals} {f : Function} :
    0 < callSites ls f name ↔ name ∈ calledNames ls f := by
  rw [← count_calledNames, List.count_pos_iff]

/-! ### Names and positions -/

theorem firstIndex?_eq_some {names : List Text} {k : Nat} :
    firstIndex? names name = some k ↔ names[k]? = some name ∧ name ∉ names.take k := by
  rw [firstIndex?, List.findIdx?_eq_some_iff_getElem]
  constructor
  · rintro ⟨hlt, heq, hbefore⟩
    refine ⟨by rw [List.getElem?_eq_getElem hlt, beq_iff_eq.1 heq], fun hmem => ?_⟩
    obtain ⟨j, hj, hname⟩ := List.getElem_of_mem hmem
    rw [List.length_take] at hj
    rw [List.getElem_take] at hname
    exact hbefore j (by omega) (beq_iff_eq.2 hname)
  · rintro ⟨hk, hnot⟩
    obtain ⟨hlt, heq⟩ := List.getElem?_eq_some_iff.1 hk
    refine ⟨hlt, beq_iff_eq.2 heq, fun j hj hname => hnot ?_⟩
    rw [List.mem_take_iff_getElem]
    exact ⟨j, by omega, beq_iff_eq.1 hname⟩

theorem find?_eq_bind_firstIndex? (fs : List Function) (name : Text) :
    fs.find? (·.name == name) = (firstIndex? (fs.map Function.name) name).bind (fs[·]?) := by
  induction fs with
  | nil => rfl
  | cons f rest ih =>
    rw [List.find?_cons, List.map_cons, firstIndex?, List.findIdx?_cons]
    by_cases h : (f.name == name) = true
    · rw [h]
      rfl
    · rw [Bool.eq_false_iff.2 h, if_neg Bool.false_ne_true, ih, firstIndex?]
      cases (rest.map Function.name).findIdx? (· == name) <;> rfl

/-- The function that a name stands for stands at the name's first position. -/
theorem function?_eq_some {f : Function} :
    p.function? name = some f ↔ ∃ k, firstIndex? p.functionNames name = some k ∧
    p.functions[k]? = some f := by
  rw [Program.function?, find?_eq_bind_firstIndex?, Option.bind_eq_some_iff]
  rfl

theorem name_of_function? {f : Function} (h : p.function? name = some f) : f.name = name := by
  have := List.find?_some h
  exact beq_iff_eq.1 this

theorem mem_of_function? {f : Function} (h : p.function? name = some f) : f ∈ p.functions :=
  List.mem_of_find?_eq_some h

theorem Reached.exists_function (h : Reached p name) : ∃ f, p.function? name = some f := by
  cases h with
  | entry hf _ => exact ⟨_, hf⟩
  | call _ _ hg _ => exact ⟨_, hg⟩

theorem mem_reachedNames : name ∈ reachedNames p ↔ Reached p name := by
  classical
  rw [reachedNames, Finset.mem_filter, List.mem_toFinset]
  refine ⟨And.right, fun h => ⟨?_, h⟩⟩
  obtain ⟨f, hf⟩ := h.exists_function
  exact List.mem_map.2 ⟨f, mem_of_function? hf, name_of_function? hf⟩

theorem firstIndex?_lt {names : List Text} {k : Nat} (h : firstIndex? names name = some k) :
    k < names.length := (List.getElem?_eq_some_iff.1 (firstIndex?_eq_some.1 h).1).1

theorem firstIndex?_injective {names : List Text} {other : Text} {k : Nat}
    (h : firstIndex? names name = some k) (h' : firstIndex? names other = some k) : name = other :=
  Option.some.inj ((firstIndex?_eq_some.1 h).1.symm.trans (firstIndex?_eq_some.1 h').1)

/-- At the first position of a name stands the function that the name stands for. -/
theorem exists_function_at {k : Nat} (h : firstIndex? p.functionNames name = some k) :
    ∃ f, p.functions[k]? = some f ∧ p.function? name = some f := by
  have hlt := firstIndex?_lt h
  rw [Program.functionNames, List.length_map] at hlt
  have hf := List.getElem?_eq_getElem hlt
  exact ⟨p.functions[k], hf, function?_eq_some.2 ⟨k, h, hf⟩⟩

theorem getD_functionNames {k : Nat} (h : firstIndex? p.functionNames name = some k) :
    p.functionNames.getD k [] = name := by
  rw [List.getD_eq_getElem?_getD, (firstIndex?_eq_some.1 h).1]
  rfl

/-- Calls of the function at a position are the call sites of the name that stands for it. -/
theorem count_filterMap_firstIndex? {names : List Text} {k : Nat}
    (h : firstIndex? names name = some k)
    (ws : List Text) : (ws.filterMap (firstIndex? names)).count k = ws.count name := by
  induction ws with
  | nil => rfl
  | cons w rest ih =>
    by_cases hw : w = name
    · rw [hw, List.filterMap_cons_some h, List.count_cons_self, List.count_cons_self, ih]
    · rw [List.count_cons_of_ne hw, ← ih]
      match hfirst : firstIndex? names w with
      | none => rw [List.filterMap_cons_none hfirst]
      | some j =>
        have hne : j ≠ k := fun hjk => hw (firstIndex?_injective (hjk ▸ hfirst) h)
        rw [List.filterMap_cons_some hfirst, List.count_cons_of_ne hne]

/-! ### The call graph of a program -/

theorem callees_ofProgram {k : Nat} {f : Function} (h : p.functions[k]? = some f) :
    (CallGraph.ofProgram p).callees k = (calledNames p.literals f).filterMap
    (firstIndex? p.functionNames) := by
  rw [CallGraph.callees, CallGraph.ofProgram, List.getD_eq_getElem?_getD, List.getElem?_map, h]
  rfl

theorem mem_entryNodes {k : Nat} : k ∈ entryNodes p ↔
    ∃ f, p.functions[k]? = some f ∧ f.entry = true ∧
    firstIndex? p.functionNames f.name = some k := by
  rw [entryNodes, List.mem_filterMap]
  constructor
  · rintro ⟨⟨f, j⟩, hmem, h⟩
    simp only [Option.ite_none_right_eq_some, Bool.and_eq_true, beq_iff_eq, Option.some.injEq] at h
    obtain ⟨⟨he, hfirst⟩, rfl⟩ := h
    exact ⟨f, List.mem_zipIdx_iff_getElem?.1 hmem, he, hfirst⟩
  · rintro ⟨f, hk, he, hfirst⟩
    refine ⟨(f, k), List.mem_zipIdx_iff_getElem?.2 hk, ?_⟩
    simp only [he, hfirst, Bool.true_and, beq_self_eq_true, if_true]

/-- What is expanded is what the entries reach. -/
theorem mem_expansion_iff {k : Nat} :
    k ∈ (CallGraph.ofProgram p).expansion (entryNodes p) ↔
      ∃ name, Reached p name ∧ firstIndex? p.functionNames name = some k := by
  constructor
  · intro hk
    refine CallGraph.expansion_induction
      (P := fun k => ∃ name, Reached p name ∧ firstIndex? p.functionNames name = some k)
      (fun root hroot => ?_) (fun caller hcaller callee hcall => ?_) k hk
    · obtain ⟨f, hk, he, hfirst⟩ := mem_entryNodes.1 hroot
      exact ⟨f.name, .entry (function?_eq_some.2 ⟨root, hfirst, hk⟩) he, hfirst⟩
    · obtain ⟨name, hreached, hfirst⟩ := hcaller
      obtain ⟨f, hf, hcaller⟩ := exists_function_at hfirst
      rw [callees_ofProgram hf] at hcall
      obtain ⟨word, hword, hcallee⟩ := List.mem_filterMap.1 hcall
      obtain ⟨g, -, hg⟩ := exists_function_at hcallee
      exact ⟨word, .call hreached hcaller hg (callSites_pos.2 hword), hcallee⟩
  · rintro ⟨name, hreached, hk⟩
    induction hreached generalizing k with
    | @entry name f hf he =>
      obtain ⟨j, hfirst, hj⟩ := function?_eq_some.1 hf
      obtain rfl := Option.some.inj (hk.symm.trans hfirst)
      refine CallGraph.mem_expansion_of_root (mem_entryNodes.2 ⟨f, hj, he, ?_⟩) (firstIndex?_lt hk)
      rw [name_of_function? hf, hk]
    | @call caller callee f g _ hf hg hs ih =>
      obtain ⟨j, hfirst, hj⟩ := function?_eq_some.1 hf
      refine CallGraph.mem_expansion_of_call (ih hfirst) ?_ (firstIndex?_lt hk)
      rw [callees_ofProgram hj]
      exact List.mem_filterMap.2 ⟨callee, callSites_pos.1 hs, hk⟩

/-! ### Counting -/

/-- The names of the nodes expanded are the reached names, each once. -/
theorem map_nameOf_expansion (p : Program) :
    (((CallGraph.ofProgram p).expansion (entryNodes p)).map fun k =>
      p.functionNames.getD k []).Nodup ∧
      (((CallGraph.ofProgram p).expansion (entryNodes p)).map fun k =>
        p.functionNames.getD k []).toFinset =
        reachedNames p := by
  have hname : ∀ k ∈ (CallGraph.ofProgram p).expansion (entryNodes p),
      Reached p (p.functionNames.getD k []) ∧
        firstIndex? p.functionNames (p.functionNames.getD k []) = some k := by
    intro k hk
    obtain ⟨name, hreached, hfirst⟩ := mem_expansion_iff.1 hk
    rw [getD_functionNames hfirst]
    exact ⟨hreached, hfirst⟩
  constructor
  · refine List.Nodup.map_on (fun i hi j hj heq => ?_) (CallGraph.nodup_expansion _ _)
    have hfirst := (hname i hi).2
    rw [heq, (hname j hj).2] at hfirst
    exact (Option.some.inj hfirst).symm
  · ext name
    rw [List.mem_toFinset, mem_reachedNames, List.mem_map]
    constructor
    · rintro ⟨k, hk, rfl⟩
      exact (hname k hk).1
    · intro hreached
      obtain ⟨f, hf⟩ := hreached.exists_function
      obtain ⟨k, hfirst, -⟩ := function?_eq_some.1 hf
      have hk := mem_expansion_iff.2 ⟨name, hreached, hfirst⟩
      exact ⟨k, hk, firstIndex?_injective (hname k hk).2 hfirst⟩

/-- Call sites met on the way, added up node by node, are all call sites of what is reached. -/
theorem count_reachedCalls {k : Nat} (h : firstIndex? p.functionNames name = some k) :
    ((CallGraph.ofProgram p).reachedCalls (entryNodes p)).count k = totalSites p name := by
  obtain ⟨hnodup, hset⟩ := map_nameOf_expansion p
  rw [totalSites, ← hset, List.sum_toFinset _ hnodup, CallGraph.reachedCalls, List.count_flatMap,
    List.map_map]
  refine congrArg List.sum (List.map_congr_left fun i hi => ?_)
  obtain ⟨caller, -, hfirst⟩ := mem_expansion_iff.1 hi
  obtain ⟨f, hf, hcaller⟩ := exists_function_at hfirst
  simp only [Function.comp_apply, getD_functionNames hfirst]
  rw [callees_ofProgram hf, count_filterMap_firstIndex? h, count_calledNames, sitesIn, hcaller]
  rfl

/-- A function that is not the first of its name is never called. -/
theorem count_reachedCalls_eq_zero {k : Nat} {f : Function} (hf : p.functions[k]? = some f)
    (hearlier : f.name ∈ p.functionNames.take k) :
    ((CallGraph.ofProgram p).reachedCalls (entryNodes p)).count k = 0 := by
  refine List.count_eq_zero_of_not_mem fun hk => ?_
  obtain ⟨i, hi, hcall⟩ := List.mem_flatMap.1 hk
  obtain ⟨caller, -, hfirst⟩ := mem_expansion_iff.1 hi
  obtain ⟨g, hg, -⟩ := exists_function_at hfirst
  rw [callees_ofProgram hg] at hcall
  obtain ⟨word, -, hword⟩ := List.mem_filterMap.1 hcall
  obtain ⟨hname, hnot⟩ := firstIndex?_eq_some.1 hword
  rw [Program.functionNames, List.getElem?_map, hf, Option.map_some, Option.some.injEq] at hname
  rw [hname] at hearlier
  exact hnot hearlier

/-- Counting calls gives every function its call sites in what is reached. -/
theorem countCalls_eq (p : Program) :
    countCalls p = { p with functions := p.functions.zipIdx.map fun (f, k) => counted p k f } := by
  have hfunctions :
      (countCalls p).functions = p.functions.zipIdx.map fun (f, k) => counted p k f := by
    refine List.map_congr_left fun ⟨f, k⟩ hmem => ?_
    have hf := List.mem_zipIdx_iff_getElem?.1 hmem
    obtain ⟨hlt, -⟩ := List.getElem?_eq_some_iff.1 hf
    have hname : p.functionNames[k]? = some f.name := by
      rw [Program.functionNames, List.getElem?_map, hf]
      rfl
    have hcount : ((CallGraph.ofProgram p).counts (entryNodes p)).getD k 0 =
        ((CallGraph.ofProgram p).reachedCalls (entryNodes p)).count k := by
      have hnodes : k < (CallGraph.ofProgram p).names.length := by
        rw [CallGraph.ofProgram, Program.functionNames, List.length_map]
        exact hlt
      rw [CallGraph.counts, List.getD_eq_getElem?_getD, List.getElem?_map,
        List.getElem?_range hnodes]
      rfl
    simp only [counted, sitesTo, hcount]
    by_cases hearlier : f.name ∈ p.functionNames.take k
    · rw [if_pos hearlier, count_reachedCalls_eq_zero hf hearlier]
    · rw [if_neg hearlier, count_reachedCalls (firstIndex?_eq_some.2 ⟨hname, hearlier⟩)]
  rw [← hfunctions]
  rfl

end ScriptMinifier.Usage
