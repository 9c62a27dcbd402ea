import ScriptMinifier.Minify
import ScriptMinifier.Proofs.Usage.Retention

/-! A function that nothing reaches.

Put a function into a program, at any place, under a name of its own that no function in
reach calls. Names then stand for the same functions as before, the same names are reached
(`reached_inserted`), and every other function keeps its uses, so pruning gives the very
program it gave without the newcomer (`prune_inserted`). Whatever the body of the newcomer
holds, the steps after pruning never see it. -/
namespace ScriptMinifier.Usage

open Pruning (dropFunctions droppedFunctions keepsFunction prune)
open Syntax (Function)

/-! ### The functions of a longer program -/

/-- The program with other functions. -/
def withFunctions (p : Program) (fs : List Function) : Program := { p with functions := fs }

/-- A function that can be put among others without being called: no entry, with a name of
its own, which no function in reach names as a word or in a string. -/
structure Uncalled (p : Program) (d : Function) : Prop where
  not_entry : d.entry = false
  fresh : ∀ f ∈ p.functions, f.name ≠ d.name
  not_called : ∀ caller f, Reached p caller → p.function? caller = some f →
    d.name ∉ Text.words f.body ∧ d.name ∉ Idiom.executeFunc.names p.literals f.body

section Inserted

variable {p : Program} {d : Function} {before after : List Function} {name : Text}

theorem Uncalled.callSites_eq_zero (h : Uncalled p d) {caller : Text} {f : Function}
    (hr : Reached p caller)
    (hf : p.function? caller = some f) : callSites p.literals f d.name = 0 := by
  obtain ⟨hword, hstring⟩ := h.not_called caller f hr hf
  rw [callSites, List.count_eq_zero_of_not_mem hword, List.count_eq_zero_of_not_mem hstring]

theorem function?_withFunctions (fs : List Function) (name : Text) :
    (withFunctions p fs).function? name = fs.find? (·.name == name) := rfl

theorem function?_inserted_of_ne (hp : p.functions = before ++ after) (hne : name ≠ d.name) :
    (withFunctions p (before ++ d :: after)).function? name = p.function? name := by
  rw [function?_withFunctions, Program.function?, hp, List.find?_append, List.find?_append,
    List.find?_cons_of_neg (by simpa using Ne.symm hne)]

theorem function?_inserted_self (hp : p.functions = before ++ after) (h : Uncalled p d) :
    (withFunctions p (before ++ d :: after)).function? d.name = some d := by
  have hbefore : before.find? (·.name == d.name) = none := by
    rw [List.find?_eq_none]
    intro f hf
    have := h.fresh f (hp ▸ List.mem_append_left after hf)
    simpa using this
  rw [function?_withFunctions, List.find?_append, hbefore, Option.none_or,
    List.find?_cons_of_pos (by simp)]

theorem Uncalled.function?_eq_none (h : Uncalled p d) : p.function? d.name = none := by
  rw [Program.function?, List.find?_eq_none]
  intro f hf
  have := h.fresh f hf
  simpa using this

theorem Uncalled.ne_of_reached (h : Uncalled p d) (hr : Reached p name) : name ≠ d.name := by
  rintro rfl
  obtain ⟨f, hf⟩ := hr.exists_function
  rw [h.function?_eq_none] at hf
  cases hf

/-! ### The same names are reached -/

theorem Reached.of_inserted (hp : p.functions = before ++ after) (h : Uncalled p d)
    (hr : Reached (withFunctions p (before ++ d :: after)) name) : Reached p name := by
  induction hr with
  | @entry name f hf he =>
    by_cases hname : name = d.name
    · subst hname
      rw [function?_inserted_self hp h] at hf
      rw [← Option.some.inj hf, h.not_entry] at he
      cases he
    · rw [function?_inserted_of_ne hp hname] at hf
      exact .entry hf he
  | @call caller callee f g _ hf hg hs ih =>
    rw [function?_inserted_of_ne hp (h.ne_of_reached ih)] at hf
    by_cases hname : callee = d.name
    · subst hname
      have hnone : callSites (withFunctions p (before ++ d :: after)).literals f d.name = 0 :=
        h.callSites_eq_zero ih hf
      omega
    · rw [function?_inserted_of_ne hp hname] at hg
      exact .call ih hf hg hs

theorem Reached.inserted (hp : p.functions = before ++ after) (h : Uncalled p d)
    (hr : Reached p name) :
    Reached (withFunctions p (before ++ d :: after)) name := by
  induction hr with
  | @entry name f hf he =>
    have hne := h.ne_of_reached (.entry hf he)
    exact .entry ((function?_inserted_of_ne hp hne).trans hf) he
  | @call caller callee f g hr hf hg hs ih =>
    have hcaller := h.ne_of_reached hr
    have hcallee := h.ne_of_reached (.call hr hf hg hs)
    exact .call ih ((function?_inserted_of_ne hp hcaller).trans hf)
      ((function?_inserted_of_ne hp hcallee).trans hg) hs

/-- An uncalled function changes nothing about what is reached. -/
theorem reached_inserted (hp : p.functions = before ++ after) (h : Uncalled p d) :
    Reached (withFunctions p (before ++ d :: after)) name ↔ Reached p name :=
  ⟨Reached.of_inserted hp h, Reached.inserted hp h⟩

/-! ### The same uses are counted -/

theorem reachedNames_inserted (hp : p.functions = before ++ after) (h : Uncalled p d) :
    reachedNames (withFunctions p (before ++ d :: after)) = reachedNames p := by
  ext name
  rw [mem_reachedNames, mem_reachedNames, reached_inserted hp h]

theorem totalSites_inserted (hp : p.functions = before ++ after) (h : Uncalled p d) (name : Text) :
    totalSites (withFunctions p (before ++ d :: after)) name = totalSites p name := by
  rw [totalSites, totalSites, reachedNames_inserted hp h]
  refine Finset.sum_congr rfl fun caller hcaller => ?_
  have hne := h.ne_of_reached (mem_reachedNames.1 hcaller)
  rw [sitesIn, sitesIn, function?_inserted_of_ne hp hne]
  rfl

theorem Uncalled.totalSites_eq_zero (h : Uncalled p d) : totalSites p d.name = 0 := by
  refine Finset.sum_eq_zero fun caller hcaller => ?_
  have hr := mem_reachedNames.1 hcaller
  obtain ⟨f, hf⟩ := hr.exists_function
  rw [sitesIn, hf, Option.map_some, Option.getD_some, h.callSites_eq_zero hr hf]

end Inserted

/-! ### One function less -/

section Recount

variable {total : Text → Nat} {d : Function} {fs : List Function}

theorem recount_append (seen : List Text) (fs gs : List Function) :
    recount total seen (fs ++ gs) = recount total seen fs ++ recount total
    (seen ++ fs.map Function.name) gs := by
  induction fs generalizing seen with
  | nil => simp [recount]
  | cons f rest ih => simp [recount, ih]

/-- Only names that the functions have count among those passed. -/
theorem recount_congr {seen seen' : List Text} (h : ∀ f ∈ fs, f.name ∈ seen ↔ f.name ∈ seen') :
    recount total seen fs = recount total seen' fs := by
  induction fs generalizing seen seen' with
  | nil => rfl
  | cons f rest ih =>
    have hrest :
        recount total (seen ++ [f.name]) rest = recount total (seen' ++ [f.name]) rest := by
      apply ih
      intro g hg
      rw [List.mem_append, List.mem_append, h g (List.mem_cons_of_mem f hg)]
    rw [recount, recount, hrest]
    simp only [h f List.mem_cons_self]

/-- An uncalled function, counted among others, is the only one that differs. -/
theorem recount_inserted {before after : List Function} (hentry : d.entry = false)
    (htotal : total d.name = 0) (hfresh : ∀ f ∈ before ++ after, f.name ≠ d.name) :
    ∃ fs gs, recount total [] (before ++ after) = fs ++ gs ∧
      recount total [] (before ++ d :: after) = fs ++ { d with uses := 0 } :: gs := by
  refine ⟨recount total [] before, recount total (before.map Function.name) after, ?_, ?_⟩
  · rw [recount_append, List.nil_append]
  · have hmore : recount total (before.map Function.name ++ [d.name]) after =
        recount total (before.map Function.name) after := by
      apply recount_congr
      intro f hf
      have hne := hfresh f (List.mem_append_right before hf)
      rw [List.mem_append, List.mem_singleton]
      exact or_iff_left hne
    have hd :
        (if d.name ∈ before.map Function.name then 0 else total d.name) +
          (if d.entry then 1 else 0) = 0 := by
      rw [hentry, htotal]
      split <;> rfl
    rw [recount_append, List.nil_append, recount, hmore, hd]

end Recount

/-! ### Pruning -/

section Pruned

variable {p : Program} {d : Function} {before after : List Function}

/-- Counting finds the newcomer unused and all others as before. -/
theorem countCalls_inserted (hp : p.functions = before ++ after) (h : Uncalled p d) :
    ∃ fs gs, countCalls p = withFunctions p (fs ++ gs) ∧
      countCalls (withFunctions p (before ++ d :: after)) = withFunctions p
      (fs ++ { d with uses := 0 } :: gs) := by
  have htotal : totalSites (withFunctions p (before ++ d :: after)) = totalSites p :=
    funext (totalSites_inserted hp h)
  obtain ⟨fs, gs, hold, hnew⟩ := recount_inserted h.not_entry h.totalSites_eq_zero (hp ▸ h.fresh)
  refine ⟨fs, gs, ?_, ?_⟩
  · rw [countCalls_eq_recount, hp, hold]
    rfl
  · rw [countCalls_eq_recount, htotal]
    exact congrArg (withFunctions p) hnew

theorem Uncalled.not_keeps (h : Uncalled p d) : keepsFunction { d with uses := 0 } = false := by
  simp [keepsFunction, h.not_entry]

theorem dropFunctions_inserted (hp : p.functions = before ++ after) (h : Uncalled p d) :
    dropFunctions (countCalls (withFunctions p (before ++ d :: after))) = dropFunctions
    (countCalls p) := by
  obtain ⟨fs, gs, hold, hnew⟩ := countCalls_inserted hp h
  rw [hold, hnew]
  simp [dropFunctions, withFunctions, h.not_keeps]

theorem length_droppedFunctions_inserted (hp : p.functions = before ++ after) (h : Uncalled p d) :
    (droppedFunctions (countCalls (withFunctions p (before ++ d :: after)))).length =
      (droppedFunctions (countCalls p)).length + 1 := by
  obtain ⟨fs, gs, hold, hnew⟩ := countCalls_inserted hp h
  rw [hold, hnew]
  simp [droppedFunctions, withFunctions, h.not_keeps, Nat.add_assoc]

/-- Pruning gives the program that it gave without the uncalled function. -/
theorem prune_inserted (hp : p.functions = before ++ after) (h : Uncalled p d) :
    prune (withFunctions p (before ++ d :: after)) = prune p := by
  rw [prune, prune, Pruning.countedUses, Pruning.countedUses, Pruning.countedCalls,
    Pruning.countedCalls, dropFunctions_inserted hp h]

theorem report_inserted (hp : p.functions = before ++ after) (h : Uncalled p d) :
    Pruning.report (withFunctions p (before ++ d :: after)) =
      { Pruning.report p with functions := (Pruning.report p).functions + 1 } := by
  have hlength := length_droppedFunctions_inserted hp h
  simp only [Pruning.report, Pruning.countedUses, Pruning.countedCalls, dropFunctions_inserted hp h,
    hlength]

end Pruned

/-! ### The rest of a run -/

/-- The steps of a run from the program whose tables are put in to what the run gives. -/
def finish (p : Program) : Minified :=
  let counted := countDeclarationUses (countCalls (Constant.fold (prune p)))
  let named := Naming.renameGlobals counted (Naming.Pool.new .globals)
  let extracted := Output.extractTruth (Naming.renameAllLocals named.program) named.pool
  ⟨Output.emit extracted.program, Pruning.report p⟩

/-- A run reads the script, marks its entries, puts its tables in, and finishes. -/
theorem minify_eq_finish (options : Options) (src : Text) :
    minify options src =
      (readProgram src).map fun p => finish
      (options.tables.inline (p.markEntries options.entries)) := by
  rw [minify]
  cases readProgram src <;> rfl

/-- **An uncalled function has no influence.** Wherever it is inserted, the run gives the same
text, and its report counts one more function dropped. -/
theorem finish_inserted (p : Program) (before after : List Function) (d : Function)
    (hp : p.functions = before ++ after) (h : Uncalled p d) :
    finish { p with functions := before ++ d :: after } =
      { finish p with
        report := { (finish p).report with functions := (finish p).report.functions + 1 } } := by
  have hprune := prune_inserted hp h
  have hreport := report_inserted hp h
  rw [withFunctions] at hprune hreport
  simp only [finish, hprune, hreport]

/-- A program whose `main` uses a global, a string and a truth value, and calls `A`. -/
def smallProgram : Program where
  literals := ⟨["\"A\"".toList, "\"g\"".toList]⟩
  declarations := [
    { constant := false, array := false, type := "real".toList, name := ['g'],
      value := some "0.".toList },
    { constant := true, array := false, type := "integer".toList, name := ['K'],
      value := some ['7'] }]
  functions := [
    .new "main".toList "nothing".toList "nothing".toList
      "call ExecuteFunc(\x000\x00)\nset g=K\nset b=true".toList,
    .new ['A'] "nothing".toList "nothing".toList "call B()".toList]

/-- A function that uses all of it, more often, and is called by none. -/
def deadFunction : Function :=
  .new "Dead".toList "integer A".toList "nothing".toList
    "local real g=K\ncall TriggerRegisterVariableEvent(t,\x001\x00,K,true)\ncall Dead()\ncall B(g,K,A)".toList

theorem smallProgram_finish_inserted :
    Uncalled smallProgram deadFunction ∧
      finish { smallProgram with functions := smallProgram.functions.take 1 ++ deadFunction ::
        smallProgram.functions.drop 1 } =
        { finish smallProgram with
          report :=
            { (finish smallProgram).report with
              functions := (finish smallProgram).report.functions + 1 } } := by
  have hcalls : ∀ f ∈ smallProgram.functions, deadFunction.name ∉ Text.words f.body ∧
      deadFunction.name ∉ Idiom.executeFunc.names smallProgram.literals f.body := by decide +kernel
  have h : Uncalled smallProgram deadFunction :=
    ⟨by decide +kernel, by decide +kernel, fun _ f _ hf => hcalls f (mem_of_function? hf)⟩
  exact ⟨h, finish_inserted smallProgram _ _ _ (List.take_append_drop 1 _).symm h⟩

end ScriptMinifier.Usage
