import ScriptMinifier.Proofs.Naming.LiteralNames
import ScriptMinifier.Proofs.Usage.Retention

/-! Callbacks through pruning and renaming.

`ExecuteFunc` calls the function that its string names. Three scans look at such a string: the call
graph for an edge, pruning for the function to stay, and renaming for the name to follow. Where
functions have names of their own they agree: whatever a function that stays calls in this way
stays too (`stays_of_called`), and the string has the function's new name in the place of the old
one (`callbacks_follow`). -/
namespace ScriptMinifier.Usage

open Naming (Pool newNames renamed renameGlobals)
open Pruning (prune)
open Syntax (Function)

variable {p : Program} {f g : Function}

/-! ### What stays -/

/-- The functions that stay are the entries and those that are called, with their calls counted. -/
theorem mem_retained :
    f ∈ (retained p).functions ↔ ∃ k f₀, p.functions[k]? = some f₀ ∧ f = counted p k f₀ ∧
    (f₀.entry = true ∨ Called p k f₀) := by
  rw [retained, Pruning.dropFunctions, List.mem_filter, countCalls_eq, List.mem_map]
  constructor
  · rintro ⟨⟨⟨f₀, k⟩, hmem, rfl⟩, hkeeps⟩
    exact ⟨k, f₀, List.mk_mem_zipIdx_iff_getElem?.1 hmem, rfl,
      (keepsFunction_counted p k f₀).1 hkeeps⟩
  · rintro ⟨k, f₀, hk, rfl, hstays⟩
    exact ⟨⟨(f₀, k), List.mk_mem_zipIdx_iff_getElem?.2 hk, rfl⟩,
      (keepsFunction_counted p k f₀).2 hstays⟩

theorem functions_prune (p : Program) : (prune p).functions = (retained p).functions := rfl

/-- Where names are distinct a name stands for the one function that has it. -/
theorem function?_of_nodup (hnames : p.functionNames.Nodup) {k : Nat}
    (hf : p.functions[k]? = some f) :
    p.function? f.name = some f ∧ f.name ∉ p.functionNames.take k := by
  have hname : p.functionNames[k]? = some f.name := by
    rw [Program.functionNames, List.getElem?_map, hf]
    rfl
  have hfresh : f.name ∉ p.functionNames.take k := by
    intro hmem
    obtain ⟨j, hj⟩ := List.mem_iff_getElem?.1 hmem
    rw [List.getElem?_take] at hj
    split at hj
    · rename_i hlt
      have hsame :=
        (List.getElem?_inj (List.getElem?_eq_some_iff.1 hj).1 hnames).1 (hj.trans hname.symm)
      omega
    · cases hj
  exact ⟨function?_eq_some.2 ⟨k, firstIndex?_eq_some.2 ⟨hname, hfresh⟩, hf⟩, hfresh⟩

/-- Where names are distinct a function that stays is reached. -/
theorem reached_of_mem_retained (hnames : p.functionNames.Nodup) (hf : f ∈ (retained p).functions) :
    ∃ f₀, p.function? f.name = some f₀ ∧ f.body = f₀.body ∧ Reached p f.name := by
  obtain ⟨k, f₀, hk, rfl, hstays⟩ := mem_retained.1 hf
  obtain ⟨hfirst, -⟩ := function?_of_nodup hnames hk
  refine ⟨f₀, hfirst, rfl, ?_⟩
  rcases hstays with hentry | ⟨-, caller, h, hreached, hh, hsites⟩
  · exact .entry hfirst hentry
  · exact .call hreached hh hfirst hsites

/-- What a function that stays calls, stays. -/
theorem stays_of_called (hnames : p.functionNames.Nodup) (hf : f ∈ (retained p).functions)
    (hg : g ∈ p.functions)
    (hcall : g.name ∈ calledNames p.literals f) :
    ∃ uses, { g with uses := uses } ∈ (retained p).functions := by
  obtain ⟨f₀, hf₀, hbody, hreached⟩ := reached_of_mem_retained hnames hf
  obtain ⟨k, hk⟩ := List.mem_iff_getElem?.1 hg
  obtain ⟨-, hfresh⟩ := function?_of_nodup hnames hk
  have hsites : 0 < callSites p.literals f₀ g.name := by
    rw [← callSites_congr hbody]
    exact callSites_pos.2 hcall
  exact ⟨_, mem_retained.2 ⟨k, g, hk, rfl, .inr ⟨hfresh, f.name, f₀, hreached, hf₀, hsites⟩⟩⟩

/-! ### What follows -/

/-- The literal of a callback follows the function at a place: before and after renaming it has the
function's name as its first word, and nothing else of it is changed. -/
def CallbackFollows (before after : Program) (k n : Nat) (lit : Text) : Prop :=
  ∃ g g', before.functions[k]? = some g ∧ after.functions[k]? = some g' ∧
    ∃ head tail, Text.words head = [] ∧ lit = head ++ (g.name ++ tail) ∧
      after.literals.get? n = some (head ++ (g'.name ++ tail)) ∧
      literalName? (head ++ (g'.name ++ tail)) = some g'.name

/-- Counting keeps a function at its place. -/
theorem exists_countCalls {k : Nat} (hf : p.functions[k]? = some f) :
    ∃ uses, (countCalls p).functions[k]? = some { f with uses := uses } := by
  rw [countCalls, List.getElem?_map, List.getElem?_zipIdx, hf]
  exact ⟨_, rfl⟩

/-- Renaming a program whose literal is taken by an idiom. -/
theorem callbackFollows_renameGlobals {q : Program} (pool : Pool) {k n : Nat} {lit : Text}
    (hg : q.functions[k]? = some g)
    (hn : n ∈ Naming.namingLiterals q) (hlit : q.literals.get? n = some lit)
    (hname : literalName? lit = some g.name) :
    CallbackFollows q (renameGlobals q pool).program k n lit := by
  obtain ⟨before, after, rfl, hfirst⟩ := exists_firstWord hname
  obtain ⟨hne, hword⟩ := Naming.isWord_renamed q pool hfirst.ne_nil hfirst.word
  refine ⟨g, Naming.renameFunction (newNames q pool) g, hg, ?_, before, after,
    hfirst.none_before, rfl, ?_, hfirst.first _ hne hword⟩
  · show (q.functions.map (Naming.renameFunction (newNames q pool)))[k]? = _
    rw [List.getElem?_map, hg]
    rfl
  · rw [Naming.get?_renameGlobals_of_mem hn hlit, hfirst.replaced]
    rfl

/-- **Callbacks follow their functions** through pruning and renaming: the function that a callback
names stays, and the callback names it by its new name. -/
theorem callbacks_follow (hnames : p.functionNames.Nodup) (pool : Pool) {n : Nat} {lit : Text}
    (hf : f ∈ (prune p).functions) (hn : n ∈ Idiom.executeFunc.ids f.body)
    (hlit : p.literals.get? n = some lit)
    (hg : g ∈ p.functions) (hname : literalName? lit = some g.name) :
    ∃ k uses, (prune p).functions[k]? = some { g with uses := uses } ∧
      CallbackFollows (prune p)
        (renameGlobals (countDeclarationUses (countCalls (prune p))) pool).program k n lit := by
  have hcall : g.name ∈ calledNames p.literals f :=
    List.mem_append_right _ (List.mem_filterMap.2 ⟨lit, List.mem_filterMap.2 ⟨n, hn, hlit⟩, hname⟩)
  obtain ⟨uses, hstays⟩ := stays_of_called hnames hf hg hcall
  rw [← functions_prune] at hstays
  obtain ⟨k, hk⟩ := List.mem_iff_getElem?.1 hstays
  obtain ⟨i, hi⟩ := List.mem_iff_getElem?.1 hf
  obtain ⟨_, hcaller⟩ := exists_countCalls (p := prune p) hi
  obtain ⟨_, hcallee⟩ := exists_countCalls (p := prune p) hk
  have hnaming : n ∈ Naming.namingLiterals (countDeclarationUses (countCalls (prune p))) :=
    Naming.mem_namingLiterals.2 ⟨_, List.mem_of_getElem? hcaller, .executeFunc, hn⟩
  obtain ⟨g₁, g₂, hg₁, hg₂, hrest⟩ :=
    callbackFollows_renameGlobals (q := countDeclarationUses (countCalls (prune p))) pool hcallee
      hnaming hlit hname
  obtain rfl := Option.some.inj (hcallee.symm.trans hg₁)
  exact ⟨k, uses, hk, { g with uses := uses }, g₂, hk, hg₂, hrest⟩

/-- An entry that calls another function and a second entry by their names, the former twice. -/
def callbackProgram : Program where
  literals := ⟨["\" Later 1\"".toList, "\"config\"".toList]⟩
  declarations :=
    [{ constant := false, array := false, type := "real".toList, name := ['g'], value := none }]
  functions := [
    .new "main".toList "nothing".toList "nothing".toList
      "call ExecuteFunc(\x000\x00)\ncall ExecuteFunc(\x001\x00)\ncall ExecuteFunc(\x000\x00)\nset g=1.".toList,
    .new "Dead".toList "nothing".toList "nothing".toList "call Later()".toList,
    .new "Later".toList "nothing".toList "nothing".toList [],
    .new "config".toList "nothing".toList "nothing".toList []]

theorem callbackProgram_follows :
    callbackProgram.functionNames.Nodup ∧
      ∃ f ∈ (prune callbackProgram).functions, Idiom.executeFunc.ids f.body = [0, 1, 0] ∧
        (∃ k uses, (prune callbackProgram).functions[k]? = some
            { Function.new "Later".toList "nothing".toList "nothing".toList [] with uses := uses } ∧
          CallbackFollows (prune callbackProgram)
            (renameGlobals (countDeclarationUses (countCalls (prune callbackProgram)))
              (Pool.new .globals)).program
            k 0 "\" Later 1\"".toList) ∧
        ∃ k uses, (prune callbackProgram).functions[k]? =
            some
              { Function.new "config".toList "nothing".toList "nothing".toList
                [] with uses := uses } ∧
          CallbackFollows (prune callbackProgram)
            (renameGlobals (countDeclarationUses (countCalls (prune callbackProgram)))
              (Pool.new .globals)).program
            k 1 "\"config\"".toList := by
  have hnames : callbackProgram.functionNames.Nodup := by decide +kernel
  obtain ⟨f, hf, hids⟩ : ∃ f ∈ (prune callbackProgram).functions,
      Idiom.executeFunc.ids f.body = [0, 1, 0] := by
    decide +kernel
  refine ⟨hnames, f, hf, hids, ?_, ?_⟩
  · exact callbacks_follow hnames _ hf (by rw [hids]; decide) rfl (by decide) (by decide +kernel)
  · exact callbacks_follow hnames _ hf (by rw [hids]; decide) rfl (by decide) (by decide +kernel)

end ScriptMinifier.Usage
