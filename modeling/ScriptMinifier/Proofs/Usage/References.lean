import ScriptMinifier.Proofs.Usage.Callbacks
import ScriptMinifier.Proofs.Usage.Declared

/-! What pruning leaves, and what it names.

Functions are kept for the call sites in bodies and for nothing else. So the bodies that stay
name no function that goes, while a value that stays may: it names a kept function just when the
entries reach that function without it (`bodies_name_kept_functions`).

Declarations are kept for what names them in the functions that stay and in each other's values,
and of several of one name the last is meant. A declaration stays just when it is that last one
and its name is in use outside its own value (`declarations_prune`), so whatever stays names no
declaration that goes (`declarations_kept_for_uses`). -/
namespace ScriptMinifier.Usage

open Pruning (prune)
open Syntax (Declaration Function)
open Text (words)

variable {p : Program} {name : Text} {k : Nat}

/-! ### Functions -/

/-- Where names are distinct, the functions that stay are those that the entries reach. -/
theorem mem_functionNames_prune (hnames : p.functionNames.Nodup) :
    name ∈ (prune p).functionNames ↔ Reached p name := by
  rw [Program.functionNames, functions_prune]
  constructor
  · intro hmem
    obtain ⟨f, hf, rfl⟩ := List.mem_map.1 hmem
    obtain ⟨-, -, -, hreached⟩ := reached_of_mem_retained hnames hf
    exact hreached
  · intro hreached
    obtain ⟨f, hf⟩ := hreached.exists_function
    obtain ⟨k, -, hk⟩ := function?_eq_some.1 hf
    obtain ⟨-, hfresh⟩ := function?_of_nodup hnames hk
    obtain rfl := name_of_function? hf
    refine List.mem_map.2 ⟨counted p k f, mem_retained.2 ⟨k, f, hk, rfl, ?_⟩, rfl⟩
    cases hreached with
    | entry hf' hentry =>
      obtain rfl := Option.some.inj (hf.symm.trans hf')
      exact .inl hentry
    | call hcaller hg _ hsites => exact .inr ⟨hfresh, _, _, hcaller, hg, hsites⟩

/-- **The bodies that stay name no function that goes.** A value that stays names one that stays
just when the entries reach it through call sites. -/
theorem bodies_name_kept_functions (hnames : p.functionNames.Nodup) :
    (∀ f ∈ (prune p).functions, ∀ w ∈ words f.body, w ∈ p.functionNames →
      w ∈ (prune p).functionNames) ∧
      ∀ d ∈ (prune p).declarations, ∀ v ∈ d.value, ∀ w ∈ words v, w ∈ p.functionNames →
        (w ∈ (prune p).functionNames ↔ Reached p w) := by
  refine ⟨fun f hf w hw hname => ?_, fun _ _ _ _ _ _ _ => mem_functionNames_prune hnames⟩
  obtain ⟨g, hg, rfl⟩ := List.mem_map.1 hname
  obtain ⟨uses, hstays⟩ := stays_of_called hnames hf hg (List.mem_append_left _ hw)
  exact List.mem_map.2 ⟨_, hstays, rfl⟩

/-- A global whose value calls one function that is called elsewhere too, and one that is not. -/
def callingValue : Program where
  declarations := [
    { constant := false, array := false, type := "integer".toList, name := ['g'],
      value := some "F()+G()".toList }]
  functions := [
    .new "main".toList "nothing".toList "nothing".toList "set g=F()".toList,
    .new ['F'] "nothing".toList "integer".toList "return 1".toList,
    .new ['G'] "nothing".toList "integer".toList "return 2".toList]

theorem callingValue_keeps_called :
    callingValue.functionNames.Nodup ∧ (prune callingValue).functionNames = ["main".toList, ['F']] ∧
      (∃ f ∈ (prune callingValue).functions, ['F'] ∈ words f.body ∧
        ['F'] ∈ (prune callingValue).functionNames) ∧
      ∃ d ∈ (prune callingValue).declarations, ∃ v ∈ d.value, ['G'] ∈ words v ∧
      ¬ Reached callingValue ['G'] := by
  have hnames : callingValue.functionNames.Nodup := by decide +kernel
  have hkept : (prune callingValue).functionNames = ["main".toList, ['F']] := by decide +kernel
  obtain ⟨hbodies, hvalues⟩ := bodies_name_kept_functions hnames
  obtain ⟨f, hf, hF⟩ : ∃ f ∈ (prune callingValue).functions, ['F'] ∈ words f.body := by
    decide +kernel
  obtain ⟨d, hd, v, hv, hG⟩ : ∃ d ∈ (prune callingValue).declarations, ∃ v ∈ d.value,
      ['G'] ∈ words v := by
    decide +kernel
  refine ⟨hnames, hkept, ⟨f, hf, hF, hbodies f hf _ hF (by decide)⟩, d, hd, v, hv, hG, ?_⟩
  rw [← hvalues d hd v hv _ hG (by decide), hkept]
  decide

/-- A value may name a function that goes. -/
theorem value_outlives_function :
    callingValue.functionNames.Nodup ∧ ∃ d ∈ (prune callingValue).declarations, ∃ v ∈ d.value,
      ∃ w ∈ words v, w ∈ callingValue.functionNames ∧ w ∉ (prune callingValue).functionNames := by
  decide +kernel

/-! ### Positions of names -/

theorem lastIndex?_eq_some {names : List Text} :
    lastIndex? names name = some k ↔ names[k]? = some name ∧ name ∉ names.drop (k + 1) := by
  rw [lastIndex?, Option.map_eq_some_iff]
  constructor
  · rintro ⟨i, hi, rfl⟩
    obtain ⟨hname, hlater⟩ := firstIndex?_eq_some.1 hi
    have hlt : i < names.length := by simpa using firstIndex?_lt hi
    rw [List.getElem?_reverse hlt] at hname
    rw [List.take_reverse, List.mem_reverse] at hlater
    refine ⟨hname, ?_⟩
    rwa [show names.length - 1 - i + 1 = names.length - i by omega]
  · rintro ⟨hname, hlater⟩
    obtain ⟨hlt, -⟩ := List.getElem?_eq_some_iff.1 hname
    refine ⟨names.length - 1 - k, firstIndex?_eq_some.2 ⟨?_, ?_⟩, by omega⟩
    · rw [List.getElem?_reverse (by omega), show names.length - 1 - (names.length - 1 - k) =
        k by omega]
      exact hname
    · rw [List.take_reverse, List.mem_reverse, show names.length - (names.length - 1 - k) =
        k + 1 by omega]
      exact hlater

/-- Uses of the declaration at a position are the uses of its name, if it is the last of the
name. -/
theorem count_filterMap_lastIndex? {names : List Text} (h : names[k]? = some name)
    (ws : List Text) :
    (ws.filterMap (lastIndex? names)).count k = if name ∈ names.drop
    (k + 1) then 0 else ws.count name := by
  split
  · rename_i hlater
    refine List.count_eq_zero_of_not_mem fun hmem => ?_
    obtain ⟨w, -, hw⟩ := List.mem_filterMap.1 hmem
    obtain ⟨hname, hlast⟩ := lastIndex?_eq_some.1 hw
    obtain rfl := Option.some.inj (h.symm.trans hname)
    exact hlast hlater
  · rename_i hlast
    rw [List.count_filterMap, List.count]
    refine List.countP_congr fun w _ => ?_
    rw [beq_iff_eq, beq_iff_eq, lastIndex?_eq_some]
    constructor
    · rintro ⟨hw, -⟩
      exact Option.some.inj (hw.symm.trans h)
    · rintro rfl
      exact ⟨h, hlast⟩

/-! ### Uses of declarations -/

/-- A name is in use beside a position: in a function that does not hide it, in a variable event,
or in the value of a declaration at another position. -/
inductive InUse (ls : Literals) (fs : List Function) (ds : List Declaration) (k : Nat)
    (name : Text) : Prop
  | word {f : Function} (hf : f ∈ fs) (hw : name ∈ words f.body) (hvisible : name ∉ f.scopedNames)
  | event {f : Function} (hf : f ∈ fs) (hn : name ∈ Idiom.variableEvent.names ls f.body)
  | value {d : Declaration} {j : Nat} {v : Text} (hd : ds[j]? = some d) (hj : j ≠ k)
      (hv : v ∈ d.value) (hw : name ∈ words v)

/-- How often a name is in use beside a position. -/
def useSites (ls : Literals) (fs : List Function) (ds : List Declaration) (k : Nat) (name : Text) :
    Nat :=
  (fs.map fun f => (usedNames ls f).count name).sum +
    (ds.zipIdx.map fun (d, j) => if j = k then 0 else (words (d.value.getD [])).count name).sum

theorem mem_usedNames {ls : Literals} {f : Function} :
    name ∈ usedNames ls f ↔ name ∈ words f.body ∧ name ∉ f.scopedNames ∨
    name ∈ Idiom.variableEvent.names ls f.body := by
  simp [usedNames]

theorem mem_words_value {d : Declaration} :
    name ∈ words (d.value.getD []) ↔ ∃ v ∈ d.value, name ∈ words v := by
  cases d.value with
  | none => simp [Text.words_nil]
  | some v => simp

theorem useSites_pos {ls : Literals} {fs : List Function} {ds : List Declaration} :
    0 < useSites ls fs ds k name ↔ InUse ls fs ds k name := by
  rw [useSites, Nat.add_pos_iff_pos_or_pos, List.sum_pos_iff_exists_pos_nat,
    List.sum_pos_iff_exists_pos_nat]
  constructor
  · rintro (⟨n, hn, hpos⟩ | ⟨n, hn, hpos⟩)
    · obtain ⟨f, hf, rfl⟩ := List.mem_map.1 hn
      rcases mem_usedNames.1 (List.count_pos_iff.1 hpos) with ⟨hw, hvisible⟩ | hevent
      · exact .word hf hw hvisible
      · exact .event hf hevent
    · obtain ⟨⟨d, j⟩, hmem, heq⟩ := List.mem_map.1 hn
      obtain ⟨hj, hcount⟩ : j ≠ k ∧ 0 < (words (d.value.getD [])).count name := by grind
      obtain ⟨v, hv, hw⟩ := mem_words_value.1 (List.count_pos_iff.1 hcount)
      exact .value (List.mk_mem_zipIdx_iff_getElem?.1 hmem) hj hv hw
  · intro huse
    cases huse with
    | word hf hw hvisible =>
      exact .inl
        ⟨_, List.mem_map_of_mem hf, List.count_pos_iff.2 (mem_usedNames.2 (.inl ⟨hw, hvisible⟩))⟩
    | event hf hn =>
      exact .inl ⟨_, List.mem_map_of_mem hf, List.count_pos_iff.2 (mem_usedNames.2 (.inr hn))⟩
    | @value d j v hd hj hv hw =>
      refine .inr ⟨_, List.mem_map_of_mem (List.mk_mem_zipIdx_iff_getElem?.2 hd), ?_⟩
      simp only [if_neg hj]
      exact List.count_pos_iff.2 (mem_words_value.2 ⟨v, hv, hw⟩)

/-- The declaration at a position, used as often as its name is in use beside it if it is the last
of the name. -/
def countedUse (ls : Literals) (fs : List Function) (ds : List Declaration) (k : Nat)
    (d : Declaration) : Declaration :=
  { d with uses := if d.name ∈ (ds.map Declaration.name).drop (k + 1) then 0
    else useSites ls fs ds k d.name }

theorem count_usesInFunctions (h : p.declarationNames[k]? = some name) :
    (usesInFunctions p).count k = if name ∈ p.declarationNames.drop (k + 1) then 0
      else (p.functions.map fun f => (usedNames p.literals f).count name).sum := by
  rw [usesInFunctions, List.count_flatMap]
  simp only [Function.comp_def, count_filterMap_lastIndex? h]
  split
  · simp
  · rfl

theorem count_usesInValues (h : p.declarationNames[k]? = some name) :
    (usesInValues p).count k = if name ∈ p.declarationNames.drop (k + 1) then 0
      else (p.declarations.zipIdx.map fun (d, j) =>
        if j = k then 0 else (words (d.value.getD [])).count name).sum := by
  have hfilter : ∀ (ns : List Nat) (j : Nat),
      (ns.filter (· != j)).count k = if j = k then 0 else ns.count k := by
    intro ns j
    split
    · rename_i hj
      exact List.count_eq_zero_of_not_mem fun hmem => by simp [hj] at hmem
    · rename_i hj
      exact List.count_filter (by simpa using Ne.symm hj)
  rw [usesInValues, List.count_flatMap]
  simp only [Function.comp_def, hfilter, count_filterMap_lastIndex? h]
  split
  · simp
  · rfl

/-- Counting gives every declaration the uses of its name. -/
theorem countDeclarationUses_eq (p : Program) :
    countDeclarationUses p =
      { p with
        declarations := p.declarations.zipIdx.map fun (d, k) =>
          countedUse p.literals p.functions p.declarations k d } := by
  have hdeclarations : (countDeclarationUses p).declarations =
      p.declarations.zipIdx.map fun (d, k) =>
        countedUse p.literals p.functions p.declarations k d := by
    refine List.map_congr_left fun ⟨d, k⟩ hmem => ?_
    have hname : p.declarationNames[k]? = some d.name := by
      rw [Program.declarationNames, List.getElem?_map, List.mk_mem_zipIdx_iff_getElem?.1 hmem]
      rfl
    have huses : (usesInFunctions p ++ usesInValues p).count k = if d.name ∈ p.declarationNames.drop
      (k + 1) then 0
        else useSites p.literals p.functions p.declarations k d.name := by
      rw [List.count_append, count_usesInFunctions hname, count_usesInValues hname, useSites]
      split <;> rfl
    simp only [countedUse, huses]
    rfl
  rw [← hdeclarations]
  rfl

/-! ### Declarations that stay -/

/-- What keeps the declaration at a position: it is the last of its name, and the name is in use
beside it in the functions that stay and in all values, those that go included. -/
def KeptForUse (p : Program) (k : Nat) (d : Declaration) : Prop :=
  d.name ∉ p.declarationNames.drop (k + 1) ∧
    InUse p.literals (prune p).functions p.declarations k d.name

theorem countedUse_uses_pos {d : Declaration} :
    0 < (countedUse p.literals (prune p).functions p.declarations k d).uses ↔ KeptForUse p k d := by
  rw [KeptForUse, ← useSites_pos, countedUse, ← Program.declarationNames]
  split
  · rename_i hlater
    exact ⟨fun h => absurd h (Nat.lt_irrefl 0), fun h => absurd hlater h.1⟩
  · rename_i hlast
    exact ⟨fun h => ⟨hlast, h⟩, And.right⟩

open Classical in
/-- The last declarations of names in use stay, in their order. -/
theorem declarations_prune (p : Program) :
    (prune p).declarations =
    (p.declarations.zipIdx.filter fun (d, k) => decide (KeptForUse p k d)).map
      fun (d, k) => countedUse p.literals (prune p).functions p.declarations k d := by
  have hcounted : (prune p).declarations = (p.declarations.zipIdx.map fun (d, k) =>
      countedUse p.literals (prune p).functions p.declarations k d).filter
        Pruning.keepsDeclaration :=
    congrArg (fun q : Program => q.declarations.filter Pruning.keepsDeclaration)
      (countDeclarationUses_eq (retained p))
  rw [hcounted, List.filter_map]
  refine congrArg _ (List.filter_congr fun ⟨d, k⟩ _ => ?_)
  rw [Bool.eq_iff_iff, decide_eq_true_iff]
  exact decide_eq_true_iff.trans countedUse_uses_pos

theorem mem_declarationNames_prune :
    name ∈ (prune p).declarationNames ↔ ∃ k d, p.declarations[k]? = some d ∧ d.name = name ∧
    KeptForUse p k d := by
  rw [Program.declarationNames, declarations_prune]
  simp only [List.mem_map, List.mem_filter, Prod.exists, List.mk_mem_zipIdx_iff_getElem?,
    decide_eq_true_iff]
  constructor
  · rintro ⟨_, ⟨d, k, ⟨hd, hkept⟩, rfl⟩, rfl⟩
    exact ⟨k, d, hd, rfl, hkept⟩
  · rintro ⟨k, d, hd, rfl, hkept⟩
    exact ⟨_, ⟨d, k, ⟨hd, hkept⟩, rfl⟩, rfl⟩

/-- A name that is in use stays declared, whatever position it is looked for beside. -/
theorem declared_of_inUse (hdeclared : name ∈ p.declarationNames)
    (huse : ∀ k d, p.declarations[k]? = some d → d.name = name →
      InUse p.literals (prune p).functions p.declarations k name ∨
      name ∈ (prune p).declarationNames) :
    name ∈ (prune p).declarationNames := by
  obtain ⟨k, hk, -⟩ := exists_lastIndex? hdeclared
  obtain ⟨hname, hlast⟩ := lastIndex?_eq_some.1 hk
  rw [Program.declarationNames, List.getElem?_map, Option.map_eq_some_iff] at hname
  obtain ⟨d, hd, rfl⟩ := hname
  rcases huse k d hd rfl with huse | hstays
  · exact mem_declarationNames_prune.2 ⟨k, d, hd, rfl, hlast, huse⟩
  · exact hstays

open Classical in
/-- **Declarations are kept for their uses.** What a body that stays names without hiding it, what
a variable event in it names, and what a value that stays names is still declared if it was; and
the declarations that stay are the last ones of the names in use, each counted. -/
theorem declarations_kept_for_uses (p : Program) :
    (∀ f ∈ (prune p).functions, ∀ w ∈ words f.body, w ∉ f.scopedNames → w ∈ p.declarationNames →
        w ∈ (prune p).declarationNames) ∧
      (∀ f ∈ (prune p).functions, ∀ w ∈ Idiom.variableEvent.names p.literals f.body,
        w ∈ p.declarationNames →
        w ∈ (prune p).declarationNames) ∧
      (∀ d ∈ (prune p).declarations, ∀ v ∈ d.value, ∀ w ∈ words v, w ∈ p.declarationNames →
        w ∈ (prune p).declarationNames) ∧
      (prune p).declarations =
      (p.declarations.zipIdx.filter fun (d, k) => decide (KeptForUse p k d)).map
        fun (d, k) => countedUse p.literals (prune p).functions p.declarations k d := by
  refine ⟨fun f hf w hw hvisible hdeclared => ?_, fun f hf w hw hdeclared => ?_,
    fun d hd v hv w hw hdeclared => ?_, declarations_prune p⟩
  · exact declared_of_inUse hdeclared fun _ _ _ _ => .inl (.word hf hw hvisible)
  · exact declared_of_inUse hdeclared fun _ _ _ _ => .inl (.event hf hw)
  · -- the value counts for every declaration but its own, which stays anyway
    rw [declarations_prune] at hd
    obtain ⟨⟨d₀, j⟩, hmem, rfl⟩ := List.mem_map.1 hd
    obtain ⟨hmem, hkept⟩ := List.mem_filter.1 hmem
    have hd₀ := List.mk_mem_zipIdx_iff_getElem?.1 hmem
    refine declared_of_inUse hdeclared fun k d' hd' hname => ?_
    by_cases hj : j = k
    · subst hj
      obtain rfl := Option.some.inj (hd₀.symm.trans hd')
      exact .inr (mem_declarationNames_prune.2 ⟨j, d₀, hd₀, hname, of_decide_eq_true hkept⟩)
    · exact .inl (.value hd₀ hj hv hw)

/-- Two declarations of `x`, a variable event on `v`, values of `a` and `b` that name each other,
one of `s` that names itself, an `n` that its only user hides, and an `e` for a `d` that nothing
uses. -/
def usedProgram : Program where
  literals := ⟨["\"v\"".toList]⟩
  declarations := [
    { constant := true, array := false, type := "integer".toList, name := ['x'],
      value := some ['1'] },
    { constant := false, array := false, type := "integer".toList, name := ['x'], value := none },
    { constant := false, array := false, type := "real".toList, name := ['v'], value := none },
    { constant := false, array := false, type := "integer".toList, name := ['a'],
      value := some ['b'] },
    { constant := false, array := false, type := "integer".toList, name := ['b'],
      value := some ['a'] },
    { constant := false, array := false, type := "integer".toList, name := ['s'],
      value := some "s+1".toList },
    { constant := false, array := false, type := "integer".toList, name := ['n'], value := none },
    { constant := false, array := false, type := "integer".toList, name := ['d'],
      value := some ['e'] },
    { constant := false, array := false, type := "integer".toList, name := ['e'], value := none }]
  functions := [
    .new "main".toList "nothing".toList "nothing".toList
      "call F(x)\ncall TriggerRegisterVariableEvent(t,\x000\x00,EQUAL,1.)".toList,
    .new ['F'] "integer n".toList "nothing".toList "return n".toList,
    .new ['G'] "nothing".toList "nothing".toList "set d=s".toList]

theorem usedProgram_kept :
    (prune usedProgram).declarationNames = [['x'], ['v'], ['a'], ['b'], ['e']] ∧
      (∃ f ∈ (prune usedProgram).functions, (['x'] ∈ words f.body ∧ ['x'] ∉ f.scopedNames) ∧
        ['v'] ∈ Idiom.variableEvent.names usedProgram.literals f.body ∧
        ['x'] ∈ (prune usedProgram).declarationNames ∧
        ['v'] ∈ (prune usedProgram).declarationNames) ∧
      (∃ d ∈ (prune usedProgram).declarations, ∃ v ∈ d.value, ['b'] ∈ words v ∧
        ['b'] ∈ (prune usedProgram).declarationNames) := by
  obtain ⟨hwords, hevents, hvalues, -⟩ := declarations_kept_for_uses usedProgram
  obtain ⟨f, hf, hx, hv⟩ : ∃ f ∈ (prune usedProgram).functions,
      (['x'] ∈ words f.body ∧ ['x'] ∉ f.scopedNames) ∧
      ['v'] ∈ Idiom.variableEvent.names usedProgram.literals f.body := by decide +kernel
  obtain ⟨d, hd, v, hvalue, hb⟩ : ∃ d ∈ (prune usedProgram).declarations, ∃ v ∈ d.value,
      ['b'] ∈ words v := by
    decide +kernel
  refine ⟨by decide +kernel, ⟨f, hf, hx, hv, ?_, ?_⟩, d, hd, v, hvalue, hb, ?_⟩
  · exact hwords f hf _ hx.1 hx.2 (by decide)
  · exact hevents f hf _ hv (by decide)
  · exact hvalues d hd v hvalue _ hb (by decide)

end ScriptMinifier.Usage
