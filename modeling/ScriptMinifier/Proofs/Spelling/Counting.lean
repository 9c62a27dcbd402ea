import ScriptMinifier.Proofs.Spelling.Texts
import ScriptMinifier.Proofs.Usage.Callbacks
import ScriptMinifier.Proofs.Usage.Declared

/-! Counting and pruning a respelled program.

Two programs are `Respelled` if they differ in the spelling of names, and perhaps in how often their
functions are used. A new name may be one that the host looks up in a string, but then it finds no
respelled name there (`Quiet`), so the call graph of the second program has the edges of the first
and some to entries. The entries are roots anyway: the same functions are reached, and all but the
entries are called as often (`Respelled.countCalls`). Declarations are used as often as before, so
pruning takes away the same (`Respelled.prune`). -/
namespace ScriptMinifier

open Syntax (Declaration Function Native)
open Text (words replaceWords replacement)
open Usage
  (Idiom CallGraph calledNames countCalls countDeclarationUses entryNodes firstIndex? lastIndex?
    literalName?
  usedNames usesInFunctions usesInValues)

/-! ### Respelled programs -/

/-- A declaration with its names respelled. -/
def Syntax.Declaration.respell (g : Text → Option Text) (d : Declaration) : Declaration :=
  { d with name := replacement g d.name, value := d.value.map (replaceWords g) }

/-- Functions of which the second has its names respelled; the uses may differ. -/
structure Respells (g : Text → Option Text) (f f' : Function) : Prop where
  name : f'.name = replacement g f.name
  params : f'.params = f.params
  result : f'.result = f.result
  body : f'.body = replaceWords g f.body
  entry : f'.entry = f.entry

/-- Programs of which the second has its names respelled. -/
structure Respelled (g : Text → Option Text) (p p' : Program) : Prop where
  literals : p'.literals = p.literals
  natives : p'.natives = p.natives
  declarations : p'.declarations = p.declarations.map (Declaration.respell g)
  functions : List.Forall₂ (Respells g) p.functions p'.functions

/-- Functions that are used as often, unless they are entries. -/
def SameUses (f f' : Function) : Prop := f.entry = false → f'.uses = f.uses

/-- Where a new name is looked up in a string, no string gives a new name. -/
def Quiet (g : Text → Option Text) (ls : Literals) : Prop :=
  (∀ idiom : Idiom, Old g idiom.callee) ∨ ∀ n lit, ls.get? n = some lit →
    ∀ w ∈ literalName? lit, Old g w

/-- A declaration that can be respelled. -/
structure SuitsDeclaration (g : Text → Option Text) (d : Declaration) : Prop where
  named : g d.name ≠ none
  type : Outside g d.type
  value : ∀ v ∈ d.value, Respellable g v

/-- A function that can be respelled. -/
structure SuitsFunction (g : Text → Option Text) (f : Function) : Prop where
  entry : f.entry = true → Outside g f.name
  named : f.entry = false → g f.name ≠ none
  params : ∀ w ∈ words f.params, Outside g w
  result : Outside g f.result
  body : Respellable g f.body
  bound : ∀ x ∈ f.scopedNames, Outside g x
  idioms : ∀ idiom : Idiom, idiom.callee ∉ words f.body

/-- The words that a native is written with. -/
def Syntax.Native.ownWords (n : Native) : List Text :=
  n.name :: n.result :: n.params.flatMap fun q => [q.type, q.name]

/-- A program that can be respelled. -/
structure Suits (g : Text → Option Text) (p : Program) : Prop where
  declarations : ∀ d ∈ p.declarations, SuitsDeclaration g d
  functions : ∀ f ∈ p.functions, SuitsFunction g f
  natives : ∀ n ∈ p.natives, ∀ w ∈ n.ownWords, Outside g w
  quiet : Quiet g p.literals

/-- Every name in a program is one that the program gives. -/
structure Closed (g : Text → Option Text) (p : Program) : Prop where
  values : ∀ d ∈ p.declarations, ∀ v ∈ d.value, ∀ w ∈ words v, g w ≠ none → w ∈ p.declarationNames
  bodies : ∀ f ∈ p.functions, ∀ w ∈ words f.body, g w ≠ none → w ∈ p.declarationNames ∨
    w ∈ p.functionNames

variable {g : Text → Option Text} {p p' : Program} {f f' : Function}

namespace Suits

theorem old_functionNames (hg : Spelling g) (hp : Suits g p) : ∀ n ∈ p.functionNames, Old g n := by
  intro n hn
  obtain ⟨f, hf, rfl⟩ := List.mem_map.1 hn
  cases hentry : f.entry with
  | true => exact ((hp.functions f hf).entry hentry).old
  | false => exact hg.old_of_named ((hp.functions f hf).named hentry)

theorem old_declarationNames (hg : Spelling g) (hp : Suits g p) :
    ∀ n ∈ p.declarationNames, Old g n := by
  intro n hn
  obtain ⟨d, hd, rfl⟩ := List.mem_map.1 hn
  exact hg.old_of_named (hp.declarations d hd).named

/-- A part of a program suits as the program does, however it is counted. -/
theorem of_part {q : Program} (hp : Suits g p) (hliterals : q.literals = p.literals)
    (hnatives : q.natives = p.natives)
    (hdeclarations : ∀ d ∈ q.declarations, ∃ d₀ ∈ p.declarations, d = { d₀ with uses := d.uses })
    (hfunctions : ∀ f ∈ q.functions, ∃ f₀ ∈ p.functions, f = { f₀ with uses := f.uses }) :
      Suits g q where
  declarations := by
    intro d hd
    obtain ⟨d₀, hd₀, heq⟩ := hdeclarations d hd
    have h := hp.declarations d₀ hd₀
    rw [heq]
    exact ⟨h.named, h.type, h.value⟩
  functions := by
    intro f hf
    obtain ⟨f₀, hf₀, heq⟩ := hfunctions f hf
    have h := hp.functions f₀ hf₀
    rw [heq]
    exact ⟨h.entry, h.named, h.params, h.result, h.body, h.bound, h.idioms⟩
  natives := hnatives ▸ hp.natives
  quiet := hliterals ▸ hp.quiet

theorem countCalls (hp : Suits g p) : Suits g (countCalls p) := by
  refine hp.of_part rfl rfl (fun d hd => ⟨d, hd, rfl⟩) fun f hf => ?_
  obtain ⟨⟨f₀, k⟩, hmem, rfl⟩ := List.mem_map.1 hf
  exact ⟨f₀, List.fst_mem_of_mem_zipIdx hmem, rfl⟩

theorem dropFunctions (hp : Suits g p) : Suits g (Pruning.dropFunctions p) :=
  hp.of_part rfl rfl (fun d hd => ⟨d, hd, rfl⟩) fun f hf => ⟨f, List.mem_of_mem_filter hf, rfl⟩

theorem countDeclarationUses (hp : Suits g p) : Suits g (countDeclarationUses p) := by
  refine hp.of_part rfl rfl (fun d hd => ?_) fun f hf => ⟨f, hf, rfl⟩
  obtain ⟨⟨d₀, k⟩, hmem, rfl⟩ := List.mem_map.1 hd
  exact ⟨d₀, List.fst_mem_of_mem_zipIdx hmem, rfl⟩

theorem dropDeclarations (hp : Suits g p) : Suits g (Pruning.dropDeclarations p) :=
  hp.of_part rfl rfl (fun d hd => ⟨d, List.mem_of_mem_filter hd, rfl⟩) fun f hf => ⟨f, hf, rfl⟩

theorem prune (hp : Suits g p) : Suits g (Pruning.prune p) :=
  hp.countCalls.dropFunctions.countDeclarationUses.dropDeclarations

end Suits

/-! ### Looking up names -/

namespace Usage

theorem firstIndex?_map {h : Text → Text} {names : List Text} {w : Text}
    (hinj : ∀ n ∈ names, h n = h w → n = w) :
    firstIndex? (names.map h) (h w) = firstIndex? names w := by
  induction names with
  | nil => rfl
  | cons n rest ih =>
    rw [List.forall_mem_cons] at hinj
    have hbeq : (h n == h w) = (n == w) := by
      rw [Bool.eq_iff_iff, beq_iff_eq, beq_iff_eq]
      exact ⟨hinj.1, congrArg h⟩
    have hrest := ih hinj.2
    unfold firstIndex? at hrest ⊢
    rw [List.map_cons, List.findIdx?_cons, List.findIdx?_cons, hbeq, hrest]

theorem lastIndex?_map {h : Text → Text} {names : List Text} {w : Text}
    (hinj : ∀ n ∈ names, h n = h w → n = w) :
    lastIndex? (names.map h) (h w) = lastIndex? names w := by
  rw [lastIndex?, lastIndex?, ← List.map_reverse, List.length_map,
    firstIndex?_map fun n hn => hinj n (List.mem_reverse.1 hn)]

theorem lastIndex?_of_not_mem {names : List Text} {w : Text} (h : w ∉ names) :
    lastIndex? names w = none := by
  have hfirst : firstIndex? names.reverse w = none := by
    rw [firstIndex?, List.findIdx?_eq_none_iff]
    intro n hn
    rw [beq_eq_false_iff_ne]
    rintro rfl
    exact h (List.mem_reverse.1 hn)
  rw [lastIndex?, hfirst]
  rfl

theorem Idiom.idsIn_eq_nil {idiom : Idiom} {segs : List Text.Segment}
    (h : .word idiom.callee ∉ segs) : idiom.idsIn segs = [] := by
  induction segs with
  | nil => rfl
  | cons s rest ih =>
    rw [List.mem_cons, not_or] at h
    rw [idsIn, if_neg (Ne.symm h.1), ih h.2]
    rfl

theorem Idiom.ids_eq_nil {idiom : Idiom} {t : Text} (h : idiom.callee ∉ words t) :
    idiom.ids t = [] :=
  idsIn_eq_nil fun hmem => h (List.mem_filterMap.2 ⟨_, hmem, rfl⟩)

theorem Idiom.names_eq_nil {idiom : Idiom} {t : Text} (h : idiom.callee ∉ words t) (ls : Literals) :
    idiom.names ls t = [] := by
  rw [names, ids_eq_nil h]
  rfl

end Usage

/-- What a respelled body looks up in strings is no new name. -/
theorem Quiet.old {ls : Literals} (hg : Spelling g) (hquiet : Quiet g ls) {idiom : Idiom}
    {t w : Text}
    (ht : idiom.callee ∉ words t) (hw : w ∈ idiom.names ls (replaceWords g t)) : Old g w := by
  rcases hquiet with hcallee | hliteral
  · refine absurd hw ?_
    rw [Usage.Idiom.names_eq_nil fun hmem => ?_]
    · exact List.not_mem_nil
    rw [hg.words_replaceWords] at hmem
    obtain ⟨u, hu, heq⟩ := List.mem_map.1 hmem
    unfold replacement at heq
    cases hgu : g u with
    | none =>
      rw [hgu] at heq
      exact ht (heq ▸ hu)
    | some r =>
      rw [hgu] at heq
      exact hcallee idiom u (hgu.trans (congrArg some heq))
  · obtain ⟨lit, hlit, hname⟩ := List.mem_filterMap.1 hw
    obtain ⟨n, -, hn⟩ := List.mem_filterMap.1 hlit
    exact hliteral n lit hn w hname

/-! ### Calls -/

namespace Usage.CallGraph

variable {a b : CallGraph} {roots roots' : List Nat} {k : Nat}

theorem callees_of_none {p : Program} (h : p.functions[k]? = none) :
    (ofProgram p).callees k = [] := by
  rw [callees, ofProgram, List.getD_eq_getElem?_getD, List.getElem?_map, h]
  rfl

/-- Graphs of which the second has the calls of the first and more calls of roots. -/
structure Extends (a b : CallGraph) (roots : List Nat) : Prop where
  size : b.names.length = a.names.length
  bounded : ∀ node, ∀ k ∈ a.callees node, k < a.names.length
  known : ∀ k ∈ roots, k < a.names.length
  callees : ∀ node, ∃ extra, (∀ k ∈ extra, k ∈ roots) ∧ b.callees node = a.callees node ++ extra

/-- More calls of roots reach nothing new. -/
theorem Extends.mem_expansion_iff (h : a.Extends b roots) (hroots : ∀ k, k ∈ roots' ↔ k ∈ roots) :
    k ∈ b.expansion roots' ↔ k ∈ a.expansion roots := by
  constructor
  · refine fun hk => expansion_induction (P := (· ∈ a.expansion roots)) ?_ ?_ k hk
    · intro root hroot
      exact mem_expansion_of_root ((hroots root).1 hroot) (h.known root ((hroots root).1 hroot))
    · intro caller hcaller callee hcallee
      obtain ⟨extra, hextra, heq⟩ := h.callees caller
      rw [heq, List.mem_append] at hcallee
      rcases hcallee with hcallee | hcallee
      · exact mem_expansion_of_call hcaller hcallee (h.bounded caller callee hcallee)
      · exact mem_expansion_of_root (hextra callee hcallee) (h.known callee (hextra callee hcallee))
  · refine fun hk => expansion_induction (P := (· ∈ b.expansion roots')) ?_ ?_ k hk
    · intro root hroot
      exact mem_expansion_of_root ((hroots root).2 hroot) (h.size ▸ h.known root hroot)
    · intro caller hcaller callee hcallee
      obtain ⟨extra, -, heq⟩ := h.callees caller
      refine mem_expansion_of_call hcaller ?_ (h.size ▸ h.bounded caller callee hcallee)
      rw [heq]
      exact List.mem_append_left _ hcallee

theorem Extends.count_reachedCalls (h : a.Extends b roots) (hroots : ∀ k, k ∈ roots' ↔ k ∈ roots)
    (hk : k ∉ roots) :
    (b.reachedCalls roots').count k = (a.reachedCalls roots).count k := by
  have hperm : (b.expansion roots').Perm (a.expansion roots) :=
    (List.perm_ext_iff_of_nodup (nodup_expansion b roots') (nodup_expansion a roots)).2 fun _ =>
      h.mem_expansion_iff hroots
  have hcount : ∀ node, (b.callees node).count k = (a.callees node).count k := by
    intro node
    obtain ⟨extra, hextra, heq⟩ := h.callees node
    rw [heq, List.count_append, List.count_eq_zero.2 fun hmem => hk (hextra k hmem), Nat.add_zero]
  rw [reachedCalls, reachedCalls, (hperm.flatMap_right b.callees).count_eq, List.count_flatMap,
    List.count_flatMap]
  exact congrArg List.sum (List.map_congr_left fun node _ => hcount node)

end Usage.CallGraph

theorem forall₂_filter {α β : Type} {R : α → β → Prop} {xs : List α} {ys : List β}
    (h : List.Forall₂ R xs ys)
    {a : α → Bool} {b : β → Bool} (heq : ∀ x y, R x y → a x = b y) :
    List.Forall₂ R (xs.filter a) (ys.filter b) := by
  induction h with
  | nil => exact .nil
  | cons hxy _ ih =>
    rw [List.filter_cons, List.filter_cons, ← heq _ _ hxy]
    split
    · exact .cons hxy ih
    · exact ih

theorem forall₂_of_getElem? {α β : Type} {R : α → β → Prop} {xs : List α} {ys : List β}
    (hlength : xs.length = ys.length)
    (h : ∀ (k : Nat) x y, xs[k]? = some x → ys[k]? = some y → R x y) : List.Forall₂ R xs ys :=
  List.forall₂_of_length_eq_of_get hlength fun k hx hy =>
    h k _ _ (List.getElem?_eq_getElem hx) (List.getElem?_eq_getElem hy)

namespace Respelled

theorem members (h : Respelled g p p') :
    List.Forall₂ (fun f f' => f ∈ p.functions ∧ Respells g f f') p.functions p'.functions := by
  refine forall₂_of_getElem? h.functions.length_eq fun k f f' hf hf' => ?_
  obtain ⟨f'', hf'', hr⟩ := exists_getElem?_of_forall₂ h.functions hf
  obtain rfl := Option.some.inj (hf'.symm.trans hf'')
  exact ⟨List.mem_of_getElem? hf, hr⟩

theorem functionNames (h : Respelled g p p') :
    p'.functionNames = p.functionNames.map (replacement g) := by
  rw [Program.functionNames, map_eq_of_forall₂ h.functions fun f f' hf => hf.name,
    Program.functionNames, List.map_map]
  rfl

theorem declarationNames (h : Respelled g p p') :
    p'.declarationNames = p.declarationNames.map (replacement g) := by
  rw [Program.declarationNames, h.declarations, List.map_map, Program.declarationNames,
    List.map_map]
  rfl

theorem firstIndex? (hg : Spelling g) (hp : Suits g p) (h : Respelled g p p') {w : Text}
    (hw : Old g w) :
    firstIndex? p'.functionNames (replacement g w) = firstIndex? p.functionNames w := by
  rw [h.functionNames]
  exact Usage.firstIndex?_map fun n hn => hg.replacement_injective (hp.old_functionNames hg n hn) hw

theorem lastIndex? (hg : Spelling g) (hp : Suits g p) (h : Respelled g p p') {w : Text}
    (hw : Old g w) :
    lastIndex? p'.declarationNames (replacement g w) = lastIndex? p.declarationNames w := by
  rw [h.declarationNames]
  exact Usage.lastIndex?_map fun n hn => hg.replacement_injective
    (hp.old_declarationNames hg n hn) hw

theorem mem_entryNodes (hg : Spelling g) (hp : Suits g p) (h : Respelled g p p') {k : Nat} :
    k ∈ entryNodes p' ↔ k ∈ entryNodes p := by
  rw [Usage.mem_entryNodes, Usage.mem_entryNodes]
  constructor
  · rintro ⟨f', hf', hentry, hfirst⟩
    obtain ⟨f, hf, hr⟩ := exists_getElem?_of_forall₂ h.functions.flip hf'
    rw [hr.name, h.firstIndex? hg hp
      (hp.old_functionNames hg _ (List.mem_map_of_mem (List.mem_of_getElem? hf)))] at hfirst
    exact ⟨f, hf, hr.entry ▸ hentry, hfirst⟩
  · rintro ⟨f, hf, hentry, hfirst⟩
    obtain ⟨f', hf', hr⟩ := exists_getElem?_of_forall₂ h.functions hf
    refine ⟨f', hf', hr.entry.trans hentry, ?_⟩
    rw [hr.name, h.firstIndex? hg hp
      (hp.old_functionNames hg _ (List.mem_map_of_mem (List.mem_of_getElem? hf))), hfirst]

/-- The words of a respelled text name the same functions. -/
theorem filterMap_firstIndex? (hg : Spelling g) (hp : Suits g p) (h : Respelled g p p')
    {ws : List Text} (hws : ∀ w ∈ ws, Old g w) :
    (ws.map (replacement g)).filterMap (Usage.firstIndex? p'.functionNames) =
      ws.filterMap (Usage.firstIndex? p.functionNames) := by
  rw [List.filterMap_map]
  exact List.filterMap_congr fun w hw => h.firstIndex? hg hp (hws w hw)

/-- A name that is no new one and names a function of the respelled program names an entry. -/
theorem mem_entryNodes_of_old (hg : Spelling g) (hp : Suits g p) (h : Respelled g p p') {w : Text}
    (hw : Old g w) {k : Nat}
    (hk : Usage.firstIndex? p'.functionNames w = some k) : k ∈ entryNodes p := by
  obtain ⟨f', hf', hname⟩ := Usage.exists_function_at hk
  obtain ⟨f, hf, hr⟩ := exists_getElem?_of_forall₂ h.functions.flip hf'
  have hmem := List.mem_of_getElem? hf
  have hwname : w = replacement g f.name := (Usage.name_of_function? hname).symm.trans hr.name
  have hentry : f.entry = true := by
    by_contra hentry
    obtain ⟨r, hgr⟩ :=
      Option.ne_none_iff_exists'.1 ((hp.functions f hmem).named (by simpa using hentry))
    refine hw f.name ?_
    rw [hwname, hgr, replacement, hgr]
    rfl
  rw [hwname, h.firstIndex? hg hp (hp.old_functionNames hg _ (List.mem_map_of_mem hmem))] at hk
  exact Usage.mem_entryNodes.2 ⟨f, hf, hentry, hk⟩

/-- The call graph of a respelled program has the calls of the program, and more calls of
entries. -/
theorem extends_ofProgram (hg : Spelling g) (hp : Suits g p) (h : Respelled g p p') :
    (CallGraph.ofProgram p).Extends (CallGraph.ofProgram p') (entryNodes p) where
  size := by
    show p'.functionNames.length = p.functionNames.length
    rw [h.functionNames, List.length_map]
  bounded := by
    intro node k hk
    cases hf : p.functions[node]? with
    | none =>
      rw [Usage.CallGraph.callees_of_none hf] at hk
      cases hk
    | some f =>
      rw [Usage.callees_ofProgram hf] at hk
      obtain ⟨w, -, hw⟩ := List.mem_filterMap.1 hk
      exact Usage.firstIndex?_lt hw
  known := by
    intro k hk
    obtain ⟨f, -, -, hfirst⟩ := Usage.mem_entryNodes.1 hk
    exact Usage.firstIndex?_lt hfirst
  callees := by
    intro node
    cases hf : p.functions[node]? with
    | none =>
      have hf' : p'.functions[node]? = none := by
        rw [List.getElem?_eq_none_iff] at hf ⊢
        rwa [← h.functions.length_eq]
      refine ⟨[], fun k hk => absurd hk List.not_mem_nil, ?_⟩
      rw [Usage.CallGraph.callees_of_none hf, Usage.CallGraph.callees_of_none hf']
      rfl
    | some f =>
      obtain ⟨f', hf', hr⟩ := exists_getElem?_of_forall₂ h.functions hf
      have hsuits := hp.functions f (List.mem_of_getElem? hf)
      refine ⟨(Idiom.executeFunc.names p'.literals f'.body).filterMap
        (Usage.firstIndex? p'.functionNames), ?_, ?_⟩
      · intro k hk
        obtain ⟨w, hw, hk⟩ := List.mem_filterMap.1 hk
        rw [hr.body, h.literals] at hw
        exact h.mem_entryNodes_of_old hg hp (hp.quiet.old hg (hsuits.idioms _) hw) hk
      · rw [Usage.callees_ofProgram hf, Usage.callees_ofProgram hf', calledNames, calledNames,
          Usage.Idiom.names_eq_nil (hsuits.idioms _), List.append_nil, List.filterMap_append]
        congr 1
        rw [hr.body, hg.words_replaceWords, h.filterMap_firstIndex? hg hp hsuits.body.old]

end Respelled

theorem Usage.getElem?_countCalls (p : Program) (k : Nat) :
    (countCalls p).functions[k]? = p.functions[k]?.map fun f =>
      { f with uses := ((CallGraph.ofProgram p).reachedCalls (entryNodes p)).count k +
        if f.entry then 1 else 0 } := by
  cases hf : p.functions[k]? with
  | none =>
    rw [List.getElem?_eq_none_iff] at hf
    rw [Option.map_none, List.getElem?_eq_none_iff, Usage.countCalls, List.length_map,
      List.length_zipIdx]
    exact hf
  | some f =>
    have hlt : k < (CallGraph.ofProgram p).names.length := by
      rw [CallGraph.ofProgram, Program.functionNames, List.length_map]
      exact (List.getElem?_eq_some_iff.1 hf).1
    rw [Usage.countCalls, List.getElem?_map, List.getElem?_zipIdx, hf]
    simp only [Option.map_some, Nat.zero_add, CallGraph.counts, List.getD_eq_getElem?_getD,
      List.getElem?_map, List.getElem?_range hlt, Option.getD_some]

namespace Respelled

/-- Calls in a respelled program are counted as in the program, but for those of entries. -/
theorem countCalls (hg : Spelling g) (hp : Suits g p) (h : Respelled g p p') :
    Respelled g (countCalls p) (countCalls p') ∧
    List.Forall₂ (fun f f' => Respells g f f' ∧ SameUses f f')
      (Usage.countCalls p).functions (Usage.countCalls p').functions := by
  have hlength :
      (Usage.countCalls p).functions.length = (Usage.countCalls p').functions.length := by
    rw [Usage.countCalls, Usage.countCalls, List.length_map, List.length_map, List.length_zipIdx,
      List.length_zipIdx]
    exact h.functions.length_eq
  have hcounted : List.Forall₂ (fun f f' => Respells g f f' ∧ SameUses f f')
      (Usage.countCalls p).functions (Usage.countCalls p').functions := by
    refine forall₂_of_getElem? hlength fun k c c' hc hc' => ?_
    rw [Usage.getElem?_countCalls] at hc hc'
    obtain ⟨f, hf, rfl⟩ := Option.map_eq_some_iff.1 hc
    obtain ⟨f', hf', rfl⟩ := Option.map_eq_some_iff.1 hc'
    obtain ⟨f'', hf'', hr⟩ := exists_getElem?_of_forall₂ h.functions hf
    obtain rfl := Option.some.inj (hf'.symm.trans hf'')
    refine ⟨⟨hr.name, hr.params, hr.result, hr.body, hr.entry⟩, fun hentry => ?_⟩
    have hk : k ∉ entryNodes p := by
      intro hk
      obtain ⟨e, he, hent, -⟩ := Usage.mem_entryNodes.1 hk
      obtain rfl := Option.some.inj (hf.symm.trans he)
      rw [hent] at hentry
      cases hentry
    simp only [hr.entry]
    rw [(h.extends_ofProgram hg hp).count_reachedCalls (fun k => h.mem_entryNodes hg hp) hk]
  exact ⟨⟨h.literals, h.natives, h.declarations, hcounted.imp fun f f' hf => hf.1⟩, hcounted⟩

/-! ### Uses of declarations -/

theorem scopedNames (hg : Spelling g) (hf : SuitsFunction g f) (h : Respells g f f') :
    f'.scopedNames = f.scopedNames := by
  have hkept : ∀ w ∈ "local".toList :: "array".toList :: Syntax.datatypes, g w = none := fun w hw =>
    (hg.outside_of_mem (Spelling.mem_languageWords hw)).kept
  have hrecast : Recast g f.body f'.body := h.body ▸ Recast.replaceWords g f.body
  have hlocals := localNames_eq_of_recast hg.foreign hkept hrecast fun x hx =>
    (hf.bound x (List.mem_append_right _ hx)).kept
  rw [Function.scopedNames, Function.scopedNames, hlocals, Function.paramNames, Function.paramNames,
    h.params]

/-- The declarations of a respelled program have new names. -/
theorem not_old_of_mem_declarationNames (hp : Suits g p) (h : Respelled g p p') {w : Text}
    (hw : w ∈ p'.declarationNames) :
    ¬ Old g w := by
  rw [h.declarationNames] at hw
  obtain ⟨n, hn, rfl⟩ := List.mem_map.1 hw
  obtain ⟨d, hd, rfl⟩ := List.mem_map.1 hn
  obtain ⟨r, hr⟩ := Option.ne_none_iff_exists'.1 (hp.declarations d hd).named
  refine fun hold => hold d.name ?_
  rw [replacement, hr]
  rfl

/-- A word is hidden in a function if its new spelling is. -/
theorem replacement_mem_scopedNames (hg : Spelling g) (hf : SuitsFunction g f) {w : Text}
    (hw : Old g w) :
    replacement g w ∈ f.scopedNames ↔ w ∈ f.scopedNames := by
  constructor
  · intro hmem
    rwa [(hg.replacement_eq_iff (hf.bound _ hmem) hw).1 rfl]
  · intro hmem
    rwa [(hf.bound w hmem).replacement_eq]

/-- A respelled function uses the same declarations. -/
theorem filterMap_usedNames (hg : Spelling g) (hp : Suits g p) (h : Respelled g p p')
    (hf : SuitsFunction g f) (hr : Respells g f f') :
    (usedNames p'.literals f').filterMap (Usage.lastIndex? p'.declarationNames) =
      (usedNames p.literals f).filterMap (Usage.lastIndex? p.declarationNames) := by
  have hevents :
      (Idiom.variableEvent.names p'.literals f'.body).filterMap
        (Usage.lastIndex? p'.declarationNames) = [] := by
    rw [List.filterMap_eq_nil_iff]
    intro w hw
    rw [hr.body, h.literals] at hw
    exact Usage.lastIndex?_of_not_mem fun hmem =>
      h.not_old_of_mem_declarationNames hp hmem (hp.quiet.old hg (hf.idioms _) hw)
  rw [usedNames, usedNames, Usage.Idiom.names_eq_nil (hf.idioms _), List.append_nil,
    List.filterMap_append, hevents, List.append_nil, scopedNames hg hf hr, hr.body,
    hg.words_replaceWords, List.filter_map, List.filterMap_map]
  have hfilter : (words f.body).filter ((!f.scopedNames.contains ·) ∘ replacement g) =
      (words f.body).filter (!f.scopedNames.contains ·) := by
    refine List.filter_congr fun w hw => ?_
    simp [replacement_mem_scopedNames hg hf (hf.body.old w hw)]
  rw [hfilter]
  exact List.filterMap_congr fun w hw => h.lastIndex? hg hp
    (hf.body.old w (List.mem_of_mem_filter hw))

theorem suited (hp : Suits g p) (h : Respelled g p p') :
    List.Forall₂ (fun f f' => SuitsFunction g f ∧ Respells g f f') p.functions p'.functions :=
  h.members.imp fun f _ hf => ⟨hp.functions f hf.1, hf.2⟩

theorem usesInFunctions (hg : Spelling g) (hp : Suits g p) (h : Respelled g p p') :
    usesInFunctions p' = usesInFunctions p := by
  rw [Usage.usesInFunctions, Usage.usesInFunctions, List.flatMap_def, List.flatMap_def]
  exact congrArg List.flatten
    (map_eq_of_forall₂ (h.suited hp) fun f f' hf => h.filterMap_usedNames hg hp hf.1 hf.2)

theorem words_value (hg : Spelling g) (d : Declaration) :
    words ((d.respell g).value.getD []) = (words (d.value.getD [])).map (replacement g) := by
  rw [Declaration.respell]
  cases d.value with
  | none => rw [Option.map_none, Option.getD_none, Text.words_nil]; rfl
  | some v => exact hg.words_replaceWords v

theorem usesInValues (hg : Spelling g) (hp : Suits g p) (h : Respelled g p p') :
    usesInValues p' = usesInValues p := by
  rw [Usage.usesInValues, Usage.usesInValues, h.declarations, List.zipIdx_map, List.flatMap_map]
  refine List.flatMap_congr fun ⟨d, k⟩ hd => ?_
  have hsuits := hp.declarations d (List.fst_mem_of_mem_zipIdx hd)
  have hindex : ∀ w ∈ words (d.value.getD []),
      Usage.lastIndex? p'.declarationNames (replacement g w) =
        Usage.lastIndex? p.declarationNames w := by
    intro w hw
    refine h.lastIndex? hg hp ?_
    cases hvalue : d.value with
    | none =>
      rw [hvalue, Option.getD_none, Text.words_nil] at hw
      cases hw
    | some v =>
      rw [hvalue] at hw
      exact (hsuits.value v hvalue).old w hw
  have hnames : ((words (d.value.getD [])).map (replacement g)).filterMap
      (Usage.lastIndex? p'.declarationNames) =
      (words (d.value.getD [])).filterMap (Usage.lastIndex? p.declarationNames) :=
    List.filterMap_map.trans (List.filterMap_congr hindex)
  show ((words ((d.respell g).value.getD [])).filterMap _).filter _ = _
  rw [words_value hg, hnames]
  rfl

/-- Declarations of a respelled program are used as often. -/
theorem countDeclarationUses (hg : Spelling g) (hp : Suits g p) (h : Respelled g p p') :
    Respelled g (countDeclarationUses p) (countDeclarationUses p') where
  literals := h.literals
  natives := h.natives
  declarations := by
    rw [Usage.countDeclarationUses, Usage.countDeclarationUses, h.usesInFunctions hg hp,
      h.usesInValues hg hp]
    show (p'.declarations.zipIdx.map _) = (p.declarations.zipIdx.map _).map _
    rw [h.declarations, List.zipIdx_map, List.map_map, List.map_map]
    rfl
  functions := h.functions

/-! ### Pruning -/

theorem keepsFunction_eq (h : Respells g f f') (huses : SameUses f f') :
    Pruning.keepsFunction f = Pruning.keepsFunction f' := by
  rw [Pruning.keepsFunction, Pruning.keepsFunction, h.entry]
  cases hentry : f.entry with
  | true => rfl
  | false => rw [huses hentry]

theorem dropFunctions (h : Respelled g p p')
    (huses : List.Forall₂ (fun f f' => Respells g f f' ∧ SameUses f f') p.functions p'.functions) :
    Respelled g (Pruning.dropFunctions p) (Pruning.dropFunctions p') ∧
      (Pruning.droppedFunctions p').length = (Pruning.droppedFunctions p).length := by
  have hkept := forall₂_filter huses fun f f' hf => keepsFunction_eq hf.1 hf.2
  have hdropped := forall₂_filter huses fun f f' hf => congrArg (!·) (keepsFunction_eq hf.1 hf.2)
  exact ⟨⟨h.literals, h.natives, h.declarations, hkept.imp fun f f' hf => hf.1⟩,
    hdropped.length_eq.symm⟩

theorem dropDeclarations (h : Respelled g p p') :
    Respelled g (Pruning.dropDeclarations p) (Pruning.dropDeclarations p') ∧
      Pruning.tally (Pruning.droppedDeclarations p') = Pruning.tally
      (Pruning.droppedDeclarations p) := by
  refine ⟨⟨h.literals, h.natives, ?_, h.functions⟩, ?_⟩
  · rw [Pruning.dropDeclarations, Pruning.dropDeclarations, h.declarations, List.filter_map]
    rfl
  · rw [Pruning.droppedDeclarations, Pruning.droppedDeclarations, h.declarations, List.filter_map,
      Pruning.tally, List.countP_map, List.countP_map]
    rfl

/-- Pruning a respelled program takes away what it takes from the program. -/
theorem prune (hg : Spelling g) (hp : Suits g p) (h : Respelled g p p') :
    Respelled g (Pruning.prune p) (Pruning.prune p') ∧ Pruning.report p' = Pruning.report p := by
  obtain ⟨hcalls, huses⟩ := h.countCalls hg hp
  obtain ⟨hfunctions, hdropped⟩ := hcalls.dropFunctions huses
  obtain ⟨hdeclarations, htally⟩ :=
    (hfunctions.countDeclarationUses hg hp.countCalls.dropFunctions).dropDeclarations
  refine ⟨hdeclarations, ?_⟩
  show Pruning.Report.mk _ (Pruning.tally _).1 (Pruning.tally _).2 = Pruning.Report.mk _
    (Pruning.tally _).1 (Pruning.tally _).2
  rw [Pruning.countedCalls, hdropped, Pruning.countedUses, Pruning.countedCalls, htally]
  rfl

end Respelled

/-! ### What stays declared -/

/-- A name that the value of a declaration that stays holds stays declared. -/
theorem mem_declarationNames_prune {p : Program} {d : Declaration} {v w : Text}
    (hd : d ∈ (Pruning.prune p).declarations)
    (hv : v ∈ d.value) (hw : w ∈ words v) (hdeclared : w ∈ p.declarationNames) :
    w ∈ (Pruning.prune p).declarationNames := by
  obtain ⟨hcounted, -⟩ := List.mem_filter.1 hd
  obtain ⟨⟨d₀, k⟩, hk, rfl⟩ := List.mem_map.1 hcounted
  rw [List.mk_mem_zipIdx_iff_getElem?] at hk
  obtain ⟨j, hj, hname⟩ := Usage.exists_lastIndex? hdeclared
  rw [Program.declarationNames, List.getElem?_map, Option.map_eq_some_iff] at hname
  obtain ⟨e, he, rfl⟩ := hname
  by_cases hjk : j = k
  · subst hjk
    obtain rfl := Option.some.inj (hk.symm.trans he)
    exact List.mem_map.2 ⟨_, hd, rfl⟩
  · have huse : j ∈ usesInValues (Pruning.dropFunctions (countCalls p)) := by
      refine List.mem_flatMap.2
        ⟨(d₀, k), List.mk_mem_zipIdx_iff_getElem?.2 hk, List.mem_filter.2 ⟨?_, by simpa using hjk⟩⟩
      refine List.mem_filterMap.2 ⟨e.name, ?_, hj⟩
      rwa [Option.mem_def.1 hv]
    have hstays := mem_countDeclarationUses (p := Pruning.dropFunctions (countCalls p)) he
    refine List.mem_map.2 ⟨_, List.mem_filter.2 ⟨hstays, decide_eq_true ?_⟩, rfl⟩
    exact List.count_pos_iff.2 (List.mem_append_right _ huse)

/-- Pruning leaves no name without what it names. -/
theorem Closed.prune (hnames : p.functionNames.Nodup) (hp : Suits g p) (h : Closed g p) :
    Closed g (Pruning.prune p) where
  values := by
    intro d hd v hv w hw hnamed
    obtain ⟨hcounted, -⟩ := List.mem_filter.1 hd
    obtain ⟨⟨d₀, k⟩, hk, rfl⟩ := List.mem_map.1 hcounted
    exact mem_declarationNames_prune hd hv hw
      (h.values d₀ (List.fst_mem_of_mem_zipIdx hk) v hv w hw hnamed)
  bodies := by
    intro f hf w hw hnamed
    obtain ⟨k, f₀, hf₀, rfl, -⟩ := Usage.mem_retained.1 hf
    have hmem := List.mem_of_getElem? hf₀
    rcases h.bodies f₀ hmem w hw hnamed with hdeclared | hfunction
    · have hvisible : w ∉ (Usage.counted p k f₀).scopedNames := fun hbound =>
        hnamed ((hp.functions f₀ hmem).bound w hbound).kept
      have hused : w ∈ usedNames p.literals (Usage.counted p k f₀) :=
        List.mem_append_left _ (List.mem_filter.2 ⟨hw, by simpa using hvisible⟩)
      obtain ⟨d, -, -, hd⟩ := declares_prune hf hused hdeclared
      exact .inl hd.mem_declarationNames
    · obtain ⟨e, he, rfl⟩ := List.mem_map.1 hfunction
      obtain ⟨uses, hstays⟩ := Usage.stays_of_called hnames hf he (List.mem_append_left _ hw)
      exact .inr (List.mem_map.2 ⟨_, hstays, rfl⟩)

end ScriptMinifier
