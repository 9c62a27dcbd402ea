import ScriptMinifier.Proofs.Output.FinalPrograms
import ScriptMinifier.Proofs.Output.ReadLocals
import ScriptMinifier.Proofs.Usage.Unused

/-! Uses in the program that is read again.

A second run reads what the first has written. Its functions and declarations are those that were
named, in order and under their new names (`FunctionAgain`, `DeclarationAgain`). A use that lasts is
a use there: calls that last lead to the same functions (`reached_of_lasting`), and a declaration
that is used for good is in use (`inUse_of_lastingUse`). -/
namespace ScriptMinifier.Output

open Literal (indexLimit)
open Naming (newName)
open Pruning (prune)
open Syntax (Declaration Function entryNames)
open Text (isIdent words)
open Usage (Called InUse KeptForUse Lasting LastingTruth LastingUse LastsAt LastsIn Reached
  namesIn unused)

/-- A program that is named, and what a second run reads where the first has written it. -/
structure ReadAgain (p q : Program) : Prop where
  prepared : p.Prepared
  limit : p.literals.size ≤ indexLimit
  limitAgain : q.literals.size ≤ indexLimit
  sealed : (finished p).program.Sealed
  read : ReadFrom (finished p).program q

/-- What a second run reads for a function. -/
structure FunctionAgain (p q : Program) (f f' : Function) : Prop where
  name : f'.name = newName p f.name
  entry : f'.entry = entryNames.contains f'.name
  cites : ∀ kind w line, isIdent w = true → LastsIn p f kind w line →
    citedName p kind w ∈ namesIn q.literals f'.body kind
  lower : f.PlainLocals → ∀ x ∈ f'.scopedNames, x.any Char.isUpper = false

/-- What a second run reads for a declaration. -/
structure DeclarationAgain (p : Program) (d d' : Declaration) : Prop where
  name : d'.name = newName p d.name
  constant : d'.constant = d.constant
  value : ∀ v ∈ d.value, ∀ w, isIdent w = true → Text.Stands w v →
    ∃ v' ∈ d'.value, (if d.constant then newName p w else finalName p w) ∈ words v'

open Classical in
/-- How many functions do not last, and how many constants and globals have no use that does. -/
noncomputable def unlasting (p : Program) : Pruning.Report where
  functions := p.functions.zipIdx.countP fun (f, k) => decide ¬ LastsAt p k f
  constants :=
    ((finished p).extractions.countP fun x => decide ¬ LastingTruth p x.word) +
      p.declarations.zipIdx.countP fun (d, k) =>
        d.constant && decide ¬ LastingUse p (fun j _ => j ≠ k) d.name
  globals := p.declarations.zipIdx.countP fun (d, k) =>
    !d.constant && decide ¬ LastingUse p (fun j _ => j ≠ k) d.name

/-- Of two lists of one length, no more are counted of the one than of the other. -/
theorem countP_zipIdx_le {α β : Type} {xs : List α} {ys : List β} {P : α × Nat → Bool}
    {Q : β × Nat → Bool} {m n : Nat} (hlength : ys.length = xs.length)
    (h : ∀ k x y, xs[k]? = some x → ys[k]? = some y → Q (y, n + k) = true → P (x, m + k) = true) :
    (ys.zipIdx n).countP Q ≤ (xs.zipIdx m).countP P := by
  induction xs generalizing ys m n with
  | nil =>
    rw [List.length_eq_zero_iff.1 hlength]
    exact Nat.le_refl 0
  | cons x xs ih =>
    obtain ⟨y, ys, rfl⟩ := List.exists_cons_of_length_eq_add_one hlength
    have hrest : (ys.zipIdx (n + 1)).countP Q ≤ (xs.zipIdx (m + 1)).countP P := by
      refine ih (Nat.succ.inj hlength) fun k x' y' hx hy => ?_
      have hk := h (k + 1) x' y' hx hy
      rwa [Nat.add_assoc, Nat.add_comm 1 k, Nat.add_assoc, Nat.add_comm 1 k]
    have hfirst : Q (y, n) = true → P (x, m) = true := h 0 x y rfl rfl
    rw [List.zipIdx_cons, List.zipIdx_cons, List.countP_cons, List.countP_cons]
    refine Nat.add_le_add hrest ?_
    split
    · rename_i hQ
      rw [if_pos (hfirst hQ)]
    · exact Nat.zero_le _

namespace ReadAgain

variable {p q : Program} {k : Nat} {name w : Text} {f : Function}

/-! ### Functions -/

theorem exists_function (h : ReadAgain p q) (hf : p.functions[k]? = some f) :
    ∃ f', q.functions[k]? = some f' ∧ FunctionAgain p q f f' := by
  obtain ⟨f₁, g, hf₁, hcarried⟩ := exists_carried h.prepared hf
  obtain ⟨f', hf', hread⟩ := exists_getElem?_of_forall₂ h.read.functions hf₁
  have hbody := (h.sealed.functions f₁ (List.mem_of_getElem? hf₁)).body
  obtain ⟨hname, hentry⟩ : f'.name = f₁.name ∧ f'.entry = entryNames.contains f'.name := by
    obtain ⟨lines, -, rfl⟩ := hread
    exact ⟨rfl, rfl⟩
  refine ⟨f', hf', hname.trans hcarried.name, hentry, fun kind w line hw hlasts => ?_,
    fun hplain x hx => ?_⟩
  · obtain ⟨line', hline', hcites⟩ :=
      hcarried.exists_cites h.prepared h.limit (List.mem_of_getElem? hf) hw hlasts
    exact hread.mem_namesIn hbody h.limitAgain hline' (isIdent_citedName kind hw) hcites
  · exact hcarried.lower x
      (hread.scopedNames_subset hbody (hcarried.plainLocals hplain) hcarried.spaced hx)

theorem functionNames (h : ReadAgain p q) : q.functionNames = p.functionNames.map (newName p) := by
  rw [← functionNames_finished]
  refine map_eq_of_forall₂ h.read.functions fun f f' hread => ?_
  obtain ⟨lines, -, rfl⟩ := hread
  rfl

/-- A name that no function before a position has is new there under its new name. -/
theorem not_mem_take (h : ReadAgain p q) (hname : name ∈ p.functionNames)
    (hfirst : name ∉ p.functionNames.take k) : newName p name ∉ q.functionNames.take k := by
  rw [h.functionNames, ← List.map_take]
  intro hmem
  obtain ⟨other, hother, heq⟩ := List.mem_map.1 hmem
  have hsame := Naming.newName_injective
    (Naming.mem_programWords_of_function (List.take_subset k _ hother))
    (Naming.mem_programWords_of_function hname) heq
  exact hfirst (hsame ▸ hother)

/-- A name stands for the function that is read where it stood for one. -/
theorem exists_function? (h : ReadAgain p q) (hf : p.function? name = some f) :
    ∃ f', q.function? (newName p name) = some f' ∧ FunctionAgain p q f f' := by
  obtain ⟨k, hk, hf⟩ := Usage.function?_eq_some.1 hf
  obtain ⟨hname, hfirst⟩ := Usage.firstIndex?_eq_some.1 hk
  obtain ⟨f', hf', hagain⟩ := h.exists_function hf
  refine ⟨f', Usage.function?_eq_some.2 ⟨k, Usage.firstIndex?_eq_some.2 ⟨?_, ?_⟩, hf'⟩, hagain⟩
  · rw [h.functionNames, List.getElem?_map, hname]
    rfl
  · exact h.not_mem_take (List.mem_of_getElem? hname) hfirst

/-- A call that lasts is a call site. -/
theorem callSites_pos (h : ReadAgain p q) {f' g : Function} (hagain : FunctionAgain p q f f')
    {kind : Option Usage.Idiom} (hkind : kind ≠ some .variableEvent)
    (hg : p.function? name = some g) {line : Text} (hlasts : LastsIn p f kind name line) :
    0 < Usage.callSites q.literals f' (newName p name) := by
  have hmem : name ∈ p.functionNames := by
    rw [← Usage.name_of_function? hg]
    exact List.mem_map_of_mem (Usage.mem_of_function? hg)
  have hcited := hagain.cites kind name line (h.prepared.named.functions name hmem) hlasts
  rw [citedName_of_name h.prepared (.inr hmem)] at hcited
  refine Usage.callSites_pos.2 (List.mem_append.2 ?_)
  match kind with
  | none => exact .inl hcited
  | some .executeFunc => exact .inr hcited
  | some .variableEvent => exact absurd rfl hkind

/-- An entry stays one, unless a declaration has its name. -/
theorem entry_again (h : ReadAgain p q) (hf : f ∈ p.functions) (hentry : f.entry = true)
    (hdeclared : f.name ∉ p.declarationNames) {f' : Function} (hagain : FunctionAgain p q f f') :
    f'.entry = true := by
  rw [hagain.entry, hagain.name, h.prepared.newName_entry hf hentry hdeclared,
    ← h.prepared.entries f hf, hentry]

/-- Calls that last lead to the functions that they led to. -/
theorem reached_of_lasting (h : ReadAgain p q) (hlasting : Lasting p name) :
    Reached q (newName p name) := by
  induction hlasting with
  | @entry name f hf hentry hdeclared =>
    obtain ⟨f', hf', hagain⟩ := h.exists_function? hf
    have hmem := Usage.mem_of_function? hf
    have hname := Usage.name_of_function? hf
    rw [← hname] at hdeclared
    exact .entry hf' (h.entry_again hmem hentry hdeclared hagain)
  | @call caller name line f g kind _ hf hg hkind hlasts ih =>
    obtain ⟨f', hf', hagain⟩ := h.exists_function? hf
    obtain ⟨g', hg', -⟩ := h.exists_function? hg
    exact .call ih hf' hg' (h.callSites_pos hagain hkind hg hlasts)

/-- A function that lasts stays. -/
theorem stays_of_lastsAt (h : ReadAgain p q) (hf : p.functions[k]? = some f)
    (hlasts : LastsAt p k f)
    {f' : Function} (hagain : FunctionAgain p q f f') : f'.entry = true ∨ Called q k f' := by
  have hmem := List.mem_of_getElem? hf
  have hname : f.name ∈ p.functionNames := List.mem_map_of_mem hmem
  rcases hlasts with ⟨hentry, hdeclared⟩ | ⟨hfirst, hlasting⟩
  · exact .inl (h.entry_again hmem hentry hdeclared hagain)
  · cases hlasting with
    | @entry _ g hg hentry hdeclared =>
      refine .inl (h.entry_again hmem ?_ hdeclared hagain)
      rw [h.prepared.entries f hmem, ← Usage.name_of_function? hg,
        ← h.prepared.entries g (Usage.mem_of_function? hg), hentry]
    | @call caller _ line g _ kind hcaller hg hf' hkind hlasts =>
      obtain ⟨g', hg', hagain'⟩ := h.exists_function? hg
      refine .inr ⟨?_, newName p caller, g', h.reached_of_lasting hcaller, hg', ?_⟩
      · rw [hagain.name]
        exact h.not_mem_take hname hfirst
      · rw [hagain.name]
        exact h.callSites_pos hagain' hkind hf' hlasts

/-! ### Declarations -/

theorem exists_declaration (h : ReadAgain p q) {d : Declaration}
    (hd : p.declarations[k]? = some d) :
    ∃ d', q.declarations[(finished p).extractions.length + k]? = some d' ∧
    DeclarationAgain p d d' := by
  obtain ⟨d₁, g, hd₁, hcarried⟩ := exists_carriedDeclaration hd
  obtain ⟨d', hd', hread⟩ := exists_getElem?_of_forall₂ h.read.declarations hd₁
  obtain ⟨hname, hconstant⟩ : d'.name = d₁.name ∧ d'.constant = d₁.constant := by
    obtain ⟨v, -, rfl⟩ := hread
    exact ⟨rfl, rfl⟩
  refine ⟨d', hd', hname.trans hcarried.name, hconstant.trans hcarried.constant,
    fun v hv w hw hstands => ?_⟩
  have hvalue : Text.replaceWords g v ∈ d₁.value := by
    rw [hcarried.value]
    exact Option.mem_map_of_mem _ hv
  have hsealed := (h.prepared.sealed.declarations d (List.mem_of_getElem? hd)).value v hv
  have hsealed₁ := (h.sealed.declarations d₁ (List.mem_of_getElem? hd₁)).value _ hvalue
  have hword : Text.replaceWords g w = if d.constant then newName p w else finalName p w := by
    rw [Text.replaceWords_of_word (Text.ne_nil_of_isIdent hw) (Text.isWordChar_of_isIdent hw)]
    exact hcarried.words w
  have hident : isIdent (Text.replaceWords g w) = true := by
    rw [Text.replaceWords_of_word (Text.ne_nil_of_isIdent hw) (Text.isWordChar_of_isIdent hw)]
    exact hcarried.idents.getD hw
  have hstands' := hstands.replaceWords hcarried.idents.smooth (Text.exists_free_of_isIdent hw)
    (.of_all_isWordChar (Text.isWordChar_of_isIdent hw)) hsealed
  rw [← hword]
  exact hread.exists_value hvalue hsealed₁ hident hstands'

theorem declarationNames (h : ReadAgain p q) : q.declarationNames =
    ((finished p).extractions.map Extraction.name).reverse ++ p.declarationNames.map
    (newName p) := by
  have hnames : q.declarationNames = (finished p).program.declarationNames := by
    refine map_eq_of_forall₂ h.read.declarations fun d d' hread => ?_
    obtain ⟨v, -, rfl⟩ := hread
    rfl
  have hnewName : ∀ d : Declaration, ((Naming.renameDeclaration
      (Naming.newNames p (Naming.Pool.new .globals)) d).replaceOpen (truthNames p)).name =
        newName p d.name := by
    intro d
    rw [Declaration.replaceOpen]
    split <;> rfl
  rw [hnames, Program.declarationNames, declarations_finished, List.map_append, List.map_reverse,
    List.map_map, List.map_map, Program.declarationNames, List.map_map]
  exact congrArg₂ _ rfl (List.map_congr_left fun d _ => hnewName d)

theorem nodup_declarationNames (h : ReadAgain p q) : q.declarationNames.Nodup := by
  have hfresh := fresh_finished p
  rw [h.declarationNames]
  refine List.nodup_append.2 ⟨List.nodup_reverse.2 hfresh.names, ?_, ?_⟩
  · refine List.Nodup.map_on (fun u hu v hv heq => ?_) h.prepared.declared
    exact Naming.newName_injective (Naming.mem_programWords_of_declared hu)
      (Naming.mem_programWords_of_declared hv) heq
  · rintro _ htruth _ hname rfl
    obtain ⟨x, hx, rfl⟩ := List.mem_map.1 (List.mem_reverse.1 htruth)
    refine hfresh.apart x hx (List.mem_append_right _ ?_)
    rw [List.map_append]
    exact List.mem_append_left _ hname

/-- No declaration that follows has the same name. -/
theorem not_mem_drop (h : ReadAgain p q) {d' : Declaration} (hd' : q.declarations[k]? = some d') :
    d'.name ∉ q.declarationNames.drop (k + 1) := by
  have hname : q.declarationNames[k]? = some d'.name := by
    rw [Program.declarationNames, List.getElem?_map, hd']
    rfl
  intro hmem
  obtain ⟨j, hj⟩ := List.mem_iff_getElem?.1 hmem
  rw [List.getElem?_drop] at hj
  have hsame := (List.getElem?_inj (List.getElem?_eq_some_iff.1 hj).1 h.nodup_declarationNames).1
    (hj.trans hname.symm)
  omega

/-! ### Uses -/

/-- A function that lasts is among those that the second run keeps. -/
theorem mem_prune_of_lastsAt (h : ReadAgain p q) (hf : p.functions[k]? = some f)
    (hlasts : LastsAt p k f) :
    ∃ f', Usage.counted q k f' ∈ (prune q).functions ∧ FunctionAgain p q f f' := by
  obtain ⟨f', hf', hagain⟩ := h.exists_function hf
  refine ⟨f', ?_, hagain⟩
  rw [Usage.functions_prune]
  exact Usage.mem_retained.2 ⟨k, f', hf', rfl, h.stays_of_lastsAt hf hlasts hagain⟩

/-- What is used for good is in use. A name with an upper-case letter is hidden by no local. -/
theorem inUse_of_lastingUse (h : ReadAgain p q) {values : Nat → Declaration → Prop} {i : Nat}
    (hident : isIdent name = true) (hupper : (finalName p name).any Char.isUpper = true)
    (hvalues : ∀ j d, values j d → (finished p).extractions.length + j ≠ i ∧
      (if d.constant then newName p name else finalName p name) = finalName p name)
    (huse : LastingUse p values name) :
    InUse q.literals (prune q).functions q.declarations i (finalName p name) := by
  cases huse with
  | word hf hk plain lasts =>
    obtain ⟨f', hmem, hagain⟩ := h.mem_prune_of_lastsAt hf hk
    refine .word hmem (hagain.cites none name _ hident lasts) fun hbound => ?_
    have hlower := hagain.lower plain _ hbound
    rw [hupper] at hlower
    cases hlower
  | event hf hk declared lasts =>
    obtain ⟨f', hmem, hagain⟩ := h.mem_prune_of_lastsAt hf hk
    have hcited := hagain.cites (some .variableEvent) name _ hident lasts
    rw [finalName_of_name h.prepared (.inl declared)]
    exact .event hmem hcited
  | @value j d v hd hj hv stands =>
    obtain ⟨d', hd', hagain⟩ := h.exists_declaration hd
    obtain ⟨hne, hname⟩ := hvalues j d hj
    obtain ⟨v', hv', hword⟩ := hagain.value v hv name hident stands
    rw [hname] at hword
    exact .value hd' hne hv' hword

/-- A declaration that is used for good stays. -/
theorem keptForUse_declaration (h : ReadAgain p q) {d d' : Declaration}
    (hd : p.declarations[k]? = some d)
    (hd' : q.declarations[(finished p).extractions.length + k]? = some d')
    (hagain : DeclarationAgain p d d') (huse : LastingUse p (fun j _ => j ≠ k) d.name) :
    KeptForUse q ((finished p).extractions.length + k) d' := by
  have hdeclared : d.name ∈ p.declarationNames := List.mem_map_of_mem (List.mem_of_getElem? hd)
  have hfinal := finalName_of_name h.prepared (.inl hdeclared)
  have hupper : (finalName p d.name).any Char.isUpper = true := by
    rw [hfinal]
    exact Naming.any_isUpper_newName (Naming.mem_globalOrder_of_declared hdeclared)
  refine ⟨h.not_mem_drop hd', ?_⟩
  rw [hagain.name, ← hfinal]
  refine h.inUse_of_lastingUse (h.prepared.named.declarations _ hdeclared) hupper
    (fun j d₁ hj => ?_) huse
  refine ⟨fun heq => hj (by omega), ?_⟩
  rw [hfinal, ite_self]

/-- The constant of a truth value, as it is read. -/
theorem exists_truth (h : ReadAgain p q) {x : Extraction}
    (hx : (finished p).extractions.reverse[k]? = some x) :
    ∃ d', q.declarations[k]? = some d' ∧ d'.name = x.name ∧ d'.constant = true := by
  have hk := (List.getElem?_eq_some_iff.1 hx).1
  have hd : (finished p).program.declarations[k]? = some x.constant := by
    rw [declarations_finished, List.getElem?_append_left (by simpa using hk), ← List.map_reverse,
      List.getElem?_map, hx]
    rfl
  obtain ⟨d', hd', v, -, rfl⟩ := exists_getElem?_of_forall₂ h.read.declarations hd
  exact ⟨_, hd', rfl, rfl⟩

/-- The constant of a truth value that is used for good stays. -/
theorem keptForUse_truth (h : ReadAgain p q) {x : Extraction} {d' : Declaration}
    (hx : (finished p).extractions.reverse[k]? = some x) (hd' : q.declarations[k]? = some d')
    (hname : d'.name = x.name) (huse : LastingTruth p x.word) : KeptForUse q k d' := by
  have hmem : x ∈ (finished p).extractions := List.mem_reverse.1 (List.mem_of_getElem? hx)
  have hfinal : finalName p x.word = x.name :=
    finalName_truth hmem huse.undeclared huse.unnamed
  have hwords : ∀ w ∈ truthWords, isIdent w = true := by decide
  have hk : k < (finished p).extractions.length := by
    have hlt := (List.getElem?_eq_some_iff.1 hx).1
    rwa [List.length_reverse] at hlt
  refine ⟨h.not_mem_drop hd', ?_⟩
  rw [hname, ← hfinal]
  refine h.inUse_of_lastingUse (hwords _ (word_mem_truthWords hmem)) ?_ (fun j d hj => ?_) huse.use
  · rw [hfinal]
    exact any_isUpper_truth hmem
  · refine ⟨by omega, ?_⟩
    rw [hj]
    exact if_neg Bool.false_ne_true

/-! ### The report -/

theorem length_functions (h : ReadAgain p q) : q.functions.length = p.functions.length := by
  have hlength := congrArg List.length h.functionNames
  simpa only [Program.functionNames, List.length_map] using hlength

theorem length_declarations (h : ReadAgain p q) :
    q.declarations.length = (finished p).extractions.length + p.declarations.length := by
  have hlength := congrArg List.length h.declarationNames
  simpa only [Program.declarationNames, List.length_append, List.length_reverse,
    List.length_map] using hlength

open Classical in
/-- The functions that nothing calls are no more than those that do not last. -/
theorem functions_unused_le (h : ReadAgain p q) :
    (unused q).functions ≤ (unlasting p).functions := by
  refine countP_zipIdx_le h.length_functions fun k f f' hf hf' hunused => ?_
  rw [decide_eq_true_iff] at hunused ⊢
  intro hlasts
  obtain ⟨g, hg, hagain⟩ := h.exists_function hf
  obtain rfl := Option.some.inj (hf'.symm.trans hg)
  rw [Nat.zero_add] at hunused hlasts
  exact hunused (h.stays_of_lastsAt hf hlasts hagain)

open Classical in
/-- The declarations of a kind that nothing uses are no more than those without a use that lasts. -/
theorem declarations_unused_le (h : ReadAgain p q) (kind : Bool → Bool) :
    (q.declarations.zipIdx.countP fun (d, k) => kind d.constant && decide ¬ KeptForUse q k d) ≤
      ((finished p).extractions.countP fun x => kind true && decide ¬ LastingTruth p x.word) +
        p.declarations.zipIdx.countP fun (d, k) =>
          kind d.constant && decide ¬ LastingUse p (fun j _ => j ≠ k) d.name := by
  have hlength := h.length_declarations
  have htake : (q.declarations.take (finished p).extractions.length).length =
      (finished p).extractions.length := by
    rw [List.length_take, hlength]
    exact Nat.min_eq_left (Nat.le_add_right _ _)
  rw [← List.take_append_drop (finished p).extractions.length q.declarations, List.zipIdx_append,
    List.countP_append, htake, Nat.zero_add]
  refine Nat.add_le_add ?truths ?declarations
  case truths =>
    rw [← (List.reverse_perm (finished p).extractions).countP_eq,
      ← List.zipIdx_map_fst 0 (finished p).extractions.reverse, List.countP_map]
    refine countP_zipIdx_le (by rw [htake, List.length_reverse]) fun k x d' hx hd' hunused => ?_
    have hk : k < (finished p).extractions.length := by
      have hlt := (List.getElem?_eq_some_iff.1 hx).1
      rwa [List.length_reverse] at hlt
    rw [List.getElem?_take_of_lt hk] at hd'
    obtain ⟨d₁, hd₁, hname, hconstant⟩ := h.exists_truth hx
    obtain rfl := Option.some.inj (hd'.symm.trans hd₁)
    rw [Bool.and_eq_true, decide_eq_true_iff, hconstant, Nat.zero_add] at hunused
    rw [Function.comp_apply, Bool.and_eq_true, decide_eq_true_iff]
    exact ⟨hunused.1, fun hlasting => hunused.2 (h.keptForUse_truth hx hd' hname hlasting)⟩
  case declarations =>
    have hdrop : (q.declarations.drop (finished p).extractions.length).length =
        p.declarations.length := by
      rw [List.length_drop, hlength, Nat.add_sub_cancel_left]
    refine countP_zipIdx_le hdrop fun k d d' hd hd' hunused => ?_
    rw [List.getElem?_drop] at hd'
    obtain ⟨d₁, hd₁, hagain⟩ := h.exists_declaration hd
    obtain rfl := Option.some.inj (hd'.symm.trans hd₁)
    rw [Bool.and_eq_true, decide_eq_true_iff, hagain.constant] at hunused
    rw [Bool.and_eq_true, decide_eq_true_iff, Nat.zero_add]
    exact ⟨hunused.1, fun huse => hunused.2 (h.keptForUse_declaration hd hd' hagain huse)⟩

open Classical in
/-- A second report counts no more than what does not last. -/
theorem report_le (h : ReadAgain p q) : (unused q).functions ≤ (unlasting p).functions ∧
    (unused q).constants ≤ (unlasting p).constants ∧
    (unused q).globals ≤ (unlasting p).globals := by
  have hconstants := h.declarations_unused_le id
  have hglobals := h.declarations_unused_le (!·)
  have hnone :
      ((finished p).extractions.countP fun x => !true && decide ¬ LastingTruth p x.word) = 0 :=
    List.countP_eq_zero.2 fun x _ => Bool.false_ne_true
  rw [hnone, Nat.zero_add] at hglobals
  exact ⟨h.functions_unused_le, hconstants, hglobals⟩

end ReadAgain
end ScriptMinifier.Output
