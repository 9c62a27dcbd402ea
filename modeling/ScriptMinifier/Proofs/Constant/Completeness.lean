import ScriptMinifier.Proofs.Constant.Values
import ScriptMinifier.Proofs.Spelling.Texts

/-! Folding is complete.

Where each declaration names only earlier ones (`Program.InOrder`), what folding has gone through
names nothing that is still to come, so no later constant changes it, and what could not be folded
then cannot be folded in the end (`stuck_foldFrom`). What is left names no folded constant, a second
run finds nothing to fold, and nothing changes (`foldedOut_fold`). -/
namespace ScriptMinifier

open Constant
  (Value Verdict candidateValue? evalAs fold foldFrom foldedCount foldedNames foldedPairs
    foldedValues
  replaceIn replaceInTurn replaceName valueWords verdict? verdicts)
open Syntax (Declaration Function datatypes)
open Text (isIdent words)

/-- The words of a declaration's value. -/
def Syntax.Declaration.mentioned (d : Declaration) : List Text := (d.value.map Text.words).getD []

/-- A program whose declarations have distinct identifiers for names, which are no words of the
language, and of which each mentions, of the names declared, only those declared before it. -/
structure Program.InOrder (p : Program) : Prop where
  distinct : p.declarationNames.Nodup
  ident : ∀ name ∈ p.declarationNames, isIdent name = true
  ordinary : ∀ name ∈ p.declarationNames, name ∉ languageWords
  earlier : ∀ k (hk : k < p.declarations.length), ∀ w ∈ p.declarations[k].mentioned,
    w ∈ p.declarationNames → w ∈ (p.declarations.take k).map Declaration.name

/-- What folding leaves of a program. -/
structure Program.FoldedOut (p : Program) : Prop where
  /-- No value that stays names a folded constant. -/
  values : ∀ d ∈ (fold p).declarations, ∀ w ∈ d.mentioned, w ∉ foldedNames p
  /-- A function names only those folded constants that it hides, before folding and after. -/
  bodies : List.Forall₂ (fun f f' : Function => f'.scopedNames = f.scopedNames ∧
    ∀ w ∈ words f'.body, w ∈ foldedNames p → w ∈ f.scopedNames) p.functions (fold p).functions
  /-- A constant that stays cannot be computed. -/
  stuck : ∀ d ∈ (fold p).declarations, ∀ t, d.constant = true → d.array = false →
    Value.isFoldableType d.type = true → d.value = some t → ∃ fault,
      evalAs p.literals d.type t = .error fault
  /-- Nothing is left to fold. -/
  again : foldedCount (fold p) = 0 ∧ fold (fold p) = fold p

namespace Constant

variable {ls : Literals} {d : Declaration} {done ds : List Declaration} {name value w : Text}

/-! ### What a declaration mentions -/

theorem mem_mentioned : w ∈ d.mentioned ↔ ∃ t, d.value = some t ∧ w ∈ words t := by
  unfold Declaration.mentioned
  cases d.value <;> simp

theorem mem_mentioned_mapValue {f : Text → Text} :
    w ∈ (d.mapValue f).mentioned ↔ ∃ t, d.value = some t ∧ w ∈ words (f t) := by
  rw [mem_mentioned, Declaration.mapValue]
  simp

/-- A word that is no value's. -/
def IsName (w : Text) : Prop := ¬ (w ∈ valueWords ∨ ∃ c ∈ w.head?, c.isDigit = true)

/-- A name that a declaration mentions with a value put in was mentioned before, and is not the one
replaced. -/
theorem mem_mentioned_of_replaceName (hvalue : IsValue value) (hname : IsName w)
    (hw : w ∈ (d.mapValue (replaceName name value)).mentioned) : w ∈ d.mentioned ∧ w ≠ name := by
  obtain ⟨t, ht, hw⟩ := mem_mentioned_mapValue.1 hw
  obtain ⟨hw, hne⟩ := (mem_words_replaceName hvalue hw).resolve_left hname
  exact ⟨mem_mentioned.2 ⟨t, ht, hw⟩, hne⟩

/-- A declaration that does not mention a name stays when it is replaced. -/
theorem mapValue_replaceName_of_not_mem (h : name ∉ d.mentioned) :
    d.mapValue (replaceName name value) = d := by
  have hsame : ∀ t, d.value = some t → replaceName name value t = t := by
    intro t ht
    refine Text.replaceWords_eq_self fun w hw => ?_
    have hne : w ≠ name := fun heq => h (heq ▸ mem_mentioned.2 ⟨t, ht, hw⟩)
    rw [Text.replacement, if_neg hne, Option.getD_none]
  have hvalue : d.value.map (replaceName name value) = d.value := by
    cases ht : d.value with
    | none => rfl
    | some t => rw [Option.map_some, hsame t ht]
  rw [Declaration.mapValue, hvalue]

/-! ### Declarations that cannot be folded -/

/-- If the declaration is a candidate, its value cannot be computed. -/
def Stuck (ls : Literals) (d : Declaration) : Prop :=
  ∀ t, candidateValue? d = some t → ∃ fault, evalAs ls d.type t = .error fault

theorem stuck_iff : Stuck ls d ↔ ∀ name value, verdict? ls d ≠ some (.folded name value) := by
  constructor
  · intro h name value hverdict
    obtain ⟨t, v, ht, hv, -, -⟩ := verdict?_eq_folded.1 hverdict
    obtain ⟨fault, hfault⟩ := h t ht
    rw [hfault] at hv
    cases hv
  · intro h t ht
    cases hv : evalAs ls d.type t with
    | ok v => exact absurd (verdict?_eq_folded.2 ⟨t, v, ht, hv, rfl, rfl⟩) (h _ _)
    | error fault => exact ⟨fault, rfl⟩

/-- Declarations that cannot be folded are left as they are. -/
theorem foldFrom_of_stuck (h : ∀ d ∈ ds, Stuck ls d) :
    (foldFrom ls done ds).1 = done.reverse ++ ds ∧ foldedPairs (foldFrom ls done ds).2 = [] := by
  fun_induction foldFrom ls done ds with
  | case1 done => exact ⟨(List.append_nil _).symm, rfl⟩
  | case2 done d rest name value hverdict =>
    exact absurd hverdict (stuck_iff.1 (h d List.mem_cons_self) name value)
  | case3 done d rest name fault hverdict kept verdicts hfold ih =>
    obtain ⟨hkept, hpairs⟩ := ih fun e he => h e (List.mem_cons_of_mem d he)
    rw [hfold] at hkept hpairs
    rw [List.reverse_cons, List.append_assoc, List.singleton_append] at hkept
    exact ⟨hkept, hpairs⟩
  | case4 done d rest hverdict ih =>
    obtain ⟨hkept, hpairs⟩ := ih fun e he => h e (List.mem_cons_of_mem d he)
    rw [List.reverse_cons, List.append_assoc, List.singleton_append] at hkept
    exact ⟨hkept, hpairs⟩

/-- Declarations still to be gone through, each with names that neither those before it nor itself
mention. -/
structure Awaited (done ds : List Declaration) : Prop where
  names : ∀ d ∈ ds, IsName d.name
  done : ∀ d ∈ done, ∀ e ∈ ds, e.name ∉ d.mentioned
  before : ds.Pairwise fun d e => e.name ∉ d.mentioned
  self : ∀ d ∈ ds, d.name ∉ d.mentioned

/-- A declaration has been gone through and stays. -/
theorem Awaited.keep {rest : List Declaration} (h : Awaited done (d :: rest)) :
    Awaited (d :: done) rest where
  names := (List.forall_mem_cons.1 h.names).2
  done :=
    List.forall_mem_cons.2
      ⟨(List.pairwise_cons.1 h.before).1, fun e he => (List.forall_mem_cons.1 (h.done e he)).2⟩
  before := (List.pairwise_cons.1 h.before).2
  self := (List.forall_mem_cons.1 h.self).2

/-- A declaration is folded: those gone through stay as they are, and the names of those to come are
mentioned nowhere where they were not. -/
theorem Awaited.fold {rest : List Declaration} (h : Awaited done (d :: rest))
    (hvalue : IsValue value) :
    done.map (Declaration.mapValue (replaceName d.name value)) = done ∧
      Awaited done (rest.map (Declaration.mapValue (replaceName d.name value))) := by
  have hnames := (List.forall_mem_cons.1 h.names).2
  have hmentioned : ∀ a, ∀ e ∈ rest, e.name ∉ Declaration.mentioned a →
      e.name ∉ (a.mapValue (replaceName d.name value)).mentioned :=
    fun a e he hnot hmem => hnot (mem_mentioned_of_replaceName hvalue (hnames e he) hmem).1
  constructor
  · have hsame : ∀ e ∈ done, e.mapValue (replaceName d.name value) = id e := fun e he =>
      mapValue_replaceName_of_not_mem ((List.forall_mem_cons.1 (h.done e he)).1)
    exact (List.map_congr_left hsame).trans (List.map_id done)
  · constructor
    case names => exact List.forall_mem_map.2 hnames
    case done => exact fun a ha => List.forall_mem_map.2 (List.forall_mem_cons.1 (h.done a ha)).2
    case before =>
      refine List.pairwise_map.2 (List.Pairwise.imp_of_mem ?_ (List.pairwise_cons.1 h.before).2)
      exact fun {a e} _ he => hmentioned a e he
    case self =>
      exact List.forall_mem_map.2 fun e he => hmentioned e e he
        ((List.forall_mem_cons.1 h.self).2 e he)

/-- What is left cannot be folded. The induction is on how many declarations are still to be gone
through, since folding one changes the others. -/
theorem stuck_foldFrom (h : Awaited done ds) (hdone : ∀ d ∈ done, Stuck ls d) :
    ∀ d ∈ (foldFrom ls done ds).1, Stuck ls d := by
  induction hn : ds.length generalizing done ds with
  | zero =>
    rw [List.length_eq_zero_iff] at hn
    subst hn
    rw [foldFrom]
    exact fun d hd => hdone d (List.mem_reverse.1 hd)
  | succ n ih =>
    obtain ⟨d, rest, rfl⟩ := List.exists_cons_of_length_eq_add_one hn
    rw [List.length_cons, Nat.add_right_cancel_iff] at hn
    rw [foldFrom]
    split
    · rename_i name value hverdict
      obtain ⟨t, v, -, hv, rfl, rfl⟩ := verdict?_eq_folded.1 hverdict
      obtain ⟨hsame, hrest⟩ := h.fold ⟨v, proper_evalAs hv, rfl⟩
      dsimp only
      rw [hsame]
      exact ih hrest hdone (by rw [List.length_map, hn])
    · rename_i name fault hverdict
      have hstuck : Stuck ls d := stuck_iff.2 fun _ _ hfolded => by simp [hverdict] at hfolded
      exact ih h.keep (List.forall_mem_cons.2 ⟨hstuck, hdone⟩) hn
    · rename_i hverdict
      have hstuck : Stuck ls d := stuck_iff.2 fun _ _ hfolded => by simp [hverdict] at hfolded
      exact ih h.keep (List.forall_mem_cons.2 ⟨hstuck, hdone⟩) hn

end Constant

/-! ### Programs -/

namespace Program

open Constant (IsName Awaited Stuck)

variable {p : Program} {w : Text}

theorem InOrder.isName (h : p.InOrder) (hw : w ∈ p.declarationNames) : IsName w := by
  rintro (hvalue | ⟨c, hc, hdigit⟩)
  · exact h.ordinary w hw (valueWords_subset hvalue)
  · rw [Text.not_isDigit_of_isIdent (h.ident w hw) c hc] at hdigit
    cases hdigit

/-- No declaration mentions one that does not stand before it. -/
theorem InOrder.not_mentioned (h : p.InOrder) {j k : Nat} (hk : k < p.declarations.length)
    (hkj : k ≤ j)
    (hj : j < p.declarations.length) : p.declarations[j].name ∉ p.declarations[k].mentioned := by
  intro hmem
  have hdeclared : p.declarations[j].name ∈ p.declarationNames :=
    List.mem_map_of_mem (List.getElem_mem hj)
  obtain ⟨d, hd, hname⟩ := List.mem_map.1 (h.earlier k hk _ hmem hdeclared)
  obtain ⟨i, hi, rfl⟩ := List.mem_take_iff_getElem.1 hd
  have hij : i < j := by omega
  exact List.pairwise_iff_getElem.1 (List.pairwise_map.1 h.distinct) i j _ hj hij hname

theorem InOrder.awaited (h : p.InOrder) : Awaited [] p.declarations where
  names := fun d hd => h.isName (List.mem_map_of_mem hd)
  done := nofun
  before :=
    List.pairwise_iff_getElem.2 fun k j hk hj hkj => h.not_mentioned hk (Nat.le_of_lt hkj) hj
  self := by
    intro d hd
    obtain ⟨k, hk, rfl⟩ := List.getElem_of_mem hd
    exact h.not_mentioned hk (Nat.le_refl k) hk

theorem InOrder.stuck (h : p.InOrder) : ∀ d ∈ (fold p).declarations, Stuck p.literals d :=
  Constant.stuck_foldFrom h.awaited nofun

/-- A program with nothing to fold is left as it is. -/
theorem fold_of_stuck (h : ∀ d ∈ p.declarations, Stuck p.literals d) :
    foldedCount p = 0 ∧ fold p = p := by
  obtain ⟨hkept, hpairs⟩ : (foldFrom p.literals [] p.declarations).1 = p.declarations ∧
      foldedPairs (foldFrom p.literals [] p.declarations).2 = [] := Constant.foldFrom_of_stuck h
  have hvalues : foldedValues p = .empty := congrArg Text.Dictionary.ofPairs hpairs
  have hbody : ∀ f : Function, replaceIn (foldedValues p) f = id f := by
    intro f
    rw [replaceIn, hvalues]
    simp [Text.replaceWords_none]
  refine ⟨by rw [foldedCount, hvalues]; rfl, ?_⟩
  rw [fold, hkept, List.map_congr_left fun f _ => hbody f, List.map_id]

theorem mem_words_replaceIn {f : Function} (hw : w ∈ words (replaceIn (foldedValues p) f).body)
    (hname : IsName w) :
    w ∈ f.scopedNames ∨ w ∉ foldedNames p := by
  have hvalues : ∀ u r, visible (foldedValues p) f u = some r → IsValue r := fun u r hr =>
    isValue_of_mem_foldedPairs (Text.Dictionary.mem_of_find?_ofPairs (find?_of_visible hr))
  obtain ⟨-, hkept⟩ := (mem_words_replaceWords_of_isValue hvalues hw).resolve_left hname
  by_cases hbound : w ∈ f.scopedNames
  · exact .inl hbound
  · rw [visible, if_neg (by simpa using hbound)] at hkept
    exact .inr (Text.Dictionary.find?_ofPairs_eq_none.1 hkept)

/-- **Folding is complete:** what stays names no folded constant, cannot be folded, and is left as
it is when folded again. -/
theorem foldedOut_of_inOrder (h : p.InOrder) : p.FoldedOut where
  values := by
    intro d hd w hw hfolded
    obtain ⟨retained, -, heq⟩ := Constant.declarations_fold p
    rw [heq] at hd
    obtain ⟨d₀, -, rfl⟩ := List.mem_map.1 hd
    obtain ⟨t, -, hw⟩ := Constant.mem_mentioned_mapValue.1 hw
    have hvalues : ∀ pair ∈ foldedPairs (verdicts p), IsValue pair.2 :=
      fun _ => isValue_of_mem_foldedPairs
    exact ((mem_words_replaceInTurn hvalues hw).resolve_left
      (h.isName (Constant.foldedNames_subset p hfolded))).2 hfolded
  bodies := by
    refine List.forall₂_map_right_iff.2
      (List.forall₂_same.2 fun f _ => ⟨?_, fun w hw hfolded => ?_⟩)
    · exact scopedNames_replaceIn h.ident
        (fun w hw hname => h.ordinary w hname (Spelling.mem_languageWords hw)) f
    · exact (mem_words_replaceIn hw
        (h.isName (Constant.foldedNames_subset p hfolded))).resolve_right fun hnot => hnot hfolded
  stuck := by
    intro d hd t hconstant harray htype hvalue
    refine h.stuck d hd t ?_
    rw [candidateValue?, hconstant, harray, htype]
    exact hvalue
  again := fold_of_stuck h.stuck

/-- Constants that build on each other, one that calls a function, and one that a function hides. -/
def tieredProgram : Program where
  declarations := [
    { constant := true, array := false, type := "integer".toList, name := ['A'],
      value := some ['2'] },
    { constant := true, array := false, type := "integer".toList, name := ['B'],
      value := some "A*3".toList },
    { constant := true, array := false, type := "integer".toList, name := ['C'],
      value := some "F(A,B)".toList },
    { constant := false, array := false, type := "real".toList, name := ['g'],
      value := some "B+C".toList }]
  functions := [
    .new "main".toList "nothing".toList "nothing".toList "set g=A+C".toList,
    .new ['F'] "integer A,integer n".toList "integer".toList "return A+B".toList]

theorem tieredProgram_foldedOut :
    tieredProgram.InOrder ∧
      (fold tieredProgram).declarations.map Declaration.value =
      [some "F(2,6)".toList, some "6+C".toList] ∧
      (fold tieredProgram).functions.map Function.body = ["set g=2+C".toList, "return A+6".toList] ∧
      tieredProgram.FoldedOut := by
  have hordered : tieredProgram.InOrder := by
    constructor <;> decide +kernel
  exact ⟨hordered, by decide +kernel, by decide +kernel, foldedOut_of_inOrder hordered⟩

end Program
end ScriptMinifier
