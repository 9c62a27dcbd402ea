import ScriptMinifier.Proofs.Literal.Numbers
import ScriptMinifier.Proofs.Naming.LiteralNames

/-! Where renaming reaches a literal.

A call that names something in a string takes one occurrence of a literal, at its place in the
text (`Idiom.Selects`). Renaming writes in the table, though, and the table has one text for all
occurrences of a number. So an occurrence reads differently after renaming if and only if some
occurrence of its number is taken and names what gets another name
(`occurrence_changes_iff`). Without tables a number occurs once, and then what is not
taken stays. A table's literal may occur anywhere, and a greeting that is also a callback does
not stay (`greeting_follows_callback`). -/
namespace ScriptMinifier

open Literal (placeholderId? numbersIn numbersOf)
open Naming (Pool newNames renamed renameGlobals replaceFirstWord)
open Syntax (Declaration Function)
open Text (Segment mark segments)
open Usage (Idiom literalName? firstOnLine onlyArgument)

/-! ### What a call takes -/

namespace Text.Segment

/-- The literal that a segment stands for. -/
def number? : Segment → Option Nat
  | .placeholder t => placeholderId? t
  | _ => none

/-- Whether a segment lies outside words and literals and starts with a character. -/
def startsWith (c : Char) : Segment → Bool
  | .other t => t.head? = some c
  | _ => false

/-- Whether looking for a literal on a line goes on after a segment. -/
def isPassed : Segment → Bool
  | .word _ => true
  | .other t => !t.contains '\n'
  | .placeholder _ => false

theorem toList_number? (s : Segment) : s.number?.toList = numbersOf s := by
  cases s <;> rfl

end Text.Segment

namespace Usage.Idiom

/-- Of what follows the name of a call, the call takes the segment at a position: the whole
argument list, or the first literal on the line after an opening parenthesis. -/
def Takes : Idiom → List Segment → Nat → Prop
  | executeFunc, rest, m =>
    m = 1 ∧ rest[0]? = some (.other ['(']) ∧ rest[2]?.any (Segment.startsWith ')') = true
  | variableEvent, rest, m =>
    rest[0]?.any (Segment.startsWith '(') = true ∧ ∀ i < m, rest[i]?.any Segment.isPassed = true

instance (idiom : Idiom) (rest : List Segment) (m : Nat) : Decidable (idiom.Takes rest m) :=
  match idiom with
  | executeFunc => inferInstanceAs (Decidable (_ ∧ _))
  | variableEvent => inferInstanceAs (Decidable (_ ∧ _))

/-- A call in a list of segments takes the one at a position. -/
def Selects (idiom : Idiom) (segs : List Segment) (i : Nat) : Prop :=
  ∃ j < i, segs[j]? = some (.word idiom.callee) ∧ idiom.Takes (segs.drop (j + 1)) (i - (j + 1))

instance (idiom : Idiom) (segs : List Segment) (i : Nat) : Decidable (idiom.Selects segs i) :=
  inferInstanceAs (Decidable (∃ j < i, _))

theorem mem_firstOnLine {segs : List Segment} {n : Nat} :
    n ∈ firstOnLine segs ↔
      ∃ m : Nat, segs[m]?.bind Segment.number? = some n ∧
      ∀ i < m, segs[i]?.any Segment.isPassed = true := by
  induction segs with
  | nil => simp [firstOnLine]
  | cons s rest ih =>
    -- a segment that is passed moves every position by one
    have hpassed (hs : s.isPassed = true) (hnone : s.number? = none) :
        (∃ m : Nat, rest[m]?.bind Segment.number? = some n ∧
          ∀ i < m, rest[i]?.any Segment.isPassed = true) ↔
          ∃ m : Nat, (s :: rest)[m]?.bind Segment.number? = some n ∧
            ∀ i < m, (s :: rest)[i]?.any Segment.isPassed = true := by
      constructor
      · rintro ⟨m, hm, hbefore⟩
        refine ⟨m + 1, hm, fun i hi => ?_⟩
        cases i with
        | zero => exact hs
        | succ i => exact hbefore i (Nat.lt_of_succ_lt_succ hi)
      · rintro ⟨m, hm, hbefore⟩
        cases m with
        | zero => simp [hnone] at hm
        | succ m => exact ⟨m, hm, fun i hi => hbefore (i + 1) (Nat.succ_lt_succ hi)⟩
    -- one that is not passed is the last that counts
    have hstop (hs : s.isPassed = false) :
        s.number? = some n ↔
          ∃ m : Nat, (s :: rest)[m]?.bind Segment.number? = some n ∧
            ∀ i < m, (s :: rest)[i]?.any Segment.isPassed = true := by
      constructor
      · exact fun hn => ⟨0, hn, fun i hi => absurd hi (Nat.not_lt_zero i)⟩
      · rintro ⟨m, hm, hbefore⟩
        cases m with
        | zero => exact hm
        | succ m => exact absurd (hbefore 0 (Nat.succ_pos m)) (by simp [hs])
    cases s with
    | word w => rw [firstOnLine, ih, hpassed rfl rfl]
    | placeholder t =>
      rw [firstOnLine, Option.mem_toList]
      exact hstop rfl
    | other t =>
      rw [firstOnLine]
      split
      · rename_i hnewline
        rw [← hstop (by rw [Segment.isPassed, hnewline]; rfl)]
        simp [Segment.number?]
      · rename_i hnewline
        rw [ih, hpassed (by simpa [Segment.isPassed] using hnewline) rfl]

theorem mem_onlyArgument {rest : List Segment} {n : Nat} :
    n ∈ onlyArgument rest ↔ ∃ m : Nat, rest[m]?.bind Segment.number? = some n ∧
    executeFunc.Takes rest m := by
  constructor
  · intro h
    unfold onlyArgument at h
    split at h
    · exact ⟨1, Option.mem_toList.1 h, rfl, rfl, rfl⟩
    · cases h
  · rintro ⟨m, hm, rfl, hopen, hclose⟩
    match rest, hopen, hm, hclose with
    | s :: .placeholder t :: .other (c :: u) :: more, hopen, hm, hclose =>
      obtain rfl : s = .other ['('] := Option.some.inj hopen
      obtain rfl : c = ')' := by simpa [Segment.startsWith] using hclose
      exact Option.mem_toList.2 hm
    | [], hopen, _, _ => cases hopen
    | [_], _, hm, _ => cases hm
    | _ :: .word _ :: _, _, hm, _ => cases hm
    | _ :: .other _ :: _, _, hm, _ => cases hm
    | [_, _], _, _, hclose => cases hclose
    | _ :: _ :: .word _ :: _, _, _, hclose => cases hclose
    | _ :: _ :: .placeholder _ :: _, _, _, hclose => cases hclose
    | _ :: _ :: .other [] :: _, _, _, hclose => cases hclose

theorem mem_taken {idiom : Idiom} {rest : List Segment} {n : Nat} :
    n ∈ idiom.taken rest ↔ ∃ m : Nat, rest[m]?.bind Segment.number? = some n ∧
    idiom.Takes rest m := by
  cases idiom with
  | executeFunc => exact mem_onlyArgument
  | variableEvent =>
    match rest with
    | .other (c :: t) :: more =>
      by_cases hc : c = '('
      · subst hc
        refine mem_firstOnLine.trans (exists_congr fun m => and_congr_right fun _ => ?_)
        exact ⟨fun hbefore => ⟨rfl, hbefore⟩, And.right⟩
      · have hnone : variableEvent.taken (.other (c :: t) :: more) = [] := by
          unfold taken
          split <;> simp_all
        rw [hnone]
        refine iff_of_false List.not_mem_nil fun ⟨m, _, hopen, _⟩ => hc ?_
        simpa [Segment.startsWith] using hopen
    | [] => exact iff_of_false List.not_mem_nil fun ⟨m, _, hopen, _⟩ => by cases hopen
    | .word _ :: _ => exact iff_of_false List.not_mem_nil fun ⟨m, _, hopen, _⟩ => by cases hopen
    | .placeholder _ :: _ =>
      exact iff_of_false List.not_mem_nil fun ⟨m, _, hopen, _⟩ => by cases hopen
    | .other [] :: _ => exact iff_of_false List.not_mem_nil fun ⟨m, _, hopen, _⟩ => by cases hopen

/-- The literals that a call takes are those at the positions it selects. -/
theorem mem_idsIn {idiom : Idiom} {segs : List Segment} {n : Nat} :
    n ∈ idiom.idsIn segs ↔ ∃ i : Nat, segs[i]?.bind Segment.number? = some n ∧
    idiom.Selects segs i := by
  induction segs with
  | nil => simp [idsIn, Selects]
  | cons s rest ih =>
    rw [idsIn, List.mem_append, ih]
    constructor
    · rintro (h | ⟨i, hi, j, hj, hcallee, htakes⟩)
      · split at h
        · rename_i hs
          obtain ⟨m, hm, htakes⟩ := mem_taken.1 h
          exact ⟨m + 1, hm, 0, Nat.succ_pos m, congrArg some hs, htakes⟩
        · cases h
      · refine ⟨i + 1, hi, j + 1, Nat.succ_lt_succ hj, hcallee, ?_⟩
        rwa [Nat.add_sub_add_right]
    · rintro ⟨i, hi, j, hj, hcallee, htakes⟩
      cases i with
      | zero => exact absurd hj (Nat.not_lt_zero j)
      | succ i =>
        cases j with
        | zero =>
          rw [if_pos (Option.some.inj hcallee)]
          exact .inl (mem_taken.2 ⟨i, hi, htakes⟩)
        | succ j =>
          refine .inr ⟨i, hi, j, Nat.lt_of_succ_lt_succ hj, hcallee, ?_⟩
          rwa [Nat.add_sub_add_right] at htakes

end Usage.Idiom

/-! ### Occurrences -/

/-- A text of a program: the value of a declaration or the body of a function, by its position. -/
inductive TextOf
  | value (k : Nat)
  | body (k : Nat)

/-- A place in a program: a segment of one of its texts, by its position. -/
structure Occurrence where
  text : TextOf
  index : Nat

namespace Program

/-- The text of a program at a place. -/
def textAt (p : Program) : TextOf → Option Text
  | .value k => p.declarations[k]?.bind Declaration.value
  | .body k => p.functions[k]?.map Function.body

/-- The segment of a program at a place. -/
def segmentAt (p : Program) (o : Occurrence) : Option Segment :=
  (p.textAt o.text).bind fun t => (segments t)[o.index]?

/-- The number of the literal at a place. -/
def numberAt (p : Program) (o : Occurrence) : Option Nat := (p.segmentAt o).bind Segment.number?

/-- What a place reads once the literals are put back. -/
def restoredAt (p : Program) (o : Occurrence) : Option Text :=
  (p.segmentAt o).map p.literals.restoreSegment

/-- A call in a function takes what stands at a place. -/
def TakenAt (p : Program) (o : Occurrence) : Prop :=
  ∃ k t, o.text = .body k ∧ p.textAt o.text = some t ∧ ∃ idiom : Idiom,
    idiom.Selects (segments t) o.index

end Program

theorem mem_numbersIn_of_number? {t : Text} {i n : Nat}
    (h : (segments t)[i]?.bind Segment.number? = some n) :
    n ∈ numbersIn t := by
  obtain ⟨s, hs, hn⟩ := Option.bind_eq_some_iff.1 h
  refine List.mem_flatMap.2 ⟨s, List.mem_of_getElem? hs, ?_⟩
  rw [← Segment.toList_number?, hn]
  exact List.mem_cons_self

/-- Of lists put together without a repetition, one has an element. -/
theorem eq_of_mem_flatMap {α β : Type} {f : α → List β} {xs : List α} (h : (xs.flatMap f).Nodup)
    {i j : Nat} {a b : α}
    (hi : xs[i]? = some a) (hj : xs[j]? = some b) {x : β} (ha : x ∈ f a) (hb : x ∈ f b) :
    i = j := by
  have hpairwise := (List.nodup_flatMap.1 h).2
  rw [List.pairwise_iff_getElem] at hpairwise
  obtain ⟨hli, rfl⟩ := List.getElem?_eq_some_iff.1 hi
  obtain ⟨hlj, rfl⟩ := List.getElem?_eq_some_iff.1 hj
  rcases Nat.lt_trichotomy i j with hlt | heq | hlt
  · exact absurd hb (hpairwise i j hli hlj hlt ha)
  · exact heq
  · exact absurd ha (hpairwise j i hlj hli hlt hb)

/-- In a text that holds no literal twice a literal has one place. -/
theorem index_eq {t : Text} (h : (numbersIn t).Nodup) {i j n : Nat}
    (hi : (segments t)[i]?.bind Segment.number? = some n)
    (hj : (segments t)[j]?.bind Segment.number? = some n) : i = j := by
  obtain ⟨a, ha, hna⟩ := Option.bind_eq_some_iff.1 hi
  obtain ⟨b, hb, hnb⟩ := Option.bind_eq_some_iff.1 hj
  have hmem : ∀ s : Segment, s.number? = some n → n ∈ numbersOf s := by
    intro s hs
    rw [← Segment.toList_number?, hs]
    exact List.mem_cons_self
  exact eq_of_mem_flatMap h ha hb (hmem a hna) (hmem b hnb)

namespace Program

variable {p : Program} {o o' : Occurrence} {n : Nat}

theorem exists_text_of_numberAt (h : p.numberAt o = some n) :
    ∃ t, p.textAt o.text = some t ∧ (segments t)[o.index]?.bind Segment.number? = some n := by
  obtain ⟨s, hs, hn⟩ := Option.bind_eq_some_iff.1 h
  obtain ⟨t, ht, hindex⟩ := Option.bind_eq_some_iff.1 hs
  exact ⟨t, ht, by rw [hindex]; exact hn⟩

/-- In a program that holds no literal twice a literal has one place. -/
theorem eq_of_numberAt (hp : p.numbers.Nodup) (h : p.numberAt o = some n)
    (h' : p.numberAt o' = some n) : o = o' := by
  obtain ⟨t, ht, hn⟩ := exists_text_of_numberAt h
  obtain ⟨t', ht', hn'⟩ := exists_text_of_numberAt h'
  obtain ⟨hvalues, hbodies, hapart⟩ := List.nodup_append.1 hp
  have hmem := mem_numbersIn_of_number? hn
  have hmem' := mem_numbersIn_of_number? hn'
  have hvalue {d : Declaration} {u : Text} (hu : d.value = some u) (hmem : n ∈ numbersIn u) :
      n ∈ d.numbers := by
    rwa [Declaration.numbers, hu]
  obtain ⟨text, i⟩ := o
  obtain ⟨text', i'⟩ := o'
  cases text with
  | value k =>
    obtain ⟨d, hd, hdt⟩ := Option.bind_eq_some_iff.1 ht
    have hd' := List.mem_flatMap.2 ⟨d, List.mem_of_getElem? hd, hvalue hdt hmem⟩
    cases text' with
    | value k' =>
      obtain ⟨e, he, het⟩ := Option.bind_eq_some_iff.1 ht'
      obtain rfl := eq_of_mem_flatMap hvalues hd he (hvalue hdt hmem) (hvalue het hmem')
      obtain rfl := Option.some.inj (ht.symm.trans ht')
      have hnodup := (List.nodup_flatMap.1 hvalues).1 d (List.mem_of_getElem? hd)
      rw [Declaration.numbers, hdt, Option.getD_some] at hnodup
      exact congrArg (Occurrence.mk _) (index_eq hnodup hn hn')
    | body k' =>
      obtain ⟨f, hf, rfl⟩ := Option.map_eq_some_iff.1 ht'
      exact absurd rfl (hapart n hd' n (List.mem_flatMap.2 ⟨f, List.mem_of_getElem? hf, hmem'⟩))
  | body k =>
    obtain ⟨f, hf, rfl⟩ := Option.map_eq_some_iff.1 ht
    have hf' : n ∈ p.functions.flatMap fun f => numbersIn f.body :=
      List.mem_flatMap.2 ⟨f, List.mem_of_getElem? hf, hmem⟩
    cases text' with
    | value k' =>
      obtain ⟨e, he, het⟩ := Option.bind_eq_some_iff.1 ht'
      exact absurd
        rfl (hapart n (List.mem_flatMap.2 ⟨e, List.mem_of_getElem? he, hvalue het hmem'⟩) n hf')
    | body k' =>
      obtain ⟨g, hg, rfl⟩ := Option.map_eq_some_iff.1 ht'
      obtain rfl := eq_of_mem_flatMap hbodies hf hg hmem hmem'
      obtain rfl := Option.some.inj (hf.symm.trans hg)
      have hnodup := (List.nodup_flatMap.1 hbodies).1 f (List.mem_of_getElem? hf)
      exact congrArg (Occurrence.mk _) (index_eq hnodup hn hn')

/-- The literals that name something are those with a place that a call takes. -/
theorem mem_namingLiterals_iff :
    n ∈ Naming.namingLiterals p ↔ ∃ o, p.numberAt o = some n ∧ p.TakenAt o := by
  rw [Naming.mem_namingLiterals]
  constructor
  · rintro ⟨f, hf, idiom, hn⟩
    obtain ⟨k, hk⟩ := List.mem_iff_getElem?.1 hf
    obtain ⟨i, hi, hselects⟩ := Idiom.mem_idsIn.1 hn
    have htext : p.textAt (.body k) = some f.body := by rw [textAt, hk]; rfl
    refine ⟨⟨.body k, i⟩, ?_, k, f.body, rfl, htext, idiom, hselects⟩
    rw [numberAt, segmentAt, htext]
    exact hi
  · rintro ⟨o, hn, k, t, hk, ht, idiom, hselects⟩
    obtain ⟨t', ht', hnumber⟩ := exists_text_of_numberAt hn
    obtain rfl := Option.some.inj (ht.symm.trans ht')
    rw [hk] at ht
    obtain ⟨f, hf, rfl⟩ := Option.map_eq_some_iff.1 ht
    exact ⟨f, List.mem_of_getElem? hf, idiom, Idiom.mem_idsIn.2 ⟨o.index, hnumber, hselects⟩⟩

end Program

/-! ### Renaming -/

namespace Naming

variable {p : Program} {pool : Pool} {o : Occurrence} {ph lit : Text} {n : Nat}

theorem wordly_newNames (p : Program) (pool : Pool) : Text.Wordly (newNames p pool).find? :=
  givesWords_newNames p pool

/-- Renaming moves no literal. -/
theorem segmentAt_renameGlobals (h : p.segmentAt o = some (.placeholder ph)) :
    (renameGlobals p pool).program.segmentAt o = some (.placeholder ph) := by
  obtain ⟨t, ht, hindex⟩ := Option.bind_eq_some_iff.1 h
  have hstays {g : Text → Option Text} (hg : Text.Wordly g) :
      (segments (Text.replaceWords g t))[o.index]? = some (.placeholder ph) := by
    rw [Text.segments_replaceWords hg, List.getElem?_map, hindex]
    rfl
  obtain ⟨text, i⟩ := o
  cases text with
  | value k =>
    obtain ⟨d, hd, hdt⟩ := Option.bind_eq_some_iff.1 ht
    have hvalue : (renameGlobals p pool).program.textAt (.value k) =
        some (Text.replaceWords (newNames p pool).find? t) := by
      show ((p.declarations.map (renameDeclaration (newNames p pool)))[k]?).bind
        Declaration.value = _
      rw [List.getElem?_map, hd, Option.map_some, Option.bind_some, renameDeclaration, hdt]
      rfl
    rw [Program.segmentAt, hvalue]
    exact hstays (wordly_newNames p pool)
  | body k =>
    obtain ⟨f, hf, rfl⟩ := Option.map_eq_some_iff.1 ht
    have hbody : (renameGlobals p pool).program.textAt (.body k) =
        some (Text.replaceWords (visible (newNames p pool) f) f.body) := by
      show ((p.functions.map (renameFunction (newNames p pool)))[k]?).map Function.body = _
      rw [List.getElem?_map, hf]
      rfl
    rw [Program.segmentAt, hbody]
    exact hstays fun w r hr => wordly_newNames p pool w r (find?_of_visible hr)

theorem replaceFirstWord_of_no_word {names : Text.Renaming} {segs : List Segment}
    (h : segs.filterMap Segment.word? = []) :
    replaceFirstWord names segs = segs.flatMap Segment.text := by
  induction segs with
  | nil => rfl
  | cons s rest ih =>
    cases s with
    | word w => cases h
    | placeholder t => exact congrArg (t ++ ·) (ih h)
    | other t => exact congrArg (t ++ ·) (ih h)

/-- A literal changes when the name in it does. -/
theorem replaceFirstWord_eq_iff {names : Text.Renaming} :
    replaceFirstWord names (segments lit) = lit ↔ ∀ w ∈ literalName? lit, renamed names w = w := by
  cases hname : literalName? lit with
  | none =>
    refine iff_of_true ?_ nofun
    rw [replaceFirstWord_of_no_word (List.head?_eq_none_iff.1 hname), Text.flatMap_text_segments]
  | some w =>
    obtain ⟨before, after, rfl, hfirst⟩ := exists_firstWord hname
    rw [hfirst.replaced names]
    simp

/-- A literal of a program names something that gets another name. -/
def NamesRenamed (p : Program) (pool : Pool) (n : Nat) : Prop :=
  ∃ lit w, p.literals.get? n = some lit ∧ literalName? lit = some w ∧
    renamed (newNames p pool) w ≠ w

/-- The text of a number changes when a call takes it and names what gets another name. -/
theorem get?_renameGlobals_eq_iff :
    (renameGlobals p pool).program.literals.get? n = p.literals.get? n ↔
    ¬ (n ∈ namingLiterals p ∧ NamesRenamed p pool n) := by
  by_cases hn : n ∈ namingLiterals p
  · cases hlit : p.literals.get? n with
    | none =>
      refine iff_of_true (get?_renameLiterals_of_none hlit) fun ⟨_, lit, _, hlit', _⟩ => ?_
      rw [hlit] at hlit'
      cases hlit'
    | some lit =>
      rw [get?_renameGlobals_of_mem hn hlit, Option.some_inj, replaceFirstWord_eq_iff, not_and]
      constructor
      · rintro h - ⟨lit', w, hlit', hname, hne⟩
        obtain rfl := Option.some.inj (hlit.symm.trans hlit')
        exact hne (h w hname)
      · intro h w hw
        by_contra hne
        exact h hn ⟨lit, w, hlit, hw, hne⟩
  · exact iff_of_true (get?_renameGlobals_of_not_mem hn) fun h => hn h.1

theorem restoredAt_of_segmentAt {q : Program} (h : q.segmentAt o = some (.placeholder ph)) :
    q.restoredAt o = some (((placeholderId? ph).bind q.literals.get?).getD ph) := by
  rw [Program.restoredAt, h]
  rfl

theorem numberAt_of_segmentAt {q : Program} (h : q.segmentAt o = some (.placeholder ph)) :
    q.numberAt o = placeholderId? ph := by
  rw [Program.numberAt, h]
  rfl

/-- What a place reads changes when the text of its number does. -/
theorem restoredAt_renameGlobals (h : p.segmentAt o = some (.placeholder ph)) :
    (renameGlobals p pool).program.restoredAt o = p.restoredAt o ↔
      ∀ n ∈ p.numberAt o, (renameGlobals p pool).program.literals.get? n = p.literals.get? n := by
  rw [restoredAt_of_segmentAt h, restoredAt_of_segmentAt (segmentAt_renameGlobals h),
    numberAt_of_segmentAt h, Option.some_inj]
  cases hid : placeholderId? ph with
  | none => exact iff_of_true rfl nofun
  | some n =>
    simp only [Option.bind_some, Option.mem_some_iff, forall_eq']
    cases hlit : p.literals.get? n with
    | none =>
      have hnone : (renameGlobals p pool).program.literals.get? n = none :=
        get?_renameLiterals_of_none hlit
      rw [hnone]
      exact iff_of_true rfl rfl
    | some lit =>
      obtain ⟨new, hnew⟩ : ∃ new, (renameGlobals p pool).program.literals.get? n = some new := by
        by_cases hn : n ∈ namingLiterals p
        · exact ⟨_, get?_renameGlobals_of_mem hn hlit⟩
        · exact ⟨lit, (get?_renameGlobals_of_not_mem hn).trans hlit⟩
      rw [hnew, Option.getD_some, Option.getD_some, Option.some_inj]

/-- What renaming does at a place: the literal stays where it is, and it reads differently if and
only if a call takes its number somewhere and names what gets another name. -/
structure RenamedAt (q : Program) (pool : Pool) (o : Occurrence) (ph : Text) : Prop where
  stays : (renameGlobals q pool).program.segmentAt o = some (.placeholder ph)
  changes_iff : (renameGlobals q pool).program.restoredAt o ≠ q.restoredAt o ↔
    ∃ n o', q.numberAt o = some n ∧ q.numberAt o' = some n ∧ q.TakenAt o' ∧ NamesRenamed q pool n

theorem renamedAt (pool : Pool) (h : p.segmentAt o = some (.placeholder ph)) :
    RenamedAt p pool o ph := by
  refine ⟨segmentAt_renameGlobals h, ?_⟩
  rw [Ne, restoredAt_renameGlobals h]
  simp only [get?_renameGlobals_eq_iff, Program.mem_namingLiterals_iff, Option.mem_def, not_forall,
    not_not]
  constructor
  · rintro ⟨n, hn, ⟨o', hn', htaken⟩, hnames⟩
    exact ⟨n, o', hn, hn', htaken, hnames⟩
  · rintro ⟨n, o', hn, hn', htaken, hnames⟩
    exact ⟨n, hn, ⟨o', hn', htaken⟩, hnames⟩

end Naming

/-- **Renaming reaches the numbers that calls take**, wherever they occur. Without tables these are
the occurrences that calls take, and all others read as before. -/
theorem occurrences_renamed {options : Options} {src : Text} {p : Program} (hmark : mark ∉ src)
    (hread : readProgram src = .ok p) (pool : Pool) {o : Occurrence} {ph : Text}
    (h : (stages options p).counted.segmentAt o = some (.placeholder ph)) :
    Naming.RenamedAt (stages options p).counted pool o ph ∧
      (options.tables = {} → ¬ (stages options p).counted.TakenAt o →
        (renameGlobals (stages options p).counted pool).program.restoredAt o =
          (stages options p).counted.restoredAt o) := by
  refine ⟨Naming.renamedAt pool h, fun htables hfree => ?_⟩
  by_contra hchanged
  obtain ⟨n, o', hn, hn', htaken, -⟩ := (Naming.renamedAt pool h).changes_iff.1 hchanged
  obtain rfl := Program.eq_of_numberAt (nodup_numbers_counted hmark htables hread) hn hn'
  exact hfree htaken

/-! ### A greeting that is a callback -/

/-- A script that calls a function by name and prints the same text. -/
def greetingScript (text : String) : Text :=
  ("function main takes nothing returns nothing\ncall ExecuteFunc(" ++ text ++
    ")\ncall BJDebugMsg(" ++ text ++
    ")\nendfunction\nfunction Later takes nothing returns nothing\nendfunction\n").toList

/-- The program of such a script, with the texts given and its functions used so often. -/
def greetingProgram (literals : List Text) (first second : Text) (uses : Nat) : Program where
  literals := ⟨literals⟩
  functions := [
    { Function.new "main".toList "nothing".toList "nothing".toList
        ("call ExecuteFunc(".toList ++ first ++ ")\ncall BJDebugMsg(".toList ++ second ++
          [')']) with uses },
    { Function.new "Later".toList "nothing".toList "nothing".toList [] with uses }]

/-- A table in which the text is a constant. -/
def greetingOptions : Options where
  tables := { constants := .ofPairs [("MSG".toList, "\"Later\"".toList)] }

/-- The place of the printed text. -/
def greeting : Occurrence := ⟨.body 0, 10⟩

/-- Two literals that read the same are two, and the printed one stays. -/
def twoGreetings (uses : Nat) : Program :=
  greetingProgram ["\"Later\"".toList, "\"Later\"".toList] (Literal.placeholder 0)
    (Literal.placeholder 1) uses

/-- One literal in both places. -/
def oneGreeting (uses : Nat) : Program :=
  greetingProgram ["\"Later\"".toList] (Literal.placeholder 0) (Literal.placeholder 0) uses

theorem not_takenAt_greeting {p : Program} {t : Text} (ht : p.textAt (.body 0) = some t)
    (hfree : ∀ idiom ∈ [Idiom.executeFunc, .variableEvent], ¬ idiom.Selects (segments t) 10) :
    ¬ p.TakenAt greeting := by
  rintro ⟨-, t', -, ht', idiom, hselects⟩
  obtain rfl := Option.some.inj (ht.symm.trans ht')
  refine hfree idiom ?_ hselects
  cases idiom <;> decide

theorem greeting_stays :
    (mark ∉ greetingScript "\"Later\"" ∧
      readProgram (greetingScript "\"Later\"") = .ok (twoGreetings 0) ∧
        (stages {} (twoGreetings 0)).counted.segmentAt greeting =
          some (.placeholder (Literal.placeholder 1)) ∧
        ¬ (stages {} (twoGreetings 0)).counted.TakenAt greeting) ∧
      Naming.RenamedAt (stages {} (twoGreetings 0)).counted (Pool.new .globals) greeting
        (Literal.placeholder 1) ∧
      (renameGlobals (stages {} (twoGreetings 0)).counted (Pool.new .globals)).program.restoredAt
          greeting =
        (stages {} (twoGreetings 0)).counted.restoredAt greeting := by
  have hruns : mark ∉ greetingScript "\"Later\"" ∧
      (readProgram (greetingScript "\"Later\"")).toOption = some (twoGreetings 0) ∧
      (stages {} (twoGreetings 0)).counted = twoGreetings 1 := by
    unfold greetingScript
    rw [String.toList_append, String.toList_append, String.toList_append, String.toList_append]
    repeat rw [String.toList_ofList]
    decide +kernel
  obtain ⟨hmark, hsome, hcounted⟩ := hruns
  have hread := (minify_of_toOption hsome {}).1
  have hsegment : (stages {} (twoGreetings 0)).counted.segmentAt greeting =
      some (.placeholder (Literal.placeholder 1)) := by
    rw [hcounted]
    decide +kernel
  have hfree : ¬ (stages {} (twoGreetings 0)).counted.TakenAt greeting := by
    rw [hcounted]
    exact not_takenAt_greeting rfl (by decide +kernel)
  obtain ⟨hrenamed, hstays⟩ := occurrences_renamed hmark hread (Pool.new .globals) hsegment
  exact ⟨⟨hmark, hread, hsegment, hfree⟩, hrenamed, hstays rfl hfree⟩

/-- A table's literal that a call takes reads differently wherever it occurs. -/
theorem greeting_follows_callback :
    (mark ∉ greetingScript "MSG" ∧ greetingOptions.tables.Clean) ∧
      ∃ p ph, readProgram (greetingScript "MSG") = .ok p ∧
        (stages greetingOptions p).counted.segmentAt greeting = some (.placeholder ph) ∧
        ¬ (stages greetingOptions p).counted.TakenAt greeting ∧
        (stages greetingOptions p).counted.restoredAt greeting = some "\"Later\"".toList ∧
        (renameGlobals (stages greetingOptions p).counted (Pool.new .globals)).program.restoredAt
          greeting =
          some "\"A\"".toList := by
  have hruns :
      (mark ∉ greetingScript "MSG" ∧ ∀ entry ∈ greetingOptions.tables.constants.entries,
        mark ∉ entry.2) ∧
      (readProgram (greetingScript "MSG")).toOption = some
        (greetingProgram [] "MSG".toList "MSG".toList 0) ∧
      (stages greetingOptions (greetingProgram [] "MSG".toList "MSG".toList 0)).counted =
        oneGreeting 1 := by
    unfold greetingScript
    rw [String.toList_append, String.toList_append, String.toList_append, String.toList_append]
    repeat rw [String.toList_ofList]
    decide +kernel
  obtain ⟨⟨hmark, hclean⟩, hsome, hcounted⟩ := hruns
  refine ⟨⟨hmark, nofun, hclean⟩, _, Literal.placeholder 0, (minify_of_toOption hsome {}).1, ?_⟩
  rw [hcounted, ← Naming.program_renameGlobals_congr Pool.dealsLike_unreserved]
  exact ⟨by decide +kernel, not_takenAt_greeting rfl (by decide +kernel), by decide +kernel⟩

end ScriptMinifier
