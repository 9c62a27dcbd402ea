import ScriptMinifier.Output.Truth
import ScriptMinifier.Proofs.Naming.History
import ScriptMinifier.Proofs.Output.RecastLengths

/-! What constants for the truth values cost and save.

Replacing a word by a name changes the text of a program by the bytes of the occurrences, whatever
the program is (`emit_replaceWord`): nothing else in the text is written in another way. The rule
for replacing counts the occurrences and the declaration, but not the line that the declaration
stands on, nor the lines `globals` and `endglobals` where there was no declaration before
(`byteLength_emit_extractTruth`). -/
namespace ScriptMinifier

open Text (mark isWordChar isIdent byteLength words replaceWords ended)
open Syntax (Declaration Function Native)
open Naming (Pool)

/-! ### Replacing one word -/

/-- A name for a word, and nothing else replaced. -/
def Text.only (word name : Text) : Text → Option Text :=
  fun w => if w = word then some name else none

namespace Text

variable {word name : Text}

theorem only_eq_some {w r : Text} : only word name w = some r ↔ w = word ∧ r = name := by
  rw [only, Option.ite_none_right_eq_some, Option.some.injEq, eq_comm (a := name)]

/-- Replacing a word exchanges the bytes of its occurrences. -/
theorem byteLength_replaceWords_only (word name t : Text) :
    byteLength (replaceWords (only word name) t) + (words t).count word * byteLength word =
      byteLength t + (words t).count word * byteLength name := by
  rw [replaceWords, words, ← congrArg byteLength (flatMap_text_segments t)]
  induction segments t with
  | nil => simp
  | cons s rest ih =>
    rw [List.flatMap_cons, List.flatMap_cons, byteLength_append, byteLength_append,
      List.filterMap_cons]
    cases s with
    | placeholder u | other u =>
      simp only [Segment.word?, Segment.replaced, Segment.text]
      omega
    | word w =>
      simp only [Segment.word?, Segment.replaced, Segment.text, only]
      by_cases hw : w = word
      · rw [if_pos hw, hw, List.count_cons_self, Option.getD_some, Nat.succ_mul, Nat.succ_mul]
        omega
      · rw [if_neg hw, List.count_cons_of_ne hw, Option.getD_none]
        omega

theorem byteLength_ended (ls : List Text) :
    byteLength (ended ls) = (ls.map fun l => byteLength l + 1).sum := by
  induction ls with
  | nil => rfl
  | cons l rest ih =>
    rw [ended_cons, byteLength_append, byteLength_cons, ih, List.map_cons, List.sum_cons,
      Nat.add_assoc]
    rfl

end Text

/-- Where each of some numbers changes by so much a count, their sum does. -/
theorem sum_exchange {α : Type} (xs : List α) {a b c : α → Nat} {m n : Nat}
    (h : ∀ x ∈ xs, a x + c x * m = b x + c x * n) :
    (xs.map a).sum + (xs.map c).sum * m = (xs.map b).sum + (xs.map c).sum * n := by
  induction xs with
  | nil => simp
  | cons x rest ih =>
    rw [List.forall_mem_cons] at h
    have hrest := ih h.2
    have hfirst := h.1
    simp only [List.map_cons, List.sum_cons, Nat.add_mul]
    omega

/-! ### Programs part by part -/

namespace Syntax.Declaration

/-- The declaration with words replaced, unless it is a constant. -/
def replaceOpen (g : Text → Option Text) (d : Declaration) : Declaration :=
  if d.constant then d else d.mapValue (replaceWords g)

/-- How often a word stands where it may be replaced. -/
def openUses (word : Text) (d : Declaration) : Nat :=
  if d.constant then 0 else (Text.words (d.value.getD [])).count word

/-- What is written behind the name of a declaration with words replaced. -/
theorem assigned_mapValue {g : Text → Option Text} (hg : Text.Smooth g) (d : Declaration) :
    (d.mapValue (replaceWords g)).assigned = [] ∧ d.assigned = [] ∧ d.value.getD [] = [] ∨
      ∃ v, d.value = some v ∧ d.assigned = '=' :: v ∧
      (d.mapValue (replaceWords g)).assigned = '=' :: replaceWords g v := by
  unfold assigned mapValue
  dsimp only
  match d.value with
  | none => exact .inl ⟨rfl, rfl, rfl⟩
  | some [] => exact .inl ⟨by rw [Option.map_some, Text.replaceWords_nil], rfl, rfl⟩
  | some (c :: rest) =>
    obtain ⟨e, more, hmore⟩ :=
      List.exists_cons_of_ne_nil (Sealed.replaceWords_ne_nil hg (List.cons_ne_nil c rest))
    exact .inr ⟨_, rfl, rfl, by rw [Option.map_some, hmore]⟩

theorem byteLength_replaceOpen {word name : Text} (hsmooth : Text.Smooth (Text.only word name))
    (d : Declaration) :
    byteLength (d.replaceOpen (Text.only word name)).render + d.openUses word * byteLength word =
      byteLength d.render + d.openUses word * byteLength name := by
  unfold replaceOpen openUses
  split
  · rw [Nat.zero_mul, Nat.zero_mul]
  · rw [render_eq, render_eq, Text.byteLength_append, Text.byteLength_append]
    rcases d.assigned_mapValue hsmooth with ⟨hnew, hold, hvalue⟩ | ⟨v, hvalue, hold, hnew⟩
    · rw [hnew, hold, hvalue, Text.words_nil, List.count_nil, Nat.zero_mul, Nat.zero_mul]
      rfl
    · have hlength := Text.byteLength_replaceWords_only word name v
      rw [hnew, hold, hvalue, Option.getD_some, Text.byteLength_cons, Text.byteLength_cons]
      change byteLength (Text.joined ' ' d.words) + _ + _ = _
      omega

theorem recast_replaceOpen {g : Text → Option Text} (hg : Text.Smooth g) (d : Declaration) :
    Recast g d.render (d.replaceOpen g).render := by
  unfold replaceOpen
  split
  · exact .refl _
  · have hwords : (d.mapValue (replaceWords g)).words = d.words := rfl
    rw [render_eq, render_eq, hwords]
    rcases d.assigned_mapValue hg with ⟨hnew, hold, -⟩ | ⟨v, -, hold, hnew⟩
    · rw [hnew, hold]
      exact .refl _
    · rw [hnew, hold]
      exact (Recast.refl _).append_cons (by decide) (.replaceWords g v)

end Syntax.Declaration

namespace Syntax.Function

/-- The function with words of its body replaced. -/
def replaceBody (g : Text → Option Text) (f : Function) : Function :=
  { f with body := replaceWords g f.body }

theorem byteLength_replaceBody (word name : Text) (f : Function) :
    byteLength (f.replaceBody (Text.only word name)).render +
        (words f.body).count word * byteLength word =
      byteLength f.render + (words f.body).count word * byteLength name := by
  have hbody := Text.byteLength_replaceWords_only word name f.body
  have hopening : (f.replaceBody (Text.only word name)).opening = f.opening := rfl
  rw [render_eq, render_eq, hopening, replaceBody]
  generalize f.opening = start, "endfunction".toList = last
  simp only [Text.byteLength_append, Text.byteLength_cons]
  omega

theorem recast_replaceBody (g : Text → Option Text) (f : Function) :
    Recast g f.render (f.replaceBody g).render := by
  have hnewline : isWordChar '\n' = false := by decide
  rw [render_eq, render_eq]
  exact (Recast.refl f.opening).append_cons hnewline
    ((Recast.replaceWords g f.body).append_cons hnewline (.refl _))

end Syntax.Function

namespace Program

/-- A program with words replaced, but for the values of constants. -/
def replaceOpen (g : Text → Option Text) (p : Program) : Program :=
  { p with
    declarations := p.declarations.map (Declaration.replaceOpen g)
    functions := p.functions.map (Function.replaceBody g) }

/-- What the text of a program is made of. Each part ends its line. -/
def parts (p : Program) : List Text :=
  (if p.declarations = [] then []
    else "globals".toList :: (p.declarations.map Declaration.render ++ ["endglobals".toList])) ++
    (p.natives.map Native.render ++ p.functions.map Function.render)

variable {p : Program} {word name : Text}

theorem assemble_eq_parts (p : Program) : Output.assemble p = ended p.parts := by
  have hmap {α : Type} (f : α → Text) (xs : List α) :
      ended (xs.map f) = xs.flatMap fun x => f x ++ ['\n'] := by
    rw [ended, List.flatMap_map]
  simp only [Output.assemble, parts, Text.ended_append, hmap]
  split
  · simp
  · rw [Text.ended_cons, Text.ended_append, hmap]
    simp [ended]

theorem replaceWord_eq (word name : Text) (p : Program) : Output.replaceWord word name p =
    { p.replaceOpen (Text.only word name) with
      declarations := Output.truthConstant word name (Output.wordUses p word) ::
        (p.replaceOpen (Text.only word name)).declarations } := rfl

theorem wordUses_eq (p : Program) (word : Text) : Output.wordUses p word =
    (p.declarations.map (Declaration.openUses word)).sum +
    (p.functions.map fun f => (words f.body).count word).sum := by
  have hglobals : (p.globals.map fun d => (words (d.value.getD [])).count word).sum =
      (p.declarations.map (Declaration.openUses word)).sum := by
    rw [globals]
    induction p.declarations with
    | nil => rfl
    | cons d rest ih =>
      rw [List.map_cons, List.sum_cons, List.filter_cons, ← ih, Declaration.openUses]
      cases d.constant
      · rfl
      · exact (Nat.zero_add _).symm
  rw [Output.wordUses, List.count_append, List.count_flatMap, List.count_flatMap, ← hglobals]
  rfl

/-- The bytes of the lines around the declarations, which stand there only with a declaration. -/
def frame (p : Program) : Nat :=
  if p.declarations = [] then 0 else byteLength (ended ["globals".toList, "endglobals".toList])

theorem byteLength_ended_parts (p : Program) : byteLength (ended p.parts) =
    p.frame + (p.declarations.map fun d => byteLength d.render + 1).sum +
      ((p.natives.map fun n => byteLength n.render + 1).sum +
        (p.functions.map fun f => byteLength f.render + 1).sum) := by
  have hmap {α : Type} (f : α → Text) (xs : List α) :
      byteLength (ended (xs.map f)) = (xs.map fun x => byteLength (f x) + 1).sum := by
    rw [Text.byteLength_ended, List.map_map]
    rfl
  rw [parts, frame, Text.ended_append, Text.ended_append, Text.byteLength_append,
    Text.byteLength_append, hmap, hmap]
  split
  · rename_i hnone
    rw [hnone]
    rfl
  · simp only [Text.ended_cons, Text.ended_append, Text.byteLength_append, Text.byteLength_cons,
      hmap]
    omega

/-- The text changes by the bytes of the occurrences. -/
theorem byteLength_replaceOpen (hsmooth : Text.Smooth (Text.only word name)) (p : Program) :
    byteLength (ended (p.replaceOpen (Text.only word name)).parts) +
      Output.wordUses p word * byteLength word =
      byteLength (ended p.parts) + Output.wordUses p word * byteLength name := by
  have hdeclarations := sum_exchange p.declarations (m := byteLength word) (n := byteLength name)
    (a := fun d => byteLength (d.replaceOpen (Text.only word name)).render + 1)
      (b := fun d => byteLength d.render + 1)
    (c := Declaration.openUses word) fun d _ => by
      have := d.byteLength_replaceOpen hsmooth
      omega
  have hfunctions := sum_exchange p.functions (m := byteLength word) (n := byteLength name)
    (a := fun f => byteLength (f.replaceBody (Text.only word name)).render + 1)
      (b := fun f => byteLength f.render + 1)
    (c := fun f => (words f.body).count word) fun f _ => by
      have := f.byteLength_replaceBody word name
      omega
  have hframe : (p.replaceOpen (Text.only word name)).frame = p.frame := by
    unfold frame replaceOpen
    simp only [List.map_eq_nil_iff]
  rw [byteLength_ended_parts, byteLength_ended_parts, hframe, wordUses_eq]
  simp only [replaceOpen, List.map_map, Function.comp_def, Nat.add_mul]
  omega

theorem recast_parts {g : Text → Option Text} (hg : Text.Smooth g) (p : Program) :
    List.Forall₂ (Recast g) p.parts (p.replaceOpen g).parts := by
  have hmap {α : Type} {f f' : α → Text} (h : ∀ x, Recast g (f x) (f' x)) (xs : List α) :
      List.Forall₂ (Recast g) (xs.map f) (xs.map f') := by
    rw [List.forall₂_map_left_iff, List.forall₂_map_right_iff]
    exact List.forall₂_same.2 fun x _ => h x
  have hnil : p.declarations.map (Declaration.replaceOpen g) = [] ↔ p.declarations = [] :=
    List.map_eq_nil_iff
  simp only [parts, replaceOpen, hnil, List.map_map]
  refine List.rel_append ?_
    (List.rel_append (hmap (fun n => .refl _) _) (hmap (Function.recast_replaceBody g) _))
  split
  · exact .nil
  · exact .cons (.refl _)
      (List.rel_append (hmap (Declaration.recast_replaceOpen hg) _) (.cons (.refl _) .nil))

end Program

namespace Output

variable {p : Program} {word name : Text}

/-! ### The program written -/

theorem byteLength_emit (p : Program) :
    byteLength (emit p) = p.literals.writtenLength true (shortenNumerals (ended p.parts)) := by
  rw [emit, compact, Program.assemble_eq_parts]
  rfl

/-- A line that is written as it is. -/
structure Steady (l : Text) : Prop where
  ne_nil : l ≠ []
  newline : '\n' ∉ l
  mark : mark ∉ l
  short : shortenNumerals l = l

theorem Steady.writtenLength {ls : Literals} {l t : Text} (h : Steady l) :
    ls.writtenLength true (shortenNumerals (l ++ '\n' :: t)) =
      byteLength l + 1 + ls.writtenLength true (shortenNumerals t) := by
  rw [shortenNumerals_append_cons (n := 0) (.of_not_mem h.mark) (by decide) (by decide) (by decide),
    h.short, Literals.writtenLength_append h.ne_nil h.newline h.mark,
    Literals.writtenLength_newline]
  simp only [Bool.false_eq_true, if_false]
  omega

theorem namesWords_only (hword : word ∈ truthWords) (hname : isIdent name = true)
    (hshort : name.length ≤ 4) :
    NamesWords (Text.only word name) := by
  have hwords : ∀ word ∈ truthWords, isIdent word = true ∧ hexValue? word = none := by
    decide +kernel
  constructor
  all_goals
    intro w r h
    obtain ⟨rfl, rfl⟩ := Text.only_eq_some.1 h
  · exact (hwords w hword).1
  · exact (hwords w hword).2
  · exact hname
  · exact hshort

/-- The declaration of a constant has no number to make short. -/
theorem steady_truthConstant (hword : word ∈ truthWords) (hname : isIdent name = true)
    (uses : Nat) :
    Steady (truthConstant word name uses).render := by
  have hwords : ∀ w ∈ (truthConstant word name uses).words, isIdent w = true := by
    have hlist :
        (truthConstant word name uses).words = ["constant".toList, "boolean".toList, name] := rfl
    rw [hlist]
    exact List.forall_mem_cons.2
      ⟨by decide, List.forall_mem_cons.2 ⟨by decide, List.forall_mem_singleton.2 hname⟩⟩
  have hassigned : (truthConstant word name uses).assigned = '=' :: word := by
    have htruth : word = "true".toList ∨ word = "false".toList := by simpa [truthWords] using hword
    rcases htruth with rfl | rfl <;> rfl
  have hvalue : ∀ word ∈ truthWords, shortenNumerals word = word ∧ '\n' ∉ '=' :: word ∧
      mark ∉ '=' :: word := by decide +kernel
  obtain ⟨hshort, hnewline, hmark⟩ := hvalue word hword
  have htail (before : Option Char) : shortenFrom before ('=' :: word) = '=' :: word := by
    rw [(apart_cons (by decide) (by decide) (by decide) word).alone, hshort]
  have hne := (truthConstant word name uses).words_ne_nil
  rw [Declaration.render_eq, hassigned]
  refine ⟨List.append_ne_nil_of_right_ne_nil _ (List.cons_ne_nil _ _), ?_, ?_,
    shortenFrom_joined hne hwords htail (Text.startsNoWord_of_isOtherChar (by decide) word) none⟩
  · rw [List.mem_append, not_or]
    exact ⟨Text.not_mem_joined hne hwords (by decide) (by decide), hnewline⟩
  · rw [List.mem_append, not_or]
    exact ⟨Text.not_mem_joined hne hwords (by decide) (by decide), hmark⟩

/-- The constant takes a line, and the lines around the declarations if it is the first of them. -/
theorem byteLength_emit_replaceWord (hword : word ∈ truthWords) (hname : isIdent name = true)
    (p : Program) :
    byteLength (emit (replaceWord word name p)) + p.frame =
      byteLength (emit (p.replaceOpen (Text.only word name))) +
      (byteLength (truthConstant word name (wordUses p word)).render + 1 +
        (replaceWord word name p).frame) := by
  have hconstant := steady_truthConstant hword hname (wordUses p word)
  have hglobals : Steady "globals".toList := ⟨by decide, by decide, by decide, by decide +kernel⟩
  have hendglobals : Steady "endglobals".toList :=
    ⟨by decide, by decide, by decide, by decide +kernel⟩
  have hliterals :
      (replaceWord word name p).literals = (p.replaceOpen (Text.only word name)).literals := rfl
  have hnil : (p.replaceOpen (Text.only word name)).declarations = [] ↔ p.declarations = [] :=
    List.map_eq_nil_iff
  rw [byteLength_emit, byteLength_emit, hliterals, Program.replaceWord_eq, Program.frame,
    Program.frame, Program.parts, Program.parts]
  simp only [hnil, List.cons_ne_nil, if_false]
  by_cases hnone : p.declarations = []
  · have hdeclarations : (p.replaceOpen (Text.only word name)).declarations = [] := hnil.2 hnone
    simp only [hdeclarations, hnone, if_true, List.map_cons, List.map_nil, List.nil_append,
      List.cons_append, Text.ended_cons, Text.ended_nil, hglobals.writtenLength,
      hconstant.writtenLength, hendglobals.writtenLength, Text.byteLength_append,
      Text.byteLength_cons, Text.byteLength_nil]
    have hnewline : '\n'.utf8Size = 1 := rfl
    omega
  · simp only [hnone, if_false, List.map_cons, List.cons_append, Text.ended_cons,
      hglobals.writtenLength, hconstant.writtenLength]
    omega

/-- What a constant for a word costs and saves, whatever the program is. -/
theorem emit_replaceWord (hword : word ∈ truthWords) (hname : isIdent name = true)
    (hshort : name.length ≤ 4) (p : Program) :
    byteLength (emit (replaceWord word name p)) + wordUses p word * byteLength word + p.frame =
      byteLength (emit p) + wordUses p word * byteLength name +
        (byteLength (truthConstant word name (wordUses p word)).render + 1 +
          (replaceWord word name p).frame) := by
  have hnames := namesWords_only hword hname hshort
  have hconstant := byteLength_emit_replaceWord hword hname p
  have htext := p.byteLength_replaceOpen hnames.smooth
  have hemit :
      byteLength (emit (p.replaceOpen (Text.only word name))) + byteLength (ended p.parts) =
      byteLength (emit p) + byteLength (ended (p.replaceOpen (Text.only word name)).parts) := by
    rw [byteLength_emit, byteLength_emit]
    exact (Recast.ended (p.recast_parts hnames.smooth)).writtenLength hnames none true
  omega

/-! ### Extracting the truth values -/

/-- The bytes of the occurrences that an extraction replaces. -/
def Extraction.replaced (x : Extraction) : Nat := x.uses * byteLength x.word

/-- The bytes that an extraction puts in: the name as often, and the line of its declaration. -/
def Extraction.paid (x : Extraction) : Nat :=
  x.uses * byteLength x.name + (byteLength (truthConstant x.word x.name x.uses).render + 1)

theorem length_le_of_worthExtracting {uses : Nat} (hword : word ∈ truthWords)
    (hname : isIdent name = true)
    (h : worthExtracting word name uses = true) : name.length ≤ 4 := by
  have hlong : ∀ word ∈ truthWords, byteLength word ≤ 5 := by decide
  have hbytes := Text.byteLength_of_isWordChar (Text.isWordChar_of_isIdent hname)
  have hlt : byteLength name < byteLength word := by
    rw [worthExtracting, decide_eq_true_eq] at h
    exact Nat.lt_of_mul_lt_mul_left (Nat.lt_of_le_of_lt (Nat.le_add_right _ _) h)
  have := hlong word hword
  omega

/-- The text before and after, extraction by extraction. -/
theorem emit_extractWords {ws : List Text} (hws : ∀ w ∈ ws, w ∈ truthWords) (p : Program)
    (pool : Pool) :
    byteLength (emit (extractWords p pool ws).program) +
    ((extractWords p pool ws).extractions.map Extraction.replaced).sum + p.frame =
        byteLength (emit p) + ((extractWords p pool ws).extractions.map Extraction.paid).sum +
        (extractWords p pool ws).program.frame ∧
      ∀ x ∈ (extractWords p pool ws).extractions, x.paid ≤ x.replaced := by
  induction ws generalizing p pool with
  | nil => exact ⟨rfl, nofun⟩
  | cons word rest ih =>
    rw [List.forall_mem_cons] at hws
    rw [extractWords]
    dsimp only
    split
    · exact ih hws.2 p pool
    · rename_i hworth
      rw [not_or, Bool.not_eq_true', Bool.not_eq_false] at hworth
      have hident : isIdent pool.draw.1 = true :=
        Pool.isIdent_of_mem_drawMany (n := 1) List.mem_cons_self
      have hone :=
        emit_replaceWord hws.1 hident (length_le_of_worthExtracting hws.1 hident hworth.2) p
      obtain ⟨hmore, hpaid⟩ := ih hws.2 (replaceWord word pool.draw.1 p) pool.draw.2
      refine ⟨?_, List.forall_mem_cons.2 ⟨?_, hpaid⟩⟩
      · simp only [List.map_cons, List.sum_cons, Extraction.replaced, Extraction.paid] at hmore ⊢
        omega
      · have hlt := hworth.2
        rw [worthExtracting, decide_eq_true_eq] at hlt
        exact hlt

/-- There is a declaration once there was one or a word has been extracted. -/
theorem declarations_extractWords {ws : List Text} (p : Program) (pool : Pool) :
    (extractWords p pool ws).program.declarations = [] ↔ p.declarations = [] ∧
    (extractWords p pool ws).extractions = [] := by
  induction ws generalizing p pool with
  | nil => simp [extractWords]
  | cons word rest ih =>
    rw [extractWords]
    dsimp only
    split
    · exact ih p pool
    · rw [ih, Program.replaceWord_eq]
      simp

/-- The bytes of the lines around the declarations, where an extraction makes the first
declaration. -/
def firstCost (p : Program) (e : Extracted) : Nat :=
  if p.declarations = [] ∧
    e.extractions ≠ [] then byteLength (ended ["globals".toList, "endglobals".toList]) else 0

theorem frame_extractWords {ws : List Text} (p : Program) (pool : Pool) :
    (extractWords p pool ws).program.frame = p.frame + firstCost p (extractWords p pool ws) := by
  have hiff : (extractWords p pool ws).program.declarations = [] ↔ _ :=
    declarations_extractWords p pool
  unfold Program.frame firstCost
  simp only [hiff, ne_eq]
  split_ifs <;> simp_all

/-- **Extracting the truth values makes the text shorter** just when the occurrences have more bytes
than the names, the declarations and the lines that these take. The rule does not count those lines,
so the text may stay as long, and get longer by the lines around the declarations where there was
none. -/
theorem byteLength_emit_extractTruth (p : Program) (pool : Pool) :
    let e := extractTruth p pool
    let replaced := (e.extractions.map Extraction.replaced).sum
    let paid := (e.extractions.map Extraction.paid).sum + firstCost p e
    byteLength (emit e.program) + replaced = byteLength (emit p) + paid ∧
      (byteLength (emit e.program) < byteLength (emit p) ↔ paid < replaced) ∧
      byteLength (emit e.program) ≤ byteLength (emit p) + firstCost p e := by
  intro e replaced paid
  obtain ⟨hlength, hpaid⟩ := emit_extractWords (fun w (hw : w ∈ truthWords) => hw) p pool
  have hsum : (e.extractions.map Extraction.paid).sum ≤ replaced := List.sum_le_sum hpaid
  have hequation : byteLength (emit e.program) + replaced = byteLength (emit p) + paid := by
    rw [frame_extractWords] at hlength
    change byteLength (emit e.program) + replaced + p.frame =
      byteLength (emit p) + (e.extractions.map Extraction.paid).sum +
        (p.frame + firstCost p e) at hlength
    omega
  refine ⟨hequation, ?_, ?_⟩
  · omega
  · omega

/-- A program without declarations that assigns `true` eight times. -/
def assigningProgram : Program :=
  { functions := [Function.new "main".toList "nothing".toList "nothing".toList
      (Text.joined '\n' (List.replicate 8 "set x=true".toList))] }

/-- The lines around its only declaration cost what the names save, and more. -/
theorem extraction_lengthens :
    ¬ ∀ (p : Program) (requests : List Pool.Request),
    (extractTruth p ((Pool.new .globals).after requests)).extractions ≠ [] →
      byteLength (emit (extractTruth p ((Pool.new .globals).after requests)).program) < byteLength
      (emit p) := by
  intro h
  have hextractions : (extractTruth assigningProgram (.new .globals)).extractions =
      [⟨"true".toList, 8, ['A']⟩] := by decide +kernel
  have hshorter :=
    h assigningProgram [] (by rw [Pool.after, hextractions]; exact List.cons_ne_nil _ _)
  obtain ⟨hlength, -⟩ :=
    emit_extractWords (fun w (hw : w ∈ truthWords) => hw) assigningProgram (.new .globals)
  have hfirst :
      firstCost assigningProgram (extractTruth assigningProgram (.new .globals)) = 19 := by
    rw [firstCost, hextractions, if_pos ⟨rfl, List.cons_ne_nil _ _⟩]
    decide
  have hreplaced : Extraction.replaced ⟨"true".toList, 8, ['A']⟩ = 32 := by decide
  have hpaid : Extraction.paid ⟨"true".toList, 8, ['A']⟩ = 32 := by decide
  rw [frame_extractWords, ← extractTruth, hextractions, hfirst, List.map_singleton,
    List.map_singleton, List.sum_singleton, List.sum_singleton, hreplaced, hpaid] at hlength
  rw [Pool.after] at hshorter
  omega

end Output
end ScriptMinifier
