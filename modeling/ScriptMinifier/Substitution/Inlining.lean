import ScriptMinifier.Layout
import ScriptMinifier.Program
import ScriptMinifier.Substitution.Table
import ScriptMinifier.Text.Argument

/-! Putting replacements in place of names.

A call of a function in the table is replaced by its template with the call's arguments
put in, after the arguments themselves have been treated; what is put in is not treated
again. A constant in the table is replaced wherever it is named and not hidden. A
replacement is squeezed, and its literals are lifted out, when it is first looked up. -/
namespace ScriptMinifier.Substitution

open Text (Segment mark isWordChar splitClose? arguments)

/-! ### State -/

/-- The replacements looked up so far, the literals, and what has been told. -/
structure Inlining where
  templates : Text.Dictionary Text := .empty
  literals : Literals
  journal : Journal := []

namespace Inlining

/-- How many replacements have been looked up. -/
def used (s : Inlining) : Nat := s.templates.size

/-- Tells something. -/
def tell (s : Inlining) (message : Message) : Inlining :=
  { s with journal := s.journal ++ [message] }

/-- The replacement of a name, ready to be put in. -/
def lookup? (table : Table) (s : Inlining) (name : Text) : Option (Text × Inlining) :=
  match s.templates.find? name with
  | some template => some (template, s)
  | none =>
    (table.find? name).map fun raw =>
      let (lifted, literals) := s.literals.lift raw
      let template := Layout.squeezeBlock lifted
      (template, { s with templates := s.templates.insert name template, literals })

end Inlining

/-! ### Calls -/

/-- What is written before a replacement, last character first. A replacement that is an
assignment takes the place of the word `call` too. -/
def beforeReplacement (replacement out : Text) : Text :=
  if "set ".toList.isPrefixOf replacement && "call ".toList.reverse.isPrefixOf out then out.drop 5
  else out

theorem length_tail_lt {c : Char} {rest inner inside tail : Text}
    (ha : rest.dropWhile isWordChar = '(' :: inner) (hs : splitClose? inner = some (inside, tail)) :
    inside.length + tail.length + 2 < (c :: rest).length := by
  have h₁ := Text.length_dropWhile_le isWordChar rest
  have h₂ := congrArg List.length (Text.closeFrom_eq_some hs)
  simp only [ha, List.length_append, List.length_cons] at h₁ h₂ ⊢
  omega

mutual

/-- A text with its calls replaced; `out` is what has been written, last character
first. -/
def inlineFrom (table : Table) (s : Inlining) (out : Text) : Text → Text × Inlining
  | [] => (out.reverse, s)
  | c :: rest =>
    if c = mark then
      inlineFrom table s ((Text.throughMark rest).reverse ++ c :: out) (Text.afterMark rest)
    else if isWordChar c then
      let name := c :: rest.takeWhile isWordChar
      match _ha : rest.dropWhile isWordChar with
      | '(' :: inner =>
        match s.lookup? table name with
        | none => inlineFrom table s (name.reverse ++ out) ('(' :: inner)
        | some (template, s) =>
          match _hs : splitClose? inner with
          | none => inlineFrom table s (name.reverse ++ out) ('(' :: inner)
          | some (inside, tail) =>
            let (args, s) := inlineEach table s (arguments inside)
            match expand? template args with
            | some replacement =>
              let s := s.tell (debug ["inline: ".toList, name, " with ".toList,
                Text.ofNat args.length, " args".toList])
              inlineFrom table s (replacement.reverse ++ beforeReplacement replacement out) tail
            | none =>
              let s := s.tell (warn ["inline: ".toList, name,
                " takes more arguments than given, leaving the call".toList])
              inlineFrom table s ((name ++ '(' :: inside ++ [')']).reverse ++ out) tail
      | after => inlineFrom table s (name.reverse ++ out) after
    else inlineFrom table s (c :: out) rest
termination_by t => t.length
decreasing_by
  · exact Nat.lt_succ_of_le (Text.length_afterMark_le rest)
  · have := Text.length_dropWhile_le isWordChar rest
    simp only [_ha, List.length_cons] at this ⊢
    omega
  · have := Text.length_dropWhile_le isWordChar rest
    simp only [_ha, List.length_cons] at this ⊢
    omega
  · have := length_tail_lt (c := c) _ha _hs
    have := Text.span_arguments_le inside
    omega
  · have := length_tail_lt (c := c) _ha _hs
    omega
  · have := length_tail_lt (c := c) _ha _hs
    omega
  · have := Text.length_dropWhile_le isWordChar rest
    simp only [_ha, List.length_cons] at this ⊢
    omega
  · exact Nat.lt_succ_self _

/-- Texts with their calls replaced, one after the other. -/
def inlineEach (table : Table) (s : Inlining) : List Text → List Text × Inlining
  | [] => ([], s)
  | arg :: rest =>
    let (first, s) := inlineFrom table s [] arg
    let (more, s) := inlineEach table s rest
    (first :: more, s)
termination_by args => Text.span args
decreasing_by
  · simp only [Text.span]
    omega
  · simp only [Text.span]
    omega

end

/-- A text with the calls of functions in a table replaced. -/
def inlineCalls (table : Table) (s : Inlining) (t : Text) : Text × Inlining :=
  inlineFrom table s [] t

/-! ### Constants -/

/-- Segments with the words in a table replaced, except the hidden ones. -/
def inlineSegments (table : Table) (hidden : List Text) (s : Inlining) :
    List Segment → Text × Inlining
  | [] => ([], s)
  | segment :: rest =>
    let (first, s) := match segment.word?.filter (!hidden.contains ·) with
      | some w => (s.lookup? table w).getD (w, s)
      | none => (segment.text, s)
    let (more, s) := inlineSegments table hidden s rest
    (first ++ more, s)

/-- A text with the constants in a table replaced, except the hidden ones. -/
def inlineConstants (table : Table) (hidden : List Text) (s : Inlining) (t : Text) :
    Text × Inlining :=
  inlineSegments table hidden s (Text.segments t)

/-! ### Programs -/

/-- The state of inlining a whole program: the replacements looked up in either table. -/
structure ProgramInlining where
  functions : Text.Dictionary Text := .empty
  constants : Text.Dictionary Text := .empty
  literals : Literals
  journal : Journal := []

/-- The tables of a run. -/
structure Tables where
  functions : Table := .empty
  constants : Table := .empty

namespace Tables

/-- A text with the calls of table functions replaced. -/
def inlineCallsIn (tables : Tables) (s : ProgramInlining) (t : Text) : Text × ProgramInlining :=
  if tables.functions.isEmpty then (t, s)
  else
    let (out, r) := inlineCalls tables.functions ⟨s.functions, s.literals, s.journal⟩ t
    (out, { s with functions := r.templates, literals := r.literals, journal := r.journal })

/-- A text with table constants replaced, except the hidden ones. -/
def inlineConstantsIn (tables : Tables) (hidden : List Text) (s : ProgramInlining) (t : Text) :
    Text × ProgramInlining :=
  if tables.constants.isEmpty then (t, s)
  else
    let (out, r) := inlineConstants tables.constants hidden ⟨s.constants, s.literals, s.journal⟩ t
    (out, { s with constants := r.templates, literals := r.literals, journal := r.journal })

/-- The functions with their bodies treated, calls before constants. -/
def inlineFunctions (tables : Tables) (s : ProgramInlining) :
    List Syntax.Function → List Syntax.Function × ProgramInlining
  | [] => ([], s)
  | f :: rest =>
    let (body, s) := tables.inlineCallsIn s f.body
    let f := { f with body }
    let (body, s) := tables.inlineConstantsIn f.scopedNames s f.body
    let (more, s) := tables.inlineFunctions s rest
    ({ f with body } :: more, s)

/-- The declarations with their values treated. -/
def inlineValues (tables : Tables) (s : ProgramInlining) :
    List Syntax.Declaration → List Syntax.Declaration × ProgramInlining
  | [] => ([], s)
  | d :: rest =>
    let (value, s) := match d.value with
      | some t =>
        let (out, s) := tables.inlineConstantsIn [] s t
        (some out, s)
      | none => (none, s)
    let (more, s) := tables.inlineValues s rest
    ({ d with value } :: more, s)

/-- The program with table functions and constants replaced, and the state at the end. -/
def inlineAll (tables : Tables) (p : Program) : Program × ProgramInlining :=
  let (functions, s) := tables.inlineFunctions { literals := p.literals } p.functions
  let (declarations, s) := tables.inlineValues s p.declarations
  ({ p with literals := s.literals, declarations, functions }, s)

/-- The program with table functions and constants replaced. -/
def inline (tables : Tables) (p : Program) : Program := (tables.inlineAll p).1

/-- The messages of inlining. -/
def journal (tables : Tables) (p : Program) : Journal :=
  let s := (tables.inlineAll p).2
  s.journal ++ [info ["inlined ".toList, Text.ofNat s.functions.size,
    " external functions and ".toList, Text.ofNat s.constants.size, " external constants".toList]]

end Tables
end ScriptMinifier.Substitution
