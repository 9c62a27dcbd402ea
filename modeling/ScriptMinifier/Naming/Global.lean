import ScriptMinifier.Naming.Pool
import ScriptMinifier.Program
import ScriptMinifier.Text.Dictionary
import ScriptMinifier.Usage.Idiom

/-! Short names for constants, globals and functions.

They share one pool, and the most used get the first names; among equals constants come
before globals and globals before functions, each in the order of the program. Entries
keep their names. Words of the program that keep their form are reserved in the pool, so
no new name meets them, now or later. -/
namespace ScriptMinifier.Naming

open Syntax (Declaration Function)
open Text (Segment)
open Usage (Idiom)

/-! ### Who gets a name -/

/-- Names in the order of their counts, highest first. -/
def byCount (items : List (Text × Int)) : List Text :=
  (ranked (fun a b => decide (b.2 ≤ a.2)) items).map Prod.fst

/-- What is to be renamed, with its uses. -/
def globalItems (p : Program) : List (Text × Int) :=
  (p.constants ++ p.globals).map (fun d => (d.name, (d.uses : Int))) ++
    (p.functions.filter (!·.entry)).map fun f => (f.name, (f.uses : Int))

/-- Every word that the program's text will hold, literals apart. -/
def programWords (p : Program) : List Text :=
  p.declarations.flatMap (fun d => d.type :: d.name :: Text.words (d.value.getD [])) ++
    p.natives.flatMap (fun n => n.name :: n.result :: n.params.flatMap fun q => [q.type, q.name]) ++
    p.functions.flatMap fun f => f.name :: f.result :: Text.words f.params ++ Text.words f.body

/-- The names to be replaced, in the order in which new ones are dealt. -/
def globalOrder (p : Program) : List Text := Text.distinct (byCount (globalItems p))

/-- The pool with the words reserved that keep their form. -/
def reserveKept (p : Program) (pool : Pool) : Pool :=
  let replaced := globalOrder p
  pool.reserve ((programWords p).filter (!replaced.contains ·))

/-- The new names, in the order in which they are dealt, and the pool after it. -/
def dealGlobals (p : Program) (pool : Pool) : List (Text × Text) × Pool :=
  (reserveKept p pool).deal (globalOrder p)

/-! ### Putting names in place -/

/-- Segments with their first word replaced. -/
def replaceFirstWord (names : Text.Renaming) : List Segment → Text
  | [] => []
  | .word w :: rest => (names.find? w).getD w ++ rest.flatMap Segment.text
  | s :: rest => s.text ++ replaceFirstWord names rest

/-- The literals that name a function or a variable, each once. -/
def namingLiterals (p : Program) : List Nat :=
  (p.functions.flatMap fun f => Idiom.executeFunc.ids f.body ++ Idiom.variableEvent.ids
    f.body).eraseDups

/-- The literals with the names in some of them replaced. -/
def renameLiterals (names : Text.Renaming) (ids : List Nat) (ls : Literals) : Literals :=
  ids.foldl (fun ls id =>
    match ls.get? id with
    | some lit => ls.set id (replaceFirstWord names (Text.segments lit))
    | none => ls) ls

/-- A name, or its replacement. -/
def renamed (names : Text.Renaming) (name : Text) : Text := (names.find? name).getD name

/-- A declaration with names replaced. -/
def renameDeclaration (names : Text.Renaming) (d : Declaration) : Declaration :=
  { d with name := renamed names d.name, value := d.value.map (Text.replaceWords names.find?) }

/-- A function with names replaced, in its body except those it hides. -/
def renameFunction (names : Text.Renaming) (f : Function) : Function :=
  let hidden := f.scopedNames
  { f with
    name := renamed names f.name
    body := Text.replaceWords (fun w => if hidden.contains w then none else names.find? w) f.body }

/-- The program with names replaced. -/
def renameProgram (names : Text.Renaming) (p : Program) : Program :=
  { p with
    literals := renameLiterals names (namingLiterals p) p.literals
    declarations := p.declarations.map (renameDeclaration names)
    functions := p.functions.map (renameFunction names) }

/-- The outcome of renaming. -/
structure GlobalRenaming where
  program : Program
  pool : Pool
  /-- Old and new names in the order in which the new ones were dealt. -/
  names : List (Text × Text)

/-- Renames the constants, globals and functions of a program whose uses are counted. -/
def renameGlobals (p : Program) (pool : Pool) : GlobalRenaming :=
  let (names, pool) := dealGlobals p pool
  ⟨renameProgram (.ofPairs names) p, pool, names⟩

/-- The messages of renaming. -/
def GlobalRenaming.journal (r : GlobalRenaming) : Journal :=
  r.names.map (fun (old, new) => debug ["rename: ".toList, old, " -> ".toList, new]) ++
    [info ["rename: ".toList, Text.ofNat r.names.length, " global names".toList]]

end ScriptMinifier.Naming
