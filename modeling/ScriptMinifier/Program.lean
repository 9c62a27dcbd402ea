import ScriptMinifier.Journal
import ScriptMinifier.Layout
import ScriptMinifier.Source.Blocks
import ScriptMinifier.Syntax.Function

/-! Programs.

A program is what a script's blocks say once they are squeezed and read: declarations,
natives and functions, with their literals kept apart. Every pass takes a program to a
program. -/
namespace ScriptMinifier

open Syntax (Declaration Function Native)

/-- A script that has been read. -/
structure Program where
  literals : Literals := {}
  declarations : List Declaration := []
  natives : List Native := []
  functions : List Function := []
deriving DecidableEq, Repr

namespace Program

/-! ### Reading -/

/-- The program of a script's blocks. Declarations are read first, then natives, then
functions, and the first fault counts. -/
def ofBlocks (blocks : Source.Blocks) : Except Fault Program := do
  let declarations ← Declaration.parseAll (Layout.squeezeBlock blocks.globals)
  let natives ← blocks.natives.mapM fun text => Native.parse (Layout.squeezeNative text)
  let functions ← blocks.functions.mapM fun text => Function.parse (Layout.squeezeBlock text)
  return { literals := blocks.literals, declarations, natives, functions }

/-- The program with more functions marked as called by the host. -/
def markEntries (names : List Text) (p : Program) : Program :=
  { p with functions := p.functions.map fun f =>
    { f with entry := f.entry || names.contains f.name } }

/-! ### Looking up -/

/-- The first function of a name. -/
def function? (p : Program) (name : Text) : Option Function := p.functions.find? (·.name == name)

/-- The first declaration of a name. -/
def declaration? (p : Program) (name : Text) : Option Declaration :=
  p.declarations.find? (·.name == name)

/-- The constants, in order. -/
def constants (p : Program) : List Declaration := p.declarations.filter (·.constant)

/-- The globals that are not constant, in order. -/
def globals (p : Program) : List Declaration := p.declarations.filter (!·.constant)

/-- The names of the functions. -/
def functionNames (p : Program) : List Text := p.functions.map Function.name

/-- The names of the declarations. -/
def declarationNames (p : Program) : List Text := p.declarations.map Declaration.name

/-! ### Messages -/

/-- A program in short. -/
def summary (p : Program) : Text :=
  "Env(decls=".toList ++ Text.ofNat p.declarations.length ++
    " natives=".toList ++ Text.ofNat p.natives.length ++
    " functions=".toList ++ Text.ofNat p.functions.length ++
    " literals=".toList ++ Text.ofNat p.literals.size ++ [')']

/-- The message about a function that has been read. -/
def functionMessage (f : Function) : Message :=
  trace ["env: parsed Function(".toList, f.name, " uses=".toList, Text.ofNat f.uses,
    " entry=".toList, (toString f.entry).toList, "):\n".toList, Text.shown f.body]

/-- The functions read before the first that cannot be read. -/
def readableFunctions (texts : List Text) : List Function :=
  let outcomes := texts.map fun text => (Function.parse (Layout.squeezeBlock text)).toOption
  (outcomes.takeWhile Option.isSome).filterMap id

/-- The messages of reading blocks. -/
def readingJournal (blocks : Source.Blocks) : Journal :=
  match ofBlocks { blocks with functions := [] } with
  | .error _ => []
  | .ok _ =>
    (readableFunctions blocks.functions).map functionMessage ++
      match ofBlocks blocks with
      | .error _ => []
      | .ok p => [debug ["env: parsed ".toList, p.summary]]

end Program
end ScriptMinifier
