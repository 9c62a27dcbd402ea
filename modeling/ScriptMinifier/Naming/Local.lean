import ScriptMinifier.Naming.Global
import ScriptMinifier.Text.Escaped

/-! Short names for parameters and locals.

Each function and each native has a pool of its own, and the most used get the first
names. A local that is only declared is dropped with its declaration. A function whose
parameters cannot be read is left as it is. -/
namespace ScriptMinifier.Naming

open Syntax (Function Native Parameter localName?)

/-! ### Counting -/

/-- How often a name stands in a body. -/
def occurrences (name body : Text) : Nat := (Text.words body).count name

/-- The locals of a function that are not parameters too, each once. -/
def ownLocals (params : List Text) (f : Function) : List Text :=
  (Text.distinct f.localNames).filter (!params.contains ·)

/-- The count that ranks a name: its occurrences in the body, where a parameter counts
once more for its place in the list and a local once less for its declaration. -/
def scopedCount (params : List Text) (f : Function) (name : Text) : Int :=
  occurrences name f.body + if params.contains name then 1 else -1

/-- The locals that are never used. -/
def unusedLocals (params : List Text) (f : Function) : List Text :=
  (ownLocals params f).filter fun name => scopedCount params f name ≤ 0

/-! ### Renaming -/

/-- A body without the declarations of some locals. -/
def dropLocals (names : List Text) (body : Text) : Text :=
  if names = [] then body
  else Text.joined '\n' ((Text.lines body).filter fun line =>
    !(localName? line).any names.contains)

/-- The names to be replaced, in the order in which new ones are dealt. A parameter that
is given twice is dealt two names. -/
def localOrder (params : List Text) (f : Function) : List Text :=
  let unused := unusedLocals params f
  byCount (((params ++ ownLocals params f).filter (!unused.contains ·)).map
    fun name => (name, scopedCount params f name))

/-- The outcome of renaming inside a function. -/
structure LocalRenaming where
  function : Function
  /-- The locals that were dropped. -/
  dropped : List Text
  /-- Old and new names; none when the parameters cannot be read. -/
  names : Option Text.Renaming

/-- The new names in a function with given parameters and locals dropped. -/
def dealLocals (params : List Text) (f : Function) (body : Text) : Text.Renaming :=
  let order := localOrder params f
  let kept := (Text.words body ++ Text.words f.params).filter (!order.contains ·)
  .ofPairs (((Pool.new .locals).reserve kept).deal order).1

/-- Renames the parameters and locals of a function. -/
def renameLocals (f : Function) : LocalRenaming :=
  match Parameter.parseAll? f.params with
  | none => ⟨f, [], none⟩
  | some params =>
    let paramNames := params.map Parameter.name
    let dropped := unusedLocals paramNames f
    let body := dropLocals dropped f.body
    let names := dealLocals paramNames f body
    let params := params.map fun q => { q with name := renamed names q.name }
    ⟨{ f with
        params := Parameter.renderAll params
        body := Text.replaceWords names.find? body }, dropped, some names⟩

/-- Renames the parameters of a native. -/
def renameNative (n : Native) : Native :=
  let (names, _) := (Pool.new .locals).drawMany n.params.length
  { n with params := n.params.zipWith (fun q name => { q with name }) names }

/-- The program with all parameters and locals renamed. -/
def renameAllLocals (p : Program) : Program :=
  { p with
    functions := p.functions.map fun f => (renameLocals f).function
    natives := p.natives.map renameNative }

/-! ### Messages -/

/-- The messages of renaming inside a function. -/
def localJournal (f : Function) : Journal :=
  let r := renameLocals f
  let commas (items : List Text) : Text := List.intercalate ", ".toList items
  match r.names with
  | none =>
    [warn ["rename: cannot read parameters of ".toList, f.name, ", leaving its locals".toList]]
  | some names =>
    (if r.dropped = [] then []
      else [debug ["rename: ".toList, f.name, " drops unused locals \x7b".toList,
        commas ((Text.sortedSet r.dropped).map Text.quoted), ['\x7d']]]) ++
    [trace ["rename: locals of ".toList, f.name, ": \x7b".toList,
      commas (names.sorted.map fun (old, new) =>
        Text.quoted old ++ ": ".toList ++ Text.quoted new), ['\x7d']]]

/-- The messages of renaming all parameters and locals. -/
def localsJournal (p : Program) : Journal :=
  p.functions.flatMap localJournal ++
    [info ["rename: dropped ".toList,
      Text.ofNat (p.functions.flatMap fun f => (renameLocals f).dropped).length,
      " unused locals".toList]]

end ScriptMinifier.Naming
