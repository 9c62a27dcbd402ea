import ScriptMinifier.Fault
import ScriptMinifier.Literal.Table
import ScriptMinifier.Source.Region
import ScriptMinifier.Text.Blank

/-! The blocks of a script.

Reading a script collects the text of each block with its comments gone and its
literals lifted out. A line comment leaves nothing, a block comment leaves one space,
and a literal leaves its placeholder; literals outside the blocks are not kept.
Literals are numbered through the whole script. -/
namespace ScriptMinifier.Source

/-! ### Collecting -/

/-- What a lexeme inside a block leaves in the block's text. -/
def Lexeme.collect (ls : Literals) : Lexeme → Text × Literals
  | word t => (t, ls)
  | char c => ([c], ls)
  | enclosed .lineComment _ => ([], ls)
  | enclosed .blockComment _ => ([' '], ls)
  | enclosed .string t => ls.intern t
  | enclosed .rawcode t => ls.intern t
  | unclosed _ _ => ([], ls)

/-- The text that the body of a block leaves. -/
def collectBody (ls : Literals) : List Lexeme → Text × Literals
  | [] => ([], ls)
  | l :: rest =>
    let (first, ls') := l.collect ls
    let (more, ls'') := collectBody ls' rest
    (first ++ more, ls'')

/-- The text that a region leaves. A native declaration keeps its keyword. -/
def Region.collect (ls : Literals) : Region → Text × Literals
  | outside _ => ([], ls)
  | block .native body _ =>
    let (text, ls') := collectBody ls body
    (BlockKind.native.keyword ++ text, ls')
  | block _ body _ => collectBody ls body

/-- Regions with the texts they leave, and the literals met. -/
def collectAll (ls : Literals) : List Region → List (Region × Text) × Literals
  | [] => ([], ls)
  | r :: rest =>
    let (text, ls') := r.collect ls
    let (more, ls'') := collectAll ls' rest
    ((r, text) :: more, ls'')

/-! ### Blocks -/

/-- The texts of a script's blocks and the literals lifted out of them. -/
structure Blocks where
  /-- The text between `globals` and `endglobals`, all such blocks together. -/
  globals : Text := []
  /-- The texts between `function` and `endfunction`. -/
  functions : List Text := []
  /-- The native declarations, keyword included, without blanks at the end. -/
  natives : List Text := []
  literals : Literals := {}
deriving DecidableEq, Repr

/-- The texts that the regions of one kind leave. -/
def textsOf (kind : BlockKind) (collected : List (Region × Text)) : List Text :=
  collected.filterMap fun
    | (.block k _ _, text) => if k = kind then some text else none
    | _ => none

/-- Adds the text of one more globals block, on a new line unless nothing stands yet. -/
def joinGlobals (sofar text : Text) : Text := if sofar = [] then text else sofar ++ '\n' :: text

/-- The blocks that collected regions make up. -/
def Blocks.ofCollected (collected : List (Region × Text)) (literals : Literals) : Blocks where
  globals := (textsOf .globals collected).foldl joinGlobals []
  functions := textsOf .function collected
  natives := (textsOf .native collected).map Text.trimEnd
  literals := literals

/-! ### Faults -/

/-- The part that must be closed and is not, when a lexeme is left open. A line
comment may end with the script. -/
def Lexeme.openPart? : Lexeme → Option Closable
  | unclosed .blockComment _ => some .blockComment
  | unclosed .string _ => some .string
  | unclosed .rawcode _ => some .rawcode
  | _ => none

/-- The part that must be closed and is not, when a block is left open. A native
declaration may end with the script. -/
def Region.openPart? : Region → Option Closable
  | block .globals _ false => some .globals
  | block .function _ false => some .function
  | _ => none

/-- What is left open at the end of a script, the innermost part, and the byte at
which it starts. -/
def openEnd? (src : Text) : Option (Closable × Nat) :=
  let start (t : Text) := Text.byteLength src - Text.byteLength t
  let lexeme? := (lexemes src).getLast?
  let region? := (regions (lexemes src)).getLast?
  let inner := lexeme?.bind fun l => l.openPart?.map fun part => (part, start l.text)
  inner.or (region?.bind fun r => r.openPart?.map fun part => (part, start r.text))

/-- The regions of a script with the texts they leave, and its literals. -/
def collected (src : Text) : List (Region × Text) × Literals :=
  collectAll {} (regions (lexemes src))

/-- The blocks of a script; a script with an open end has none. -/
def blocks (src : Text) : Except Fault Blocks :=
  match openEnd? src with
  | some (part, start) => .error (.unterminated part start (Text.byteLength src))
  | none => .ok (Blocks.ofCollected (collected src).1 (collected src).2)

end ScriptMinifier.Source
