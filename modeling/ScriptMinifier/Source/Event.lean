import ScriptMinifier.Journal
import ScriptMinifier.Source.Blocks

/-! What happens while a script is read.

Reading enters and leaves contexts: at most one block, and inside or outside it at
most one comment or literal. Every step is an event at a byte position, the position
just past the characters that caused it. -/
namespace ScriptMinifier.Source

/-- What is being read, with the byte at which it starts. -/
inductive Context
  | enclosure (kind : Enclosure) (start : Nat)
  | block (kind : BlockKind) (start : Nat)
deriving DecidableEq, Repr

/-- A context as messages name it. -/
def Context.name : Context → Text
  | enclosure .lineComment _ => "LineComment".toList
  | enclosure .blockComment start => "BlockComment(".toList ++ Text.ofNat start ++ [')']
  | enclosure .string start => "StringLit(".toList ++ Text.ofNat start ++ [')']
  | enclosure .rawcode start => "CharLit(".toList ++ Text.ofNat start ++ [')']
  | block .globals start => "GlobalsBlock(".toList ++ Text.ofNat start ++ [')']
  | block .function start => "FunctionBlock(".toList ++ Text.ofNat start ++ [')']
  | block .native _ => "NativeDecl".toList

/-- A step of reading: a context is entered or left, or a block's text is complete. -/
inductive Event
  | entered (context : Context) (position : Nat)
  | left (context : Context) (position : Nat)
  | gathered (kind : BlockKind) (text : Text)
deriving DecidableEq, Repr

/-! ### The events of a script -/

/-- The events of a lexeme that starts at a position. -/
def Lexeme.events (position : Nat) : Lexeme → List Event
  | enclosed kind text =>
    let context := Context.enclosure kind position
    [.entered context (position + Text.byteLength kind.opening),
      .left context (position + Text.byteLength text)]
  | unclosed kind _ =>
    [.entered (.enclosure kind position) (position + Text.byteLength kind.opening)]
  | _ => []

/-- The events of lexemes that start at a position. -/
def lexemeEvents (position : Nat) : List Lexeme → List Event
  | [] => []
  | l :: rest => l.events position ++ lexemeEvents (position + Text.byteLength l.text) rest

/-- Whether a region comes to its end: it is closed, or it is a native declaration
that ends with the script. -/
def Region.finished : Region → Bool
  | outside _ => true
  | block kind body closed =>
    closed || (kind == .native && body.all fun l => l.openPart? == none)

/-- The events of a region that starts at a position and leaves a text. -/
def Region.events (position : Nat) (text : Text) : Region → List Event
  | outside l => l.events position
  | r@(block kind body _) =>
    let context := Context.block kind position
    let start := position + Text.byteLength kind.keyword
    .entered context start :: lexemeEvents start body ++
      (if r.finished then
        [.gathered kind text, .left context (position + Text.byteLength r.text)]
      else [])

/-- The events of regions that start at a position. -/
def regionEvents (position : Nat) : List (Region × Text) → List Event
  | [] => []
  | (r, text) :: rest =>
    r.events position text ++ regionEvents (position + Text.byteLength r.text) rest

/-- The events of reading a script. -/
def events (src : Text) : List Event := regionEvents 0 (collected src).1

/-! ### Their messages -/

/-- The message of an event. -/
def Event.message : Event → Message
  | entered context position =>
    trace ["lexer: push ".toList, context.name, " at ".toList, Text.ofNat position]
  | left context position =>
    trace ["lexer: pop Some(".toList, context.name, ") at ".toList, Text.ofNat position]
  | gathered .globals text => trace ["lexer: globals block:\n".toList, Text.shown text]
  | gathered .function text => trace ["lexer: function block:\n".toList, Text.shown text]
  | gathered .native text => trace ["lexer: native: ".toList, Text.shown text]

/-- The messages of reading a script. -/
def journal (src : Text) : Journal := (events src).map Event.message

end ScriptMinifier.Source
