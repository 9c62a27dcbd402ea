import ScriptMinifier.Text.Decimal

/-! Messages about a run.

Every pass can tell what it did. A message has a level; a reader who asks for a level
sees the messages of that level and of the graver ones. -/
namespace ScriptMinifier

/-- How much a message matters, gravest first. -/
inductive Level
  | warn
  | info
  | debug
  | trace
deriving DecidableEq, Repr

/-- Levels count up from the gravest. -/
def Level.rank : Level → Nat
  | .warn => 0
  | .info => 1
  | .debug => 2
  | .trace => 3

/-- What a level is called. -/
def Level.name : Level → Text
  | .warn => "WARN".toList
  | .info => "INFO".toList
  | .debug => "DEBUG".toList
  | .trace => "TRACE".toList

/-- A message and its level. -/
structure Message where
  level : Level
  text : Text
deriving DecidableEq, Repr

/-- Messages in the order in which they arise. -/
abbrev Journal := List Message

namespace Journal

/-- The messages of a level and of the graver ones. -/
def upTo (level : Level) (journal : Journal) : Journal :=
  journal.filter fun message => message.level.rank ≤ level.rank

end Journal

/-- A warning made of pieces. -/
def warn (parts : List Text) : Message := ⟨.warn, parts.flatten⟩

/-- A piece of information made of pieces. -/
def info (parts : List Text) : Message := ⟨.info, parts.flatten⟩

/-- A detail made of pieces. -/
def debug (parts : List Text) : Message := ⟨.debug, parts.flatten⟩

/-- A fine detail made of pieces. -/
def trace (parts : List Text) : Message := ⟨.trace, parts.flatten⟩

end ScriptMinifier
