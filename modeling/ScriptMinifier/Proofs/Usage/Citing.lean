import ScriptMinifier.Proofs.Usage.Taking

/-! Names that a line cites.

Counting takes any word of a body for a name, and any literal that an idiom takes (`namesIn`). What
a line cites is less: a word that stands by itself, or a literal in a call that does. This is what
still names the same when the line is written and read again. -/
namespace ScriptMinifier.Usage

open Literal (indexLimit)
open Text (isIdent)

variable {n : Nat} {ls : Literals} {kind : Option Idiom} {w line body : Text}

/-- The names in a body: its words, or what an idiom gives. -/
def namesIn (ls : Literals) (body : Text) : Option Idiom → List Text
  | none => Text.words body
  | some idiom => idiom.names ls body

/-- A line cites a name, by a word or by an idiom. -/
inductive Cites (ls : Literals) (line : Text) : Option Idiom → Text → Prop
  | word {w : Text} (stands : Text.Stands w line) : Cites ls line none w
  | literal {n : Nat} {idiom : Idiom} {raw w : Text} (takes : TakesIn n idiom line)
      (get : ls.get? n = some raw) (name : literalName? raw = some w) : Cites ls line (some idiom) w

theorem mem_names {idiom : Idiom} {raw : Text} (hids : n ∈ idiom.ids body)
    (hget : ls.get? n = some raw) (hname : literalName? raw = some w) :
    w ∈ idiom.names ls body :=
  List.mem_filterMap.2 ⟨raw, List.mem_filterMap.2 ⟨n, hids, hget⟩, hname⟩

end ScriptMinifier.Usage
