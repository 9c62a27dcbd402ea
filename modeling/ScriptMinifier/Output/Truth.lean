import ScriptMinifier.Naming.Pool
import ScriptMinifier.Program

/-! Constants for the truth values.

Where `true` or `false` is written often, a constant with a short name is shorter, its
declaration included. Constants keep their own values as written. -/
namespace ScriptMinifier.Output

open Naming (Pool)
open Syntax (Declaration)

/-- The words that may be replaced. -/
def truthWords : List Text := ["true".toList, "false".toList]

/-- How often a word stands in the values of globals and in the bodies. -/
def wordUses (p : Program) (word : Text) : Nat :=
  (p.globals.flatMap (fun d => Text.words (d.value.getD [])) ++
    p.functions.flatMap fun f => Text.words f.body).count word

/-- The constant that a word gets. It keeps its uses in a word of 32 bits, which agrees below 2^32
of them. -/
def truthConstant (word name : Text) (uses : Nat) : Declaration :=
  { constant := true, array := false, type := "boolean".toList, name, value := some word, uses }

/-- Whether some uses of a word take more bytes than a constant and as many uses of its
name. -/
def worthExtracting (word name : Text) (uses : Nat) : Bool :=
  uses * Text.byteLength name + Text.byteLength (truthConstant word name uses).render <
    uses * Text.byteLength word

/-- The same question asked in words of 64 bits, where a size that does not fit wraps
round. -/
def worthExtractingWrapped (word name : Text) (uses : UInt64) : Bool :=
  uses * UInt64.ofNat (Text.byteLength name) +
      UInt64.ofNat (Text.byteLength (truthConstant word name uses.toNat).render) <
    uses * UInt64.ofNat (Text.byteLength word)

/-- Where both sizes fit, words of 64 bits give the exact answer. -/
theorem worthExtractingWrapped_eq {word name : Text} {uses : UInt64}
    (hword : uses.toNat * Text.byteLength word < 18446744073709551616)
    (hname : uses.toNat * Text.byteLength name +
      Text.byteLength (truthConstant word name uses.toNat).render < 18446744073709551616) :
    worthExtractingWrapped word name uses = worthExtracting word name uses.toNat := by
  unfold worthExtractingWrapped worthExtracting
  rw [decide_eq_decide, UInt64.lt_iff_toNat_lt]
  simp only [UInt64.toNat_add, UInt64.toNat_mul, UInt64.toNat_ofNat', Nat.mul_mod_mod,
    Nat.mod_add_mod, Nat.add_mod_mod, Nat.reducePow]
  rw [Nat.mod_eq_of_lt hword, Nat.mod_eq_of_lt hname]

/-- The program with a word replaced by a constant of a name. -/
def replaceWord (word name : Text) (p : Program) : Program :=
  let replaced := Text.replaceWords fun w => if w = word then some name else none
  { p with
    declarations := truthConstant word name (wordUses p word) ::
      p.declarations.map fun d => if d.constant then d else d.mapValue replaced
    functions := p.functions.map fun f => { f with body := replaced f.body } }

/-- A word that has been replaced. -/
structure Extraction where
  word : Text
  uses : Nat
  name : Text
deriving DecidableEq, Repr

/-- The outcome of replacing words by constants. -/
structure Extracted where
  program : Program
  pool : Pool
  extractions : List Extraction

/-- Replaces the given words where that is shorter, one after the other. -/
def extractWords (p : Program) (pool : Pool) : List Text → Extracted
  | [] => ⟨p, pool, []⟩
  | word :: rest =>
    let uses := wordUses p word
    if uses = 0 ∨ !worthExtracting word pool.peek uses then extractWords p pool rest
    else
      let (name, pool) := pool.draw
      let more := extractWords (replaceWord word name p) pool rest
      { more with extractions := ⟨word, uses, name⟩ :: more.extractions }

/-- Replaces the truth values where that is shorter. -/
def extractTruth (p : Program) (pool : Pool) : Extracted := extractWords p pool truthWords

/-- The messages of replacing truth values. -/
def Extracted.journal (e : Extracted) : Journal :=
  e.extractions.map (fun x =>
      debug
        ["rewrite: ".toList, x.word, " (".toList, Text.ofNat x.uses, " uses) -> constant ".toList,
        x.name]) ++
    if e.extractions = [] then []
    else [info ["rewrite: extracted ".toList, Text.ofNat e.extractions.length,
      " boolean constants".toList]]

end ScriptMinifier.Output
