import ScriptMinifier.Source.Lexeme

/-! The regions of a script.

Outside all blocks the words `globals`, `function` and `native` open a block. A block
reaches to its own closing word, a native declaration to the end of its line; inside
a block no other block opens. The regions of a list of lexemes hold exactly those
lexemes, in order (`flatMap_lexemes_regions`). -/
namespace ScriptMinifier.Source

/-- The kinds of block. -/
inductive BlockKind
  | globals
  | function
  | native
deriving DecidableEq, Repr

namespace BlockKind

/-- The word that opens a block. -/
def keyword : BlockKind → Text
  | globals => "globals".toList
  | function => "function".toList
  | native => "native".toList

/-- The lexeme that closes a block. -/
def closing : BlockKind → Lexeme
  | globals => .word "endglobals".toList
  | function => .word "endfunction".toList
  | native => .char '\n'

/-- The block that a lexeme opens. -/
def opened? (l : Lexeme) : Option BlockKind :=
  [globals, function, native].find? fun kind => l = .word kind.keyword

theorem opened?_eq_some {l : Lexeme} {kind : BlockKind} (h : opened? l = some kind) :
    l = .word kind.keyword := by
  have := List.find?_some h
  simpa using this

end BlockKind

/-- A lexeme outside all blocks, or a block: the lexemes between its opening word and
the lexeme that closes it, which is missing when the script ends first. -/
inductive Region
  | outside (l : Lexeme)
  | block (kind : BlockKind) (body : List Lexeme) (closed : Bool)
deriving DecidableEq, Repr

/-- All lexemes of a region. -/
def Region.lexemes : Region → List Lexeme
  | outside l => [l]
  | block kind body closed =>
    .word kind.keyword :: body ++ (if closed then [kind.closing] else [])

/-- The characters of a region. -/
def Region.text (r : Region) : Text := r.lexemes.flatMap Lexeme.text

/-! ### Grouping lexemes -/

/-- The lexemes before the one that closes a block. -/
def bodyOf (kind : BlockKind) (ls : List Lexeme) : List Lexeme := ls.takeWhile (· != kind.closing)

/-- The lexemes from the one that closes a block. -/
def tailOf (kind : BlockKind) (ls : List Lexeme) : List Lexeme := ls.dropWhile (· != kind.closing)

/-- The regions of a list of lexemes, in order. -/
def regions : List Lexeme → List Region
  | [] => []
  | l :: rest =>
    match BlockKind.opened? l with
    | none => .outside l :: regions rest
    | some kind =>
      .block kind (bodyOf kind rest) (tailOf kind rest != []) :: regions ((tailOf kind rest).drop 1)
termination_by ls => ls.length
decreasing_by
  · exact Nat.lt_succ_self _
  · have h : (tailOf kind rest).length ≤ rest.length := (List.dropWhile_suffix _).length_le
    simp only [List.length_drop, List.length_cons]
    omega

theorem bodyOf_append_tailOf (kind : BlockKind) (ls : List Lexeme) :
    bodyOf kind ls ++ tailOf kind ls = ls := List.takeWhile_append_dropWhile

/-- What follows a block's body starts with its closing lexeme. -/
theorem tailOf_eq (kind : BlockKind) (ls : List Lexeme) :
    tailOf kind ls = (if tailOf kind ls != [] then [kind.closing] else []) ++
    (tailOf kind ls).drop 1 := by
  unfold tailOf
  match h : ls.dropWhile (· != kind.closing) with
  | [] => simp
  | l :: rest =>
    have := List.head?_dropWhile_not (· != kind.closing) ls
    simp only [h, List.head?_cons] at this
    simp_all

theorem flatMap_lexemes_regions (ls : List Lexeme) : (regions ls).flatMap Region.lexemes = ls := by
  fun_induction regions ls with
  | case1 => rfl
  | case2 l rest h ih => simp [Region.lexemes, ih]
  | case3 l rest kind h ih =>
    rw [List.flatMap_cons, ih, Region.lexemes, BlockKind.opened?_eq_some h]
    rw [List.cons_append, List.cons_append, List.append_assoc, ← tailOf_eq, bodyOf_append_tailOf]

end ScriptMinifier.Source
