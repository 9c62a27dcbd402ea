import ScriptMinifier.Output.Numeral
import ScriptMinifier.Program

/-! The text of a program.

The declarations come first, if there are any, then the natives, then the functions. -/
namespace ScriptMinifier.Output

/-- A program as text, every line ended. -/
def assemble (p : Program) : Text :=
  let ended (t : Text) : Text := t ++ ['\n']
  (if p.declarations = [] then []
    else ended "globals".toList ++ p.declarations.flatMap (fun d => ended d.render) ++
      ended "endglobals".toList) ++
    p.natives.flatMap (fun n => ended n.render) ++ p.functions.flatMap (fun f => ended f.render)

/-- The text of a program before its literals are put back. -/
def compact (p : Program) : Text := Layout.collapseNewlines (shortenNumerals (assemble p))

/-- The final text of a program. -/
def emit (p : Program) : Text := p.literals.restore (compact p)

/-- The messages of writing a program. -/
def emitJournal (p : Program) : Journal :=
  [trace ["emit: before literal restore:\n".toList, Text.shown (compact p)]]

end ScriptMinifier.Output
