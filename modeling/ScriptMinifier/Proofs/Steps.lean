import ScriptMinifier.Minify
import ScriptMinifier.Proofs.Syntax.Reading

/-! The steps of a run, one by one.

Each program of a run is the one before it, treated by one step. Stating this once for every
step keeps the whole run out of the proofs that follow a program from one step to the next. -/
namespace ScriptMinifier

open Syntax (Declaration Function Native)

/-! ### Reading -/

/-- The parts of a program and the blocks they are read from. -/
theorem Program.ofBlocks_eq_ok {b : Source.Blocks} {p : Program} :
    Program.ofBlocks b = .ok p ↔
      p.literals = b.literals ∧
      Declaration.parseAll (Layout.squeezeBlock b.globals) = .ok p.declarations ∧
      List.Forall₂ (fun t n => Native.parse (Layout.squeezeNative t) = .ok n) b.natives p.natives ∧
      List.Forall₂
      (fun t f => Function.parse (Layout.squeezeBlock t) = .ok f) b.functions p.functions := by
  simp only [Program.ofBlocks, bind_eq_ok, mapM_eq_ok, pure, Except.pure, Except.ok.injEq]
  constructor
  · rintro ⟨declarations, hdeclarations, natives, hnatives, functions, hfunctions, rfl⟩
    exact ⟨rfl, hdeclarations, hnatives, hfunctions⟩
  · rintro ⟨hliterals, hdeclarations, hnatives, hfunctions⟩
    exact ⟨p.declarations, hdeclarations, p.natives, hnatives, p.functions,
      hfunctions, by rw [← hliterals]⟩

theorem readProgram_eq_ok {src : Text} {p : Program} :
    readProgram src = .ok p ↔ ∃ b, Source.blocks src = .ok b ∧ Program.ofBlocks b = .ok p :=
  bind_eq_ok

/-! ### Minifying -/

section Stages

variable (options : Options) (p : Program)

theorem parsed_stages : (stages options p).parsed = p := by rw [stages]

theorem marked_stages : (stages options p).marked = p.markEntries options.entries := by rw [stages]

theorem inlined_stages :
    (stages options p).inlined = options.tables.inline (stages options p).marked := by
  rw [stages]

theorem pruned_stages :
    (stages options p).pruned = Pruning.prune (stages options p).inlined := by rw [stages]

theorem folded_stages :
    (stages options p).folded = Constant.fold (stages options p).pruned := by rw [stages]

theorem counted_stages :
    (stages options p).counted = Usage.countDeclarationUses
    (Usage.countCalls (stages options p).folded) := by
  rw [stages]

theorem named_stages :
    (stages options p).named = Naming.renameGlobals (stages options p).counted (.new .globals) := by
  rw [stages]

theorem localized_stages :
    (stages options p).localized = Naming.renameAllLocals (stages options p).named.program := by
  rw [stages]

theorem extracted_stages :
    (stages options p).extracted =
      Output.extractTruth (stages options p).localized (stages options p).named.pool := by
  rw [stages]

theorem text_stages :
    (stages options p).text = Output.emit (stages options p).extracted.program := by rw [stages]

end Stages

theorem minify_eq_ok {options : Options} {src : Text} {m : Minified}
    (h : minify options src = .ok m) :
    ∃ p, readProgram src = .ok p ∧ m = ⟨(stages options p).text, (stages options p).report⟩ := by
  rw [minify] at h
  cases hp : readProgram src with
  | error fault => simp [hp, bind, Except.bind] at h
  | ok p =>
    simp only [hp, bind, Except.bind, pure, Except.pure, Except.ok.injEq] at h
    exact ⟨p, rfl, h.symm⟩

theorem eq_ok_of_toOption {α : Type} {x : Except Fault α} {a : α} (h : x.toOption = some a) :
    x = .ok a := by
  cases x with
  | error fault => cases h
  | ok b => exact congrArg Except.ok (Option.some.inj h)

/-- What a script that can be read gives. -/
theorem minify_of_toOption {src : Text} {p : Program} (h : (readProgram src).toOption = some p)
    (options : Options) :
    readProgram src = .ok p ∧
    minify options src = .ok ⟨(stages options p).text, (stages options p).report⟩ := by
  have hread := eq_ok_of_toOption h
  exact ⟨hread, by rw [minify, hread]; rfl⟩

end ScriptMinifier
