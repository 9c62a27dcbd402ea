import ScriptMinifier.Proofs.Source.ReaderBlocks

/-! What is left open at the end of a script.

A script has no blocks exactly if reading it ends in a comment, a literal or a block that must be
closed, and the fault names the innermost of them and where it starts (`openEnds_reported`). Which
contexts are open is told by the stack of the reader, and so by all that stands before: a quote in a
comment opens nothing, nor does a word in a literal, in a block or in a longer word. -/
namespace ScriptMinifier.Source

open Text (byteLength)

namespace Reader

variable {src : Text} {r : Reader} {context : Context}

theorem innermost?_eq_none_iff {stack : List Context} :
    innermost? stack = none ↔ ∀ context ∈ stack, context.closable? = none := by
  simp [innermost?, List.findSome?_eq_none_iff]

theorem innermost?_append {inner outer : List Context} {part : Closable}
    (hinner : ∀ c ∈ inner, c.closable? = none)
    (hpart : context.closable? = some part) :
    innermost? (inner ++ context :: outer) = some (part, context.start) := by
  induction inner with
  | nil =>
    rw [List.nil_append, innermost?_cons, hpart]
    rfl
  | cons c more ih =>
    rw [List.forall_mem_cons] at hinner
    rw [List.cons_append, innermost?_of_closable hinner.1, ih hinner.2]

theorem OpensIn.start_lt (h : OpensIn src context) : context.start < byteLength src := by
  have hopening : ∀ {before opening after : Text}, opening ≠ [] →
      src = before ++ (opening ++ after) →
      byteLength before < byteLength src := by
    intro before opening after hne heq
    obtain ⟨c, more, rfl⟩ := List.exists_cons_of_ne_nil hne
    have hsize := Char.utf8Size_pos c
    rw [heq, Text.byteLength_append, Text.byteLength_append, Text.byteLength_cons]
    omega
  cases context with
  | enclosure kind start =>
    obtain ⟨before, after, heq, rfl⟩ := h
    exact hopening (by cases kind <;> decide) heq
  | block kind start =>
    obtain ⟨before, after, heq, rfl, -⟩ := h
    exact hopening (keyword_ne_nil kind) heq

/-- Once a reader is at the end of the script, its stack tells whether the script has blocks. -/
theorem blocks_of_reached (h : Reached src r) (hend : r.rest = []) : blocks src =
    match innermost? r.stack with
    | some (part, start) => .error (.unterminated part start (byteLength src))
    | none => .ok r.run.found := by
  have hposition : r.position = byteLength src := by
    rw [position, ← h.sound.read, hend, List.append_nil]
  have houtcome := outcome_run_of_rest hend
  rw [hposition, run_of_reached h, outcome_run] at houtcome
  rw [run_of_reached h]
  exact houtcome

end Reader

open Reader (Reached Layered OpensIn)

/-- How open ends of a script are reported. -/
structure ReportsOpenEnds (src : Text) : Prop where
  /-- The reader that goes through the script finds its blocks, or the fault, and notes its
  events. -/
  outcome : (Reader.start src).run.outcome = blocks src
  log : (Reader.start src).run.log = events src
  /-- At every point at most one block is open, and in it or outside it at most one comment or
  literal. -/
  layered : ∀ r, Reached src r → Layered r.stack
  /-- What is open starts where the sign, the quote or the word stands that opened it. -/
  placed : ∀ r, Reached src r → ∀ context ∈ r.stack, OpensIn src context
  within : ∀ r, Reached src r → ∀ context ∈ r.stack, context.start < byteLength src
  ends : ∃ r, Reached src r ∧ r.rest = []
  /-- There are no blocks exactly if something is open at the end that must be closed. -/
  fails : ∀ r, Reached src r → r.rest = [] →
    ((∃ fault, blocks src = .error fault) ↔ ∃ context ∈ r.stack, context.closable? ≠ none)
  /-- The fault is the innermost such part, from its start to the end of the script. -/
  names : ∀ r, Reached src r → r.rest = [] → ∀ inner context outer part,
    r.stack = inner ++ context :: outer →
    (∀ c ∈ inner, c.closable? = none) → context.closable? = some part →
      blocks src = .error (.unterminated part context.start (byteLength src))
  /-- A line comment and a native declaration may be open. -/
  harmless : ∀ r, Reached src r → r.rest = [] →
    (∀ context ∈ r.stack, (∃ start, context = .enclosure .lineComment start) ∨
      ∃ start, context = .block .native start) →
      ∃ b, blocks src = .ok b

/-- **Open ends are reported exactly.** -/
theorem openEnds_reported (src : Text) : ReportsOpenEnds src where
  outcome := Reader.outcome_run src
  log := Reader.log_run src
  layered _ h := h.sound.layered
  placed _ h := h.sound.opened
  within _ h context hcontext := (h.sound.opened context hcontext).start_lt
  ends := ⟨_, Reader.reached_run .refl, Reader.rest_run _⟩
  fails r h hend := by
    rw [Reader.blocks_of_reached h hend]
    cases hopen : Reader.innermost? r.stack with
    | none =>
      have hnone := Reader.innermost?_eq_none_iff.1 hopen
      refine ⟨fun hfault => ?_, fun ⟨context, hcontext, hclosable⟩ => absurd
        (hnone context hcontext) hclosable⟩
      obtain ⟨fault, hfault⟩ := hfault
      cases hfault
    | some part =>
      refine ⟨fun _ => ?_, fun _ => ⟨_, rfl⟩⟩
      by_contra hnone
      push Not at hnone
      rw [Reader.innermost?_eq_none_iff.2 hnone] at hopen
      cases hopen
  names r h hend inner context outer part hstack hinner hpart := by
    rw [Reader.blocks_of_reached h hend, hstack, Reader.innermost?_append hinner hpart]
  harmless r h hend hstack := by
    have hnone : Reader.innermost? r.stack = none := by
      refine Reader.innermost?_eq_none_iff.2 fun context hcontext => ?_
      rcases hstack context hcontext with ⟨start, rfl⟩ | ⟨start, rfl⟩
      · rfl
      · rfl
    exact ⟨_, (Reader.blocks_of_reached h hend).trans (by rw [hnone])⟩

/-- A quote in a comment, a word in a block and a finished comment open nothing; a quote after a
backslash closes nothing. -/
example : blocks "globals // \"\nfunction /*x*/ \"\\\"".toList = .error
    (.unterminated .string 28 31) := by
  decide +kernel

end ScriptMinifier.Source
