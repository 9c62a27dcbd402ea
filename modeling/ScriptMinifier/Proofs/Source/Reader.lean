import ScriptMinifier.Proofs.Source.Annotation
import ScriptMinifier.Source.Event

/-! Reading a script step by step.

A reader goes through a script from left to right and keeps the contexts that are open on a stack.
The top of the stack tells how a step reads: a comment is passed over at once, a literal character
by character, code by words and single characters. At the end of the script the reader leaves what
may end with it. A step reads something or leaves a context (`Change`), so reading comes to an end
(`next?_lt`), and what holds at the start and is kept by every step holds of every reader that comes
about on the way (`Reached.sound`). -/
namespace ScriptMinifier.Source

open Text (isQuote isWordChar cutFirst? StartsNoWord)

/-! ### Contexts and blocks -/

namespace Context

/-- The byte at which a context starts. -/
def start : Context → Nat
  | enclosure _ start => start
  | block _ start => start

def isBlock : Context → Bool
  | enclosure _ _ => false
  | block _ _ => true

/-- The part that a context is, if it must be closed before the script ends. -/
def closable? : Context → Option Closable
  | enclosure .lineComment _ => none
  | enclosure .blockComment _ => some .blockComment
  | enclosure .string _ => some .string
  | enclosure .rawcode _ => some .rawcode
  | block .globals _ => some .globals
  | block .function _ => some .function
  | block .native _ => none

end Context

/-- Blocks with one more, which left a text. -/
def Blocks.add (b : Blocks) : BlockKind → Text → Blocks
  | .globals, text => { b with globals := joinGlobals b.globals text }
  | .function, text => { b with functions := b.functions ++ [text] }
  | .native, text => { b with natives := b.natives ++ [Text.trimEnd text] }

/-! ### Readers -/

/-- A script that is being read. -/
structure Reader where
  /-- What has been read. -/
  before : Text := []
  /-- What is left to read. -/
  rest : Text
  /-- The open contexts, the innermost first. -/
  stack : List Context := []
  /-- The text of the open block. -/
  block : Text := []
  /-- The open literal, as far as it has been read. -/
  literal : Text := []
  /-- The blocks that are complete, and all literals. -/
  found : Blocks := {}
  /-- What has happened. -/
  log : List Event := []

namespace Reader

/-- The byte at which a reader stands. -/
def position (r : Reader) : Nat := Text.byteLength r.before

/-- Reads some characters. -/
def advance (r : Reader) (n : Nat) : Reader :=
  { r with before := r.before ++ r.rest.take n, rest := r.rest.drop n }

/-- Enters a context. -/
def enter (r : Reader) (context : Context) : Reader :=
  { r with stack := context :: r.stack, log := r.log ++ [.entered context r.position] }

/-- Leaves the innermost context. -/
def leave (r : Reader) : Reader :=
  match r.stack with
  | [] => r
  | context :: below => { r with stack := below, log := r.log ++ [.left context r.position] }

/-- Enters a block. The text of a native declaration begins with its keyword. -/
def openBlock (r : Reader) (kind : BlockKind) (start : Nat) : Reader :=
  enter { r with block := if kind = .native then kind.keyword else [] } (.block kind start)

/-- Keeps what has been read of a literal. -/
def hold (r : Reader) (t : Text) : Reader := { r with literal := t }

/-- Inside a block, adds to its text and to the literals. -/
def gather (r : Reader) (collect : Literals → Text × Literals) : Reader :=
  if r.stack.any Context.isBlock then
    { r with
      block := r.block ++ (collect r.found.literals).1
      found := { r.found with literals := (collect r.found.literals).2 } }
  else r

/-- Leaves a block, whose text is complete. -/
def complete (r : Reader) (kind : BlockKind) : Reader :=
  leave
    { r with
      block := [], found := r.found.add kind r.block, log := r.log ++ [.gathered kind r.block] }

/-! ### Steps -/

/-- In a line comment: reads to the end of the line, which belongs to what is around the comment. -/
def passLine (r : Reader) : Reader :=
  if r.rest.dropWhile (· != '\n') = [] then r.advance r.rest.length
  else (r.advance (r.rest.takeWhile (· != '\n')).length).leave

/-- In a block comment: reads past its end. -/
def passComment (r : Reader) : Reader :=
  match cutFirst? "*/".toList r.rest with
  | some (inside, _) => (r.advance (inside.length + 2)).leave.gather fun ls => ([' '], ls)
  | none => r.advance r.rest.length

/-- In a literal: reads one character, or two if the first escapes the second. -/
def readLiteral (r : Reader) (quote : Char) : Reader :=
  match r.rest with
  | [] => r
  | c :: _ =>
    if c = '\\' then (r.advance 2).hold (r.literal ++ r.rest.take 2)
    else if c = quote then ((r.advance 1).leave.hold []).gather fun ls => ls.intern
      (r.literal ++ [c])
    else (r.advance 1).hold (r.literal ++ [c])

/-- In code: reads a word or a character that may open or close a block. -/
def readToken (r : Reader) (l : Lexeme) : Reader :=
  match r.stack with
  | [] =>
    match BlockKind.opened? l with
    | some kind => (r.advance l.text.length).openBlock kind r.position
    | none => r.advance l.text.length
  | .block kind _ :: _ =>
    if l = kind.closing then (r.advance l.text.length).complete kind
    else (r.advance l.text.length).gather l.collect
  | .enclosure _ _ :: _ => (r.advance l.text.length).gather l.collect

/-- In code: enters a comment or a literal, or reads a word or a single character. -/
def readCode (r : Reader) : Reader :=
  match r.rest with
  | [] => r
  | c :: rest =>
    if c = '/' ∧ rest.head? = some '/' then (r.advance 2).enter (.enclosure .lineComment r.position)
    else if c = '/' ∧ rest.head? = some '*' then (r.advance 2).enter
      (.enclosure .blockComment r.position)
    else if isQuote c then ((r.advance 1).enter (.enclosure (.ofQuote c) r.position)).hold [c]
    else if isWordChar c then r.readToken (.word (c :: rest.takeWhile isWordChar))
    else r.readToken (.char c)

/-- One step before the end of the script. -/
def step (r : Reader) : Reader :=
  match r.stack with
  | .enclosure .lineComment _ :: _ => r.passLine
  | .enclosure .blockComment _ :: _ => r.passComment
  | .enclosure .string _ :: _ => r.readLiteral '"'
  | .enclosure .rawcode _ :: _ => r.readLiteral '\''
  | .block _ _ :: _ => r.readCode
  | [] => r.readCode

/-- One step at the end of the script: a line comment and a native declaration end with it. -/
def unwind? (r : Reader) : Option Reader :=
  match r.stack with
  | .enclosure .lineComment _ :: below => some { r with stack := below }
  | .block .native _ :: _ => some (r.complete .native)
  | _ => none

/-- The next step, unless the reader has come to its end. -/
def next? (r : Reader) : Option Reader := if r.rest = [] then r.unwind? else some r.step

/-! ### What a step changes -/

variable {r r' : Reader} {n : Nat}

@[simp] theorem before_advance (r : Reader) (n : Nat) :
    (r.advance n).before = r.before ++ r.rest.take n := rfl

@[simp] theorem rest_advance (r : Reader) (n : Nat) : (r.advance n).rest = r.rest.drop n := rfl

@[simp] theorem stack_advance (r : Reader) (n : Nat) : (r.advance n).stack = r.stack := rfl

@[simp] theorem stack_openBlock (r : Reader) (kind : BlockKind) (start : Nat) :
    (r.openBlock kind start).stack = .block kind start :: r.stack := rfl

@[simp] theorem before_hold (r : Reader) (t : Text) : (r.hold t).before = r.before := rfl

@[simp] theorem rest_hold (r : Reader) (t : Text) : (r.hold t).rest = r.rest := rfl

@[simp] theorem stack_hold (r : Reader) (t : Text) : (r.hold t).stack = r.stack := rfl

@[simp] theorem before_gather (r : Reader) (collect : Literals → Text × Literals) :
    (r.gather collect).before = r.before := by
  unfold gather
  split <;> rfl

@[simp] theorem rest_gather (r : Reader) (collect : Literals → Text × Literals) :
    (r.gather collect).rest = r.rest := by
  unfold gather
  split <;> rfl

@[simp] theorem stack_gather (r : Reader) (collect : Literals → Text × Literals) :
    (r.gather collect).stack = r.stack := by
  unfold gather
  split <;> rfl

@[simp] theorem before_leave (r : Reader) : r.leave.before = r.before := by
  unfold leave
  split <;> rfl

@[simp] theorem rest_leave (r : Reader) : r.leave.rest = r.rest := by
  unfold leave
  split <;> rfl

@[simp] theorem stack_leave (r : Reader) : r.leave.stack = r.stack.tail := by
  unfold leave
  split <;> simp_all

@[simp] theorem before_complete (r : Reader) (kind : BlockKind) :
    (r.complete kind).before = r.before := before_leave _

@[simp] theorem rest_complete (r : Reader) (kind : BlockKind) : (r.complete kind).rest = r.rest :=
  rest_leave _

@[simp] theorem stack_complete (r : Reader) (kind : BlockKind) :
    (r.complete kind).stack = r.stack.tail := stack_leave _

/-- No comment and no literal is open. -/
def InCode (stack : List Context) : Prop := ∀ context ∈ stack.head?, context.isBlock = true

/-- How the stack can be after a step that has read some characters. -/
inductive Change (r : Reader) : Nat → List Context → Prop
  | stays {n : Nat} (hn : 0 < n) : Change r n r.stack
  | leaves {n : Nat} {context : Context} {below : List Context} (h : r.stack = context :: below) :
      Change r n below
  | encloses {kind : Enclosure} {after : Text} (hcode : InCode r.stack)
      (h : r.rest = kind.opening ++ after) :
      Change r kind.opening.length (.enclosure kind r.position :: r.stack)
  | opens {kind : BlockKind} {after : Text} (hout : r.stack = [])
      (h : r.rest = kind.keyword ++ after)
      (hword : StartsNoWord after) : Change r kind.keyword.length [.block kind r.position]

/-- A reader after a step that has read some characters. -/
structure After (r : Reader) (n : Nat) (r' : Reader) : Prop where
  before : r'.before = r.before ++ r.rest.take n
  rest : r'.rest = r.rest.drop n
  stack : Change r n r'.stack
  /-- Back in code, the reader does not stand inside a word. -/
  apart : InCode r'.stack → ∀ c ∈ r'.before.getLast?, isWordChar c = true → StartsNoWord r'.rest

theorem not_inCode {kind : Enclosure} {start : Nat} {stack below : List Context}
    (hstack : stack = .enclosure kind start :: below) : ¬ InCode stack := by
  rw [hstack]
  intro h
  cases h _ rfl

/-- The last character read is no part of a word, so whatever follows is apart from it. -/
theorem apart_of_getLast? {t u : Text} {c : Char} (hc : isWordChar c = false)
    (h : t.getLast? = some c) :
    ∀ d ∈ t.getLast?, isWordChar d = true → StartsNoWord u := by
  intro d hd hword
  rw [h, Option.mem_some_iff] at hd
  rw [← hd, hc] at hword
  cases hword

theorem drop_length_takeWhile (p : Char → Bool) (t : Text) :
    t.drop (t.takeWhile p).length = t.dropWhile p := by
  have h : (t.takeWhile p ++ t.dropWhile p).drop (t.takeWhile p).length = t.dropWhile p :=
    List.drop_left
  rwa [List.takeWhile_append_dropWhile] at h

section Steps

variable {start : Nat} {below : List Context}

theorem after_passLine (h : r.rest ≠ [])
    (hstack : r.stack = .enclosure .lineComment start :: below) :
    ∃ n, After r n r.passLine := by
  unfold passLine
  split
  · exact ⟨r.rest.length, rfl, rfl, .stays (List.length_pos_iff.2 h),
      fun hcode => absurd hcode (not_inCode hstack)⟩
  · rename_i hline
    refine ⟨(r.rest.takeWhile (· != '\n')).length, before_leave _, rest_leave _, ?_, ?_⟩
    · rw [stack_leave, stack_advance, hstack]
      exact .leaves hstack
    · -- the line ends here, and no word starts with a newline
      intro _ c _ _ d tail hd
      rw [rest_leave, rest_advance, drop_length_takeWhile] at hd
      have hnewline := List.head?_dropWhile_not (· != '\n') r.rest
      rw [hd] at hnewline
      obtain rfl : d = '\n' := by simpa using hnewline
      decide

theorem after_passComment (h : r.rest ≠ [])
    (hstack : r.stack = .enclosure .blockComment start :: below) :
    ∃ n, After r n r.passComment := by
  unfold passComment
  split
  · rename_i inside after hcut
    have hrest := Text.cutFirst?_eq_some hcut
    refine ⟨inside.length + 2, ?_, ?_, ?_, fun _ => ?_⟩
    · rw [before_gather, before_leave, before_advance]
    · rw [rest_gather, rest_leave, rest_advance]
    · rw [stack_gather, stack_leave, stack_advance, hstack]
      exact .leaves hstack
    · have htake :
          (inside ++ "*/".toList ++ after).take (inside.length + 2) = inside ++ "*/".toList :=
        List.take_left' (by simp)
      rw [before_gather, before_leave, before_advance, hrest, htake]
      exact apart_of_getLast? (c := '/') (by decide) (by simp)
  · exact ⟨r.rest.length, rfl, rfl, .stays (List.length_pos_iff.2 h),
      fun hcode => absurd hcode (not_inCode hstack)⟩

theorem after_readLiteral {kind : Enclosure} {quote : Char} (hquote : isWordChar quote = false)
    (h : r.rest ≠ [])
    (hstack : r.stack = .enclosure kind start :: below) : ∃ n, After r n (r.readLiteral quote) := by
  have hstays : ∀ n, 0 < n → ∀ t, After r n ((r.advance n).hold t) := fun n hn t =>
    ⟨rfl, rfl, .stays hn, fun hcode => absurd hcode (not_inCode hstack)⟩
  unfold readLiteral
  split
  · rename_i hnil
    exact absurd hnil h
  · rename_i c rest hrest
    split
    · exact ⟨2, hstays 2 (by decide) _⟩
    · split
      · rename_i hc
        refine ⟨1, ?_, ?_, ?_, fun _ => ?_⟩
        · rw [before_gather, before_hold, before_leave, before_advance]
        · rw [rest_gather, rest_hold, rest_leave, rest_advance]
        · rw [stack_gather, stack_hold, stack_leave, stack_advance, hstack]
          exact .leaves hstack
        · rw [before_gather, before_hold, before_leave, before_advance, hrest]
          exact apart_of_getLast? hquote (by simp [hc])
      · exact ⟨1, hstays 1 (by decide) _⟩

theorem after_readToken {l : Lexeme} {after : Text} (hne : l.text ≠ [])
    (hrest : r.rest = l.text ++ after)
    (hapart : ∀ c ∈ l.text.getLast?, isWordChar c = true → StartsNoWord after) :
    ∃ n, After r n (r.readToken l) := by
  have htake : r.rest.take l.text.length = l.text := by rw [hrest, List.take_left]
  have hdrop : r.rest.drop l.text.length = after := by rw [hrest, List.drop_left]
  have hpos : 0 < l.text.length := List.length_pos_iff.2 hne
  have hafter : ∀ r' : Reader, r'.before = r.before ++ l.text → r'.rest = after →
      Change r l.text.length r'.stack → After r l.text.length r' := by
    intro r' hbefore hread hstack
    refine ⟨by rw [hbefore, htake], by rw [hread, hdrop], hstack, fun _ c hc hword => ?_⟩
    rw [hbefore, List.getLast?_append_of_ne_nil _ hne] at hc
    rw [hread]
    exact hapart c hc hword
  have hgathered : After r l.text.length ((r.advance l.text.length).gather l.collect) := by
    refine hafter _ ?_ ?_ ?_
    · rw [before_gather, before_advance, htake]
    · rw [rest_gather, rest_advance, hdrop]
    · rw [stack_gather, stack_advance]
      exact .stays hpos
  refine ⟨l.text.length, ?_⟩
  unfold readToken
  split
  · rename_i hout
    split
    · rename_i kind hopened
      obtain rfl := BlockKind.opened?_eq_some hopened
      have hword : StartsNoWord after :=
        hapart _ (List.getLast?_eq_some_getLast hne)
          (isWordChar_of_mem_keyword _ (List.getLast_mem hne))
      refine hafter _ (congrArg _ htake) hdrop ?_
      rw [stack_openBlock, stack_advance, hout]
      exact .opens hout hrest hword
    · exact hafter _ (congrArg _ htake) hdrop (.stays hpos)
  · rename_i kind start below hblock
    split
    · refine hafter _ ?_ ?_ ?_
      · rw [before_complete, before_advance, htake]
      · rw [rest_complete, rest_advance, hdrop]
      · rw [stack_complete, stack_advance, hblock]
        exact .leaves hblock
    · exact hgathered
  · exact hgathered

theorem opening_ofQuote {c : Char} (hc : isQuote c = true) :
    (Enclosure.ofQuote c).opening = [c] := by
  rw [isQuote, Bool.or_eq_true, beq_iff_eq, beq_iff_eq] at hc
  rcases hc with rfl | rfl <;> rfl

theorem after_readCode (h : r.rest ≠ []) (hcode : InCode r.stack) : ∃ n, After r n r.readCode := by
  unfold readCode
  split
  · rename_i hnil
    exact absurd hnil h
  · rename_i c rest hrest
    have hencloses : ∀ (kind : Enclosure) (after : Text), r.rest = kind.opening ++ after →
        After r kind.opening.length
          ((r.advance kind.opening.length).enter (.enclosure kind r.position)) :=
      fun kind after hopening =>
        ⟨rfl, rfl, .encloses hcode hopening, fun hcode' => absurd hcode' (not_inCode rfl)⟩
    split
    · rename_i hline
      obtain ⟨more, rfl⟩ := List.head?_eq_some_iff.1 hline.2
      exact ⟨2, hencloses .lineComment more (by rw [hrest, hline.1]; rfl)⟩
    · split
      · rename_i hblock
        obtain ⟨more, rfl⟩ := List.head?_eq_some_iff.1 hblock.2
        exact ⟨2, hencloses .blockComment more (by rw [hrest, hblock.1]; rfl)⟩
      · split
        · rename_i hquote
          have hopening := opening_ofQuote hquote
          have hentered := hencloses (.ofQuote c) rest (by rw [hrest, hopening]; rfl)
          rw [hopening] at hentered
          exact ⟨1, hentered.before, hentered.rest, hentered.stack, hentered.apart⟩
        · split
          · rename_i hword
            obtain ⟨hsplit, -⟩ := Text.exists_run hword rest
            exact after_readToken (by simp [Lexeme.text]) (hrest.trans hsplit) fun _ _ _ =>
              Text.startsNoWord_dropWhile rest
          · rename_i hword
            exact after_readToken (by simp [Lexeme.text]) hrest
              (apart_of_getLast? (c := c) (by simpa using hword) (by simp [Lexeme.text]))

end Steps

/-- What a step does: it reads some characters and leaves, keeps or enters a context. -/
theorem after_step (h : r.rest ≠ []) : ∃ n, After r n r.step := by
  unfold step
  split
  · exact after_passLine h ‹_›
  · exact after_passComment h ‹_›
  · exact after_readLiteral (by decide) h ‹_›
  · exact after_readLiteral (by decide) h ‹_›
  · rename_i hblock
    refine after_readCode h fun context hcontext => ?_
    rw [hblock] at hcontext
    obtain rfl := Option.some.inj hcontext
    rfl
  · rename_i hout
    refine after_readCode h ?_
    rw [hout]
    nofun

/-- At the end of the script a step only leaves contexts that may be open there. -/
theorem stack_unwind (h : r.unwind? = some r') :
    ∃ context, r.stack = context :: r'.stack ∧ context.closable? = none ∧ r'.before = r.before ∧
    r'.rest = r.rest := by
  unfold unwind? at h
  split at h
  · rename_i below hstack
    obtain rfl := Option.some.inj h
    exact ⟨_, hstack, rfl, rfl, rfl⟩
  · rename_i start below hstack
    obtain rfl := Option.some.inj h
    exact ⟨_, by rw [stack_complete, hstack]; rfl, rfl, before_complete _ _, rest_complete _ _⟩
  · cases h

/-! ### Runs -/

theorem Change.reads_or_leaves {stack : List Context} (h : Change r n stack) :
    0 < n ∨ stack.length < r.stack.length := by
  cases h with
  | stays hn => exact .inl hn
  | leaves hstack =>
    rw [hstack]
    exact .inr (Nat.lt_succ_self _)
  | @encloses kind _ _ _ => cases kind <;> exact .inl (by decide)
  | @opens kind _ _ _ _ => cases kind <;> exact .inl (by decide)

/-- Every step reads something or, having read nothing, leaves a context. -/
theorem next?_lt (h : r.next? = some r') :
    Prod.Lex (· < ·) (· < ·) (r'.rest.length, r'.stack.length) (r.rest.length, r.stack.length) := by
  rw [Prod.lex_iff]
  unfold next? at h
  split at h
  · obtain ⟨context, hstack, -, -, hrest⟩ := stack_unwind h
    exact .inr ⟨by rw [hrest], by rw [hstack]; exact Nat.lt_succ_self _⟩
  · rename_i hne
    obtain rfl := Option.some.inj h
    obtain ⟨n, hafter⟩ := after_step hne
    have hpos := List.length_pos_iff.2 hne
    have hchange := hafter.stack.reads_or_leaves
    rw [hafter.rest, List.length_drop]
    dsimp only
    omega

/-- Reads to the end of the script, and leaves what ends with it. -/
def run (r : Reader) : Reader :=
  match _h : r.next? with
  | none => r
  | some r' => r'.run
termination_by (r.rest.length, r.stack.length)
decreasing_by exact next?_lt _h

theorem run_next (h : r.next? = some r') : r.run = r'.run := by
  rw [run]
  split
  · rename_i hnone
    rw [hnone] at h
    cases h
  · rename_i hsome
    rw [hsome] at h
    rw [Option.some.inj h]

theorem run_of_none (h : r.next? = none) : r.run = r := by
  rw [run]
  split
  · rfl
  · rename_i hsome
    rw [hsome] at h
    cases h

theorem run_step (h : r.rest ≠ []) : r.run = r.step.run := run_next (if_neg h)

/-- A reader at the start of a script. -/
def start (src : Text) : Reader := { rest := src }

/-- A reader that comes about while a script is read. -/
def Reached (src : Text) (r : Reader) : Prop :=
  Relation.ReflTransGen (fun r r' => r.next? = some r') (start src) r

theorem reached_run {src : Text} (h : Reached src r) : Reached src r.run := by
  fun_induction run r with
  | case1 r hnone => exact h
  | case2 r r' hnext ih => exact ih (h.tail hnext)

theorem run_of_reached {src : Text} (h : Reached src r) : r.run = (start src).run := by
  induction h with
  | refl => rfl
  | tail _ hnext ih => rw [← run_next hnext, ih]

/-- Reading stops only at the end of the script. -/
theorem rest_run (r : Reader) : r.run.rest = [] := by
  fun_induction run r with
  | case1 r hnone =>
    by_contra hne
    rw [next?, if_neg hne] at hnone
    cases hnone
  | case2 r r' hnext ih => exact ih

/-! ### What holds of every reader -/

/-- No context, or one block. -/
inductive Plain : List Context → Prop
  | outside : Plain []
  | block (kind : BlockKind) (start : Nat) : Plain [.block kind start]

/-- At most one block, and in it or outside it at most one comment or literal. -/
inductive Layered : List Context → Prop
  | plain {stack : List Context} (h : Plain stack) : Layered stack
  | enclosed {stack : List Context} (kind : Enclosure) (start : Nat) (h : Plain stack) :
      Layered (.enclosure kind start :: stack)

theorem Layered.plain_of_inCode {stack : List Context} (h : Layered stack) (hcode : InCode stack) :
    Plain stack := by
  cases h with
  | plain h => exact h
  | enclosed => exact absurd hcode (not_inCode rfl)

theorem Layered.tail {context : Context} {stack : List Context} (h : Layered (context :: stack)) :
    Layered stack := by
  cases h with
  | plain h =>
    cases h
    exact .plain .outside
  | enclosed _ _ h => exact .plain h

/-- What opens a context stands in the script where the context starts: a comment sign or a quote,
or the word of a block, which is whole. -/
def OpensIn (src : Text) : Context → Prop
  | .enclosure kind start =>
    ∃ before after, src = before ++ (kind.opening ++ after) ∧ Text.byteLength before = start
  | .block kind start =>
    ∃ before after, src = before ++ (kind.keyword ++ after) ∧ Text.byteLength before = start ∧
      (∀ c ∈ before.getLast?, isWordChar c = false) ∧ StartsNoWord after

/-- What holds of every reader that comes about while a script is read. -/
structure Sound (src : Text) (r : Reader) : Prop where
  read : r.before ++ r.rest = src
  layered : Layered r.stack
  opened : ∀ context ∈ r.stack, OpensIn src context
  apart : InCode r.stack → ∀ c ∈ r.before.getLast?, isWordChar c = true → StartsNoWord r.rest

theorem sound_start (src : Text) : Sound src (start src) := ⟨rfl, .plain .outside, nofun, nofun⟩

theorem sound_after {src : Text} (h : Sound src r) (hafter : After r n r') : Sound src r' := by
  have hread : r'.before ++ r'.rest = src := by
    rw [hafter.before, hafter.rest, List.append_assoc, List.take_append_drop, h.read]
  have hchange := hafter.stack
  refine ⟨hread, ?_, ?_, hafter.apart⟩
  · generalize r'.stack = stack at hchange
    cases hchange with
    | stays => exact h.layered
    | leaves hstack => exact (hstack ▸ h.layered).tail
    | encloses hcode => exact .enclosed _ _ (h.layered.plain_of_inCode hcode)
    | opens => exact .plain (.block _ _)
  · generalize r'.stack = stack at hchange
    cases hchange with
    | stays => exact h.opened
    | @leaves _ context below hstack =>
      intro context hcontext
      exact h.opened context (by rw [hstack]; exact List.mem_cons_of_mem _ hcontext)
    | @encloses kind after hcode hrest =>
      refine List.forall_mem_cons.2 ⟨⟨r.before, after, ?_, rfl⟩, h.opened⟩
      rw [← hrest, h.read]
    | @opens kind after hout hrest hword =>
      refine List.forall_mem_singleton.2 ⟨r.before, after, ?_, rfl, fun c hc => ?_, hword⟩
      · rw [← hrest, h.read]
      · -- after a word character the word would not start here
        have hcode : InCode r.stack := by
          rw [hout]
          nofun
        obtain ⟨d, more, hd⟩ := List.exists_cons_of_ne_nil (keyword_ne_nil kind)
        rw [Bool.eq_false_iff]
        intro hc'
        have hstart := h.apart hcode c hc hc' d (more ++ after) (by rw [hrest, hd]; rfl)
        rw [isWordChar_of_mem_keyword d (by rw [hd]; exact List.mem_cons_self)] at hstart
        cases hstart

theorem sound_next {src : Text} (h : Sound src r) (hnext : r.next? = some r') : Sound src r' := by
  unfold next? at hnext
  split at hnext
  · rename_i hend
    obtain ⟨context, hstack, -, hbefore, hrest⟩ := stack_unwind hnext
    refine ⟨by rw [hbefore, hrest, h.read], (hstack ▸ h.layered).tail, fun inner hinner => ?_,
      fun _ _ _ _ => ?_⟩
    · exact h.opened inner (by rw [hstack]; exact List.mem_cons_of_mem _ hinner)
    · rw [hrest, hend]
      nofun
  · obtain rfl := Option.some.inj hnext
    obtain ⟨n, hafter⟩ := after_step ‹_›
    exact sound_after h hafter

theorem Reached.sound {src : Text} (h : Reached src r) : Sound src r := by
  induction h with
  | refl => exact sound_start src
  | tail _ hnext ih => exact sound_next ih hnext

end Reader
end ScriptMinifier.Source
