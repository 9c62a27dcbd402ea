import ScriptMinifier.Proofs.Source.ClosedBlocks
import ScriptMinifier.Proofs.Source.Collecting
import ScriptMinifier.Proofs.Source.ReaderLexemes

/-! A reader finds the blocks of a script.

The lexemes of a block, taken one by one, leave the text and the literals that collecting them
leaves (`foldl_body`), and the contexts that stay open at the end are those of the last lexeme and
the last region. So a reader that has come to its end has the blocks of the script or the fault that
keeps them from being found (`outcome_run`), and has noted the events of reading it (`log_run`). -/
namespace ScriptMinifier.Source

open Text (byteLength)

/-- Blocks with those of more regions, which left texts. -/
def Blocks.extend (b : Blocks) (collected : List (Region × Text)) (ls : Literals) : Blocks where
  globals := (textsOf .globals collected).foldl joinGlobals b.globals
  functions := b.functions ++ textsOf .function collected
  natives := b.natives ++ (textsOf .native collected).map Text.trimEnd
  literals := ls

namespace Blocks

variable {collected : List (Region × Text)} {ls : Literals}

theorem extend_nil (b : Blocks) : b.extend [] b.literals = b := by
  simp [extend, textsOf]

theorem extend_block (b : Blocks) (kind : BlockKind) (body : List Lexeme) (closed : Bool)
    (text : Text) :
    b.extend ((.block kind body closed, text) :: collected) ls =
    (b.add kind text).extend collected ls := by
  cases kind <;> simp [extend, add, textsOf]

end Blocks

/-- Only the last lexeme is unclosed. -/
def LastOpen : List Lexeme → Prop
  | [] => True
  | l :: rest => (∀ kind t, l = .unclosed kind t → rest = []) ∧ LastOpen rest

theorem lastOpen_lexemes (t : Text) : LastOpen (lexemes t) := by
  fun_induction lexemes t with
  | case1 => exact trivial
  | case2 c rest ih =>
    refine ⟨fun kind t hopen => ?_, ih⟩
    rw [eq_nil_of_unclosed hopen, lexemes]

theorem LastOpen.split {ls more : List Lexeme} {l : Lexeme} (h : LastOpen (ls ++ l :: more)) :
    (∀ l' ∈ ls, ∀ kind t, l' ≠ .unclosed kind t) ∧ LastOpen ls ∧ LastOpen more := by
  induction ls with
  | nil => exact ⟨nofun, trivial, h.2⟩
  | cons first rest ih =>
    obtain ⟨hclosed, hrest, hmore⟩ := ih h.2
    have hfirst : ∀ kind t, first ≠ .unclosed kind t := fun kind t heq =>
      absurd (h.1 kind t heq) (List.append_ne_nil_of_right_ne_nil _ (List.cons_ne_nil _ _))
    exact ⟨List.forall_mem_cons.2 ⟨hfirst, hclosed⟩,
      ⟨fun kind t heq => absurd heq (hfirst kind t), hrest⟩, hmore⟩

namespace Reader

variable {r : Reader}

/-! ### The body of a block -/

/-- A reader that has taken the body of a block, with what is still open inside the block. -/
structure BodyRead (r : Reader) (body : List Lexeme) (inner : List Context) (e : Reader) :
    Prop where
  before : e.before = r.before ++ body.flatMap Lexeme.text
  rest : e.rest = r.rest.drop (body.flatMap Lexeme.text).length
  stack : e.stack = inner ++ r.stack
  block : e.block = r.block ++ (collectBody r.found.literals body).1
  found : e.found = { r.found with literals := (collectBody r.found.literals body).2 }
  log : e.log = r.log ++ lexemeEvents r.position body
  inner : (inner = [] ∧ ∀ l ∈ body, ∀ kind t, l ≠ .unclosed kind t) ∨
    ∃ kind t, inner = [.enclosure kind (e.position - byteLength t)] ∧
      body.getLast? = some (.unclosed kind t)

theorem take_of_isBlock (h : r.stack.any Context.isBlock = true) (l : Lexeme) :
    r.take l = { r.advance l.text.length with
      block := r.block ++ (l.collect r.found.literals).1
      found := { r.found with literals := (l.collect r.found.literals).2 }
      log := r.log ++ l.events r.position } := if_pos h

/-- A lexeme more at the start of a body. -/
theorem BodyRead.cons {l : Lexeme} {body : List Lexeme} {inner : List Context} {after : Text}
    {e : Reader} (hblock : r.stack.any Context.isBlock = true) (hrest : r.rest = l.text ++ after)
    (hclosed : ∀ kind t, l ≠ .unclosed kind t) (h : BodyRead (r.take l) body inner e) :
    BodyRead r (l :: body) inner e := by
  have hstep := take_of_isBlock hblock l
  have htake : r.rest.take l.text.length = l.text := by rw [hrest, List.take_left]
  have hposition : (r.take l).position = r.position + byteLength l.text := by
    rw [hstep]
    exact position_advance hrest rfl
  refine ⟨?_, ?_, ?_, ?_, ?_, ?_, ?_⟩
  · rw [h.before, hstep, List.flatMap_cons, ← List.append_assoc]
    exact congrArg (· ++ _) (congrArg _ htake)
  · rw [h.rest, hstep, List.flatMap_cons, List.length_append]
    exact List.drop_drop
  · rw [h.stack, hstep]
    rfl
  · rw [h.block, hstep, collectBody_cons]
    exact List.append_assoc _ _ _
  · rw [h.found, hstep, collectBody_cons]
  · rw [h.log, hposition, hstep, lexemeEvents]
    exact List.append_assoc _ _ _
  · rcases h.inner with ⟨hnil, hall⟩ | ⟨kind, t, hinner, hopen⟩
    · exact .inl ⟨hnil, List.forall_mem_cons.2 ⟨hclosed, hall⟩⟩
    · refine .inr ⟨kind, t, hinner, ?_⟩
      rw [List.getLast?_cons, hopen]
      rfl

/-- What is never closed is the end of a body, and stays open in it. -/
theorem bodyRead_unclosed {kind : Enclosure} {t after : Text} (hrest : r.rest = t ++ after) :
    BodyRead r [.unclosed kind t] [.enclosure kind r.position] (r.absorb (.unclosed kind t)) := by
  have htake : r.rest.take t.length = t := by rw [hrest, List.take_left]
  have hposition : (r.absorb (.unclosed kind t)).position = r.position + byteLength t :=
    position_advance hrest rfl
  refine ⟨?_, ?_, rfl, ?_, rfl, ?_, .inr ⟨kind, t, ?_, rfl⟩⟩
  · rw [List.flatMap_singleton]
    exact congrArg _ htake
  · rw [List.flatMap_singleton]
    rfl
  · exact (List.append_nil _).symm
  · rw [lexemeEvents, lexemeEvents, List.append_nil]
    rfl
  · rw [hposition, Nat.add_sub_cancel]

/-- A body that is taken lexeme by lexeme leaves what collecting it leaves. -/
theorem foldl_body {kind : BlockKind} {start : Nat} {body : List Lexeme} {after : Text}
    (hstack : r.stack = [.block kind start]) (hbody : kind.closing ∉ body) (hlast : LastOpen body)
    (hrest : r.rest = body.flatMap Lexeme.text ++ after)
    (hafter : after = [] ∨ ∀ l ∈ body, ∀ kind t, l ≠ .unclosed kind t) :
    ∃ inner, BodyRead r body inner (body.foldl absorb r) := by
  induction body generalizing r with
  | nil =>
    exact ⟨[], by simp, rfl, rfl, by simp [collectBody], rfl, by simp [lexemeEvents],
      .inl ⟨rfl, List.forall_mem_nil _⟩⟩
  | cons l more ih =>
    rw [List.flatMap_cons, List.append_assoc] at hrest
    rw [List.mem_cons, not_or] at hbody
    rw [List.foldl_cons]
    rcases l.closed_or_unclosed with hclosed | ⟨kind', t, rfl⟩
    · have hblock : r.stack.any Context.isBlock = true := by
        rw [hstack]
        rfl
      have habsorb : r.absorb l = r.take l := by
        refine absorb_ordinary ?_ ?_ hclosed
        · rw [hstack]
          exact .block _ _
        · rw [hstack]
          exact ordinary_in_block (Ne.symm hbody.1)
      have hstack' : (r.take l).stack = [.block kind start] := by
        rw [take_of_isBlock hblock]
        exact hstack
      have hrest' : (r.take l).rest = more.flatMap Lexeme.text ++ after := by
        rw [take_of_isBlock hblock]
        show r.rest.drop l.text.length = _
        rw [hrest, List.drop_left]
      obtain ⟨inner, hread⟩ :=
        ih hstack' hbody.2 hlast.2 hrest'
          (hafter.imp_right fun h l' hl' => h l' (List.mem_cons_of_mem _ hl'))
      rw [habsorb]
      exact ⟨inner, hread.cons hblock hrest hclosed⟩
    · obtain rfl := hlast.1 kind' t rfl
      exact ⟨_, bodyRead_unclosed hrest⟩

/-! ### The end of the script -/

/-- The innermost context that must be closed, as the part that it is and the byte at which it
starts. -/
def innermost? (stack : List Context) : Option (Closable × Nat) :=
  stack.findSome? fun context => context.closable?.map fun part => (part, context.start)

/-- What reading comes to: the blocks, or the innermost part that must be closed and is not. -/
def outcome (r : Reader) : Except Fault Blocks :=
  match innermost? r.stack with
  | some (part, start) => .error (.unterminated part start r.position)
  | none => .ok r.found

theorem innermost?_cons (context : Context) (below : List Context) :
    innermost? (context :: below) = (context.closable?.map fun part => (part, context.start)).or
    (innermost? below) := by
  rw [innermost?, List.findSome?_cons]
  cases context.closable? <;> rfl

theorem innermost?_singleton (context : Context) :
    innermost? [context] = context.closable?.map fun part => (part, context.start) := by
  rw [innermost?_cons]
  exact Option.or_none

theorem innermost?_of_closable {context : Context} (h : context.closable? = none)
    (below : List Context) :
    innermost? (context :: below) = innermost? below := by
  rw [innermost?_cons, h]
  rfl

/-- What is left at the end of the script need not be closed. -/
theorem innermost?_run (h : r.rest = []) :
    innermost? r.run.stack = innermost? r.stack ∧ r.run.position = r.position := by
  fun_induction run r with
  | case1 r hnone => exact ⟨rfl, rfl⟩
  | case2 r r' hnext ih =>
    rw [next?, if_pos h] at hnext
    obtain ⟨context, hstack, hclosable, hbefore, hrest⟩ := stack_unwind hnext
    obtain ⟨hsame, hposition⟩ := ih (hrest.trans h)
    rw [hsame, hposition, hstack, innermost?_of_closable hclosable, position, hbefore]
    exact ⟨rfl, rfl⟩

theorem outcome_run_of_rest (h : r.rest = []) : r.run.outcome =
    match innermost? r.stack with
    | some (part, start) => .error (.unterminated part start r.position)
    | none => .ok r.run.found := by
  obtain ⟨hsame, hposition⟩ := innermost?_run h
  rw [outcome, hsame, hposition]

theorem run_of_closable {context : Context} {below : List Context} (h : r.rest = [])
    (hstack : r.stack = context :: below) (hclosable : context.closable? ≠ none) : r.run = r := by
  refine run_of_none ?_
  rw [next?, if_pos h, unwind?, hstack]
  split
  · rename_i heq
    obtain ⟨rfl, -⟩ := List.cons.inj heq
    exact absurd rfl hclosable
  · rename_i heq
    obtain ⟨rfl, -⟩ := List.cons.inj heq
    exact absurd rfl hclosable
  · rfl

theorem run_lineComment_end {start : Nat} {below : List Context} (h : r.rest = [])
    (hstack : r.stack = .enclosure .lineComment start :: below) :
    r.run = { r with stack := below }.run := by
  refine run_next ?_
  rw [next?, if_pos h, unwind?, hstack]

theorem run_native_end {start : Nat} (h : r.rest = []) (hstack : r.stack = [.block .native start]) :
    r.run = r.complete .native := by
  have hnext : r.next? = some (r.complete .native) := by rw [next?, if_pos h, unwind?, hstack]
  rw [run_next hnext]
  refine run_of_none ?_
  rw [next?, rest_complete, if_pos h, unwind?, stack_complete, hstack]
  rfl

theorem eq_lineComment {kind : Enclosure} {start : Nat}
    (h : (Context.enclosure kind start).closable? = none) :
    kind = .lineComment := by
  cases kind with
  | lineComment => rfl
  | blockComment => cases h
  | string => cases h
  | rawcode => cases h

theorem eq_native {kind : BlockKind} {start : Nat}
    (h : (Context.block kind start).closable? = none) : kind = .native := by
  cases kind with
  | globals => cases h
  | function => cases h
  | native => rfl

/-- A reader notes nothing at the end if something must be closed. -/
theorem log_run_of_innermost (h : r.rest = []) (hlayered : Layered r.stack)
    (hopen : innermost? r.stack ≠ none) :
    r.run.log = r.log := by
  have hplain : ∀ r : Reader, r.rest = [] → Plain r.stack → innermost? r.stack ≠ none →
      r.run.log = r.log := by
    intro r h hplain hopen
    generalize hstack : r.stack = stack at hplain hopen
    cases hplain with
    | outside => exact absurd rfl hopen
    | block kind start =>
      rw [innermost?_singleton, Ne, Option.map_eq_none_iff] at hopen
      rw [run_of_closable h hstack hopen]
  generalize hstack : r.stack = stack at hlayered hopen
  cases hlayered with
  | plain hstack' => exact hplain r h (hstack ▸ hstack') (hstack ▸ hopen)
  | @enclosed below kind start hbelow =>
    by_cases hclosable : (Context.enclosure kind start).closable? = none
    · obtain rfl := eq_lineComment hclosable
      rw [innermost?_of_closable hclosable] at hopen
      rw [run_lineComment_end h hstack]
      exact hplain { r with stack := below } h hbelow hopen
    · rw [run_of_closable h hstack hclosable]

/-! ### Regions -/

/-- The part that lexemes at the end of a script leave open, and where it starts. -/
def openOf? (stop : Nat) (ls : List Lexeme) : Option (Closable × Nat) :=
  (ls.getLast?.bind fun l => l.openPart?.map fun part => (part, stop - byteLength l.text)).or
    ((regions ls).getLast?.bind fun r => r.openPart?.map fun part =>
      (part, stop - byteLength r.text))

theorem openEnd?_eq (src : Text) : openEnd? src = openOf? (byteLength src) (lexemes src) := rfl

/-- What a reader outside all blocks comes to that has lexemes before it. -/
def expected (r : Reader) (ls : List Lexeme) : Except Fault Blocks :=
  match openOf? (byteLength (r.before ++ r.rest)) ls with
  | some (part, start) => .error (.unterminated part start (byteLength (r.before ++ r.rest)))
  | none =>
    .ok
      (r.found.extend (collectAll r.found.literals (regions ls)).1
        (collectAll r.found.literals (regions ls)).2)

/-- A reader that has taken lexemes comes to what they make of a script, and has noted their
events. -/
structure Finds (r : Reader) (ls : List Lexeme) (e : Reader) : Prop where
  outcome : e.run.outcome = r.expected ls
  log : e.run.log = r.log ++ regionEvents r.position (collectAll r.found.literals (regions ls)).1

theorem bind_getLast?_cons {α β : Type} {f : α → Option β} {x : α} (h : f x = none) (xs : List α) :
    (x :: xs).getLast?.bind f = xs.getLast?.bind f := by
  cases xs with
  | nil => exact h
  | cons y ys => rw [List.getLast?_cons_cons]

theorem finds_nil (hout : r.stack = []) (hrest : r.rest = []) : Finds r [] r := by
  have hrun : r.run = r := run_of_none (by rw [next?, if_pos hrest, unwind?, hout])
  refine ⟨?_, ?_⟩
  · rw [hrun, outcome, hout, expected, openOf?, regions, collectAll]
    exact congrArg _ (Blocks.extend_nil _).symm
  · rw [hrun, regions, collectAll, regionEvents, List.append_nil]

theorem openPart?_of_closed {l : Lexeme} (h : ∀ kind t, l ≠ .unclosed kind t) :
    l.openPart? = none := by
  cases l with
  | unclosed kind t => exact absurd rfl (h kind t)
  | _ => rfl

theorem openPart?_unclosed (kind : Enclosure) (t : Text) (start : Nat) :
    (Lexeme.unclosed kind t).openPart? = (Context.enclosure kind start).closable? := by
  cases kind <;> rfl

theorem regions_outside {l : Lexeme} (h : BlockKind.opened? l = none) (more : List Lexeme) :
    regions (l :: more) = .outside l :: regions more := by
  rw [regions, h]

theorem text_outside (l : Lexeme) : (Region.outside l).text = l.text := List.flatMap_singleton _ _

theorem openOf?_outside {l : Lexeme} (hopened : BlockKind.opened? l = none)
    (hclosed : l.openPart? = none) (stop : Nat)
    (more : List Lexeme) : openOf? stop (l :: more) = openOf? stop more := by
  rw [openOf?, regions_outside hopened, bind_getLast?_cons (by rw [hclosed]; rfl),
    bind_getLast?_cons (by rfl), openOf?]

theorem take_outside (hout : r.stack = []) (l : Lexeme) :
    r.take l = (r.advance l.text.length).note (l.events r.position) := by
  refine if_neg ?_
  rw [show ((r.advance l.text.length).note (l.events r.position)).stack = r.stack from rfl, hout]
  decide

/-- A lexeme outside all blocks leaves nothing. -/
theorem finds_outside {l : Lexeme} {more : List Lexeme} {e : Reader} (hout : r.stack = [])
    (hrest : r.rest = l.text ++ more.flatMap Lexeme.text) (hopened : BlockKind.opened? l = none)
    (hclosed : ∀ kind t, l ≠ .unclosed kind t) (h : Finds (r.take l) more e) :
    Finds r (l :: more) e := by
  have htake := take_outside hout l
  have hall : (r.take l).before ++ (r.take l).rest = r.before ++ r.rest := by
    rw [htake]
    show r.before ++ r.rest.take _ ++ r.rest.drop _ = _
    rw [List.append_assoc, List.take_append_drop]
  have hposition : (r.take l).position = r.position + byteLength l.text := by
    rw [htake]
    exact position_advance hrest rfl
  have hfound : (r.take l).found = r.found := by rw [htake]; rfl
  refine ⟨?_, ?_⟩
  · rw [h.outcome, expected, expected, hall, hfound,
      openOf?_outside hopened (openPart?_of_closed hclosed), regions_outside hopened]
    rfl
  · rw [h.log, hfound, hposition, regions_outside hopened, collectAll, regionEvents, text_outside,
      htake, note]
    exact List.append_assoc _ _ _

/-- Nothing happens at the end in an enclosure outside all blocks. -/
theorem run_enclosure_end {kind : Enclosure} {start : Nat} (h : r.rest = [])
    (hstack : r.stack = [.enclosure kind start]) :
    r.run.log = r.log ∧ r.run.found = r.found := by
  by_cases hclosable : (Context.enclosure kind start).closable? = none
  · obtain rfl := eq_lineComment hclosable
    have hrun : ({ r with stack := [] } : Reader).run = { r with stack := [] } :=
      run_of_none (by rw [next?, if_pos h, unwind?])
    rw [run_lineComment_end h hstack, hrun]
    exact ⟨rfl, rfl⟩
  · rw [run_of_closable h hstack hclosable]
    exact ⟨rfl, rfl⟩

/-- An enclosure outside all blocks that is open at the end. -/
theorem finds_unclosed {kind : Enclosure} {t : Text} (hout : r.stack = []) (hrest : r.rest = t) :
    Finds r [.unclosed kind t] (r.absorb (.unclosed kind t)) := by
  have hend : (r.absorb (.unclosed kind t)).rest = [] := by
    show r.rest.drop t.length = []
    rw [hrest, List.drop_length]
  have hstack : (r.absorb (.unclosed kind t)).stack = [.enclosure kind r.position] :=
    congrArg _ hout
  have hposition : (r.absorb (.unclosed kind t)).position = r.position + byteLength t :=
    position_advance (hrest.trans (List.append_nil t).symm) rfl
  have hstop : byteLength (r.before ++ r.rest) = r.position + byteLength t := by
    rw [Text.byteLength_append, hrest]
    rfl
  have hregions : regions [.unclosed kind t] = [.outside (.unclosed kind t)] := by
    rw [regions_outside rfl, regions]
  have hopen : openOf? (r.position + byteLength t) [.unclosed kind t] =
      innermost? [.enclosure kind r.position] := by
    rw [openOf?, hregions, innermost?_singleton, ← openPart?_unclosed kind t]
    show ((Lexeme.unclosed kind t).openPart?.map fun part =>
      (part, r.position + byteLength t - byteLength t)).or none = _
    rw [Nat.add_sub_cancel, Option.or_none]
    rfl
  obtain ⟨hlog, hfound⟩ := run_enclosure_end hend hstack
  refine ⟨?_, ?_⟩
  · rw [outcome_run_of_rest hend, hstack, hposition, expected, hstop, hopen, hfound, hregions]
    split
    · rfl
    · exact congrArg _ (Blocks.extend_nil _).symm
  · have hcollected : (collectAll r.found.literals [.outside (.unclosed kind t)]).1 =
        [(.outside (.unclosed kind t), [])] :=
      rfl
    rw [hlog, hregions, hcollected, regionEvents, regionEvents, List.append_nil]
    rfl

/-! ### Blocks -/

section Block

variable {kind : BlockKind} {body more : List Lexeme} {e : Reader}

/-- A reader that has taken the word that opens a block. -/
def opened (r : Reader) (kind : BlockKind) : Reader :=
  (r.advance kind.keyword.length).openBlock kind r.position

theorem text_block (kind : BlockKind) (body : List Lexeme) (closed : Bool) :
    (Region.block kind body closed).text =
      kind.keyword ++ (body.flatMap Lexeme.text ++ if closed then kind.closing.text else []) := by
  cases closed <;> simp [Region.text, Region.lexemes, Lexeme.text]

/-- The text that a block leaves, as a reader gathers it. -/
theorem collect_block (ls : Literals) (kind : BlockKind) (body : List Lexeme) (closed : Bool) :
    (Region.block kind body closed).collect ls =
      ((if kind = .native then kind.keyword else []) ++ (collectBody ls body).1,
        (collectBody ls body).2) := by
  cases kind <;> rfl

theorem collectAll_block (ls : Literals) (kind : BlockKind) (body : List Lexeme) (closed : Bool)
    (rs : List Region) :
    collectAll ls (.block kind body closed :: rs) =
      ((.block kind body closed, ((Region.block kind body closed).collect ls).1) ::
        (collectAll (collectBody ls body).2 rs).1, (collectAll (collectBody ls body).2 rs).2) := by
  rw [collectAll, collect_block]

theorem add_extend (b : Blocks) (kind : BlockKind) (text : Text) (ls ls' : Literals)
    (body : List Lexeme) (closed : Bool) (collected : List (Region × Text)) :
    (Blocks.add { b with literals := ls } kind text).extend collected ls' =
      b.extend ((.block kind body closed, text) :: collected) ls' := by
  rw [Blocks.extend_block]
  cases kind <;> rfl

theorem openOf?_closed (hbody : kind.closing ∉ body) (stop : Nat) (more : List Lexeme) :
    openOf? stop (.word kind.keyword :: (body ++ kind.closing :: more)) = openOf? stop more := by
  have hclosing : kind.closing.openPart? = none := by cases kind <;> rfl
  rw [openOf?, ClosedBlock.regions_block hbody, ← List.cons_append,
    List.getLast?_append_of_ne_nil _ (List.cons_ne_nil _ _),
    bind_getLast?_cons (by rw [hclosing]; rfl), bind_getLast?_cons (by cases kind <;> rfl), openOf?]

theorem complete_eq {context : Context} {below : List Context} (h : r.stack = context :: below)
    (kind : BlockKind) :
    r.complete kind = { r with
      stack := below
      block := []
      found := r.found.add kind r.block
      log := r.log ++ [.gathered kind r.block, .left context r.position] } := by
  rw [complete, leave, h]
  simp [position]

/-- A reader that has taken the word that opens a block and the block's body. -/
structure BlockRead (r : Reader) (kind : BlockKind) (body : List Lexeme) (after : Text)
    (inner : List Context) (b : Reader) : Prop where
  before : b.before = r.before ++ (kind.keyword ++ body.flatMap Lexeme.text)
  rest : b.rest = after
  stack : b.stack = inner ++ [.block kind r.position]
  block : ∀ closed, b.block = ((Region.block kind body closed).collect r.found.literals).1
  found : b.found = { r.found with literals := (collectBody r.found.literals body).2 }
  log : b.log = r.log ++ .entered (.block kind r.position) (r.position + byteLength kind.keyword) ::
    lexemeEvents (r.position + byteLength kind.keyword) body
  inner : (inner = [] ∧ ∀ l ∈ body, ∀ kind t, l ≠ .unclosed kind t) ∨
    ∃ kind t, inner = [.enclosure kind (b.position - byteLength t)] ∧
      body.getLast? = some (.unclosed kind t)

theorem exists_blockRead {after : Text} (hout : r.stack = []) (hbody : kind.closing ∉ body)
    (hlast : LastOpen body) (hrest : r.rest = kind.keyword ++ (body.flatMap Lexeme.text ++ after))
    (hafter : after = [] ∨ ∀ l ∈ body, ∀ kind t, l ≠ .unclosed kind t) :
    ∃ inner, BlockRead r kind body after inner
    (body.foldl absorb (r.absorb (.word kind.keyword))) := by
  have hstack : (r.opened kind).stack = [.block kind r.position] :=
    congrArg (Context.block kind r.position :: ·) hout
  have hopened : (r.opened kind).rest = body.flatMap Lexeme.text ++ after := by
    show r.rest.drop kind.keyword.length = _
    rw [hrest, List.drop_left]
  have hbefore : (r.opened kind).before = r.before ++ kind.keyword := by
    show r.before ++ r.rest.take kind.keyword.length = _
    rw [hrest, List.take_left]
  have hposition : (r.opened kind).position = r.position + byteLength kind.keyword :=
    position_advance hrest rfl
  obtain ⟨inner, hread⟩ := foldl_body hstack hbody hlast hopened hafter
  rw [absorb_keyword hout]
  refine ⟨inner, ?_, ?_, ?_, fun closed => ?_, hread.found, ?_, hread.inner⟩
  · rw [← List.append_assoc, ← hbefore]
    exact hread.before
  · have hleft := hread.rest
    rwa [hopened, List.drop_left] at hleft
  · rw [← hstack]
    exact hread.stack
  · rw [collect_block]
    exact hread.block
  · rw [← hposition]
    refine hread.log.trans ?_
    rw [List.append_cons]
    rfl

/-- A block that is closed leaves its text. -/
theorem finds_closed {b : Reader} (hbody : kind.closing ∉ body)
    (hread : BlockRead r kind body (kind.closing.text ++ more.flatMap Lexeme.text) [] b)
    (hrest : r.rest =
      kind.keyword ++ (body.flatMap Lexeme.text ++ (kind.closing.text ++ more.flatMap Lexeme.text)))
    (h : Finds (b.absorb kind.closing) more e) :
    Finds r (.word kind.keyword :: (body ++ kind.closing :: more)) e := by
  have hstep : b.absorb kind.closing = { b.advance kind.closing.text.length with
      stack := []
      block := []
      found := b.found.add kind b.block
      log :=
        b.log ++ [.gathered kind b.block,
          .left (.block kind r.position) (b.advance kind.closing.text.length).position] } := by
    rw [absorb_closing hread.stack,
      complete_eq (r := b.advance kind.closing.text.length) hread.stack]
    rfl
  have hall :
      (b.absorb kind.closing).before ++ (b.absorb kind.closing).rest = r.before ++ r.rest := by
    rw [hstep]
    show b.before ++ b.rest.take _ ++ b.rest.drop _ = _
    rw [List.append_assoc, List.take_append_drop, hread.before, hread.rest, hrest,
      List.append_assoc, List.append_assoc]
  have hposition : (b.advance kind.closing.text.length).position =
      r.position + byteLength (Region.block kind body true).text := by
    rw [position_advance hread.rest rfl, text_block, position, hread.before]
    simp [position, Nat.add_assoc]
  have hfound : (b.absorb kind.closing).found =
      Blocks.add { r.found with literals := (collectBody r.found.literals body).2 } kind
        ((Region.block kind body true).collect r.found.literals).1 := by
    rw [hstep, hread.found, hread.block true]
  have hliterals :
      (b.absorb kind.closing).found.literals = (collectBody r.found.literals body).2 := by
    rw [hfound]
    cases kind <;> rfl
  have hlog : (b.absorb kind.closing).log = r.log ++ (Region.block kind body true).events r.position
      ((Region.block kind body true).collect r.found.literals).1 := by
    rw [hstep]
    show b.log ++ _ = _
    rw [hread.log, hposition, hread.block true, Region.events, List.append_assoc]
    rfl
  refine ⟨?_, ?_⟩
  · rw [h.outcome, expected, expected, hall, openOf?_closed hbody, ClosedBlock.regions_block hbody,
      hliterals, hfound, collectAll_block, add_extend]
  · rw [h.log, hlog, ClosedBlock.regions_block hbody, hliterals, collectAll_block, regionEvents,
      ← hposition, List.append_assoc, hstep]
    rfl

theorem regions_open (hbody : kind.closing ∉ body) :
    regions (.word kind.keyword :: body) = [.block kind body false] := by
  have hne : ∀ l ∈ body, (l != kind.closing) = true :=
    fun l hl => bne_iff_ne.2 fun heq => hbody (heq ▸ hl)
  have hbodyOf : bodyOf kind body = body := List.takeWhile_eq_self_iff.2 hne
  have htailOf : tailOf kind body = [] := List.dropWhile_eq_nil_iff.2 hne
  rw [regions, opened?_keyword]
  dsimp only
  rw [hbodyOf, htailOf, List.drop_nil, regions]
  rfl

/-- Only the last lexeme of a body can be open. -/
theorem forall_openPart? (hlast : LastOpen body) (h : ∀ l ∈ body.getLast?, l.openPart? = none) :
    ∀ l ∈ body, l.openPart? = none := by
  induction body with
  | nil => nofun
  | cons l rest ih =>
    refine List.forall_mem_cons.2 ⟨?_, ih hlast.2 fun last hmem => h last ?_⟩
    · rcases l.closed_or_unclosed with hclosed | ⟨kind, t, hopen⟩
      · exact openPart?_of_closed hclosed
      · rw [hlast.1 kind t hopen] at h
        exact h l rfl
    · rw [List.getLast?_cons, Option.mem_def.1 hmem]
      rfl

theorem openOf?_open (hbody : kind.closing ∉ body) (stop start : Nat) :
    openOf? stop (.word kind.keyword :: body) =
      (body.getLast?.bind fun l => l.openPart?.map fun part => (part, stop - byteLength l.text)).or
        ((Context.block kind start).closable?.map fun part =>
          (part, stop - byteLength (Region.block kind body false).text)) := by
  have hpart : (Region.block kind body false).openPart? = (Context.block kind start).closable? := by
    cases kind <;> rfl
  rw [openOf?, regions_open hbody, bind_getLast?_cons (by rfl), ← hpart]
  rfl

/-- A block that is open at the end is finished exactly if nothing must be closed. -/
theorem finished_open (hbody : kind.closing ∉ body) (hlast : LastOpen body) (stop : Nat) :
    (Region.block kind body false).finished =
    (openOf? stop (.word kind.keyword :: body)).isNone := by
  rw [openOf?_open hbody stop 0, Region.finished, Bool.false_or]
  by_cases hopen : ∀ l ∈ body.getLast?, l.openPart? = none
  · have hall : (body.all fun l => l.openPart? == none) = true :=
      List.all_eq_true.2 fun l hl => beq_iff_eq.2 (forall_openPart? hlast hopen l hl)
    have hnone :
        (body.getLast?.bind fun l => l.openPart?.map fun part => (part, stop - byteLength l.text)) =
          none :=
      Option.bind_eq_none_iff.2 fun l hl => by rw [hopen l hl]; rfl
    rw [hall, hnone]
    cases kind <;> rfl
  · simp only [not_forall] at hopen
    obtain ⟨l, hl, hpart⟩ := hopen
    have hall : (body.all fun l => l.openPart? == none) = false := by
      rw [List.all_eq_false]
      exact ⟨l, List.mem_of_getLast? hl, by simpa using hpart⟩
    obtain ⟨part, hsome⟩ := Option.ne_none_iff_exists'.1 hpart
    rw [hall, Option.mem_def.1 hl, Option.bind_some, hsome, Bool.and_false]
    rfl

theorem BlockRead.position_eq {inner : List Context} {b : Reader}
    (hread : BlockRead r kind body [] inner b) :
    b.position = r.position + byteLength (Region.block kind body false).text := by
  rw [position, hread.before, text_block, Text.byteLength_append]
  simp [position]

/-- What is open at the end of a block are the contexts on the stack. -/
theorem openOf?_blockRead {inner : List Context} {b : Reader} (hbody : kind.closing ∉ body)
    (hread : BlockRead r kind body [] inner b) :
    openOf? b.position (.word kind.keyword :: body) = innermost? b.stack := by
  have hblock : b.position - byteLength (Region.block kind body false).text =
      (Context.block kind r.position).start :=
    Nat.sub_eq_of_eq_add hread.position_eq
  rw [openOf?_open hbody _ r.position, hblock, hread.stack]
  rcases hread.inner with ⟨rfl, hclosed⟩ | ⟨kind', t, rfl, hlast⟩
  · have hnone :
        (body.getLast?.bind fun l => l.openPart?.map fun part =>
          (part, b.position - byteLength l.text)) = none :=
      Option.bind_eq_none_iff.2 fun l hl => by
      rw [openPart?_of_closed (hclosed l (List.mem_of_getLast? hl))]; rfl
    rw [hnone, Option.none_or, List.nil_append, innermost?_singleton]
  · rw [hlast, Option.bind_some, openPart?_unclosed kind' t (b.position - byteLength t),
      List.singleton_append, innermost?_cons, innermost?_singleton]
    rfl

theorem BlockRead.layered {inner : List Context} {b : Reader}
    (hread : BlockRead r kind body [] inner b) :
    Layered b.stack := by
  rw [hread.stack]
  rcases hread.inner with ⟨rfl, -⟩ | ⟨kind', t, rfl, -⟩
  · exact .plain (.block _ _)
  · exact .enclosed _ _ (.block _ _)

/-- A native declaration ends with the script, also in a line comment. -/
theorem run_of_innermost_none {inner : List Context} {b : Reader}
    (hread : BlockRead r kind body [] inner b) (hopen : innermost? b.stack = none) :
    kind = .native ∧
    b.run = Reader.complete { b with stack := [.block .native r.position] } .native := by
  have hstack := hread.stack
  rcases hread.inner with ⟨rfl, -⟩ | ⟨kind', t, rfl, -⟩
  · rw [List.nil_append] at hstack
    rw [hstack, innermost?_singleton, Option.map_eq_none_iff] at hopen
    obtain rfl := eq_native hopen
    refine ⟨rfl, ?_⟩
    rw [run_native_end hread.rest hstack, ← hstack]
  · rw [List.singleton_append] at hstack
    rw [hstack, innermost?_cons, Option.or_eq_none_iff, Option.map_eq_none_iff,
      innermost?_singleton, Option.map_eq_none_iff] at hopen
    obtain rfl := eq_lineComment hopen.1
    obtain rfl := eq_native hopen.2
    exact ⟨rfl, (run_lineComment_end hread.rest hstack).trans (run_native_end hread.rest rfl)⟩

/-- A block that is open at the end leaves what is there, if it may be so. -/
theorem finds_open {inner : List Context} {b : Reader} (hbody : kind.closing ∉ body)
    (hlast : LastOpen body)
    (hread : BlockRead r kind body [] inner b)
    (hrest : r.rest = kind.keyword ++ body.flatMap Lexeme.text) :
    Finds r (.word kind.keyword :: body) b := by
  have hstop : byteLength (r.before ++ r.rest) = b.position := by
    rw [position, hread.before, hrest]
  have hopen := openOf?_blockRead hbody hread
  have hfinished := finished_open hbody hlast b.position
  rw [hopen] at hfinished
  have hevents :
      regionEvents r.position
        (collectAll r.found.literals (regions (.word kind.keyword :: body))).1 =
      (Region.block kind body false).events r.position
        ((Region.block kind body false).collect r.found.literals).1 := by
    rw [regions_open hbody, collectAll_block]
    exact List.append_nil _
  cases hnone : innermost? b.stack with
  | some part =>
    refine ⟨?_, ?_⟩
    · rw [outcome_run_of_rest hread.rest, expected, hstop, hopen, hnone]
    · rw [log_run_of_innermost hread.rest hread.layered
        (by rw [hnone]; exact Option.some_ne_none _), hread.log, hevents,
        Region.events, hfinished, hnone]
      exact congrArg _ (List.append_nil _).symm
  | none =>
    obtain ⟨rfl, hrun⟩ := run_of_innermost_none hread hnone
    rw [complete_eq rfl] at hrun
    have hliterals :
        (b.found.add .native b.block).literals = (collectBody r.found.literals body).2 := by
      rw [hread.found]
      rfl
    have hextend := Blocks.extend_nil (b.found.add .native b.block)
    rw [hliterals] at hextend
    refine ⟨?_, ?_⟩
    · rw [outcome_run_of_rest hread.rest, expected, hstop, hopen, hnone, hrun, regions_open hbody,
        collectAll_block, ← add_extend, ← hread.found, ← hread.block false]
      exact congrArg Except.ok hextend.symm
    · rw [hevents, Region.events, hfinished, hnone, hrun, ← hread.position_eq, ← hread.block false]
      show b.log ++ _ = _
      rw [hread.log, List.append_assoc]
      rfl

end Block

/-! ### Scripts -/

/-- The lexemes of a script, taken one by one, are its regions. -/
theorem finds_foldl {ls : List Lexeme} (hlast : LastOpen ls) (hout : r.stack = [])
    (hrest : r.rest = ls.flatMap Lexeme.text) :
    Finds r ls (ls.foldl absorb r) := by
  fun_induction regions ls generalizing r with
  | case1 => exact finds_nil hout hrest
  | case2 l rest hopened ih =>
    rw [List.flatMap_cons] at hrest
    rw [List.foldl_cons]
    rcases l.closed_or_unclosed with hclosed | ⟨kind, t, rfl⟩
    · have htake := take_outside hout l
      have hordinary : Ordinary r.stack l :=
        ⟨fun _ => hopened, fun _ _ heq => by rw [hout] at heq; cases heq⟩
      rw [absorb_ordinary (by rw [hout]; exact .outside) hordinary hclosed]
      refine finds_outside hout hrest hopened hclosed (ih hlast.2 ?_ ?_)
      · rw [htake]
        exact hout
      · rw [htake]
        show r.rest.drop l.text.length = _
        rw [hrest, List.drop_left]
    · obtain rfl := hlast.1 kind t rfl
      exact finds_unclosed hout (hrest.trans (List.append_nil t))
  | case3 l rest kind hopened ih =>
    obtain rfl := BlockKind.opened?_eq_some hopened
    have hbody := closing_not_mem_bodyOf kind rest
    have hsplit := bodyOf_append_tailOf kind rest
    rw [List.flatMap_cons] at hrest
    rw [List.foldl_cons]
    cases htail : tailOf kind rest with
    | nil =>
      rw [htail, List.append_nil] at hsplit
      rw [hsplit] at hbody
      have hrest' : r.rest = kind.keyword ++ (rest.flatMap Lexeme.text ++ []) := by
        rw [List.append_nil]
        exact hrest
      obtain ⟨inner, hread⟩ := exists_blockRead hout hbody hlast.2 hrest' (.inl rfl)
      exact finds_open hbody hlast.2 hread hrest
    | cons c more =>
      have hclosing := tailOf_eq kind rest
      rw [htail] at hclosing hsplit ih
      obtain ⟨rfl, -⟩ := List.cons.inj hclosing
      rw [← hsplit] at hlast hrest ⊢
      obtain ⟨hclosed, hbodyLast, hmore⟩ := LastOpen.split hlast.2
      rw [List.flatMap_append, List.flatMap_cons] at hrest
      obtain ⟨inner, hread⟩ := exists_blockRead hout hbody hbodyLast hrest (.inr hclosed)
      have hinner : inner = [] := by
        rcases hread.inner with ⟨hnil, -⟩ | ⟨kind', t, -, hopen⟩
        · exact hnil
        · exact absurd rfl (hclosed _ (List.mem_of_getLast? hopen) kind' t)
      subst hinner
      rw [List.foldl_append, List.foldl_cons]
      refine finds_closed hbody hread hrest (ih hmore ?_ ?_)
      · rw [absorb_closing hread.stack, stack_complete, stack_advance, hread.stack]
        rfl
      · rw [absorb_closing hread.stack, rest_complete, rest_advance, hread.rest, List.drop_left]
        rfl

theorem run_start (src : Text) : (start src).run = ((lexemes src).foldl absorb (start src)).run :=
  run_eq_foldl ⟨.outside, rfl⟩ rfl

theorem finds_start (src : Text) :
    Finds (start src) (lexemes src) ((lexemes src).foldl absorb (start src)) :=
  finds_foldl (lastOpen_lexemes src) rfl (flatMap_text_lexemes src).symm

/-- A reader comes to the blocks of a script, or to the fault for which there are none. -/
theorem outcome_run (src : Text) : (start src).run.outcome = blocks src := by
  rw [run_start, (finds_start src).outcome, expected, blocks, openEnd?_eq, collected]
  rfl

/-- A reader notes the events of reading a script. -/
theorem log_run (src : Text) : (start src).run.log = events src := by
  rw [run_start, (finds_start src).log, events, collected]
  rfl

end Reader
end ScriptMinifier.Source
