import ScriptMinifier.Proofs.Source.Passages
import ScriptMinifier.Proofs.Source.Reader

/-! A reader goes through a script lexeme by lexeme.

In code a reader takes one lexeme in one step or in several: a comment in two, a literal in one more
than it has characters and escapes. Whatever the number, the reader comes through the state that the
lexeme leaves behind (`run_lexeme`), so it ends as if it had taken the lexemes of the script one by
one (`run_eq_foldl`). -/
namespace ScriptMinifier.Source

open Text (isQuote isWordChar cutFirst? closeQuote? extendCut_eq_some StartsNoWord)

theorem Lexeme.closed_or_unclosed (l : Lexeme) :
    (∀ kind t, l ≠ .unclosed kind t) ∨ ∃ kind t, l = .unclosed kind t := by
  cases l with
  | unclosed kind t => exact .inr ⟨kind, t, rfl⟩
  | _ => exact .inl fun _ _ => Lexeme.noConfusion

/-- Nothing follows what is never closed. -/
theorem eq_nil_of_unclosed {c : Char} {rest t : Text} {kind : Enclosure}
    (h : (lexeme c rest).1 = .unclosed kind t) :
    (lexeme c rest).2 = [] := by
  have hlead := leads_lexeme c rest
  rw [h] at hlead
  generalize (lexeme c rest).2 = after at hlead
  cases hlead
  rfl

namespace Reader

variable {r : Reader} {n m : Nat} {context : Context}

/-! ### Lexemes at once -/

/-- Notes what has happened. -/
def note (r : Reader) (events : List Event) : Reader := { r with log := r.log ++ events }

/-- What is held of an enclosure that is not closed. -/
def held (kind : Enclosure) (t : Text) : Text := if kind = .string ∨ kind = .rawcode then t else []

/-- Reads a whole lexeme in code. -/
def absorb (r : Reader) : Lexeme → Reader
  | .word w => r.readToken (.word w)
  | .char c => r.readToken (.char c)
  | .enclosed kind t =>
    ((r.advance t.length).note (Lexeme.events r.position (.enclosed kind t))).gather
      (Lexeme.enclosed kind t).collect
  | .unclosed kind t =>
    { (r.advance t.length).note (Lexeme.events r.position (.unclosed kind t)) with
      stack := .enclosure kind r.position :: r.stack
      literal := held kind t }

theorem advance_advance (r : Reader) (m n : Nat) : (r.advance m).advance n = r.advance (m + n) := by
  simp [advance, List.take_add, List.drop_drop]

theorem advance_zero (r : Reader) : r.advance 0 = r := by
  simp [advance]

theorem position_advance {t after : Text} (h : r.rest = t ++ after) (hn : n = t.length) :
    (r.advance n).position = r.position + Text.byteLength t := by
  rw [position, before_advance, h, hn, List.take_left, Text.byteLength_append]
  rfl

/-- What happened in a context that was entered and left. -/
theorem leave_advance_enter (r : Reader) (context : Context) (m n : Nat) :
    (((r.advance m).enter context).advance n).leave =
      (r.advance (m + n)).note
      [.entered context (r.advance m).position, .left context (r.advance (m + n)).position] := by
  rw [← advance_advance]
  simp [leave, enter, advance, note, position]

/-- A context of an enclosure that starts here. -/
def entered (r : Reader) (kind : Enclosure) : Reader :=
  (r.advance kind.opening.length).enter (.enclosure kind r.position)

theorem absorb_enclosed {kind : Enclosure} {inside after : Text}
    (h : r.rest = kind.opening ++ (inside ++ after)) :
    r.absorb (.enclosed kind (kind.opening ++ inside)) =
      ((r.entered kind).advance inside.length).leave.gather
      (Lexeme.enclosed kind (kind.opening ++ inside)).collect := by
  rw [entered, leave_advance_enter, position_advance h rfl,
    position_advance (t := kind.opening ++ inside) (h.trans (List.append_assoc _ _ _).symm)
      List.length_append.symm,
    absorb, List.length_append, Lexeme.events]

theorem absorb_unclosed {kind : Enclosure} {inside : Text} (h : r.rest = kind.opening ++ inside) :
    r.absorb (.unclosed kind (kind.opening ++ inside)) =
      ((r.entered kind).advance inside.length).hold (held kind (kind.opening ++ inside)) := by
  rw [absorb, List.length_append, Lexeme.events, ← position_advance h rfl, ← advance_advance]
  rfl

theorem gather_nothing (r : Reader) : (r.gather fun ls => ([], ls)) = r := by
  unfold gather
  split
  · simp
  · rfl

/-! ### Comments -/

theorem step_of_plain (h : Plain r.stack) : r.step = r.readCode := by
  unfold step
  cases hstack : r.stack with
  | nil => rfl
  | cons context below =>
    rw [hstack] at h
    cases h
    rfl

theorem run_readCode (h : Plain r.stack) (hne : r.rest ≠ []) : r.run = r.readCode.run := by
  rw [run_step hne, step_of_plain h]

theorem rest_entered {kind : Enclosure} {t : Text} (h : r.rest = kind.opening ++ t) :
    (r.entered kind).rest = t := by
  show r.rest.drop kind.opening.length = t
  rw [h, List.drop_left]

/-- An enclosure that no step closes is open to the end of the script. -/
theorem run_open {t : Text} (hrest : r.rest = t)
    (hstep : r.rest ≠ [] → r.step = r.advance r.rest.length) :
    r.run = (r.advance t.length).run := by
  by_cases hnil : t = []
  · rw [hnil, List.length_nil, advance_zero]
  · rw [run_step (hrest ▸ hnil), hstep (hrest ▸ hnil), hrest]

theorem hold_eq (r : Reader) {t : Text} (h : r.literal = t) : r.hold t = r := by
  rw [hold, ← h]

theorem absorb_unclosed_comment {kind : Enclosure} {inside : Text}
    (h : r.rest = kind.opening ++ inside)
    (hliteral : r.literal = []) (hkind : held kind (kind.opening ++ inside) = []) :
    r.absorb (.unclosed kind (kind.opening ++ inside)) =
    (r.entered kind).advance inside.length := by
  rw [absorb_unclosed h, hkind]
  exact hold_eq _ hliteral

/-- A line comment is read in two steps. -/
theorem run_lineComment {t : Text} (h : Plain r.stack) (hliteral : r.literal = [])
    (hrest : r.rest = Enclosure.lineComment.opening ++ t) :
    r.run = (r.absorb (lineComment r.rest).1).run := by
  have hcode : r.run = (r.entered .lineComment).run := by
    rw [run_readCode h (by rw [hrest]; simp [Enclosure.opening]), readCode, hrest]
    rfl
  have hafter := rest_entered hrest
  have hstep : (r.entered .lineComment).step = (r.entered .lineComment).passLine := rfl
  have htake :
      r.rest.takeWhile (· != '\n') = Enclosure.lineComment.opening ++ t.takeWhile (· != '\n') := by
    rw [hrest]
    rfl
  have hdrop : r.rest.dropWhile (· != '\n') = t.dropWhile (· != '\n') := by
    rw [hrest]
    rfl
  rw [hcode, lineComment, htake, hdrop]
  split
  · rename_i hend
    have hall : t.takeWhile (· != '\n') = t :=
      List.takeWhile_eq_self_iff.2 (List.dropWhile_eq_nil_iff.1 hend)
    rw [hall, absorb_unclosed_comment hrest hliteral rfl]
    exact run_open hafter fun _ => by rw [hstep, passLine, hafter, if_pos hend]
  · rename_i hline
    have hne : t ≠ [] := by
      rintro rfl
      exact hline rfl
    have hsplit :
        r.rest = Enclosure.lineComment.opening ++
          (t.takeWhile (· != '\n') ++ t.dropWhile (· != '\n')) := by
      rw [List.takeWhile_append_dropWhile, hrest]
    rw [absorb_enclosed hsplit, run_step (hafter ▸ hne), hstep, passLine, hafter, if_neg hline]
    exact congrArg run (gather_nothing _).symm

/-- A block comment is read in two steps. -/
theorem run_blockComment {t : Text} (h : Plain r.stack) (hliteral : r.literal = [])
    (hrest : r.rest = Enclosure.blockComment.opening ++ t) :
    r.run = (r.absorb (blockComment r.rest).1).run := by
  have hcode : r.run = (r.entered .blockComment).run := by
    rw [run_readCode h (by rw [hrest]; simp [Enclosure.opening]), readCode, hrest]
    rfl
  have hafter := rest_entered hrest
  have hstep : (r.entered .blockComment).step = (r.entered .blockComment).passComment := rfl
  have htake : r.rest.take 2 = Enclosure.blockComment.opening := by
    rw [hrest]
    rfl
  have hdrop : r.rest.drop 2 = t := by
    rw [hrest]
    rfl
  rw [hcode, blockComment, htake, hdrop]
  split
  · rename_i inside after hcut
    have hsplit : r.rest = Enclosure.blockComment.opening ++ (inside ++ "*/".toList ++ after) := by
      rw [hrest, ← Text.cutFirst?_eq_some hcut]
    have hne : t ≠ [] := by
      rintro rfl
      cases hcut
    rw [List.append_assoc, absorb_enclosed hsplit, run_step (hafter ▸ hne), hstep, passComment,
      hafter, hcut, List.length_append]
    rfl
  · rename_i hcut
    rw [hrest, absorb_unclosed_comment hrest hliteral rfl]
    exact run_open hafter fun _ => by rw [hstep, passComment, hafter, hcut]

/-! ### Literals -/

/-- Reads on in a literal that stays open. -/
def keep (r : Reader) (t : Text) : Reader := (r.advance t.length).hold (r.literal ++ t)

/-- Reads on in a literal that is closed. -/
def close (r : Reader) (t : Text) : Reader :=
  ((r.advance t.length).leave.hold []).gather fun ls => ls.intern (r.literal ++ t)

theorem keep_nil (r : Reader) : r.keep [] = r := by
  rw [keep, List.length_nil, advance_zero, List.append_nil, hold_eq r rfl]

theorem keep_keep (r : Reader) (s t : Text) : (r.keep s).keep t = r.keep (s ++ t) := by
  simp [keep, hold, advance, List.take_add]

theorem close_keep (r : Reader) (s t : Text) : (r.keep s).close t = r.close (s ++ t) := by
  have hleave :
      ((r.keep s).advance t.length).leave.hold [] = (r.advance (s ++ t).length).leave.hold [] := by
    rw [List.length_append, ← advance_advance]
    cases hstack : r.stack <;> simp [keep, hold, advance, leave, hstack, position]
  have hheld : (r.keep s).literal ++ t = r.literal ++ (s ++ t) := List.append_assoc _ _ _
  rw [close, hleave, hheld, close]

theorem rest_keep {s t : Text} (h : r.rest = s ++ t) : (r.keep s).rest = t := by
  rw [keep, rest_hold, rest_advance, h, List.drop_left]

section Literal

variable {c d : Char} {start : Nat} {below : List Context} {t inside after : Text}

theorem step_ofQuote (hc : isQuote c = true)
    (hstack : r.stack = .enclosure (.ofQuote c) start :: below) :
    r.step = r.readLiteral c := by
  rw [isQuote, Bool.or_eq_true, beq_iff_eq, beq_iff_eq] at hc
  unfold step
  rw [hstack]
  rcases hc with rfl | rfl <;> rfl

theorem run_ofQuote (hc : isQuote c = true)
    (hstack : r.stack = .enclosure (.ofQuote c) start :: below)
    (hrest : r.rest = d :: t) : r.run = (r.readLiteral c).run := by
  rw [run_step (by rw [hrest]; exact List.cons_ne_nil _ _), step_ofQuote hc hstack]

theorem readLiteral_escape (hrest : r.rest = '\\' :: d :: t) :
    r.readLiteral c = r.keep ['\\', d] := by
  rw [readLiteral, hrest]
  rfl

/-- A backslash that escapes nothing, for the script ends. -/
theorem readLiteral_backslash (hrest : r.rest = ['\\']) : r.readLiteral c = r.keep ['\\'] := by
  rw [readLiteral, hrest]
  simp [keep, advance, hold, hrest]

theorem readLiteral_close (hc : isQuote c = true) (hrest : r.rest = c :: t) :
    r.readLiteral c = r.close [c] := by
  have hslash : c ≠ '\\' := by
    rintro rfl
    cases hc
  simp only [readLiteral, hrest, if_neg hslash, if_pos]
  rfl

theorem readLiteral_char (hslash : d ≠ '\\') (hd : d ≠ c) (hrest : r.rest = d :: t) :
    r.readLiteral c = r.keep [d] := by
  simp only [readLiteral, hrest, if_neg hslash, if_neg hd]
  rfl

/-- A literal is read up to its closing quote. -/
theorem run_readLiteral (hc : isQuote c = true)
    (hstack : r.stack = .enclosure (.ofQuote c) start :: below)
    (hrest : r.rest = t) (hclose : closeQuote? c t = some (inside, after)) :
    r.run = (r.close inside).run := by
  fun_induction closeQuote? c t generalizing r inside with
  | case1 => cases hclose
  | case2 d rest ih =>
    obtain ⟨_, rfl, h'⟩ := extendCut_eq_some.1 hclose
    obtain ⟨tail, rfl, htail⟩ := extendCut_eq_some.1 h'
    rw [run_ofQuote hc hstack hrest, readLiteral_escape hrest,
      ih (r := r.keep ['\\', d]) hstack (rest_keep (s := ['\\', d]) hrest) htail, close_keep]
    rfl
  | case3 rest =>
    obtain ⟨rfl, rfl⟩ := Prod.mk.inj (Option.some.inj hclose)
    rw [run_ofQuote hc hstack hrest, readLiteral_close hc hrest]
  | case4 d rest hescape hd ih =>
    obtain ⟨tail, rfl, htail⟩ := extendCut_eq_some.1 hclose
    have hslash : d ≠ '\\' := by
      rintro rfl
      cases rest with
      | nil => cases htail
      | cons e more => exact hescape e more rfl rfl
    rw [run_ofQuote hc hstack hrest, readLiteral_char hslash hd hrest,
      ih (r := r.keep [d]) hstack (rest_keep (s := [d]) hrest) htail, close_keep]
    rfl

/-- A literal that is never closed is read to the end of the script. -/
theorem run_readLiteral_open (hc : isQuote c = true)
    (hstack : r.stack = .enclosure (.ofQuote c) start :: below)
    (hrest : r.rest = t) (hclose : closeQuote? c t = none) : r.run = (r.keep t).run := by
  fun_induction closeQuote? c t generalizing r with
  | case1 => rw [keep_nil]
  | case2 d rest ih =>
    rw [Text.extendCut, Option.map_eq_none_iff, Text.extendCut, Option.map_eq_none_iff] at hclose
    rw [run_ofQuote hc hstack hrest, readLiteral_escape hrest,
      ih (r := r.keep ['\\', d]) hstack (rest_keep (s := ['\\', d]) hrest) hclose, keep_keep]
    rfl
  | case3 rest => cases hclose
  | case4 d rest hescape hd ih =>
    rw [Text.extendCut, Option.map_eq_none_iff] at hclose
    by_cases hslash : d = '\\'
    · subst hslash
      cases rest with
      | cons e more => exact absurd rfl (hescape e more rfl)
      | nil => rw [run_ofQuote hc hstack hrest, readLiteral_backslash hrest]
    · rw [run_ofQuote hc hstack hrest, readLiteral_char hslash hd hrest,
        ih (r := r.keep [d]) hstack (rest_keep (s := [d]) hrest) hclose, keep_keep]
      rfl

theorem held_ofQuote (c : Char) (t : Text) : held (.ofQuote c) t = t := by
  unfold held Enclosure.ofQuote
  split <;> rfl

theorem collect_ofQuote (c : Char) (raw : Text) :
    (Lexeme.enclosed (.ofQuote c) raw).collect = fun ls => ls.intern raw := by
  unfold Enclosure.ofQuote
  split <;> rfl

/-- A literal is read in one step and those up to its closing quote. -/
theorem run_literal (h : Plain r.stack) (hliteral : r.literal = []) (hc : isQuote c = true)
    (hrest : r.rest = c :: t) :
    r.run = (r.absorb (Source.literal c t).1).run := by
  have hslash : c ≠ '/' := by
    rintro rfl
    cases hc
  have hopening : r.rest = (Enclosure.ofQuote c).opening ++ t := by
    rw [hrest, opening_ofQuote hc]
    rfl
  have hcode : r.run = ((r.entered (.ofQuote c)).hold [c]).run := by
    rw [run_readCode h (by rw [hrest]; simp), readCode, hrest]
    dsimp only
    rw [if_neg (fun heq => hslash heq.1), if_neg (fun heq => hslash heq.1), if_pos hc, entered,
      opening_ofQuote hc]
    rfl
  have hafter := rest_entered hopening
  rw [hcode, Source.literal]
  split
  · rename_i inside after hclose
    have hleave : (((r.entered (.ofQuote c)).hold [c]).advance inside.length).leave.hold [] =
        ((r.entered (.ofQuote c)).advance inside.length).leave :=
      hold_eq ((r.entered (.ofQuote c)).advance inside.length).leave hliteral
    have hsplit : r.rest = (Enclosure.ofQuote c).opening ++ (inside ++ after) :=
      hopening.trans (congrArg _ (Text.closeQuote?_eq_some hclose))
    have habsorb := absorb_enclosed hsplit
    rw [opening_ofQuote hc, List.singleton_append, collect_ofQuote] at habsorb
    rw [run_readLiteral (r := (r.entered (.ofQuote c)).hold [c]) hc rfl hafter hclose, close,
      hleave, habsorb]
    rfl
  · rename_i hclose
    have habsorb := absorb_unclosed hopening
    rw [held_ofQuote, opening_ofQuote hc, List.singleton_append] at habsorb
    rw [run_readLiteral_open (r := (r.entered (.ofQuote c)).hold [c]) hc rfl hafter hclose, habsorb]
    rfl

end Literal

/-! ### Lexemes one by one -/

/-- A reader comes through what a lexeme leaves behind. -/
theorem run_lexeme {c : Char} {rest : Text} (h : Plain r.stack) (hliteral : r.literal = [])
    (hrest : r.rest = c :: rest) :
    r.run = (r.absorb (lexeme c rest).1).run := by
  unfold lexeme
  split
  · rename_i hline
    obtain ⟨more, rfl⟩ := List.head?_eq_some_iff.1 hline.2
    rw [← hrest]
    exact run_lineComment (t := more) h hliteral (by rw [hrest, hline.1]; rfl)
  · rename_i hline
    split
    · rename_i hblock
      obtain ⟨more, rfl⟩ := List.head?_eq_some_iff.1 hblock.2
      rw [← hrest]
      exact run_blockComment (t := more) h hliteral (by rw [hrest, hblock.1]; rfl)
    · rename_i hblock
      split
      · exact run_literal h hliteral ‹_› hrest
      · rename_i hquote
        have hcode : r.run = r.readCode.run :=
          run_readCode h (by rw [hrest]; exact List.cons_ne_nil _ _)
        rw [hcode, readCode, hrest]
        dsimp only
        rw [if_neg hline, if_neg hblock, if_neg hquote]
        split
        · rfl
        · rfl

/-- A lexeme that neither opens nor closes a block. -/
def Ordinary (stack : List Context) (l : Lexeme) : Prop :=
  (stack = [] → BlockKind.opened? l = none) ∧ ∀ kind start, stack = [.block kind start] →
    l ≠ kind.closing

/-- A lexeme that is read to its end and changes no context. -/
def take (r : Reader) (l : Lexeme) : Reader :=
  ((r.advance l.text.length).note (l.events r.position)).gather l.collect

theorem readToken_ordinary {l : Lexeme} (h : Plain r.stack) (hordinary : Ordinary r.stack l) :
    r.readToken l = (r.advance l.text.length).gather l.collect := by
  generalize hstack : r.stack = stack at h hordinary
  cases h with
  | outside =>
    have hgather : (r.advance l.text.length).gather l.collect = r.advance l.text.length := by
      rw [gather, stack_advance, hstack]
      rfl
    rw [hgather, readToken, hstack]
    dsimp only
    rw [hordinary.1 rfl]
  | block kind start =>
    rw [readToken, hstack]
    dsimp only
    rw [if_neg (hordinary.2 kind start rfl)]

theorem absorb_ordinary {l : Lexeme} (h : Plain r.stack) (hordinary : Ordinary r.stack l)
    (hclosed : ∀ kind t, l ≠ .unclosed kind t) : r.absorb l = r.take l := by
  have hnote : (r.advance l.text.length).note [] = r.advance l.text.length := by
    rw [note, List.append_nil]
  cases l with
  | word w =>
    rw [absorb, readToken_ordinary h hordinary, take, Lexeme.events, hnote]; all_goals nofun
  | char c =>
    rw [absorb, readToken_ordinary h hordinary, take, Lexeme.events, hnote]; all_goals nofun
  | enclosed kind t => rfl
  | unclosed kind t => exact absurd rfl (hclosed kind t)

theorem absorb_keyword {kind : BlockKind} (hout : r.stack = []) :
    r.absorb (.word kind.keyword) = (r.advance kind.keyword.length).openBlock kind r.position := by
  rw [absorb, readToken, hout]
  dsimp only
  rw [opened?_keyword]
  rfl

theorem absorb_closing {kind : BlockKind} {start : Nat} (hstack : r.stack = [.block kind start]) :
    r.absorb kind.closing = (r.advance kind.closing.text.length).complete kind := by
  have htoken : r.absorb kind.closing = r.readToken kind.closing := by
    cases kind <;> rfl
  rw [htoken, readToken, hstack]
  dsimp only
  rw [if_pos rfl]

theorem ordinary_in_block {kind : BlockKind} {start : Nat} {l : Lexeme} (h : l ≠ kind.closing) :
    Ordinary [.block kind start] l := by
  refine ⟨fun hnil => absurd hnil (List.cons_ne_nil _ _), ?_⟩
  intro kind' start' heq
  obtain ⟨rfl, -⟩ := Context.block.inj (List.cons.inj heq).1
  exact h

theorem ordinary_or {stack : List Context} (h : Plain stack) (l : Lexeme) :
    Ordinary stack l ∨ (∃ kind, stack = [] ∧ l = .word (BlockKind.keyword kind)) ∨
      ∃ kind start, stack = [.block kind start] ∧ l = BlockKind.closing kind := by
  cases h with
  | outside =>
    cases hopened : BlockKind.opened? l with
    | none => exact .inl ⟨fun _ => hopened, nofun⟩
    | some kind => exact .inr (.inl ⟨kind, rfl, BlockKind.opened?_eq_some hopened⟩)
  | block kind start =>
    by_cases hclosing : l = kind.closing
    · exact .inr (.inr ⟨kind, start, rfl, hclosing⟩)
    · exact .inl (ordinary_in_block hclosing)

/-- What a reader in code needs to go on with the next lexeme. -/
structure Ready (r : Reader) : Prop where
  plain : Plain r.stack
  literal : r.literal = []

@[simp] theorem literal_gather (r : Reader) (collect : Literals → Text × Literals) :
    (r.gather collect).literal = r.literal := by
  unfold gather
  split <;> rfl

@[simp] theorem literal_complete (r : Reader) (kind : BlockKind) :
    (r.complete kind).literal = r.literal := by
  rw [complete]
  unfold leave
  split <;> rfl

theorem ready_absorb {l : Lexeme} (h : Ready r) (hclosed : ∀ kind t, l ≠ .unclosed kind t) :
    Ready (r.absorb l) := by
  rcases ordinary_or h.plain l with hordinary | ⟨kind, hout, rfl⟩ | ⟨kind, start, hstack, rfl⟩
  · rw [absorb_ordinary h.plain hordinary hclosed]
    exact ⟨by rw [take, stack_gather]; exact h.plain, by rw [take, literal_gather]; exact h.literal⟩
  · rw [absorb_keyword hout]
    refine ⟨?_, h.literal⟩
    rw [stack_openBlock, stack_advance, hout]
    exact .block _ _
  · rw [absorb_closing hstack]
    refine ⟨?_, ?_⟩
    · rw [stack_complete, stack_advance, hstack]
      exact .outside
    · rw [literal_complete]
      exact h.literal

theorem rest_absorb (h : Plain r.stack) (l : Lexeme) :
    (r.absorb l).rest = r.rest.drop l.text.length := by
  rcases l.closed_or_unclosed with hclosed | ⟨kind, t, rfl⟩
  · rcases ordinary_or h l with hordinary | ⟨kind, hout, rfl⟩ | ⟨kind, start, hstack, rfl⟩
    · rw [absorb_ordinary h hordinary hclosed, take, rest_gather]
      rfl
    · rw [absorb_keyword hout]
      rfl
    · rw [absorb_closing hstack, rest_complete]
      rfl
  · rfl

/-- A reader ends as if it had taken the lexemes one by one. -/
theorem run_eq_foldl {t : Text} (h : Ready r) (hrest : r.rest = t) :
    r.run = ((lexemes t).foldl absorb r).run := by
  fun_induction lexemes t generalizing r with
  | case1 => rfl
  | case2 c rest ih =>
    have hafter : (r.absorb (lexeme c rest).1).rest = (lexeme c rest).2 := by
      rw [rest_absorb h.plain, hrest, ← text_lexeme c rest, List.drop_left]
    rw [run_lexeme h.plain h.literal hrest, List.foldl_cons]
    rcases (lexeme c rest).1.closed_or_unclosed with hclosed | ⟨kind, t, hopen⟩
    · exact ih (ready_absorb h hclosed) hafter
    · rw [eq_nil_of_unclosed hopen, lexemes, List.foldl_nil]

end Reader
end ScriptMinifier.Source
