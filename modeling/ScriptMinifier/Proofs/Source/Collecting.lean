import ScriptMinifier.Proofs.Literal.Restoring
import ScriptMinifier.Proofs.Source.Lexing
import ScriptMinifier.Source.Blocks

/-! What the body of a block leaves.

Collecting the lexemes of a body leaves a text that holds the body without its comments
(`holds_collectBody`) and adds the body's literals to the table, in order
(`texts_collectBody`). Each is seen of one lexeme first and follows for a body by induction:
a literal that one lexeme is does not run on into the next. -/
namespace ScriptMinifier.Source

open Text (isQuote isBlank mark)
open Literal (placeholder)

/-! ### Literals of lexemes -/

/-- No literal that started earlier runs on into a text. -/
def StartsNoLiteral (s : Annotated) : Prop := ∀ a ∈ s.head?, a.2 ≠ .literal

/-- The literals that a lexeme is. -/
def Lexeme.literals : Lexeme → List Text
  | enclosed .string t => [t]
  | enclosed .rawcode t => [t]
  | _ => []

theorem literalsIn_of_no_quote {a s : Annotated} (h : ∀ x ∈ a, x.2 ≠ .quote) :
    literalsIn (a ++ s) = literalsIn s := by
  induction a with
  | nil => rfl
  | cons x rest ih =>
    have hx := h x List.mem_cons_self
    have hrest := ih fun y hy => h y (List.mem_cons_of_mem x hy)
    obtain ⟨c, role⟩ := x
    cases role with
    | quote => exact absurd rfl hx
    | code => exact hrest
    | literal => exact hrest
    | gap => exact hrest
    | comment => exact hrest

theorem literalsIn_quote {c : Char} {rest : Text} {s : Annotated} (hs : StartsNoLiteral s) :
    literalsIn ((c, .quote) :: (rest.map fun d => (d, .literal)) ++ s) =
    (c :: rest) :: literalsIn s := by
  have htake : ((rest.map fun d => (d, Role.literal)) ++ s).takeWhile (fun a => a.2 = .literal) =
      rest.map fun d => (d, Role.literal) := by
    rw [List.takeWhile_append_of_pos (by simp)]
    cases s with
    | nil => simp
    | cons a more => simp [hs a rfl]
  have hmore : literalsIn ((rest.map fun d => (d, Role.literal)) ++ s) = literalsIn s :=
    literalsIn_of_no_quote (by simp)
  rw [List.cons_append, literalsIn, htake, hmore, List.map_map]
  simp [Function.comp_def]

theorem literalsIn_comment (kind : Enclosure) (h : kind.roles.1 ≠ .quote) (t : Text)
    (s : Annotated) :
    literalsIn (kind.annotated t ++ s) = literalsIn s := by
  apply literalsIn_of_no_quote
  intro x hx
  cases t with
  | nil => cases hx
  | cons c rest =>
    rcases List.mem_cons.1 hx with rfl | hx
    · exact h
    · obtain ⟨d, -, rfl⟩ := List.mem_map.1 hx
      cases kind <;> exact Role.noConfusion

/-- Of what is never closed only a line comment may be left so. -/
theorem eq_lineComment_of_openPart {kind : Enclosure} {t : Text}
    (h : (Lexeme.unclosed kind t).openPart? = none) : kind = .lineComment := by
  cases kind with
  | lineComment => rfl
  | blockComment => cases h
  | string => cases h
  | rawcode => cases h

/-- A lexeme that is read to its end leaves its own literal before those that follow. -/
theorem literalsIn_lexeme {l : Lexeme} {ls : List Lexeme} (h : Lexed (l :: ls))
    (hopen : l.openPart? = none)
    {s : Annotated} (hs : StartsNoLiteral s) :
    literalsIn (l.annotated ++ s) = l.literals ++ literalsIn s := by
  cases h with
  | word => exact literalsIn_of_no_quote (by simp [Lexeme.annotated, plain])
  | char => exact literalsIn_of_no_quote (by simp [Lexeme.annotated, plain])
  | @enclosed kind t _ hne =>
    obtain ⟨c, rest, rfl⟩ := List.exists_cons_of_ne_nil hne
    cases kind with
    | lineComment => exact literalsIn_comment .lineComment (by decide) (c :: rest) s
    | blockComment => exact literalsIn_comment .blockComment (by decide) (c :: rest) s
    | string => exact literalsIn_quote hs
    | rawcode => exact literalsIn_quote hs
  | @unclosed _ t =>
    rw [eq_lineComment_of_openPart hopen]
    exact literalsIn_comment .lineComment (by decide) t s

theorem startsNoLiteral_annotatedAll {ls : List Lexeme} (h : Lexed ls) :
    StartsNoLiteral (annotatedAll ls) := by
  have hplain : ∀ (t : Text) (s : Annotated), t ≠ [] → StartsNoLiteral (plain t ++ s) := by
    intro t s hne a ha
    obtain ⟨c, rest, rfl⟩ := List.exists_cons_of_ne_nil hne
    cases ha
    exact Role.noConfusion
  have henclosure : ∀ (kind : Enclosure) (t : Text) (s : Annotated), t ≠ [] →
      StartsNoLiteral (kind.annotated t ++ s) := by
    intro kind t s hne a ha
    obtain ⟨c, rest, rfl⟩ := List.exists_cons_of_ne_nil hne
    cases ha
    cases kind <;> exact Role.noConfusion
  cases h with
  | nil => nofun
  | word hne => exact hplain _ _ hne
  | char => exact hplain _ _ (by simp)
  | enclosed hne => exact henclosure _ _ _ hne
  | unclosed hne => exact henclosure _ _ _ hne

/-! ### Collecting one lexeme -/

theorem texts_collect (lits : Literals) (l : Lexeme) :
    (l.collect lits).2.texts = lits.texts ++ l.literals := by
  cases l with
  | word => simp [Lexeme.collect, Lexeme.literals]
  | char => simp [Lexeme.collect, Lexeme.literals]
  | enclosed kind t => cases kind <;> simp [Lexeme.collect, Lexeme.literals, Literals.intern]
  | unclosed => simp [Lexeme.collect, Lexeme.literals]

theorem uncommented_comment (t : Text) : uncommented (t.map fun c => (c, Role.comment)) = [] := by
  simp [uncommented, Role.kept]

theorem uncommented_literal (t : Text) : uncommented (t.map fun c => (c, Role.literal)) = t := by
  induction t with
  | nil => rfl
  | cons c rest ih => simpa [uncommented, Role.kept] using ih

theorem holds_literal {all lits : Literals} {t : Text}
    (hends : ∃ raw q, t = raw ++ [q] ∧ isQuote q = true)
    (hall : lits.texts ++ [t] <+: all.texts) : Holds all [lits.size] (placeholder lits.size) t := by
  obtain ⟨raw, q, rfl, hq⟩ := hends
  have hget : all.get? lits.size = some (raw ++ [q]) := by
    obtain ⟨more, hmore⟩ := hall
    simp [Literals.get?, ← hmore, Literals.size]
  have hblank : isBlank q = false := by
    rw [isQuote, Bool.or_eq_true, beq_iff_eq, beq_iff_eq] at hq
    rcases hq with rfl | rfl <;> decide
  have := Holds.literal hget hblank .nil
  rwa [List.append_nil, List.append_nil] at this

theorem holds_lineComment {all : Literals} (t : Text) :
    Holds all [] [] (uncommented (t.map fun c => (c, .comment))) := by
  rw [uncommented_comment]
  exact .nil

/-- What a lexeme leaves holds the lexeme without its comment. -/
theorem holds_collect {all lits : Literals} {l : Lexeme} {ls : List Lexeme} (h : Lexed (l :: ls))
    (hopen : l.openPart? = none) (hall : (l.collect lits).2.texts <+: all.texts) :
    Holds all (List.range' lits.size l.literals.length) (l.collect lits).1
    (uncommented l.annotated) := by
  cases h with
  | word _ hword =>
    rw [Lexeme.annotated, uncommented_plain]
    exact .of_not_mem fun hm => absurd (hword mark hm) (by decide)
  | char hc =>
    rw [Lexeme.annotated, uncommented_plain]
    refine .of_not_mem fun hm => ?_
    obtain rfl := List.mem_singleton.1 hm
    exact absurd hc (by decide)
  | @enclosed kind t _ hne hends =>
    rw [texts_collect] at hall
    obtain ⟨c, rest, rfl⟩ := List.exists_cons_of_ne_nil hne
    cases kind with
    | lineComment => exact holds_lineComment (c :: rest)
    | blockComment =>
      show Holds all [] [' '] (' ' :: uncommented (rest.map fun d => (d, .comment)))
      rw [uncommented_comment]
      exact .of_not_mem (by decide)
    | string =>
      show Holds all [lits.size] (placeholder lits.size)
        (c :: uncommented (rest.map fun d => (d, .literal)))
      rw [uncommented_literal]
      exact holds_literal (hends rfl) hall
    | rawcode =>
      show Holds all [lits.size] (placeholder lits.size)
        (c :: uncommented (rest.map fun d => (d, .literal)))
      rw [uncommented_literal]
      exact holds_literal (hends rfl) hall
  | @unclosed kind t _ hne =>
    obtain ⟨c, rest, rfl⟩ := List.exists_cons_of_ne_nil hne
    rw [eq_lineComment_of_openPart hopen]
    exact holds_lineComment (c :: rest)

/-! ### Collecting a body -/

theorem collectBody_cons (lits : Literals) (l : Lexeme) (rest : List Lexeme) :
    collectBody lits (l :: rest) =
      ((l.collect lits).1 ++ (collectBody (l.collect lits).2 rest).1,
        (collectBody (l.collect lits).2 rest).2) := rfl

theorem collectBody_append (lits : Literals) (ls ls' : List Lexeme) :
    collectBody lits (ls ++ ls') =
      ((collectBody lits ls).1 ++ (collectBody (collectBody lits ls).2 ls').1,
        (collectBody (collectBody lits ls).2 ls').2) := by
  induction ls generalizing lits with
  | nil => rfl
  | cons l rest ih =>
    rw [List.cons_append, collectBody_cons, ih, collectBody_cons, List.append_assoc]

/-- The body of a block adds its literals to the table, in order. -/
theorem texts_collectBody {lits : Literals} {body : List Lexeme} (h : Lexed body)
    (hopen : ∀ l ∈ body, l.openPart? = none) :
    (collectBody lits body).2.texts = lits.texts ++ literalsIn (annotatedAll body) := by
  induction body generalizing lits with
  | nil => simp [collectBody, literalsIn]
  | cons l rest ih =>
    rw [annotatedAll_cons,
      literalsIn_lexeme h (hopen l List.mem_cons_self) (startsNoLiteral_annotatedAll h.tail),
      ← List.append_assoc, ← texts_collect, collectBody_cons]
    exact ih h.tail fun l' hl' => hopen l' (List.mem_cons_of_mem l hl')

/-- What the body of a block leaves holds the body without its comments. -/
theorem holds_collectBody {all lits : Literals} {body : List Lexeme} (h : Lexed body)
    (hopen : ∀ l ∈ body, l.openPart? = none)
    (hall : (collectBody lits body).2.texts <+: all.texts) :
    Holds all (List.range' lits.size (literalsIn (annotatedAll body)).length)
    (collectBody lits body).1
      (uncommented (annotatedAll body)) := by
  induction body generalizing lits with
  | nil => exact .nil
  | cons l rest ih =>
    rw [collectBody_cons] at hall ⊢
    have hl := hopen l List.mem_cons_self
    have hopen' : ∀ l' ∈ rest, l'.openPart? = none :=
      fun l' hl' => hopen l' (List.mem_cons_of_mem l hl')
    have hrest := ih h.tail hopen' hall
    have hfirst : (l.collect lits).2.texts <+: all.texts := by
      refine List.IsPrefix.trans ?_ hall
      rw [texts_collectBody h.tail hopen']
      exact List.prefix_append ..
    have hsize : (l.collect lits).2.size = lits.size + l.literals.length := by
      simp [Literals.size, texts_collect]
    have hboth := (holds_collect h hl hfirst).append hrest
    rw [hsize, List.range'_append_1, ← List.length_append,
      ← literalsIn_lexeme h hl (startsNoLiteral_annotatedAll h.tail), ← uncommented_append] at hboth
    exact hboth

end ScriptMinifier.Source
