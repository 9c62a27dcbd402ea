import ScriptMinifier.Proofs.Text.Segment
import ScriptMinifier.Source.Region

/-! What each character of a script is.

A script is read one character at a time, looking one character ahead. What is being read
(`Mode`) says what the next character is (`Role`): code, part of a literal or part of a
comment. Comments start only in code, and so do literals. From the roles alone follow the
script without its comments (`uncommented`), its literals (`literalsIn`), where a word
stands whole in the code (`StandsIn`), and with that the passages that the blocks of the
script enclose (`Cut`). A script has one such cut (`Cut.unique`). -/
namespace ScriptMinifier.Source

open Text (isQuote isWordChar mark)

/-! ### Roles -/

/-- What a character of a script is. A quote opens a literal; a gap opens a block comment,
in whose place one space is read. -/
inductive Role
  | code
  | quote
  | literal
  | gap
  | comment
deriving DecidableEq, Repr

/-- What is being read. A block comment can end only after the star that opens it; its
last character is the slash after a star. In a literal a backslash takes the next character
along. -/
inductive Mode
  | code
  | lineComment
  | openingStar
  | blockComment
  | closingSlash
  | literal (quote : Char)
  | escaped (quote : Char)
deriving DecidableEq, Repr

/-- What a character is, and what is read after it. -/
def Mode.read (c : Char) (ahead : Option Char) : Mode → Role × Mode
  | code =>
    if c = '/' ∧ ahead = some '/' then (.comment, lineComment)
    else if c = '/' ∧ ahead = some '*' then (.gap, openingStar)
    else if isQuote c then (.quote, literal c)
    else (.code, code)
  | lineComment => if c = '\n' then (.code, code) else (.comment, lineComment)
  | openingStar => (.comment, blockComment)
  | blockComment =>
    if c = '*' ∧ ahead = some '/' then (.comment, closingSlash) else (.comment, blockComment)
  | closingSlash => (.comment, code)
  | literal quote =>
    if c = '\\' then (.literal, escaped quote)
    else if c = quote then (.literal, code)
    else (.literal, literal quote)
  | escaped quote => (.literal, literal quote)

/-- Characters with their roles. -/
abbrev Annotated := List (Char × Role)

/-- A text with the role of each of its characters. -/
def annotate (m : Mode) : Text → Annotated
  | [] => []
  | c :: rest => (c, (m.read c rest.head?).1) :: annotate (m.read c rest.head?).2 rest

/-- A text all of which is code. -/
def plain (t : Text) : Annotated := t.map fun c => (c, .code)

/-! ### What the roles leave -/

/-- A character without the comment it belongs to. -/
def Role.kept (c : Char) : Role → Text
  | comment => []
  | gap => [' ']
  | _ => [c]

/-- The text with every line comment deleted and every block comment a space. -/
def uncommented (s : Annotated) : Text := s.flatMap fun a => a.2.kept a.1

/-- A character of code, and a space for any other. -/
def Role.visible (c : Char) : Role → Char
  | code => c
  | _ => ' '

/-- The code, with spaces where literals and comments stand. -/
def coded (s : Annotated) : Text := s.map fun a => a.2.visible a.1

/-- The literals, each from its quote on. -/
def literalsIn : Annotated → List Text
  | [] => []
  | (c, .quote) :: rest =>
    (c :: (rest.takeWhile fun a => a.2 = .literal).map Prod.fst) :: literalsIn rest
  | _ :: rest => literalsIn rest

/-! ### Words and blocks -/

/-- No word of the code reaches from one text into the other. -/
def Apart (a b : Annotated) : Prop :=
  ∀ c ∈ (coded a).getLast?, ∀ d ∈ (coded b).head?, isWordChar c = true → isWordChar d = false

/-- Code between two texts is cut off from both. -/
def Whole (before : Annotated) (t : Text) (after : Annotated) : Prop :=
  Apart before (plain t) ∧ Apart (plain t) after

/-- A text stands in the code, cut off from what is around it. -/
def StandsIn (t : Text) (s : Annotated) : Prop :=
  ∃ before after, s = before ++ plain t ++ after ∧ Whole before t after

/-- What ends a block: a word of its own, and for a native declaration the end of the line. -/
def BlockKind.ending : BlockKind → Text
  | globals => "endglobals".toList
  | function => "endfunction".toList
  | native => ['\n']

/-- The passages that the blocks of a script enclose, in order. A block opens at the first
opening word outside all blocks and closes at the first ending of its own after that; a
native declaration may also close at the end of the script. -/
inductive Cut : Annotated → List (BlockKind × Annotated) → Prop
  | outside {s : Annotated} (hs : ∀ kind : BlockKind, ¬ StandsIn kind.keyword s) : Cut s []
  | block {before inner after : Annotated} {kind : BlockKind}
      {passages : List (BlockKind × Annotated)}
      (hbefore : ∀ kind : BlockKind, ¬ StandsIn kind.keyword before)
      (hopen : Whole before kind.keyword (inner ++ plain kind.ending ++ after))
      (hinner : ¬ StandsIn kind.ending inner) (hclose : Whole inner kind.ending after)
      (rest : Cut after passages) :
      Cut (before ++ plain kind.keyword ++ (inner ++ plain kind.ending ++ after))
      ((kind, inner) :: passages)
  | lastNative {before inner : Annotated}
      (hbefore : ∀ kind : BlockKind, ¬ StandsIn kind.keyword before)
      (hopen : Whole before BlockKind.native.keyword inner)
      (hinner : ¬ StandsIn BlockKind.native.ending inner) :
      Cut (before ++ plain BlockKind.native.keyword ++ inner) [(.native, inner)]

/-! ### First properties -/

theorem map_fst_annotate (m : Mode) (t : Text) : (annotate m t).map Prod.fst = t := by
  induction t generalizing m with
  | nil => rfl
  | cons c rest ih => simp [annotate, ih]

@[simp] theorem coded_append (a b : Annotated) : coded (a ++ b) = coded a ++ coded b :=
  List.map_append

@[simp] theorem coded_plain (t : Text) : coded (plain t) = t := by
  induction t with
  | nil => rfl
  | cons c rest ih => simpa [coded, plain, Role.visible] using ih

@[simp] theorem uncommented_append (a b : Annotated) :
    uncommented (a ++ b) = uncommented a ++ uncommented b := List.flatMap_append

@[simp] theorem uncommented_plain (t : Text) : uncommented (plain t) = t := by
  induction t with
  | nil => rfl
  | cons c rest ih => simpa [uncommented, plain, Role.kept] using ih

/-! ### One cut -/

theorem Apart.of_append_left {a b c : Annotated} (h : Apart (a ++ b) c) : Apart b c := by
  intro x hx y hy
  refine h x ?_ y hy
  rw [coded_append, List.getLast?_append, Option.mem_def.1 hx]
  rfl

theorem Apart.of_append_right {a b c : Annotated} (h : Apart a (b ++ c)) : Apart a b := by
  intro x hx y hy
  refine h x hx y ?_
  rw [coded_append, List.head?_append, Option.mem_def.1 hy]
  rfl

theorem Apart.append_plain {a : Annotated} {t : Text} (h : Apart a (plain t)) (hne : t ≠ [])
    (b : Annotated) :
    Apart a (plain t ++ b) := by
  intro x hx y hy
  refine h x hx y ?_
  rw [coded_append, coded_plain, List.head?_append, List.head?_eq_some_head hne] at hy
  rw [coded_plain, List.head?_eq_some_head hne]
  exact hy

/-- A single character, or a word. -/
def IsToken (t : Text) : Prop := t ≠ [] ∧ ((∀ c ∈ t, isWordChar c = true) ∨ t.length = 1)

theorem plain_eq_append {t : Text} {x y : Annotated} (h : plain t = x ++ y) :
    ∃ u v, t = u ++ v ∧ x = plain u ∧ y = plain v := by
  obtain ⟨u, v, htuv, hu, hv⟩ := List.map_eq_append_iff.1 h
  exact ⟨u, v, htuv, hu.symm, hv.symm⟩

/-- Nothing that stands whole starts inside a token. -/
theorem not_apart_of_token {u v : Text} (h : IsToken (u ++ v)) (hu : u ≠ []) (hv : v ≠ [])
    (a b : Annotated) :
    ¬ Apart (a ++ plain u) (plain v ++ b) := by
  intro hapart
  have hword : ∀ c ∈ u ++ v, isWordChar c = true := by
    rcases h.2 with hword | hone
    · exact hword
    · have := List.length_pos_iff.2 hu
      have := List.length_pos_iff.2 hv
      rw [List.length_append] at hone
      omega
  have hlast : u.getLast hu ∈ (coded (a ++ plain u)).getLast? := by
    rw [coded_append, coded_plain, List.getLast?_append, List.getLast?_eq_some_getLast hu]
    rfl
  have hfirst : v.head hv ∈ (coded (plain v ++ b)).head? := by
    rw [coded_append, coded_plain, List.head?_append, List.head?_eq_some_head hv]
    rfl
  have hno := hapart _ hlast _ hfirst (hword _ (List.mem_append_left v (List.getLast_mem hu)))
  rw [hword _ (List.mem_append_right u (List.head_mem hv))] at hno
  cases hno

/-- What stands whole after `a`, and not before the end of `a ++ x`, starts there only when
`x` is empty. -/
theorem eq_nil_of_first {a x b b' : Annotated} {t t' : Text}
    (heq : plain t ++ b = x ++ (plain t' ++ b'))
    (ht : IsToken t) (ht' : IsToken t') (hwhole : Whole a t b) (hwhole' : Whole (a ++ x) t' b')
    (hfirst : ¬ StandsIn t (a ++ x)) : x = [] := by
  rcases List.append_eq_append_iff.1 heq with ⟨y, rfl, hb⟩ | ⟨y, hty, hb⟩
  · -- the token ends before `x` does
    refine absurd ⟨a, y, (List.append_assoc ..).symm, hwhole.1, ?_⟩ hfirst
    rw [hb] at hwhole
    exact hwhole.2.of_append_right
  · obtain ⟨u, v, rfl, rfl, rfl⟩ := plain_eq_append hty
    by_cases hu : u = []
    · rw [hu]
      rfl
    by_cases hv : v = []
    · subst hv
      refine absurd ⟨a, [], ?_, ?_, ?_⟩ hfirst
      · simp
      · exact hwhole.1
      · nofun
    · -- the token runs on into `t'`
      refine absurd ?_ (not_apart_of_token ht hu hv a b)
      rw [← hb]
      exact hwhole'.1.append_plain ht'.1 b'

/-- What stands whole for the first time stands in one place only. -/
theorem first_unique {a b a' b' : Annotated} {t t' : Text} (ht : IsToken t) (ht' : IsToken t')
    (heq : a ++ plain t ++ b = a' ++ plain t' ++ b') (hwhole : Whole a t b)
    (hwhole' : Whole a' t' b')
    (hfirst : ¬ StandsIn t a') (hfirst' : ¬ StandsIn t' a) :
    a = a' ∧ plain t ++ b = plain t' ++ b' := by
  rw [List.append_assoc, List.append_assoc] at heq
  rcases List.append_eq_append_iff.1 heq with ⟨x, rfl, hx⟩ | ⟨x, rfl, hx⟩
  · have hnil := eq_nil_of_first hx ht ht' hwhole hwhole' hfirst
    subst hnil
    exact ⟨(List.append_nil a).symm, hx⟩
  · have hnil := eq_nil_of_first hx ht' ht hwhole' hwhole hfirst'
    subst hnil
    exact ⟨List.append_nil a', hx.symm⟩

theorem keyword_ne_nil (kind : BlockKind) : kind.keyword ≠ [] := by
  cases kind <;> decide

theorem isWordChar_of_mem_keyword {kind : BlockKind} : ∀ c ∈ kind.keyword, isWordChar c = true := by
  apply List.all_eq_true.1
  cases kind <;> decide

theorem isToken_keyword (kind : BlockKind) : IsToken kind.keyword :=
  ⟨keyword_ne_nil kind, .inl isWordChar_of_mem_keyword⟩

theorem isToken_ending : (kind : BlockKind) → IsToken kind.ending
  | .globals => ⟨by decide, .inl (List.all_eq_true.1 (by decide))⟩
  | .function => ⟨by decide, .inl (List.all_eq_true.1 (by decide))⟩
  | .native => ⟨by decide, .inr rfl⟩

/-- Opening words differ in their first character. -/
theorem keyword_injective {kind kind' : BlockKind} {b b' : Annotated}
    (h : plain kind.keyword ++ b = plain kind'.keyword ++ b') : kind = kind' ∧ b = b' := by
  have hhead : kind.keyword.head? = kind'.keyword.head? := by
    have hne := keyword_ne_nil kind
    have hne' := keyword_ne_nil kind'
    have := congrArg (fun s => (coded s).head?) h
    simpa [List.head?_append, List.head?_eq_some_head hne, List.head?_eq_some_head hne'] using this
  have hkind : kind = kind' := by
    revert hhead
    cases kind <;> cases kind' <;> decide
  subst hkind
  exact ⟨rfl, List.append_cancel_left h⟩

/-- The first block of a script. -/
theorem first_block_unique {before before' rest rest' : Annotated} {kind kind' : BlockKind}
    (heq : before ++ plain kind.keyword ++ rest = before' ++ plain kind'.keyword ++ rest')
    (hbefore : ∀ k : BlockKind, ¬ StandsIn k.keyword before)
    (hbefore' : ∀ k : BlockKind, ¬ StandsIn k.keyword before')
    (hopen : Whole before kind.keyword rest) (hopen' : Whole before' kind'.keyword rest') :
    kind = kind' ∧ rest = rest' :=
  keyword_injective (first_unique (isToken_keyword kind) (isToken_keyword kind') heq hopen hopen'
    (hbefore' kind) (hbefore kind')).2

theorem first_ending_unique {inner inner' after after' : Annotated} {kind : BlockKind}
    (heq : inner ++ plain kind.ending ++ after = inner' ++ plain kind.ending ++ after')
    (hinner : ¬ StandsIn kind.ending inner) (hinner' : ¬ StandsIn kind.ending inner')
    (hclose : Whole inner kind.ending after) (hclose' : Whole inner' kind.ending after') :
    inner = inner' ∧ after = after' := by
  have hone :=
    first_unique (isToken_ending kind) (isToken_ending kind) heq hclose hclose' hinner' hinner
  exact ⟨hone.1, List.append_cancel_left hone.2⟩

/-- A script has one cut. -/
theorem Cut.unique {s : Annotated} {passages passages' : List (BlockKind × Annotated)}
    (h : Cut s passages) (h' : Cut s passages') : passages = passages' := by
  induction h generalizing passages' with
  | outside hs =>
    cases h' with
    | outside => rfl
    | @block before inner after kind _ _ hopen =>
      exact absurd ⟨before, _, rfl, hopen⟩ (hs kind)
    | @lastNative before inner _ hopen => exact absurd ⟨before, inner, rfl, hopen⟩ (hs .native)
  | @block before inner after kind passages hbefore hopen hinner hclose rest ih =>
    generalize hs : before ++ plain kind.keyword ++ (inner ++ plain kind.ending ++ after) = s at h'
    cases h' with
    | outside hnone =>
      exact absurd ⟨before, _, hs.symm, hopen⟩ (hnone kind)
    | block hbefore' hopen' hinner' hclose' rest' =>
      obtain ⟨rfl, hbody⟩ := first_block_unique hs hbefore hbefore' hopen hopen'
      obtain ⟨rfl, rfl⟩ := first_ending_unique hbody hinner hinner' hclose hclose'
      rw [ih rest']
    | lastNative hbefore' hopen' hinner' =>
      obtain ⟨rfl, hbody⟩ := first_block_unique hs hbefore hbefore' hopen hopen'
      exact absurd ⟨inner, after, hbody.symm, hclose⟩ hinner'
  | @lastNative before inner hbefore hopen hinner =>
    generalize hs : before ++ plain BlockKind.native.keyword ++ inner = s at h'
    cases h' with
    | outside hnone => exact absurd ⟨before, inner, hs.symm, hopen⟩ (hnone .native)
    | @block _ inner' after' _ _ hbefore' hopen' hinner' hclose' =>
      obtain ⟨rfl, hbody⟩ := first_block_unique hs hbefore hbefore' hopen hopen'
      exact absurd ⟨inner', after', hbody, hclose'⟩ hinner
    | lastNative hbefore' hopen' hinner' =>
      obtain ⟨-, rfl⟩ := first_block_unique hs hbefore hbefore' hopen hopen'
      rfl

end ScriptMinifier.Source
