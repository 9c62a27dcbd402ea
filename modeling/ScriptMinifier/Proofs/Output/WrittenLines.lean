import ScriptMinifier.Proofs.Output.Contained
import ScriptMinifier.Proofs.Output.NumeralLengths
import ScriptMinifier.Proofs.Output.Rereading
import ScriptMinifier.Proofs.Source.Relexing

/-! The lexemes of written lines.

A line is written with its numerals short and its literals put back. A numeral may become a
rawcode, and one after a dollar sign joins the word that stands before it, so the lexemes of a
written line are not those of the line. They are words, characters and literals all the same, none
of them closes a block, and the line ends where it ended; what they leave in a block is the line as
it is read again (`readsOn_line`). A line of names is written as it is
(`Nominal.shortenFrom_eq`). -/
namespace ScriptMinifier.Output

open Literal (placeholder indexLimit)
open Source (ClosedLiteral Lexeme Uncommented collectBody heldLexemes lexemes)
open Text (isIdent isOtherChar isQuote isWordChar mark StartsNoWord words)

/-! ### Numerals -/

/-- A rawcode that is written is a literal. -/
theorem closedLiteral_of_rawcode? {n : Int} {raw : Text} (h : Literal.rawcode? n = some raw) :
    ClosedLiteral raw := by
  obtain ⟨-, -, hplain, rfl⟩ := Literal.rawcode?_eq_some h
  refine ⟨'\'', _, rfl, rfl, fun t => ?_⟩
  rw [List.append_assoc, List.singleton_append]
  exact Literal.closeQuote?_plainDigits hplain t

/-- A numeral is written in digits, or as a literal if it is long. -/
theorem digits_or_literal (n : Nat) :
    (numeral n ≠ [] ∧ ∀ c ∈ numeral n, c.isDigit = true) ∨
      decimalLimit < n ∧ ClosedLiteral (numeral n) := by
  have hdigits : Text.ofNat n ≠ [] ∧ ∀ c ∈ Text.ofNat n, c.isDigit = true :=
    ⟨Nat.toDigits_ne_nil, fun c hc => Literal.isDigit_of_mem_ofNat hc⟩
  rw [numeral]
  split
  · rename_i hlong
    cases hraw : Literal.rawcode? n with
    | none => exact .inl hdigits
    | some raw => exact .inr ⟨hlong, closedLiteral_of_rawcode? hraw⟩
  · exact .inl hdigits

theorem lt_length_of_readNat? {base k n : Nat} {w : Text} (hbase : 0 < base)
    (h : Text.readNat? base w = some n) (hn : base ^ k ≤ n) : k < w.length := by
  by_contra hshort
  have hpow : base ^ w.length ≤ base ^ k := Nat.pow_le_pow_right hbase (Nat.le_of_not_lt hshort)
  exact absurd (Text.lt_of_readNat? h) (Nat.not_lt_of_le (hpow.trans hn))

/-- A number has as many characters as its hexadecimal digits, or more than six. -/
theorem length_of_hexValue? {n : Nat} {digits : Text} (h : hexValue? digits = some n)
    (hlong : decimalLimit < n) : 4 < digits.length := by
  rw [decimalLimit] at hlong
  exact lt_length_of_readNat? (by decide) (Option.filter_eq_some_iff.1 h).1 (by omega)

/-- A word that is written as another is a number, and a long one if the numeral is long. -/
theorem shortenWord_cases (before after : Option Char) (w : Text) :
    shortenWord before after w = w ∨
      (∃ c ∈ w.head?, c.isDigit = true) ∧
        ∃ n, shortenWord before after w = numeral n ∧ (decimalLimit < n → 6 < w.length) := by
  have hgetD : ∀ value : Option Nat, (∀ n ∈ value, decimalLimit < n → 6 < w.length) →
      (value.map numeral).getD w = w ∨
        ∃ n, (value.map numeral).getD w = numeral n ∧ (decimalLimit < n → 6 < w.length) := by
    intro value hvalue
    cases value with
    | none => exact .inl rfl
    | some n => exact .inr ⟨n, rfl, hvalue n rfl⟩
  have hhexadecimal : ∀ digits : Text, digits.length + 2 = w.length →
      ∀ n ∈ hexValue? digits, decimalLimit < n → 6 < w.length := by
    intro digits hlength n hn hlong
    have hfour := length_of_hexValue? hn hlong
    omega
  have hdecimal : ∀ n ∈ Text.readNat? 10 w, decimalLimit < n → 6 < w.length := by
    intro n hn hlong
    rw [decimalLimit] at hlong
    exact lt_length_of_readNat? (by decide) hn (by omega)
  suffices hnumber : shortenNumber before after w = w ∨
      ∃ n, shortenNumber before after w = numeral n ∧ (decimalLimit < n → 6 < w.length) by
    rw [shortenWord]
    split
    · rename_i hdigit
      obtain ⟨c, hc, hdigit⟩ := (Option.any_eq_true _ _).1 hdigit
      exact hnumber.imp_right fun hshort => ⟨⟨c, hc, hdigit⟩, hshort⟩
    · exact .inl rfl
  unfold shortenNumber
  split
  · exact hgetD _ (hhexadecimal _ rfl)
  · exact hgetD _ (hhexadecimal _ rfl)
  · exact .inl rfl
  · split
    · exact .inl rfl
    · exact hgetD _ hdecimal

/-! ### Texts that are read on -/

/-- What a lexeme of a written line can be, where `closing` closes the block. -/
inductive Inner (closing : Text) : Lexeme → Prop
  | word {w : Text} (hw : w ≠ closing) (hline : '\n' ∉ w) : Inner closing (.word w)
  | char {c : Char} (hc : c ≠ '\n') : Inner closing (.char c)
  | literal (raw : Text) : Inner closing (.ofLiteral raw)

namespace Inner

variable {closing : Text} {l : Lexeme} {ls : List Lexeme}

theorem openPart (h : Inner closing l) : l.openPart? = none := by
  cases h <;> rfl

theorem ne_closing (h : Inner closing l) : l ≠ .word closing ∧ l ≠ .char '\n' := by
  cases h with
  | word hw => exact ⟨fun heq => hw (Lexeme.word.inj heq), nofun⟩
  | char hc => exact ⟨nofun, fun heq => hc (Lexeme.char.inj heq)⟩
  | literal => exact ⟨nofun, nofun⟩

theorem newline_not_mem_collect (h : Inner closing l) (lits : Literals) :
    '\n' ∉ (l.collect lits).1 := by
  cases h with
  | word _ hline => exact hline
  | char hc => exact fun hmem => hc (List.mem_singleton.1 hmem).symm
  | literal raw =>
    rw [Source.collect_ofLiteral]
    exact Literal.not_mem_placeholder (k := lits.size) (by decide)

/-- What the inside of a line leaves is a line. -/
theorem newline_not_mem_collectBody (h : ∀ l ∈ ls, Inner closing l) (lits : Literals) :
    '\n' ∉ (Source.collectBody lits ls).1 := by
  induction ls generalizing lits with
  | nil => exact List.not_mem_nil
  | cons l rest ih =>
    rw [List.forall_mem_cons] at h
    rw [Source.collectBody_cons, List.mem_append, not_or]
    exact ⟨h.1.newline_not_mem_collect lits, ih h.2 _⟩

end Inner

theorem newline_not_mem_of_word {w : Text} (h : ∀ c ∈ w, isWordChar c = true) : '\n' ∉ w :=
  fun hmem => absurd (h _ hmem) (by decide)

/-- A text that is read to the end of its line, whatever follows, where `S` holds of what it leaves
in a block under every table that goes on from the one it leaves. -/
def ReadsOn (closing s : Text) (S : Literals → Text → Prop) : Prop :=
  ∃ ls : List Lexeme, (∀ l ∈ ls, Inner closing l) ∧
    (∀ tail, lexemes (s ++ '\n' :: tail) = ls ++ .char '\n' :: lexemes tail) ∧
    ∀ lits all, (collectBody lits ls).2.texts <+: all.texts → S all (collectBody lits ls).1

namespace ReadsOn

variable {closing s : Text} {S T : Literals → Text → Prop}

theorem imp (h : ReadsOn closing s S) (himp : ∀ all x, S all x → T all x) :
    ReadsOn closing s T := by
  obtain ⟨ls, hls, hread, hleaves⟩ := h
  exact ⟨ls, hls, hread, fun lits all hall => himp all _ (hleaves lits all hall)⟩

theorem nil : ReadsOn closing [] fun _ x => x = [] :=
  ⟨[], nofun, Source.lexemes_newline, fun _ _ _ => rfl⟩

theorem other {c : Char} (hc : isOtherChar c = true) (hquote : isQuote c = false)
    (hnewline : c ≠ '\n') (hcomment : c = '/' → s.head? ≠ some '/' ∧ s.head? ≠ some '*')
    (h : ReadsOn closing s S) :
    ReadsOn closing (c :: s) fun all x => ∃ x', x = c :: x' ∧ S all x' := by
  obtain ⟨ls, hls, hread, hleaves⟩ := h
  have hnext : ∀ tail : Text, ∀ d : Char, d ≠ '\n' → s.head? ≠ some d →
      (s ++ '\n' :: tail).head? ≠ some d := by
    intro tail d hd hs
    cases s with
    | nil => exact fun heq => hd (Option.some.inj heq).symm
    | cons e rest => exact hs
  refine ⟨.char c :: ls, List.forall_mem_cons.2 ⟨.char hnewline, hls⟩, fun tail => ?_,
    fun lits all hall => ⟨_, rfl, hleaves lits all hall⟩⟩
  rw [List.cons_append, Source.lexemes_other hc hquote, hread]
  · rfl
  · rintro ⟨rfl, hhead⟩
    exact hnext tail '/' (by decide) (hcomment rfl).1 hhead
  · rintro ⟨rfl, hhead⟩
    exact hnext tail '*' (by decide) (hcomment rfl).2 hhead

theorem literal {raw : Text} (hraw : ClosedLiteral raw) (h : ReadsOn closing s S) :
    ReadsOn closing (raw ++ s) fun all x =>
      ∃ k x', all.get? k = some raw ∧ x = placeholder k ++ x' ∧ S all x' := by
  obtain ⟨ls, hls, hread, hleaves⟩ := h
  refine ⟨.ofLiteral raw :: ls, List.forall_mem_cons.2 ⟨.literal raw, hls⟩, fun tail => ?_,
    fun lits all hall => ?_⟩
  · rw [List.append_assoc, Source.lexemes_literal hraw, hread]
    rfl
  · rw [Source.collectBody_cons, Source.collect_ofLiteral] at hall ⊢
    refine ⟨lits.size, _, ?_, rfl, hleaves _ all hall⟩
    obtain ⟨more, hmore⟩ := hall
    rw [Source.texts_collectBody_lexemes] at hmore
    simp [Literals.get?, ← hmore, Literals.intern, Literals.size]

/-- A word, or the part of one that has been read so far. -/
theorem word {w : Text} (hw : ∀ c ∈ w, isWordChar c = true) (hclosing : w ≠ closing)
    (hstart : StartsNoWord s) (h : ReadsOn closing s S) :
    ReadsOn closing (w ++ s) fun all x => ∃ x', x = w ++ x' ∧ S all x' := by
  by_cases hne : w = []
  · rw [hne, List.nil_append]
    exact h.imp fun all x hx => ⟨x, rfl, hx⟩
  obtain ⟨ls, hls, hread, hleaves⟩ := h
  refine ⟨.word w :: ls, List.forall_mem_cons.2 ⟨.word hclosing (newline_not_mem_of_word hw), hls⟩,
    fun tail => ?_, fun lits all hall => ⟨_, rfl, hleaves lits all hall⟩⟩
  have hstop : StartsNoWord (s ++ '\n' :: tail) := by
    cases s with
    | nil => exact Text.startsNoWord_of_isOtherChar (by decide) tail
    | cons c rest => exact Text.StartsNoWord.append (List.cons_ne_nil c rest) hstart _
  rw [List.append_assoc, Source.lexemes_word hne hw hstop, hread]
  rfl

end ReadsOn

/-! ### Lines -/

section Lines

variable {ls : Literals} {before : Option Char} {t closing : Text}

theorem restore_append_of_not_mem {s : Text} (hs : mark ∉ s) (t : Text) :
    ls.restore (s ++ t) = s ++ ls.restore t := by
  rw [(Sealed.of_not_mem (n := 0) hs).restore_append, Literals.restore_of_not_mem hs]

theorem startsNoWord_literal {raw : Text} (hraw : ClosedLiteral raw) (s : Text) :
    StartsNoWord (raw ++ s) := by
  obtain ⟨quote, inside, rfl, hquote, -⟩ := hraw
  rintro c rest hc
  rw [← (List.cons.inj hc).1, Bool.eq_false_iff]
  intro hword
  rw [Source.isQuote_of_isWordChar hword] at hquote
  cases hquote

/-- What a numeral starts with. -/
theorem head?_numeral {d : Char} {n : Nat} {s : Text} (h : d ∈ (numeral n ++ s).head?) :
    isWordChar d = true ∨ isQuote d = true := by
  rcases digits_or_literal n with ⟨hne, hdigits⟩ | ⟨-, quote, inside, hraw, hquote, -⟩
  · obtain ⟨c, rest, hnumeral⟩ := List.exists_cons_of_ne_nil hne
    rw [hnumeral] at h hdigits
    rw [← Option.mem_some_iff.1 h]
    exact .inl (Constant.isWordChar_of_isDigit (hdigits c List.mem_cons_self))
  · rw [hraw] at h
    rw [← Option.mem_some_iff.1 h]
    exact .inr hquote

/-- What a written text starts with: a word, a literal, or what the text starts with. -/
theorem head?_restore_shortenFrom {d : Char} (hlimit : ls.size ≤ indexLimit)
    (hclosed : ∀ raw ∈ ls.texts, ClosedLiteral raw) (h : Sealed ls.size t)
    (hd : d ∈ (ls.restore (shortenFrom before t)).head?) :
    isWordChar d = true ∨ isQuote d = true ∨ d ∈ t.head? := by
  refine Sealed.numeralwise
    (motive := fun t => ∀ before, d ∈ (ls.restore (shortenFrom before t)).head? →
    isWordChar d = true ∨ isQuote d = true ∨ d ∈ t.head?) ?nil ?literal ?word ?dollar ?other
      h before hd
  case nil =>
    intro before hd
    rw [shortenFrom_nil, Literals.restore_nil] at hd
    cases hd
  case literal =>
    intro k t hk _ _ before hd
    have hget : ls.get? k = some ls.texts[k] := List.getElem?_eq_getElem hk
    rw [shortenFrom_placeholder,
      Literals.restore_placeholder (Nat.lt_of_lt_of_le hk hlimit) hget] at hd
    obtain ⟨quote, inside, hraw, hquote, -⟩ := hclosed _ (List.getElem_mem hk)
    rw [hraw] at hd
    rw [← Option.mem_some_iff.1 hd]
    exact .inr (.inl hquote)
  case word =>
    intro w t hne hw hnext _ _ before hd
    obtain ⟨c, rest, rfl⟩ := List.exists_cons_of_ne_nil hne
    rw [shortenFrom_word hne hw hnext] at hd
    rcases shortenWord_cases before t.head? (c :: rest) with hsame | ⟨-, n, hnumeral, -⟩
    · rw [hsame, restore_append_of_not_mem fun hmem => absurd (hw mark hmem) (by decide)] at hd
      rw [← Option.mem_some_iff.1 hd]
      exact .inl (hw c List.mem_cons_self)
    · rw [hnumeral, restore_append_of_not_mem (mark_not_mem_numeral n)] at hd
      exact (head?_numeral hd).imp_right .inl
  case dollar =>
    intro w t hne hw hnext _ _ before hd
    rw [shortenFrom_dollar hne hw hnext] at hd
    cases hvalue : hexValue? w with
    | none =>
      rw [hvalue, List.cons_append, Literals.restore_cons (by decide)] at hd
      exact .inr (.inr hd)
    | some n =>
      rw [hvalue, restore_append_of_not_mem (mark_not_mem_numeral n)] at hd
      exact (head?_numeral hd).imp_right .inl
  case other =>
    intro c t hc hnext _ _ before hd
    rw [shortenFrom_other hc hnext, Literals.restore_cons (Text.ne_mark_of_isOtherChar hc)] at hd
    exact .inr (.inr hd)

/-- What stands after the word `u`, where the rest is read again. -/
def LeavesAfter (ls : Literals) (u t : Text) (all : Literals) (x : Text) : Prop :=
  ∃ x', x = u ++ x' ∧ Reread ls all t x'

/-- A text that is read on after the word `u`, with or without a dollar sign between them: a number
after a dollar sign joins the word. -/
structure ReadsAfter (closing : Text) (ls : Literals) (t : Text) : Prop where
  plain : ∀ before u, (∀ c ∈ u, isWordChar c = true) → u ≠ closing → (u = [] ∨ StartsNoWord t) →
    ReadsOn closing (u ++ ls.restore (shortenFrom before t)) (LeavesAfter ls u t)
  dollar : ∀ before u, (∀ c ∈ u, isWordChar c = true) → u ≠ closing →
    ReadsOn closing (u ++ ls.restore (shortenFrom before ('$' :: t))) (LeavesAfter ls u ('$' :: t))

/-- The words that close blocks are letters. -/
theorem closing_letters (h : closing ∈ closingWords) :
    [] ≠ closing ∧ ∀ c ∈ closing, c.isDigit = false := by
  have hall : ∀ w ∈ closingWords, [] ≠ w ∧ ∀ c ∈ w, c.isDigit = false := by decide
  exact hall closing h

namespace ReadsAfter

theorem alone (hclosing : closing ∈ closingWords) (h : ReadsAfter closing ls t)
    (before : Option Char) :
    ReadsOn closing (ls.restore (shortenFrom before t)) fun all x => Reread ls all t x := by
  refine (h.plain before [] nofun (closing_letters hclosing).1 (.inl rfl)).imp fun all x hx => ?_
  obtain ⟨x', rfl, hread⟩ := hx
  exact hread

/-- A dollar sign that is no part of a number ends the word before it. -/
theorem of_dollar {s u : Text} {S : Literals → Text → Prop} (hu : ∀ c ∈ u, isWordChar c = true)
    (hclose : u ≠ closing) (h : ReadsOn closing s S)
    (hread : ∀ all x, S all x → Reread ls all ('$' :: t) ('$' :: x)) :
    ReadsOn closing (u ++ '$' :: s) (LeavesAfter ls u ('$' :: t)) := by
  have hdollar := h.other (c := '$') (by decide) (by decide) (by decide) nofun
  refine (hdollar.word hu hclose (Text.startsNoWord_of_isOtherChar (by decide) s)).imp ?_
  rintro all _ ⟨_, rfl, x, rfl, hx⟩
  exact ⟨_, rfl, hread all x hx⟩

theorem nil : ReadsAfter closing ls [] := by
  have hempty : StartsNoWord [] := nofun
  constructor
  · intro before u hu hclose _
    rw [shortenFrom_nil, Literals.restore_nil]
    refine (ReadsOn.nil.word hu hclose hempty).imp ?_
    rintro all _ ⟨_, rfl, rfl⟩
    exact ⟨[], rfl, .nil⟩
  · intro before u hu hclose
    rw [shortenFrom_other (by decide) (.inr hempty), Literals.restore_cons (by decide),
      shortenFrom_nil, Literals.restore_nil]
    refine of_dollar hu hclose .nil ?_
    rintro all _ rfl
    exact .other (by decide) (.inr hempty) .nil

theorem other {c : Char} (hlimit : ls.size ≤ indexLimit)
    (hclosed : ∀ raw ∈ ls.texts, ClosedLiteral raw) (hclosing : closing ∈ closingWords)
    (hc : isOtherChar c = true) (hquote : isQuote c = false) (hnewline : c ≠ '\n')
    (ht : Sealed ls.size t) (hcomments : Uncommented (c :: t)) (h : ReadsAfter closing ls t) :
    ReadsAfter closing ls (c :: t) := by
  have hstart := Text.startsNoWord_of_isOtherChar hc t
  have hcomment : c = '/' → ∀ d : Char, isWordChar d = false → isQuote d = false →
      ¬ ['/', d] <:+: '/' :: t → (ls.restore (shortenFrom (some c) t)).head? ≠ some d := by
    intro hslash d hword hquote hpart hd
    rcases head?_restore_shortenFrom hlimit hclosed ht hd with hw | hq | hd
    · rw [hw] at hword
      cases hword
    · rw [hq] at hquote
      cases hquote
    · obtain ⟨more, rfl⟩ := List.head?_eq_some_iff.1 hd
      exact hpart ⟨[], more, rfl⟩
  have hplain : ∀ before u, (∀ c ∈ u, isWordChar c = true) → u ≠ closing →
      ReadsOn closing (u ++ ls.restore (shortenFrom before (c :: t)))
        (LeavesAfter ls u (c :: t)) := by
    intro before u hu hclose
    by_cases hdollar : c = '$'
    · rw [hdollar]
      exact h.dollar before u hu hclose
    · rw [shortenFrom_other hc (.inl hdollar),
        Literals.restore_cons (Text.ne_mark_of_isOtherChar hc)]
      have hread := (h.alone hclosing (some c)).other hc hquote hnewline fun hslash => by
        subst hslash
        exact ⟨hcomment rfl '/' (by decide) (by decide) hcomments.1,
          hcomment rfl '*' (by decide) (by decide) hcomments.2⟩
      refine (hread.word hu hclose (Text.startsNoWord_of_isOtherChar hc _)).imp ?_
      rintro all _ ⟨_, rfl, x, rfl, hx⟩
      exact ⟨_, rfl, .other hc (.inl hdollar) hx⟩
  constructor
  · exact fun before u hu hclose _ => hplain before u hu hclose
  · intro before u hu hclose
    rw [shortenFrom_other (by decide) (.inr hstart), Literals.restore_cons (by decide)]
    refine of_dollar hu hclose (hplain (some '$') [] nofun (closing_letters hclosing).1) ?_
    rintro all _ ⟨x, rfl, hx⟩
    exact .other (by decide) (.inr hstart) hx

/-- A numeral joins the word before it, or is a literal after it. -/
theorem numeral {n : Nat} {before : Option Char} {u : Text} (hclosing : closing ∈ closingWords)
    (ht : StartsNoWord t) (h : ReadsAfter closing ls t) (hu : ∀ c ∈ u, isWordChar c = true)
    (hclose : u ≠ closing) :
    ReadsOn closing (u ++ ls.restore (Output.numeral n ++ shortenFrom before t)) fun all x =>
      ∃ v x', x = u ++ (v ++ x') ∧ NumberRead all (decimalLimit < n) v ∧ Reread ls all t x' := by
  rw [restore_append_of_not_mem (mark_not_mem_numeral n)]
  rcases digits_or_literal n with ⟨hnumeral, hdigits⟩ | ⟨hlong, hraw⟩
  · have hwords : ∀ c ∈ u ++ Output.numeral n, isWordChar c = true := by
      rw [List.forall_mem_append]
      exact ⟨hu, fun c hc => Constant.isWordChar_of_isDigit (hdigits c hc)⟩
    have hopen : u ++ Output.numeral n ≠ closing := by
      rintro rfl
      obtain ⟨c, hc⟩ := List.exists_mem_of_ne_nil _ hnumeral
      have hdigit := hdigits c hc
      rw [(closing_letters hclosing).2 c (List.mem_append_right _ hc)] at hdigit
      cases hdigit
    rw [← List.append_assoc]
    refine (h.plain before _ hwords hopen (.inr ht)).imp ?_
    rintro all _ ⟨x, rfl, hx⟩
    exact ⟨_, x, List.append_assoc .., .digits hnumeral hdigits, hx⟩
  · have hread := (h.alone hclosing before).literal hraw
    refine (hread.word hu hclose (startsNoWord_literal hraw _)).imp ?_
    rintro all _ ⟨_, rfl, k, x, hget, rfl, hx⟩
    exact ⟨_, x, rfl, .literal hlong hget, hx⟩

theorem word {w : Text} (hclosing : closing ∈ closingWords) (hw : w ≠ [])
    (hword : ∀ c ∈ w, isWordChar c = true) (hclose : w ≠ closing) (ht : StartsNoWord t)
    (h : ReadsAfter closing ls t) : ReadsAfter closing ls (w ++ t) := by
  have hmark : mark ∉ w := fun hmem => absurd (hword mark hmem) (by decide)
  constructor
  · intro before u hu hu' hstart
    obtain rfl : u = [] := hstart.resolve_right fun hstart => by
      obtain ⟨c, rest, rfl⟩ := List.exists_cons_of_ne_nil hw
      have hc := hword c List.mem_cons_self
      rw [hstart c (rest ++ t) rfl] at hc
      cases hc
    rw [shortenFrom_word hw hword ht]
    rcases shortenWord_cases before t.head? w with hsame | ⟨hdigit, n, hshort, hlong⟩
    · rw [hsame, restore_append_of_not_mem hmark, List.nil_append]
      refine (h.plain _ w hword hclose (.inr ht)).imp ?_
      rintro all _ ⟨x, rfl, hx⟩
      exact ⟨_, rfl, .word hw hword ht (.inl rfl) hx⟩
    · rw [hshort]
      refine (h.numeral hclosing ht hu hu').imp ?_
      rintro all _ ⟨v, x, rfl, hv, hx⟩
      exact ⟨_, rfl, .word hw hword ht (.inr ⟨hdigit, hv.imp hlong⟩) hx⟩
  · intro before u hu hu'
    rw [shortenFrom_dollar hw hword ht]
    cases hvalue : hexValue? w with
    | none =>
      rw [List.cons_append, Literals.restore_cons (by decide), restore_append_of_not_mem hmark]
      refine of_dollar hu hu' (h.plain _ w hword hclose (.inr ht)) ?_
      rintro all _ ⟨x, rfl, hx⟩
      exact .dollar hw hword ht (.inl rfl) hx
    | some n =>
      refine (h.numeral hclosing ht hu hu').imp ?_
      rintro all _ ⟨v, x, rfl, hv, hx⟩
      exact ⟨_, rfl, .dollar hw hword ht (.inr (hv.imp fun _ => trivial)) hx⟩

theorem literal {k : Nat} (hlimit : ls.size ≤ indexLimit)
    (hclosed : ∀ raw ∈ ls.texts, ClosedLiteral raw) (hclosing : closing ∈ closingWords)
    (hk : k < ls.size) (h : ReadsAfter closing ls t) :
    ReadsAfter closing ls (placeholder k ++ t) := by
  have hget : ls.get? k = some ls.texts[k] := List.getElem?_eq_getElem hk
  have hraw := hclosed _ (List.getElem_mem hk)
  have hliteral : ∀ before,
      ReadsOn closing (ls.restore (shortenFrom before (placeholder k ++ t)))
        (fun all x => Reread ls all (placeholder k ++ t) x) ∧
      StartsNoWord (ls.restore (shortenFrom before (placeholder k ++ t))) := by
    intro before
    rw [shortenFrom_placeholder,
      Literals.restore_placeholder (Nat.lt_of_lt_of_le hk hlimit) hget]
    refine ⟨((h.alone hclosing _).literal hraw).imp ?_, startsNoWord_literal hraw _⟩
    rintro all _ ⟨k', x, hget', rfl, hx⟩
    exact .literal hget hget' hx
  constructor
  · intro before u hu hclose _
    exact (hliteral before).1.word hu hclose (hliteral before).2
  · intro before u hu hclose
    have hstart := Literal.startsNoWord_placeholder k t
    rw [shortenFrom_other (by decide) (.inr hstart), Literals.restore_cons (by decide)]
    exact of_dollar hu hclose (hliteral _).1 fun all x hx => .other (by decide) (.inr hstart) hx

end ReadsAfter

/-- A line is read to its end: its words, with the numbers that join them, its characters and
its literals, none of which closes the block. -/
theorem readsOn_line (hlimit : ls.size ≤ indexLimit)
    (hclosed : ∀ raw ∈ ls.texts, ClosedLiteral raw) (hclosing : closing ∈ closingWords)
    (h : Sealed ls.size t) (ht : Contained closing t) (hnewline : '\n' ∉ t) :
    ReadsOn closing (ls.restore (shortenNumerals t)) fun all x => Reread ls all t x := by
  suffices hafter : ReadsAfter closing ls t from hafter.alone hclosing none
  refine Sealed.wordwise (motive := fun t =>
    Source.Bare closing t → Uncommented t → '\n' ∉ t → ReadsAfter closing ls t)
    ?nil ?other ?word ?literal h ht.bare ht.comments hnewline
  case nil => exact fun _ _ _ => .nil
  case other =>
    intro c t hc ht ih ⟨hwords, hquotes⟩ hcomments hnewline
    rw [Text.words_other hc] at hwords
    rw [List.forall_mem_cons] at hquotes
    rw [List.mem_cons, not_or] at hnewline
    have hrest := ih ⟨hwords, hquotes.2⟩ (hcomments.of_part (List.suffix_cons c t).isInfix)
      hnewline.2
    exact hrest.other hlimit hclosed hclosing hc hquotes.1 (Ne.symm hnewline.1) ht hcomments
  case word =>
    intro w t hw hword hnext _ ih ⟨hwords, hquotes⟩ hcomments hnewline
    rw [Text.words_word hw hword hnext, List.mem_cons, not_or] at hwords
    rw [List.mem_append, not_or] at hnewline
    have hrest := ih ⟨hwords.2, fun c hc => hquotes c (List.mem_append_right _ hc)⟩
      (hcomments.of_part (List.suffix_append w t).isInfix) hnewline.2
    exact hrest.word hclosing hw hword (Ne.symm hwords.1) hnext
  case literal =>
    intro k t hk _ ih ⟨hwords, hquotes⟩ hcomments hnewline
    rw [Sealed.words_placeholder] at hwords
    rw [List.mem_append, not_or] at hnewline
    have hrest := ih ⟨hwords, fun c hc => hquotes c (List.mem_append_right _ hc)⟩
      (hcomments.of_part (List.suffix_append (placeholder k) t).isInfix) hnewline.2
    exact hrest.literal hlimit hclosed hclosing hk

end Lines

/-! ### Lines of names -/

/-- A text of names with spaces and commas between them, none of which closes the block. -/
structure Nominal (closing t : Text) : Prop where
  names : ∀ w ∈ words t, NameIn closing w
  others : ∀ c ∈ t, isWordChar c = true ∨ c = ' ' ∨ c = ','

namespace Nominal

variable {closing s t w : Text} {c : Char}

theorem not_mem (h : Nominal closing t) (hword : isWordChar c = false) (hspace : c ≠ ' ')
    (hcomma : c ≠ ',') : c ∉ t := by
  intro hmem
  rcases h.others c hmem with hw | hs | hc
  · rw [hw] at hword
    cases hword
  · exact hspace hs
  · exact hcomma hc

theorem mark_not_mem (h : Nominal closing t) : mark ∉ t :=
  h.not_mem (by decide) (by decide) (by decide)

theorem newline_not_mem (h : Nominal closing t) : '\n' ∉ t :=
  h.not_mem (by decide) (by decide) (by decide)

theorem sealed (h : Nominal closing t) : Sealed 0 t := .of_not_mem h.mark_not_mem

theorem nil (closing : Text) : Nominal closing [] := ⟨by simp [Text.words_nil], nofun⟩

theorem of_name (h : NameIn closing w) : Nominal closing w := by
  refine ⟨?_, fun c hc => .inl (Text.isWordChar_of_isIdent h.ident c hc)⟩
  rw [Text.words_of_isIdent h.ident, List.forall_mem_singleton]
  exact h

theorem append_cons (hc : c = ' ' ∨ c = ',') (hs : Nominal closing s) (ht : Nominal closing t) :
    Nominal closing (s ++ c :: t) := by
  have hother : isOtherChar c = true := by
    rcases hc with rfl | rfl <;> decide
  refine ⟨?_, ?_⟩
  · rw [hs.sealed.words_append_cons hother, List.forall_mem_append]
    exact ⟨hs.names, ht.names⟩
  · rw [List.forall_mem_append, List.forall_mem_cons]
    exact ⟨hs.others, .inr hc, ht.others⟩

theorem joined (hc : c = ' ' ∨ c = ',') {ts : List Text} (h : ∀ t ∈ ts, Nominal closing t) :
    Nominal closing (Text.joined c ts) := by
  match ts with
  | [] => exact nil closing
  | [t] => simpa [Text.joined, List.intercalate] using h
  | t :: u :: more =>
    rw [List.forall_mem_cons] at h
    rw [Text.joined_cons_cons]
    exact h.1.append_cons hc (joined hc h.2)

/-- Names are written as they are. -/
theorem shortenFrom_eq (h : Nominal closing t) (before : Option Char) :
    shortenFrom before t = t := by
  refine Sealed.wordwise (motive := fun t => Nominal closing t → ∀ before, shortenFrom before t = t)
    ?nil ?other ?word ?literal h.sealed h before
  case nil => exact fun _ _ => shortenFrom_nil
  case other =>
    intro c t hc _ ih h before
    have ht : Nominal closing t :=
      ⟨fun w hw => h.names w (Text.words_other hc t ▸ hw),
        fun d hd => h.others d (List.mem_cons_of_mem c hd)⟩
    have hdollar : c ≠ '$' := by
      rintro rfl
      exact h.not_mem (c := '$') (by decide) (by decide) (by decide) List.mem_cons_self
    rw [shortenFrom_other hc (.inl hdollar), ih ht]
  case word =>
    intro w t hne hw hnext _ ih h before
    have hwords : words (w ++ t) = w :: words t := Text.words_word hne hw hnext
    have hnames := h.names
    rw [hwords, List.forall_mem_cons] at hnames
    rw [shortenFrom_ident hnames.1.ident hnext,
      ih ⟨hnames.2, fun c hc => h.others c (List.mem_append_right _ hc)⟩]
  case literal =>
    intro k t hk
    cases hk

/-- Names are read as they stand. -/
theorem lexemes_append (h : Nominal closing t) {rest : Text} (hrest : StartsNoWord rest) :
    lexemes (t ++ rest) = heldLexemes {} t ++ lexemes rest := by
  refine Sealed.wordwise (motive := fun t => (∀ c ∈ t, isWordChar c = true ∨ c = ' ' ∨ c = ',') →
    lexemes (t ++ rest) = heldLexemes {} t ++ lexemes rest) ?nil ?other ?word ?literal
      h.sealed h.others
  case nil =>
    intro _
    rw [Source.heldLexemes_nil]
    rfl
  case other =>
    intro c t hc _ ih hothers
    rw [List.forall_mem_cons] at hothers
    have hplain : isQuote c = false ∧ c ≠ '/' := by
      rcases hothers.1 with hw | rfl | rfl
      · rw [Text.not_isWordChar_of_isOtherChar hc] at hw
        cases hw
      · decide
      · decide
    rw [List.cons_append, Source.lexemes_other hc hplain.1 (fun hline => hplain.2 hline.1)
      (fun hblock => hplain.2 hblock.1), Source.heldLexemes_other hc, ih hothers.2]
    rfl
  case word =>
    intro w t hne hw hnext _ ih hothers
    have hstart : StartsNoWord (t ++ rest) := by
      cases t with
      | nil => exact hrest
      | cons d more => exact hnext.append (List.cons_ne_nil d more) rest
    rw [List.append_assoc, Source.lexemes_word hne hw hstart, Source.heldLexemes_word hne hw hnext,
      ih fun c hc => hothers c (List.mem_append_right _ hc)]
    rfl
  case literal =>
    intro k t hk
    cases hk

/-- Names leave what they are. -/
theorem collectBody_eq (h : Nominal closing t) (lits : Literals) :
    Source.collectBody lits (heldLexemes {} t) = (t, lits) := by
  refine Sealed.wordwise (motive := fun t => Source.collectBody lits (heldLexemes {} t) = (t, lits))
    ?nil ?other ?word ?literal h.sealed
  case nil =>
    rw [Source.heldLexemes_nil]
    rfl
  case other =>
    intro c t hc _ ih
    rw [Source.heldLexemes_other hc, Source.collectBody_cons, Source.Lexeme.collect, ih]
    rfl
  case word =>
    intro w t hne hw hnext _ ih
    rw [Source.heldLexemes_word hne hw hnext, Source.collectBody_cons, Source.Lexeme.collect, ih]
  case literal =>
    intro k t hk
    cases hk

theorem inner (h : Nominal closing t) : ∀ l ∈ heldLexemes {} t, Inner closing l := by
  intro l hl
  rcases Source.mem_heldLexemes hl with ⟨w, hw, rfl⟩ | ⟨c, hc, rfl⟩ | ⟨raw, rfl⟩
  · exact .word (h.names w hw).open_
      (newline_not_mem_of_word (Text.isWordChar_of_isIdent (h.names w hw).ident))
  · refine .char ?_
    rintro rfl
    exact h.newline_not_mem hc
  · exact .literal raw

end Nominal

end ScriptMinifier.Output
