import ScriptMinifier.Proofs.Constant.CutOff
import ScriptMinifier.Proofs.Constant.Grammar
import ScriptMinifier.Proofs.Text.Fields
import ScriptMinifier.Proofs.Text.Renaming

/-! Names in constant expressions.

Cutting an expression into pieces may enter a word that starts with a digit or follows a dollar
sign, and no other (`word_mem_piecesOf`). So an expression with a name in it has no value
(`mem_constantWords_of_eval`). What has a value is a number or a truth value: no operation gives a
real that is none (`proper_evalAs`), and the words of a value's text are digits, truth values and
the word for infinity (`words_text`). -/
namespace ScriptMinifier.Constant

open Text (mark isWordChar isOtherChar isDigitOf words lead? dollarWords StartsNoWord)

/-! ### Pieces -/

/-- The text after the word it starts with. -/
def afterWord (t : Text) : Text := t.dropWhile isWordChar

theorem afterWord_of_startsNoWord {t : Text} (h : StartsNoWord t) : afterWord t = t := by
  cases t with
  | nil => rfl
  | cons c rest => exact List.dropWhile_cons_of_neg (by simp [h c rest rfl])

theorem afterWord_append {s : Text} (hs : ∀ c ∈ s, isWordChar c = true) (t : Text) :
    afterWord (s ++ t) = afterWord t :=
  List.dropWhile_append_of_pos hs

theorem words_eq_lead (t : Text) : words t = (lead? t).toList ++ words (afterWord t) := by
  cases t with
  | nil => rfl
  | cons c rest =>
    by_cases hc : isWordChar c = true
    · obtain ⟨hsplit, hrun⟩ := Text.exists_run hc rest
      have hlead : lead? (c :: rest) = some (c :: rest.takeWhile isWordChar) := by
        rw [lead?, List.takeWhile_cons_of_pos hc, if_neg (List.cons_ne_nil _ _)]
      have hafter : afterWord (c :: rest) = rest.dropWhile isWordChar :=
        List.dropWhile_cons_of_pos hc
      rw [hlead, hafter]
      conv_lhs =>
        rw [hsplit, Text.words_word (List.cons_ne_nil _ _) hrun (Text.startsNoWord_dropWhile rest)]
      rfl
    · have hstart : StartsNoWord (c :: rest) := by
        intro d tail hd
        rw [← (List.cons.inj hd).1]
        simpa using hc
      rw [Text.lead?_of_startsNoWord hstart, afterWord_of_startsNoWord hstart]
      rfl

theorem dollarWords_afterWord (t : Text) : dollarWords (afterWord t) = dollarWords t := by
  have h := Text.dollarWords_append (s := t.takeWhile isWordChar)
    (fun c hc => Text.isPlain_of_isWordChar (List.all_eq_true.1 List.all_takeWhile c hc))
      (afterWord t)
  rwa [afterWord, List.takeWhile_append_dropWhile, eq_comm] at h

/-- A word that starts with no digit, and its first character. -/
theorem piecesOf_of_lead {t w : Text} (h : lead? t = some w)
    (hdigit : ∀ c ∈ w.head?, c.isDigit = false) :
    Piece.word w ∈ piecesOf t := by
  unfold lead? at h
  split at h
  · cases h
  rename_i hne
  obtain rfl := Option.some.inj h
  have hword : ∀ c ∈ t.takeWhile isWordChar, isWordChar c = true :=
    List.all_eq_true.1 List.all_takeWhile
  have hcut := CutOff.word hne hword hdigit (Text.head?_dropWhile t)
  rw [List.takeWhile_append_dropWhile] at hcut
  rw [hcut.piecesOf_eq fun c hc => ?_]
  · exact List.mem_cons_self
  · obtain ⟨rest, rfl⟩ := List.head?_eq_some_iff.1 hc
    by_contra hsep
    refine hne (List.takeWhile_cons_of_neg fun hc => hsep (isSeparator_of_isWordChar hc))

theorem symbol_cases (c : Char) (rest : Text) :
    (symbol c rest).2 = rest ∨ ∃ more, rest = '=' :: more ∧ (symbol c rest).2 = more := by
  unfold symbol
  split <;> first | exact .inl rfl | exact .inr ⟨_, rfl, rfl⟩

/-- Every word of a text that starts with no digit and follows no dollar sign is a piece. -/
def Cuts (t w : Text) : Prop := w ∈ words t → w ∉ dollarWords t → Piece.word w ∈ piecesOf t

/-- The same for the words after the first. -/
def CutsAfter (t w : Text) : Prop :=
  w ∈ words (afterWord t) → w ∉ dollarWords t → Piece.word w ∈ piecesOf t

section Cuts

variable {w : Text} (hdigit : ∀ c ∈ w.head?, c.isDigit = false)

include hdigit

theorem CutsAfter.cuts {t : Text} (h : CutsAfter t w) : Cuts t w := by
  intro hw hdollar
  rw [words_eq_lead, List.mem_append, Option.mem_toList] at hw
  exact hw.elim (piecesOf_of_lead · hdigit) (h · hdollar)

/-- Digits at the start of a text are no part of a word that counts. -/
theorem CutsAfter.of_digits {digits t : Text} (h : CutsAfter t w)
    (hdigits : ∀ d ∈ digits, d.isDigit = true)
    (hw : w ∈ words (digits ++ t)) (hdollar : w ∉ dollarWords (digits ++ t)) :
    Piece.word w ∈ piecesOf t := by
  cases digits with
  | nil => exact h.cuts hdigit hw hdollar
  | cons d digits =>
    have hafter := afterWord_append (fun c hc => isWordChar_of_isDigit (hdigits c hc)) t
    rw [← dollarWords_afterWord, hafter, dollarWords_afterWord] at hdollar
    rw [words_eq_lead, hafter, List.mem_append, Option.mem_toList] at hw
    refine h (hw.resolve_left fun hlead => ?_) hdollar
    -- the first word is one with a digit at its start
    have hd := hdigits d List.mem_cons_self
    rw [List.cons_append, lead?, List.takeWhile_cons_of_pos (isWordChar_of_isDigit hd),
      if_neg (List.cons_ne_nil _ _)] at hlead
    obtain rfl := Option.some.inj hlead
    rw [hdigit d rfl] at hd
    cases hd

omit hdigit in
/-- Pieces cut off within the first word leave the words after it. -/
theorem CutsAfter.of_run {run t : Text} (h : CutsAfter t w) (hrun : ∀ c ∈ run, isWordChar c = true)
    (hw : w ∈ words (afterWord (run ++ t))) (hdollar : w ∉ dollarWords (run ++ t)) :
    Piece.word w ∈ piecesOf t := by
  rw [← dollarWords_afterWord] at hdollar
  rw [afterWord_append hrun] at hw hdollar
  rw [dollarWords_afterWord] at hdollar
  exact h hw hdollar

omit hdigit in
theorem mem_words_of_other {c : Char} {t : Text} (hc : isOtherChar c = true) (hplain : c ≠ '$')
    (hw : w ∈ words (afterWord (c :: t))) (hdollar : w ∉ dollarWords (c :: t)) :
    w ∈ words t ∧ w ∉ dollarWords t := by
  rw [afterWord_of_startsNoWord (Text.startsNoWord_of_isOtherChar hc t), Text.words_other hc] at hw
  rw [Text.dollarWords_plain
    (by simp [Text.isPlain, hplain, Text.ne_mark_of_isOtherChar hc])] at hdollar
  exact ⟨hw, hdollar⟩

/-- What holds of the text after a piece holds of the text. -/
theorem CutOff.cutsAfter {t more : Text} {p : Piece} (h : CutOff t p more) (ih : CutsAfter more w)
    (hw : w ∈ words (afterWord t)) (hdollar : w ∉ dollarWords t) :
    Piece.word w ∈ piecesOf more := by
  cases h with
  | placeholder rest =>
    have hwords : words (mark :: rest) = words (Text.afterMark rest) := by
      rw [words, Text.segments, if_pos rfl]
      rfl
    rw [afterWord_of_startsNoWord
      fun d tail hd => by rw [← (List.cons.inj hd).1]; exact Text.not_isWordChar_mark, hwords] at hw
    rw [Text.dollarWords_mark] at hdollar
    exact ih.cuts hdigit hw hdollar
  | dollar hdigits hends =>
    rw [afterWord_of_startsNoWord (Text.startsNoWord_of_isOtherChar (by decide) _),
      Text.words_other (by decide), words_eq_lead, List.mem_append] at hw
    rw [dollarWords, if_neg (by decide), if_pos rfl, List.mem_append, not_or] at hdollar
    exact ih.of_run (fun d hd => isWordChar_of_isDigitOf (hdigits d hd))
      (hw.resolve_left hdollar.1) hdollar.2
  | @hexadecimal x digits _ hx hdigits hends =>
    have hrun : ∀ d ∈ '0' :: x :: digits, isWordChar d = true := by
      refine List.forall_mem_cons.2
        ⟨by decide, List.forall_mem_cons.2 ⟨?_, fun d hd => isWordChar_of_isDigitOf (hdigits d hd)⟩⟩
      rcases hx with rfl | rfl <;> decide
    exact ih.of_run hrun hw hdollar
  | whole hne hdigits =>
    exact ih.of_run (fun d hd => isWordChar_of_isDigit (hdigits d hd)) hw hdollar
  | @fraction digits places _ hne hdigits hplaces =>
    -- a point after the digits ends their word, and the places after it are digits of another
    have hafter :=
      afterWord_append (fun d hd => isWordChar_of_isDigit (hdigits d hd)) ('.' :: (places ++ more))
    rw [hafter, afterWord_of_startsNoWord (Text.startsNoWord_of_isOtherChar (by decide) _),
      Text.words_other (by decide)] at hw
    rw [← dollarWords_afterWord, hafter, dollarWords_afterWord,
      Text.dollarWords_plain (by decide)] at hdollar
    exact ih.of_digits hdigit hplaces hw hdollar
  | word hne hword => exact ih.of_run hword hw hdollar
  | @symbol c rest hc hplain =>
    obtain ⟨hw, hdollar⟩ := mem_words_of_other hc hplain hw hdollar
    rcases symbol_cases c rest with heq | ⟨more, rfl, heq⟩
    · rw [heq] at ih ⊢
      exact ih.cuts hdigit hw hdollar
    · rw [heq] at ih ⊢
      rw [Text.words_other (by decide)] at hw
      rw [Text.dollarWords_plain (by decide)] at hdollar
      exact ih.cuts hdigit hw hdollar

theorem cutsAfter (t : Text) : CutsAfter t w := by
  fun_induction piecesOf t with
  | case1 =>
    exact fun hw => absurd hw
      (by rw [afterWord, List.dropWhile_nil, Text.words_nil]; exact List.not_mem_nil)
  | case2 c rest hsep ih =>
    intro hw hdollar
    have hc : isOtherChar c = true ∧ c ≠ '$' := by
      simp only [isSeparator, Bool.or_eq_true, beq_iff_eq] at hsep
      rcases hsep with (((rfl | rfl) | rfl) | rfl) | rfl <;> decide
    obtain ⟨hw, hdollar⟩ := mem_words_of_other hc.1 hc.2 hw hdollar
    rw [piecesOf, if_pos hsep]
    exact ih.cuts hdigit hw hdollar
  | case3 c rest hsep ih =>
    intro hw hdollar
    rw [piecesOf, if_neg hsep]
    exact List.mem_cons_of_mem _ ((cutOff_piece c rest).cutsAfter hdigit ih hw hdollar)

/-- A word that starts with no digit and follows no dollar sign is a piece. -/
theorem word_mem_piecesOf {t : Text} (hw : w ∈ words t) (hdollar : w ∉ dollarWords t) :
    Piece.word w ∈ piecesOf t :=
  (cutsAfter hdigit t).cuts hdigit hw hdollar

end Cuts

/-! ### Expressions with names -/

/-- The words that an expression may hold. -/
def constantWords : List Text := ["true", "false", "not", "and", "or"].map String.toList

theorem mem_constantWords_of_token {w : Text} {tok : Token} (h : wordToken w = .ok tok) :
    w ∈ constantWords := by
  unfold wordToken at h
  repeat' split at h
  all_goals first | (subst w; decide) | cases h

/-- What has a value holds no name. -/
theorem mem_constantWords_of_eval {ls : Literals} {t w : Text} {v : Value} (h : eval ls t = .ok v)
    (hdigit : ∀ c ∈ w.head?, c.isDigit = false) (hw : w ∈ words t) (hdollar : w ∉ dollarWords t) :
    w ∈ constantWords := by
  obtain ⟨toks, htoks, -⟩ := bind_eq_ok.1 h
  obtain ⟨tok, -, htok⟩ :=
    exists_of_mem_right (mapM_eq_ok.1 htoks).flip (word_mem_piecesOf hdigit hw hdollar)
  exact mem_constantWords_of_token htok

theorem evalAs_eq_ok {ls : Literals} {type t : Text} {v : Value} (h : evalAs ls type t = .ok v) :
    ∃ u, eval ls t = .ok u ∧ u.coerce type = .ok v := by
  obtain ⟨u, hu, h⟩ := bind_eq_ok.1 h
  split at h
  · obtain rfl := Except.ok.inj h
    exact ⟨u, hu, ‹_›⟩
  · cases h

/-! ### Reals that are numbers -/

theorem Binary32.magnitude_ofMagnitude (negative : Bool) {m : Nat} (hm : m ≤ infinityBits) :
    (ofMagnitude negative m).magnitude = m := by
  have hlt : m < signUnit := Nat.lt_of_le_of_lt hm (by decide)
  unfold magnitude ofMagnitude
  rw [UInt32.toNat_ofNat']
  unfold signUnit at hlt ⊢
  cases negative
  · rw [if_neg (by decide)]
    omega
  · rw [if_pos rfl]
    omega

theorem Binary32.isNaN_ofMagnitude (negative : Bool) {m : Nat} (hm : m ≤ infinityBits) :
    (ofMagnitude negative m).isNaN = false := by
  rw [isNaN, magnitude_ofMagnitude negative hm]
  simpa using hm

theorem Binary32.isNaN_ofFraction (negative : Bool) (num den : Nat) :
    (ofFraction negative num den).isNaN = false :=
  isNaN_ofMagnitude negative (Nat.min_le_right _ _)

theorem Binary32.isNaN_neg {x : Binary32} (h : x.isNaN = false) : x.neg.isNaN = false :=
  isNaN_ofMagnitude _ (by simpa [isNaN] using h)

/-- A value that is a number or a truth value. -/
def Value.Proper : Value → Prop
  | real x => x.isNaN = false
  | _ => True

namespace Value

variable {u v w : Value}

theorem proper_ofInt {n : Int} (h : ofInt n = .ok u) : u.Proper := by
  unfold ofInt at h
  split at h
  · obtain rfl := Except.ok.inj h
    trivial
  · cases h

theorem proper_ofReal {x : Binary32} (h : ofReal x = .ok u) : u.Proper := by
  unfold ofReal at h
  split at h
  · rename_i hfinite
    obtain rfl := Except.ok.inj h
    simp only [Binary32.isFinite, decide_eq_true_eq] at hfinite
    simpa [Proper, Binary32.isNaN] using Nat.le_of_lt hfinite
  · cases h

theorem kept_proper : Kept Proper where
  ofInt := proper_ofInt
  ofReal := proper_ofReal
  neg := Binary32.isNaN_neg
  bool _ := trivial

theorem proper_coerce {type : Text} (hv : v.Proper) (h : v.coerce type = .ok u) : u.Proper := by
  unfold coerce at h
  repeat' split at h
  all_goals cases h
  all_goals first | exact hv | exact Binary32.isNaN_ofFraction _ _ _

end Value

/-- An expression has no value that is no number. -/
theorem proper_evalAs {ls : Literals} {type t : Text} {v : Value} (h : evalAs ls type t = .ok v) :
    v.Proper := by
  obtain ⟨u, hu, hcoerce⟩ := evalAs_eq_ok h
  exact Value.proper_coerce
    (kept_of_eval Value.kept_proper (fun _ => trivial) (fun _ _ => Binary32.isNaN_ofFraction _ _ _)
      hu) hcoerce

/-! ### The words of a value -/

/-- The words that the texts of values hold beside numbers. -/
def valueWords : List Text := ["true", "false", "inf"].map String.toList

/-- The characters of numbers. -/
def isNumeric (c : Char) : Bool := c.isDigit || c == '-' || c == '.'

theorem isNumeric_of_cases (c : Char) (h : c.isDigit = true ∨ c = '-' ∨ c = '.') :
    isNumeric c = true := by
  simpa [isNumeric, or_assoc] using h

theorem isDigit_of_mem_words {t w : Text} (h : t.all isNumeric = true) (hw : w ∈ words t) :
    ∃ c ∈ w.head?, c.isDigit = true := by
  obtain ⟨hne, hchars⟩ := Text.mem_words hw
  cases w with
  | nil => exact absurd rfl hne
  | cons c rest =>
    refine ⟨c, rfl, ?_⟩
    obtain ⟨hword, hmem⟩ := hchars c List.mem_cons_self
    have hc := List.all_eq_true.1 h c hmem
    simp only [isNumeric, Bool.or_eq_true, beq_iff_eq] at hc
    rcases hc with (hdigit | rfl) | rfl
    · exact hdigit
    · cases hword
    · cases hword

theorem Value.words_realText {x : Binary32} (h : x.isNaN = false) {w : Text}
    (hw : w ∈ words (realText x)) :
    w ∈ valueWords ∨ ∃ c ∈ w.head?, c.isDigit = true := by
  by_cases hinfinite : x.isInfinite = true
  · have hplain : x.plain = (if x.negative then ['-'] else []) ++ "inf".toList := by
      rw [Binary32.plain, Binary32.textWith, if_neg (by simp [h]), if_pos hinfinite]
    refine .inl ?_
    rw [realText, hplain] at hw
    revert w
    cases x.negative <;> decide +kernel
  · refine .inr (isDigit_of_mem_words (Value.all_realText isNumeric_of_cases ?_) hw)
    rw [Binary32.plain, Binary32.textWith, if_neg (by simp [h]), if_neg hinfinite, List.all_append,
      Bool.and_eq_true]
    constructor
    · split <;> decide
    · split
      · decide
      · exact Decimal.all_plain isNumeric_of_cases _

/-- The words of a value's text are numbers, truth values and infinity. -/
theorem Value.words_text {v : Value} (hv : v.Proper) {w : Text} (hw : w ∈ words v.text) :
    w ∈ valueWords ∨ ∃ c ∈ w.head?, c.isDigit = true := by
  cases v with
  | int n => exact .inr (isDigit_of_mem_words (all_ofInt isNumeric_of_cases n) hw)
  | real x => exact words_realText hv hw
  | bool b =>
    refine .inl ?_
    have htruth : ∀ b, ∀ w ∈ words (boolText b), w ∈ valueWords := by decide +kernel
    exact htruth b w hw

end ScriptMinifier.Constant
