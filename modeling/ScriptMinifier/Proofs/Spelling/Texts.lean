import ScriptMinifier.Proofs.Constant.Names
import ScriptMinifier.Proofs.Syntax.Recasting

/-! New spellings of names.

A spelling gives identifiers for identifiers, no two alike. Among words that are no new names
replacing is injective (`Spelling.replacement_injective`), so what is looked up under a respelled
name is what is looked up under the name. A text that holds an old name has no value and has none
when it is respelled (`Spelling.toOption_evalAs`), and replacing names by values goes before or
after respelling (`Spelling.replaceWords_comm`). -/
namespace ScriptMinifier

open Constant (constantWords evalAs valueWords)
open Syntax (datatypes keywords)
open Text (mark isIdent isWordChar words dollarWords replaceWords replacement Wordly)

/-- The words that are no names. -/
def languageWords : List Text := keywords ++ datatypes ++ ["inf".toList]

/-- The words of values are words of the language, or start with a digit. -/
theorem valueWords_subset : valueWords ⊆ languageWords := by
  have hkeywords : "true".toList ∈ keywords ∧ "false".toList ∈ keywords := by decide +kernel
  simp only [valueWords, List.map_cons, List.map_nil, List.cons_subset, languageWords,
    List.mem_append]
  exact ⟨.inl (.inl hkeywords.1), .inl (.inl hkeywords.2), .inr List.mem_cons_self,
    List.nil_subset _⟩

/-- New names for some names. -/
structure Spelling (g : Text → Option Text) : Prop where
  ident : ∀ w r, g w = some r → isIdent w = true ∧ isIdent r = true
  ordinary : ∀ w r, g w = some r → w ∉ languageWords ∧ r ∉ languageWords
  injective : ∀ u v r, g u = some r → g v = some r → u = v
  apart : ∀ w r, g w = some r → g r = none

/-- A word that is no new name. -/
def Old (g : Text → Option Text) (w : Text) : Prop := ∀ n, g n ≠ some w

/-- A word that is neither an old name nor a new one. -/
structure Outside (g : Text → Option Text) (w : Text) : Prop where
  kept : g w = none
  old : Old g w

/-- A text that can be respelled: it has no new name, and no old one after a dollar sign. -/
structure Respellable (g : Text → Option Text) (t : Text) : Prop where
  old : ∀ w ∈ words t, Old g w
  dollar : ∀ w ∈ dollarWords t, g w = none

variable {g : Text → Option Text} {t u v w x : Text}

theorem Outside.replacement_eq (h : Outside g w) : replacement g w = w := by
  rw [replacement, h.kept]
  rfl

namespace Spelling

/-! ### Words -/

theorem wordly (hg : Spelling g) : Wordly g := fun w r h =>
  ⟨Text.ne_nil_of_isIdent (hg.ident w r h).2, Text.isWordChar_of_isIdent (hg.ident w r h).2⟩

theorem outside_of_mem (hg : Spelling g) (h : w ∈ languageWords) : Outside g w where
  kept := by
    cases hw : g w with
    | none => rfl
    | some r => exact absurd h (hg.ordinary w r hw).1
  old := fun n hn => (hg.ordinary n w hn).2 h

theorem old_of_named (hg : Spelling g) (h : g w ≠ none) : Old g w := fun n hn => h (hg.apart n w hn)

/-- A word that starts with a digit is no name. -/
theorem outside_of_isDigit (hg : Spelling g) (h : ∃ c ∈ w.head?, c.isDigit = true) :
    Outside g w := by
  have hident : isIdent w ≠ true := by
    obtain ⟨c, hc, hdigit⟩ := h
    intro hident
    rw [Text.not_isDigit_of_isIdent hident c hc] at hdigit
    cases hdigit
  constructor
  · cases hw : g w with
    | none => rfl
    | some r => exact absurd (hg.ident w r hw).1 hident
  · exact fun n hn => hident (hg.ident n w hn).2

/-- The words of a value are no names. -/
theorem outside_of_value (hg : Spelling g) (h : w ∈ valueWords ∨ ∃ c ∈ w.head?, c.isDigit = true) :
    Outside g w := by
  exact h.elim (fun h => hg.outside_of_mem (valueWords_subset h)) hg.outside_of_isDigit

/-- What is declared as a local is declared with words of the language. -/
theorem mem_languageWords (h : w ∈ "local".toList :: "array".toList :: datatypes) :
    w ∈ languageWords := by
  have hkeywords : "local".toList ∈ keywords ∧ "array".toList ∈ keywords := by decide +kernel
  rcases List.mem_cons.1 h with rfl | h
  · exact List.mem_append_left _ (List.mem_append_left _ hkeywords.1)
  rcases List.mem_cons.1 h with rfl | h
  · exact List.mem_append_left _ (List.mem_append_left _ hkeywords.2)
  · exact List.mem_append_left _ (List.mem_append_right _ h)

theorem foreign (hg : Spelling g) : Foreign g where
  smooth :=
    fun w r h =>
      ⟨(hg.wordly w r h).1, fun c hc => Text.isSmooth_of_isWordChar ((hg.wordly w r h).2 c hc)⟩
  ident := fun w r h => (hg.ident w r h).1
  fresh := fun w r h hmem => (hg.ordinary w r h).2 (mem_languageWords hmem)

/-- Respelling keeps words apart, unless one of them is a new name already. -/
theorem replacement_injective (hg : Spelling g) (hu : Old g u) (hv : Old g v)
    (h : replacement g u = replacement g v) :
    u = v := by
  unfold replacement at h
  cases hgu : g u with
  | none =>
    cases hgv : g v with
    | none =>
      rw [hgu, hgv] at h
      exact h
    | some r =>
      rw [hgu, hgv] at h
      exact absurd (hgv.trans (congrArg some h.symm)) (hu v)
  | some r =>
    cases hgv : g v with
    | none =>
      rw [hgu, hgv] at h
      exact absurd (hgu.trans (congrArg some h)) (hv u)
    | some s =>
      rw [hgu, hgv] at h
      obtain rfl : r = s := h
      exact hg.injective u v r hgu hgv

theorem replacement_eq_iff (hg : Spelling g) (hx : Outside g x) (hw : Old g w) :
    replacement g w = x ↔ w = x := by
  constructor
  · intro h
    exact hg.replacement_injective hw hx.old (h.trans hx.replacement_eq.symm)
  · rintro rfl
    exact hx.replacement_eq

/-! ### Texts -/

theorem words_replaceWords (hg : Spelling g) (t : Text) :
    words (replaceWords g t) = (words t).map (replacement g) :=
  Text.words_replaceWords hg.wordly t

/-- What follows a dollar sign is a word. -/
theorem mem_words_of_mem_dollarWords (h : w ∈ dollarWords t) : w ∈ words t := by
  induction t using Text.wordwise with
  | nil =>
    rw [dollarWords] at h
    cases h
  | placeholder rest ih =>
    rw [Text.dollarWords_mark] at h
    rw [words, Text.segments, if_pos rfl]
    exact ih h
  | word v t hne hv ht ih =>
    rw [Text.dollarWords_append fun d hd => Text.isPlain_of_isWordChar (hv d hd)] at h
    rw [Text.words_word hne hv ht]
    exact List.mem_cons_of_mem _ (ih h)
  | other c t hc ih =>
    rw [Text.words_other hc]
    by_cases hdollar : c = '$'
    · rw [hdollar, dollarWords, if_neg (by decide), if_pos rfl, List.mem_append] at h
      refine h.elim (fun hlead => ?_) ih
      rw [Constant.words_eq_lead]
      exact List.mem_append_left _ hlead
    · rw [Text.dollarWords_plain
        (by simp [Text.isPlain, hdollar, Text.ne_mark_of_isOtherChar hc])] at h
      exact ih h

/-- Where no word after a dollar sign is replaced, those words stay. -/
theorem dollarWords_eq_of_kept {f : Text → Option Text} (hplain : Text.BringsNoSigns f)
    (h : ∀ w ∈ dollarWords t, f w = none) :
    dollarWords (replaceWords f t) = dollarWords t := by
  rw [Text.dollarWords_replaceWords hplain]
  refine Text.filterMap_eq_self_iff.2 fun w hw => ?_
  obtain ⟨hne, hword⟩ := Text.mem_dollarWords hw
  rw [Text.afterDollar, h w hw]
  exact Text.lead?_word hne hword

theorem bringsNoSigns (hg : Spelling g) : Text.BringsNoSigns g := fun w r hw c hc =>
  Text.isPlain_of_isWordChar ((hg.wordly w r hw).2 c hc)

theorem eq_of_kept (h : ∀ w ∈ words t, g w = none) : replaceWords g t = t :=
  Text.replaceWords_eq_self fun w hw => by rw [replacement, h w hw]; rfl

theorem not_constantWords (hg : Spelling g) {r : Text} (h : g w = some r) :
    w ∉ constantWords ∧ r ∉ constantWords := by
  have hwords : ∀ w ∈ constantWords, w ∈ languageWords := by decide +kernel
  exact ⟨fun hmem => (hg.ordinary w r h).1 (hwords w hmem), fun hmem => (hg.ordinary w r h).2
    (hwords r hmem)⟩

/-- A text with a name in it has no value. -/
theorem toOption_evalAs_of_name {ls : Literals} {type : Text} (hident : isIdent w = true)
    (hconstant : w ∉ constantWords)
    (hw : w ∈ words t) (hdollar : w ∉ dollarWords t) : (evalAs ls type t).toOption = none := by
  cases heval : evalAs ls type t with
  | error fault => rfl
  | ok v =>
    obtain ⟨u, hu, -⟩ := Constant.evalAs_eq_ok heval
    exact absurd
      (Constant.mem_constantWords_of_eval hu (Text.not_isDigit_of_isIdent hident) hw hdollar)
        hconstant

/-- A respelled text has the value that the text has. -/
theorem toOption_evalAs (hg : Spelling g) (h : Respellable g t) (ls : Literals) (type : Text) :
    (evalAs ls type (replaceWords g t)).toOption = (evalAs ls type t).toOption := by
  by_cases hkept : ∀ w ∈ words t, g w = none
  · rw [eq_of_kept hkept]
  push Not at hkept
  obtain ⟨w, hw, hne⟩ := hkept
  obtain ⟨r, hr⟩ := Option.ne_none_iff_exists'.1 hne
  obtain ⟨hident, hident'⟩ := hg.ident w r hr
  obtain ⟨hconstant, hconstant'⟩ := hg.not_constantWords hr
  have hw' : r ∈ words (replaceWords g t) := by
    rw [hg.words_replaceWords]
    refine List.mem_map.2 ⟨w, hw, ?_⟩
    rw [replacement, hr]
    rfl
  have hdollar : w ∉ dollarWords t := fun hmem => hne (h.dollar w hmem)
  have hdollar' : r ∉ dollarWords (replaceWords g t) := by
    rw [dollarWords_eq_of_kept hg.bringsNoSigns h.dollar]
    exact fun hmem => h.old r (mem_words_of_mem_dollarWords hmem) w hr
  rw [toOption_evalAs_of_name hident hconstant hw hdollar,
    toOption_evalAs_of_name hident' hconstant' hw' hdollar']

/-- Replacing names by values goes before or after respelling. -/
theorem replaceWords_comm (hg : Spelling g) {f f' : Text → Option Text}
    (hmark : ∀ w r, f w = some r → mark ∉ r)
    (hvalue : ∀ w r, f w = some r → ∀ x ∈ words r, g x = none)
    (h : ∀ w ∈ words t, f' (replacement g w) = f w) :
    replaceWords f' (replaceWords g t) = replaceWords g (replaceWords f t) := by
  rw [Text.replaceWords_replaceWords hg.wordly, Text.replaceWords_replaceWords_of_unmarked hmark]
  refine Text.replaceWords_congr_words fun w hw => ?_
  obtain ⟨hne, hchars⟩ := Text.mem_words hw
  show replacement f' (replacement g w) = replaceWords g (replacement f w)
  cases hfw : f w with
  | none =>
    have hkept : replacement f w = w := by rw [replacement, hfw]; rfl
    rw [hkept, Text.replaceWords_of_word hne fun c hc => (hchars c hc).1, replacement, h w hw, hfw]
    rfl
  | some r =>
    have hreplaced : replacement f w = r := by rw [replacement, hfw]; rfl
    rw [hreplaced, eq_of_kept (hvalue w r hfw), replacement, h w hw, hfw]
    rfl

end Spelling
end ScriptMinifier
