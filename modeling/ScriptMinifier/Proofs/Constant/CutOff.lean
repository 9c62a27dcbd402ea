import ScriptMinifier.Constant.Token
import ScriptMinifier.Proofs.Constant.Folding
import ScriptMinifier.Proofs.Text.Segment

/-! The first piece of an expression.

Cutting looks at the first characters one after the other. What it cuts off is a placeholder, a
number in one of three forms, a word or a symbol, up to a character that it does not go on with
(`CutOff`), and each of these is cut off (`piece_eq_iff`). -/
namespace ScriptMinifier.Constant

open Text (mark isWordChar isOtherChar isDigitOf)

/-! ### Characters -/

theorem isWordChar_of_isDigitOf {base : Nat} {c : Char} (h : isDigitOf base c = true) :
    isWordChar c = true := by
  rw [isDigitOf, Bool.and_eq_true] at h
  rw [isWordChar, h.1]
  rfl

theorem not_of_not_word {p : Char → Bool} (hp : ∀ d, p d = true → isWordChar d = true) {b : Char}
    (h : isWordChar b = false) :
    p b = false := by
  by_contra hpb
  rw [hp b (by simpa using hpb)] at h
  cases h

theorem isSeparator_of_isWordChar {c : Char} (h : isWordChar c = true) : isSeparator c = false := by
  by_contra hsep
  simp only [isSeparator, Bool.not_eq_false, Bool.or_eq_true, beq_iff_eq] at hsep
  rcases hsep with (((rfl | rfl) | rfl) | rfl) | rfl <;> cases h

/-! ### What is cut off -/

/-- A text, its first piece, and what is left. -/
inductive CutOff : Text → Piece → Text → Prop
  | placeholder (rest : Text) :
      CutOff (mark :: rest) (.placeholder (mark :: Text.throughMark rest)) (Text.afterMark rest)
  | dollar {digits rest : Text} (hdigits : ∀ d ∈ digits, isDigitOf 16 d = true)
      (hends : ∀ b ∈ rest.head?, isDigitOf 16 b = false) :
      CutOff ('$' :: (digits ++ rest)) (.hexadecimal digits) rest
  | hexadecimal {x : Char} {digits rest : Text} (hx : x = 'x' ∨ x = 'X')
      (hdigits : ∀ d ∈ digits, isDigitOf 16 d = true)
      (hends : ∀ b ∈ rest.head?, isDigitOf 16 b = false) :
      CutOff ('0' :: x :: (digits ++ rest)) (.hexadecimal digits) rest
  | whole {digits rest : Text} (hne : digits ≠ []) (hdigits : ∀ d ∈ digits, d.isDigit = true)
      (hends : ∀ b ∈ rest.head?, b.isDigit = false ∧ b ≠ '.')
      (hsign : digits = ['0'] → ∀ b ∈ rest.head?, ¬ (b = 'x' ∨ b = 'X')) :
      CutOff (digits ++ rest) (.whole digits) rest
  | fraction {digits places rest : Text} (hne : digits ≠ [] ∨ places ≠ [])
      (hdigits : ∀ d ∈ digits, d.isDigit = true)
      (hplaces : ∀ d ∈ places, d.isDigit = true) (hends : ∀ b ∈ rest.head?, b.isDigit = false) :
      CutOff (digits ++ '.' :: (places ++ rest)) (.fraction digits places) rest
  | word {w rest : Text} (hne : w ≠ []) (hword : ∀ d ∈ w, isWordChar d = true)
      (hdigit : ∀ d ∈ w.head?, d.isDigit = false)
      (hends : ∀ b ∈ rest.head?, isWordChar b = false) : CutOff (w ++ rest) (.word w) rest
  | symbol {c : Char} {rest : Text} (hc : isOtherChar c = true) (hdollar : c ≠ '$')
      (hpoint : c = '.' → ∀ b ∈ rest.head?, b.isDigit = false) :
      CutOff (c :: rest) (symbol c rest).1 (symbol c rest).2

/-! ### Numbers -/

theorem number_whole {digits rest : Text} (hdigits : ∀ d ∈ digits, d.isDigit = true)
    (hends : ∀ b ∈ rest.head?, b.isDigit = false ∧ b ≠ '.') :
    number (digits ++ rest) = (.whole digits, rest) := by
  obtain ⟨htake, hdrop⟩ := Text.span_run hdigits fun b hb => (hends b hb).1
  rw [number, htake, hdrop]
  split
  · exact absurd rfl (hends '.' rfl).2
  · rfl

/-- Digits end at a point, and the places after it where the next character is no digit. -/
theorem number_fraction {digits places rest : Text} (hdigits : ∀ d ∈ digits, d.isDigit = true)
    (hplaces : ∀ d ∈ places, d.isDigit = true) (hends : ∀ b ∈ rest.head?, b.isDigit = false) :
    number (digits ++ '.' :: (places ++ rest)) = (.fraction digits places, rest) := by
  obtain ⟨htake, hdrop⟩ := Text.span_run (t := '.' :: (places ++ rest)) hdigits fun b hb => by
    obtain rfl := Option.some.inj hb
    rfl
  obtain ⟨htake', hdrop'⟩ := Text.span_run hplaces hends
  simp only [number, htake, hdrop, htake', hdrop']

/-- What a number is cut off as, where no sign of base 16 stands after a zero. -/
theorem cutOff_number {c : Char} {rest : Text}
    (hc : c.isDigit = true ∨ c = '.' ∧ rest.head?.any Char.isDigit = true)
    (hsign : ¬ (c = '0' ∧ (rest.head? = some 'x' ∨ rest.head? = some 'X'))) :
    CutOff (c :: rest) (number (c :: rest)).1 (number (c :: rest)).2 := by
  obtain ⟨digits, more, htext, hdigits, hends⟩ := Text.exists_span Char.isDigit (c :: rest)
  by_cases hpoint : more.head? = some '.'
  · obtain ⟨tail, rfl⟩ := List.head?_eq_some_iff.1 hpoint
    obtain ⟨places, more, rfl, hplaces, hends'⟩ := Text.exists_span Char.isDigit tail
    rw [htext, number_fraction hdigits hplaces hends']
    refine .fraction ?_ hdigits hplaces hends'
    -- a point that no digit stands before has one after it
    by_contra hnone
    rw [not_or, not_not, not_not] at hnone
    obtain ⟨rfl, rfl⟩ := hnone
    obtain ⟨rfl, rfl⟩ := List.cons.inj htext
    rcases hc with hc | ⟨-, hc⟩
    · cases hc
    · obtain ⟨d, hd, hdigit⟩ := (Option.any_eq_true _ _).1 hc
      rw [hends' d hd] at hdigit
      cases hdigit
  · have hends' : ∀ b ∈ more.head?, b.isDigit = false ∧ b ≠ '.' := by
      refine fun b hb => ⟨hends b hb, ?_⟩
      rintro rfl
      exact hpoint hb
    rw [htext, number_whole hdigits hends']
    refine .whole ?_ hdigits hends' ?_
    · rintro rfl
      rw [List.nil_append] at htext
      rw [← htext] at hends'
      obtain ⟨hdigit, hne⟩ := hends' c rfl
      exact hc.elim (by simp [hdigit]) fun h => hne h.1
    · rintro rfl b hb hx
      obtain ⟨rfl, rfl⟩ := List.cons.inj htext
      refine hsign ⟨rfl, ?_⟩
      rcases hx with rfl | rfl
      · exact .inl hb
      · exact .inr hb

/-! ### Every piece -/

/-- What cutting takes. -/
theorem cutOff_piece (c : Char) (rest : Text) :
    CutOff (c :: rest) (piece c rest).1 (piece c rest).2 := by
  unfold piece
  split_ifs with hmark hdollar hsign hnumber hletter
  · subst hmark
    exact .placeholder rest
  · subst hdollar
    obtain ⟨digits, more, rfl, hdigits, hends⟩ := Text.exists_span (isDigitOf 16) rest
    rw [(Text.span_run hdigits hends).1, (Text.span_run hdigits hends).2]
    exact .dollar hdigits hends
  · obtain ⟨rfl, hhead⟩ := hsign
    obtain ⟨x, tail, rfl, hx⟩ : ∃ x tail, rest = x :: tail ∧ (x = 'x' ∨ x = 'X') := by
      rcases hhead with hhead | hhead <;> obtain ⟨tail, rfl⟩ := List.head?_eq_some_iff.1 hhead
      · exact ⟨_, tail, rfl, .inl rfl⟩
      · exact ⟨_, tail, rfl, .inr rfl⟩
    obtain ⟨digits, more, rfl, hdigits, hends⟩ := Text.exists_span (isDigitOf 16) tail
    simp only [List.drop_succ_cons, List.drop_zero, Text.span_run hdigits hends]
    exact .hexadecimal hx hdigits hends
  · exact cutOff_number hnumber hsign
  · have hc : isWordChar c = true := by
      rcases hletter with halpha | rfl
      · simp [isWordChar, Char.isAlphanum, halpha]
      · decide
    obtain ⟨w, more, rfl, hword, hends⟩ := Text.exists_span isWordChar rest
    rw [(Text.span_run hword hends).1, (Text.span_run hword hends).2]
    refine .word (w := c :: w) (List.cons_ne_nil _ _) (List.forall_mem_cons.2 ⟨hc, hword⟩) ?_ hends
    intro d hd
    obtain rfl := Option.some.inj hd
    simpa using fun h => hnumber (.inl h)
  · rw [not_or] at hnumber hletter
    have hdigit : c.isDigit = false := by simpa using hnumber.1
    have halpha : c.isAlpha = false := by simpa using hletter.1
    refine .symbol ?_ hdollar fun hpoint b hb => ?_
    · simp [isOtherChar, isWordChar, Char.isAlphanum, hdigit, halpha, hletter.2, hmark]
    · by_contra hb'
      exact hnumber.2 ⟨hpoint, (Option.any_eq_true _ _).2 ⟨b, hb, by simpa using hb'⟩⟩

/-- A number that no sign of base 16 belongs to is read as such. -/
theorem piece_number {c : Char} {rest : Text}
    (hc : c.isDigit = true ∨ c = '.' ∧ rest.head?.any Char.isDigit = true)
    (hsign : c = '0' → ∀ b ∈ rest.head?, ¬ (b = 'x' ∨ b = 'X')) :
    piece c rest = number (c :: rest) := by
  have hne {d : Char} (hd : d.isDigit = false) (hpoint : d ≠ '.') : c ≠ d := by
    rintro rfl
    rw [hd] at hc
    exact hc.elim nofun fun h => hpoint h.1
  rw [piece, if_neg (hne (by decide) (by decide)), if_neg (hne (by decide) (by decide)), if_neg,
    if_pos hc]
  rintro ⟨hzero, hx | hx⟩
  · exact hsign hzero _ hx (.inl rfl)
  · exact hsign hzero _ hx (.inr rfl)

theorem piece_letter {c : Char} (hc : isWordChar c = true) (hdigit : c.isDigit = false)
    (rest : Text) :
    piece c rest = (.word (c :: rest.takeWhile isWordChar), rest.dropWhile isWordChar) := by
  have hne {d : Char} (hd : isWordChar d = false) : c ≠ d := by
    rintro rfl
    rw [hc] at hd
    cases hd
  have hzero : c ≠ '0' := by
    rintro rfl
    cases hdigit
  have hletter : c.isAlpha = true ∨ c = '_' := by
    simpa [isWordChar, Char.isAlphanum, hdigit] using hc
  rw [piece, if_neg (hne (by decide)), if_neg (hne (by decide)), if_neg (fun h => hzero h.1),
    if_neg (by simp [hdigit, hne (d := '.') (by decide)]), if_pos hletter]

theorem piece_other {c : Char} {rest : Text} (hc : isOtherChar c = true) (hdollar : c ≠ '$')
    (hpoint : c = '.' → ∀ b ∈ rest.head?, b.isDigit = false) : piece c rest = symbol c rest := by
  have hword := Text.not_isWordChar_of_isOtherChar hc
  have hdigit : c.isDigit = false := not_of_not_word (fun _ => isWordChar_of_isDigit) hword
  have hletter : ¬ (c.isAlpha = true ∨ c = '_') := by
    rintro (halpha | rfl)
    · simp [isWordChar, Char.isAlphanum, halpha] at hword
    · cases hword
  have hnumber : ¬ (c.isDigit = true ∨ c = '.' ∧ rest.head?.any Char.isDigit = true) := by
    rintro (hc | ⟨hc, hany⟩)
    · rw [hdigit] at hc
      cases hc
    · obtain ⟨b, hb, hbdigit⟩ := (Option.any_eq_true _ _).1 hany
      rw [hpoint hc b hb] at hbdigit
      cases hbdigit
  rw [piece, if_neg (Text.ne_mark_of_isOtherChar hc), if_neg hdollar, if_neg ?_, if_neg hnumber,
    if_neg hletter]
  rintro ⟨rfl, -⟩
  cases hdigit

/-- No sign of base 16 stands after digits, unless there are none. -/
theorem not_sign_append {digits t : Text} (hdigits : ∀ d ∈ digits, d.isDigit = true)
    (ht : digits = [] → ∀ b ∈ t.head?, ¬ (b = 'x' ∨ b = 'X')) :
    ∀ b ∈ (digits ++ t).head?, ¬ (b = 'x' ∨ b = 'X') := by
  cases digits with
  | nil => exact ht rfl
  | cons d digits =>
    intro b hb hx
    obtain rfl := Option.some.inj hb
    have hdigit := hdigits d List.mem_cons_self
    rcases hx with rfl | rfl <;> cases hdigit

/-- What is cut off is what cutting takes. -/
theorem CutOff.piece_eq {c : Char} {rest more : Text} {p : Piece} (h : CutOff (c :: rest) p more) :
    piece c rest = (p, more) := by
  generalize htext : c :: rest = t at h
  cases h with
  | placeholder rest' =>
    obtain ⟨rfl, rfl⟩ := List.cons.inj htext
    rw [piece, if_pos rfl]
  | dollar hdigits hends =>
    obtain ⟨rfl, rfl⟩ := List.cons.inj htext
    obtain ⟨htake, hdrop⟩ := Text.span_run hdigits hends
    rw [piece, if_neg (by decide), if_pos rfl, htake, hdrop]
  | hexadecimal hx hdigits hends =>
    obtain ⟨rfl, rfl⟩ := List.cons.inj htext
    obtain ⟨htake, hdrop⟩ := Text.span_run hdigits hends
    rw [piece, if_neg (by decide), if_neg (by decide), if_pos (by simpa using hx)]
    simp only [List.drop_succ_cons, List.drop_zero, htake, hdrop]
  | @whole digits _ hne hdigits hends hsign =>
    rw [← number_whole hdigits hends, ← htext]
    obtain ⟨d, ds, rfl⟩ := List.exists_cons_of_ne_nil hne
    obtain ⟨rfl, rfl⟩ := List.cons.inj (htext.trans (List.cons_append ..))
    refine piece_number (.inl (hdigits c List.mem_cons_self)) fun hzero => ?_
    refine not_sign_append (fun d hd => hdigits d (List.mem_cons_of_mem _ hd)) fun hnil => ?_
    exact hsign (by rw [hzero, hnil])
  | @fraction digits places _ hne hdigits hplaces hends =>
    rw [← number_fraction hdigits hplaces hends, ← htext]
    cases digits with
    | nil =>
      obtain ⟨rfl, rfl⟩ := List.cons.inj htext
      obtain ⟨d, ds, rfl⟩ := List.exists_cons_of_ne_nil (hne.resolve_left fun h => h rfl)
      exact piece_number (.inr ⟨rfl, by simpa using hplaces d List.mem_cons_self⟩) nofun
    | cons d ds =>
      obtain ⟨rfl, rfl⟩ := List.cons.inj (htext.trans (List.cons_append ..))
      refine piece_number (.inl (hdigits c List.mem_cons_self)) fun _ => ?_
      refine not_sign_append (fun d hd => hdigits d (List.mem_cons_of_mem _ hd)) fun _ b hb => ?_
      obtain rfl := Option.some.inj hb
      decide
  | @word w _ hne hword hdigit hends =>
    obtain ⟨d, w, rfl⟩ := List.exists_cons_of_ne_nil hne
    obtain ⟨rfl, rfl⟩ := List.cons.inj (htext.trans (List.cons_append ..))
    obtain ⟨htake, hdrop⟩ := Text.span_run (fun d hd => hword d (List.mem_cons_of_mem _ hd)) hends
    rw [piece_letter (hword c List.mem_cons_self) (hdigit c rfl), htake, hdrop]
  | symbol hc hdollar hpoint =>
    obtain ⟨rfl, rfl⟩ := List.cons.inj htext
    exact piece_other hc hdollar hpoint

/-- Cutting takes what is cut off, and nothing else. -/
theorem piece_eq_iff {c : Char} {rest more : Text} {p : Piece} :
    piece c rest = (p, more) ↔ CutOff (c :: rest) p more := by
  refine ⟨fun h => ?_, CutOff.piece_eq⟩
  have hcut := cutOff_piece c rest
  rwa [h] at hcut

namespace CutOff

variable {t more : Text} {p : Piece}

theorem exists_cons (h : CutOff t p more) : ∃ c rest, t = c :: rest := by
  refine List.exists_cons_of_ne_nil ?_
  cases h with
  | whole hne => exact List.append_ne_nil_of_left_ne_nil hne _
  | fraction => exact List.append_ne_nil_of_right_ne_nil _ (List.cons_ne_nil _ _)
  | word hne => exact List.append_ne_nil_of_left_ne_nil hne _
  | _ => exact List.cons_ne_nil _ _

theorem piecesOf_eq (h : CutOff t p more) (hsep : ∀ c ∈ t.head?, isSeparator c = false) :
    piecesOf t = p :: piecesOf more := by
  obtain ⟨c, rest, rfl⟩ := h.exists_cons
  rw [piecesOf, hsep c rfl, h.piece_eq]
  rfl

end CutOff

end ScriptMinifier.Constant
