import ScriptMinifier.Proofs.Layout.Tidy
import ScriptMinifier.Proofs.Syntax.Reading

/-! Fields and cuts of a text that is put together.

Identifiers with spaces between them are the fields of their text (`fields_joined`). A cut at a
character or at a text falls where the parts were put together, as long as what is cut at
stands nowhere before it (`cutAt?_append`, `cutFirst?_append`) or nowhere after it
(`cutLast?_append`). -/
namespace ScriptMinifier.Text

open Layout (Solid not_isBlank_of_isWordChar)

/-! ### Identifiers -/

theorem isWordChar_of_isIdent {t : Text} (h : isIdent t = true) : ∀ c ∈ t, isWordChar c = true := by
  cases t with
  | nil => cases h
  | cons d rest =>
    rw [isIdent, Bool.and_eq_true, List.all_eq_true] at h
    rw [List.forall_mem_cons]
    exact ⟨by simp [isWordChar, Char.isAlphanum, h.1], h.2⟩

/-- A name does not start with a digit. -/
theorem not_isDigit_of_isIdent {t : Text} (h : isIdent t = true) :
    ∀ c ∈ t.head?, c.isDigit = false := by
  cases t with
  | nil => cases h
  | cons c rest =>
    intro d hd
    rw [← Option.some.inj hd]
    rw [isIdent, Bool.and_eq_true] at h
    have halpha := h.1
    simp only [Char.isAlpha, Char.isUpper, Char.isLower, ge_iff_le, UInt32.le_iff_toNat_le,
      Bool.or_eq_true, Bool.and_eq_true, decide_eq_true_eq] at halpha
    rw [Bool.eq_false_iff]
    intro hdigit
    simp only [Char.isDigit, ge_iff_le, UInt32.le_iff_toNat_le, Bool.and_eq_true,
      decide_eq_true_eq] at hdigit
    grind

theorem ne_nil_of_isIdent {t : Text} (h : isIdent t = true) : t ≠ [] := by
  rintro rfl
  cases h

theorem solid_of_isIdent {t : Text} (h : isIdent t = true) : Solid t :=
  .of_word (ne_nil_of_isIdent h) (isWordChar_of_isIdent h)

theorem not_mem_of_isIdent {t : Text} (h : isIdent t = true) {c : Char}
    (hc : isWordChar c = false) : c ∉ t := by
  intro hmem
  rw [isWordChar_of_isIdent h c hmem] at hc
  cases hc

/-- Identifiers with spaces between them hold nothing else. -/
theorem not_mem_joined {ws : List Text} (hne : ws ≠ []) (hws : ∀ w ∈ ws, isIdent w = true)
    {c : Char} (hc : isWordChar c = false) (hspace : c ≠ ' ') : c ∉ joined ' ' ws := by
  intro hmem
  obtain ⟨w, hw, hcw⟩ := exists_piece_of_mem hspace hmem
  rw [pieces_joined hne fun w hw => not_mem_of_isIdent (hws w hw) (by decide)] at hw
  exact not_mem_of_isIdent (hws w hw) hc hcw

/-! ### Fields -/

theorem fieldsFrom_ne_nil (t : Text) : fields.fieldsFrom t ≠ [] := by
  cases t with
  | nil => simp [fields.fieldsFrom]
  | cons c rest =>
    rw [fields.fieldsFrom]
    split
    · simp
    · exact extendFirst_ne_nil c _

theorem fields_blank {c : Char} (hc : isBlank c = true) (t : Text) :
    fields (c :: t) = fields t := by
  rw [fields, fields.fieldsFrom, if_pos hc, List.filter_cons_of_neg (by simp), fields]

/-- A run without blanks is a field when it does not run on. -/
theorem fields_run {w t : Text} (hne : w ≠ []) (hw : ∀ c ∈ w, isBlank c = false)
    (ht : ∀ c ∈ t.head?, isBlank c = true) : fields (w ++ t) = w :: fields t := by
  have hfirst : ∃ more, fields.fieldsFrom t = [] :: more := by
    cases t with
    | nil => exact ⟨[], rfl⟩
    | cons c rest => exact ⟨_, if_pos (ht c rfl)⟩
  obtain ⟨more, hmore⟩ := hfirst
  have hrun : fields.fieldsFrom (w ++ t) = w :: more := by
    clear hne
    induction w with
    | nil => exact hmore
    | cons c rest ih =>
      rw [List.forall_mem_cons] at hw
      rw [List.cons_append, fields.fieldsFrom, if_neg (by simp [hw.1]), ih hw.2]
      rfl
  rw [fields, hrun, List.filter_cons_of_pos (by simpa using hne), fields, hmore,
    List.filter_cons_of_neg (by simp)]

/-- Induction over the blanks and the fields of a text. -/
theorem fieldwise {motive : Text → Prop} (nil : motive [])
    (blank : ∀ c t, isBlank c = true → motive t → motive (c :: t))
    (field : ∀ w t, w ≠ [] → (∀ c ∈ w, isBlank c = false) → (∀ c ∈ t.head?, isBlank c = true) →
      motive t → motive (w ++ t))
    (t : Text) : motive t := by
  induction hlen : t.length using Nat.strongRecOn generalizing t with
  | _ len ih =>
    cases t with
    | nil => exact nil
    | cons c rest =>
      by_cases hc : isBlank c = true
      · exact blank c rest hc (ih rest.length (by simp [← hlen]) rest rfl)
      · have hnot : (!isBlank c) = true := by simpa using hc
        obtain ⟨hsplit, hrun⟩ := exists_run (p := fun d => !isBlank d) hnot rest
        have hle := length_dropWhile_le (fun d => !isBlank d) rest
        rw [hsplit]
        refine field _ _ (by simp) (fun d hd => by simpa using hrun d hd) (fun d hd => ?_)
          (ih _ ?_ _ rfl)
        · simpa using head?_dropWhile rest d hd
        · rw [← hlen, List.length_cons]
          omega

/-- Identifiers with spaces between them are the fields of their text. -/
theorem fields_joined {ws : List Text} (h : ∀ w ∈ ws, isIdent w = true) :
    fields (joined ' ' ws) = ws := by
  match ws with
  | [] => rfl
  | [w] =>
    rw [List.forall_mem_singleton] at h
    have hrun := fields_run (t := []) (ne_nil_of_isIdent h)
      (fun c hc => not_isBlank_of_isWordChar (isWordChar_of_isIdent h c hc)) nofun
    rw [List.append_nil, show fields [] = [] from rfl] at hrun
    simpa [joined, List.intercalate] using hrun
  | w :: w' :: more =>
    rw [List.forall_mem_cons] at h
    rw [joined_cons_cons, fields_run (ne_nil_of_isIdent h.1)
      (fun c hc => not_isBlank_of_isWordChar (isWordChar_of_isIdent h.1 c hc)) (by simp; decide),
      fields_blank (by decide), fields_joined h.2]

/-- A character that is no blank stands in a field. -/
theorem exists_field_of_mem {t : Text} {c : Char} (hc : isBlank c = false) (h : c ∈ t) :
    ∃ f ∈ fields t, c ∈ f := by
  have hfrom : ∃ f ∈ fields.fieldsFrom t, c ∈ f := by
    induction t with
    | nil => cases h
    | cons d rest ih =>
      obtain ⟨first, more, hrest⟩ := List.exists_cons_of_ne_nil (fieldsFrom_ne_nil rest)
      rw [hrest] at ih
      rw [fields.fieldsFrom, hrest]
      rcases List.mem_cons.1 h with rfl | h
      · rw [if_neg (by simp [hc])]
        exact ⟨c :: first, List.mem_cons_self, List.mem_cons_self⟩
      · obtain ⟨f, hf, hcf⟩ := ih h
        split
        · exact ⟨f, List.mem_cons_of_mem _ hf, hcf⟩
        · rcases List.mem_cons.1 hf with rfl | hf
          · exact ⟨d :: f, List.mem_cons_self, List.mem_cons_of_mem d hcf⟩
          · exact ⟨f, List.mem_cons_of_mem _ hf, hcf⟩
  obtain ⟨f, hf, hcf⟩ := hfrom
  exact ⟨f, List.mem_filter.2 ⟨hf, by simpa using List.ne_nil_of_mem hcf⟩, hcf⟩

/-- Where only words and blanks stand, the words are the fields. -/
theorem words_eq_fields {t : Text} (h : ∀ c ∈ t, isWordChar c = true ∨ isBlank c = true) :
    words t = fields t := by
  have hsealed : Sealed 0 t := by
    refine .of_not_mem fun hmem => ?_
    rcases h mark hmem with hword | hblank
    · exact absurd hword (by decide)
    · exact absurd hblank (by decide)
  refine Sealed.wordwise
    (motive := fun t => (∀ c ∈ t, isWordChar c = true ∨ isBlank c = true) → words t = fields t)
    ?nil ?other ?word ?literal hsealed h
  case nil =>
    intro _
    rw [words_nil]
    rfl
  case other =>
    intro c t hc _ ih h
    rw [List.forall_mem_cons] at h
    have hblank : isBlank c = true := by
      refine h.1.resolve_left fun hword => ?_
      rw [not_isWordChar_of_isOtherChar hc] at hword
      cases hword
    rw [words_other hc, fields_blank hblank, ih h.2]
  case word =>
    intro w t hne hw hnext _ ih h
    have ht : ∀ c ∈ t, isWordChar c = true ∨ isBlank c = true :=
      fun c hc => h c (List.mem_append_right _ hc)
    rw [words_word hne hw hnext, fields_run hne (fun c hc => not_isBlank_of_isWordChar (hw c hc)),
      ih ht]
    intro c hc
    obtain ⟨rest, rfl⟩ := List.head?_eq_some_iff.1 hc
    refine (ht c List.mem_cons_self).resolve_left fun hword => ?_
    rw [hnext c rest rfl] at hword
    cases hword
  case literal =>
    intro k t hk
    exact absurd hk (Nat.not_lt_zero k)

theorem words_of_isIdent {t : Text} (h : isIdent t = true) : words t = [t] := by
  have hword := words_word (t := []) (ne_nil_of_isIdent h) (isWordChar_of_isIdent h) nofun
  rwa [List.append_nil, words_nil] at hword

/-- The words around a word that stands between two spaces. -/
theorem words_spaced {n : Nat} {s w : Text} (hs : Sealed n s) (hw : isIdent w = true) (t : Text) :
    words (s ++ (' ' :: w ++ [' ']) ++ t) = words s ++ w :: words t := by
  have hspace : StartsNoWord (' ' :: t) := by
    intro c rest hc
    rw [← (List.cons.inj hc).1]
    decide
  rw [List.append_assoc, List.cons_append, List.cons_append, hs.words_append_cons (by decide),
    List.append_assoc, List.singleton_append,
    words_word (ne_nil_of_isIdent hw) (isWordChar_of_isIdent hw) hspace, words_other (by decide)]

/-! ### Cuts -/

theorem cutAt?_append {sep : Char} {s : Text} (h : sep ∉ s) (t : Text) :
    cutAt? sep (s ++ sep :: t) = some (s, t) := by
  induction s with
  | nil => simp [cutAt?]
  | cons c rest ih =>
    rw [List.mem_cons, not_or] at h
    rw [List.cons_append, cutAt?, if_neg (Ne.symm h.1), ih h.2]
    rfl

theorem dropStart?_append (start t : Text) : dropStart? start (start ++ t) = some t := by
  rw [dropStart?, if_pos (List.isPrefixOf_iff_prefix.2 (List.prefix_append start t)),
    List.drop_left]

theorem dropStart?_cons_of_ne {c d : Char} (h : c ≠ d) (start t : Text) :
    dropStart? (c :: start) (d :: t) = none := by
  simp [dropStart?, h]

/-- The first occurrence is the one after a text that lacks its first character. -/
theorem cutFirst?_append {c : Char} {s : Text} (h : c ∉ s) (sep t : Text) :
    cutFirst? (c :: sep) (s ++ c :: sep ++ t) = some (s, t) := by
  induction s with
  | nil =>
    have hstart := dropStart?_append (c :: sep) t
    rw [List.cons_append] at hstart
    rw [List.nil_append, List.cons_append, cutFirst?, hstart]
  | cons d rest ih =>
    rw [List.mem_cons, not_or] at h
    rw [List.cons_append, List.cons_append, cutFirst?, dropStart?_cons_of_ne h.1, ih h.2]
    rfl

theorem cutLast?_eq_none {sep t : Text} (h : ¬ sep <:+: t) : cutLast? sep t = none := by
  induction t with
  | nil => rfl
  | cons c rest ih =>
    have hrest : ¬ sep <:+: rest := fun hpart => h (hpart.trans (List.suffix_cons c rest).isInfix)
    have hstart : dropStart? sep (c :: rest) = none := by
      rw [dropStart?, if_neg]
      intro hprefix
      exact h (List.isPrefixOf_iff_prefix.1 hprefix).isInfix
    rw [cutLast?, ih hrest, hstart]
    rfl

/-- The last occurrence is the one that no other follows. -/
theorem cutLast?_append {c : Char} {sep t : Text} (h : ¬ (c :: sep) <:+: (sep ++ t)) (s : Text) :
    cutLast? (c :: sep) (s ++ c :: sep ++ t) = some (s, t) := by
  induction s with
  | nil =>
    have hstart := dropStart?_append (c :: sep) t
    rw [List.cons_append] at hstart
    rw [List.nil_append, List.cons_append, cutLast?, cutLast?_eq_none h, hstart]
    rfl
  | cons d rest ih =>
    rw [List.cons_append, List.cons_append, cutLast?, ih]
    rfl

end ScriptMinifier.Text
