import ScriptMinifier.Proofs.Text.Segment
import ScriptMinifier.Text.Decimal

/-! The words after a dollar sign.

A dollar sign with hexadecimal digits right after it is a number. Replacing the words of a
text does not look at what stands before a word, so it treats those digits like any word:
what follows a dollar sign afterwards is the beginning of the replacement
(`dollarWords_replaceWords`), as long as the replacements bring neither dollar signs nor
marks. `HexThrough` draws the consequences for the numbers of a text: what they become, and
exactly when they stay. -/
namespace ScriptMinifier.Text

/-! ### Words after a dollar sign -/

/-- The word at the start of a text. -/
def lead? (t : Text) : Option Text :=
  if t.takeWhile isWordChar = [] then none else some (t.takeWhile isWordChar)

/-- The words right after a dollar sign, outside placeholders. -/
def dollarWords : Text → List Text
  | [] => []
  | c :: rest =>
    if c = mark then dollarWords (afterMark rest)
    else if c = '$' then (lead? rest).toList ++ dollarWords rest
    else dollarWords rest
termination_by t => t.length
decreasing_by
  · exact Nat.lt_succ_of_le (length_afterMark_le rest)
  · exact Nat.lt_succ_self _
  · exact Nat.lt_succ_self _

/-- A word of hexadecimal digits. -/
def isHex (w : Text) : Bool := w.all (isDigitOf 16)

/-- The hexadecimal numbers of a text: the digits after each dollar sign. -/
def hexLiterals (t : Text) : List Text := (dollarWords t).filter isHex

/-! ### Reading on -/

/-- Neither a dollar sign nor a mark. -/
def isPlain (c : Char) : Bool := c != '$' && c != mark

theorem isPlain_of_isWordChar {c : Char} (h : isWordChar c = true) : isPlain c = true := by
  have hdollar : c ≠ '$' := by
    intro hc
    rw [hc] at h
    exact absurd h (by decide)
  simp [isPlain, hdollar, ne_mark_of_isWordChar h]

/-- What names and numbers are made of: word characters, the minus sign and the point. -/
def isSmooth (c : Char) : Bool := isWordChar c || c == '-' || c == '.'

theorem isSmooth_of_isWordChar {c : Char} (h : isWordChar c = true) : isSmooth c = true := by
  simp [isSmooth, h]

theorem isPlain_of_isSmooth {c : Char} (h : isSmooth c = true) : isPlain c = true := by
  simp only [isSmooth, Bool.or_eq_true, beq_iff_eq] at h
  rcases h with (hword | rfl) | rfl
  · exact isPlain_of_isWordChar hword
  · decide
  · decide

theorem dollarWords_plain {c : Char} (hc : isPlain c = true) (t : Text) :
    dollarWords (c :: t) = dollarWords t := by
  rw [isPlain, Bool.and_eq_true, bne_iff_ne, bne_iff_ne] at hc
  rw [dollarWords, if_neg hc.2, if_neg hc.1]

theorem dollarWords_append {s : Text} (hs : ∀ c ∈ s, isPlain c = true) (t : Text) :
    dollarWords (s ++ t) = dollarWords t := by
  induction s with
  | nil => rfl
  | cons c rest ih =>
    rw [List.cons_append, dollarWords_plain (hs c List.mem_cons_self)]
    exact ih fun d hd => hs d (List.mem_cons_of_mem c hd)

theorem dollarWords_mark (t : Text) : dollarWords (mark :: t) = dollarWords (afterMark t) := by
  rw [dollarWords, if_pos rfl]

theorem lead?_of_startsNoWord {t : Text} (h : StartsNoWord t) : lead? t = none := by
  cases t with
  | nil => rfl
  | cons c rest => simp [lead?, h c rest rfl]

theorem lead?_word {w : Text} (hne : w ≠ []) (hw : ∀ c ∈ w, isWordChar c = true) :
    lead? w = some w := by
  rw [lead?, takeWhile_word hw, if_neg hne]

theorem lead?_append {s t : Text} (h : StartsNoWord t) : lead? (s ++ t) = lead? s := by
  rw [lead?, takeWhile_append_startsNoWord s h]
  rfl

theorem startsNoWord_of_isOtherChar {c : Char} (h : isOtherChar c = true) (t : Text) :
    StartsNoWord (c :: t) := by
  intro d rest heq
  rw [← (List.cons.inj heq).1]
  exact not_isWordChar_of_isOtherChar h

/-- After a run without words only its last character counts. -/
theorem dollarWords_run {s : Text} (hs : ∀ c ∈ s, isOtherChar c = true) (t : Text) :
    dollarWords (s ++ t) = (if s.getLast? = some '$' then (lead? t).toList else []) ++
      dollarWords t := by
  induction s with
  | nil => rfl
  | cons c rest ih =>
    have hrest := ih fun d hd => hs d (List.mem_cons_of_mem c hd)
    rw [List.cons_append, dollarWords, if_neg (ne_mark_of_isOtherChar (hs c List.mem_cons_self))]
    cases rest with
    | nil =>
      by_cases hc : c = '$'
      · simp [hc]
      · simp [hc]
    | cons d more =>
      have hd : isOtherChar d = true := hs d (List.mem_cons_of_mem c List.mem_cons_self)
      rw [List.getLast?_cons_cons, hrest, List.cons_append,
        lead?_of_startsNoWord (startsNoWord_of_isOtherChar hd _)]
      split <;> rfl

/-! ### Replacing words -/

section Replacing

variable {f : Text → Option Text}

theorem replaceWords_mark (rest : Text) :
    replaceWords f (mark :: rest) = mark :: throughMark rest ++ replaceWords f
    (afterMark rest) := by
  rw [replaceWords, segments, if_pos rfl]
  rfl

theorem replaceWords_word {c : Char} (hc : isWordChar c = true) (rest : Text) :
    replaceWords f (c :: rest) =
      (f (c :: rest.takeWhile isWordChar)).getD (c :: rest.takeWhile isWordChar) ++
        replaceWords f (rest.dropWhile isWordChar) := by
  rw [replaceWords, segments_of_isWordChar hc]
  rfl

theorem replaceWords_other {c : Char} (hc : isOtherChar c = true) (rest : Text) :
    replaceWords f (c :: rest) =
      c :: rest.takeWhile isOtherChar ++ replaceWords f (rest.dropWhile isOtherChar) := by
  rw [replaceWords, segments_of_isOtherChar hc]
  rfl

theorem startsNoWord_replaceWords {t : Text} (h : StartsNoWord t) :
    StartsNoWord (replaceWords f t) := by
  cases t with
  | nil =>
    rw [replaceWords, segments]
    intro d tail heq
    cases heq
  | cons c rest =>
    by_cases hmark : c = mark
    · rw [hmark, replaceWords_mark]
      intro d tail heq
      rw [← (List.cons.inj heq).1]
      exact not_isWordChar_mark
    · have ho : isOtherChar c = true := by simp [isOtherChar, h c rest rfl, hmark]
      rw [replaceWords_other ho]
      exact startsNoWord_of_isOtherChar ho _

/-- What a word becomes where it follows a dollar sign. -/
def afterDollar (f : Text → Option Text) (w : Text) : Option Text := lead? ((f w).getD w)

/-- After a dollar sign stands the beginning of what a word is replaced by. -/
theorem lead?_replaceWords {t : Text} (ho : ∀ c rest, t = c :: rest → isOtherChar c = false) :
    lead? (replaceWords f t) = (lead? t).bind (afterDollar f) := by
  cases t with
  | nil =>
    rw [replaceWords, segments]
    rfl
  | cons c rest =>
    by_cases hw : isWordChar c = true
    · have hnext : StartsNoWord (rest.dropWhile isWordChar) := startsNoWord_dropWhile rest
      have hlead : lead? (c :: rest) = some (c :: rest.takeWhile isWordChar) := by
        rw [lead?, List.takeWhile_cons_of_pos hw, if_neg (by simp)]
      rw [replaceWords_word hw, lead?_append (startsNoWord_replaceWords hnext), hlead]
      rfl
    · have hstart : StartsNoWord (c :: rest) := by
        intro d tail heq
        rw [← (List.cons.inj heq).1]
        simpa using hw
      rw [lead?_of_startsNoWord hstart, lead?_of_startsNoWord (startsNoWord_replaceWords hstart)]
      rfl

/-- Replacements that bring neither dollar signs nor marks. -/
def BringsNoSigns (f : Text → Option Text) : Prop := ∀ w r, f w = some r → ∀ c ∈ r, isPlain c = true

theorem BringsNoSigns.getD (hf : BringsNoSigns f) {w : Text} (hw : ∀ c ∈ w, isWordChar c = true) :
    ∀ c ∈ (f w).getD w, isPlain c = true := by
  intro c hc
  cases hfw : f w with
  | none =>
    rw [hfw, Option.getD_none] at hc
    exact isPlain_of_isWordChar (hw c hc)
  | some r =>
    rw [hfw, Option.getD_some] at hc
    exact hf w r hfw c hc

theorem toList_bind (o : Option Text) (g : Text → Option Text) :
    (o.bind g).toList = o.toList.filterMap g := by
  cases o with
  | none => rfl
  | some w => cases h : g w <;> simp [h]

/-- A placeholder ends where it did; one that is never closed has nothing after it. -/
theorem afterMark_replaceWords (rest : Text) :
    afterMark (throughMark rest ++ replaceWords f (afterMark rest)) = replaceWords f
    (afterMark rest) := by
  by_cases hmark : mark ∈ rest
  · obtain ⟨inner, t, rfl, hinner⟩ := List.eq_append_cons_of_mem hmark
    rw [throughMark_append hinner, afterMark_append hinner, List.append_assoc,
      List.singleton_append, afterMark_append hinner]
  · have hall : ∀ c ∈ rest, (c != mark) = true :=
      fun c hc => bne_iff_ne.2 fun heq => hmark (heq ▸ hc)
    have hdrop : (rest ++ []).dropWhile (· != mark) = [] := List.dropWhile_append_of_pos hall
    rw [List.append_nil] at hdrop
    have hafter : afterMark rest = [] := by rw [afterMark, hdrop, List.drop_nil]
    have hthrough : throughMark rest = rest := by
      have := throughMark_append_afterMark rest
      rwa [hafter, List.append_nil] at this
    rw [hthrough, hafter, show replaceWords f [] = [] by rw [replaceWords, segments]; rfl,
      List.append_nil, hafter]

/-- Replacing words replaces the words after dollar signs. -/
theorem dollarWords_replaceWords (hf : BringsNoSigns f) (t : Text) :
    dollarWords (replaceWords f t) = (dollarWords t).filterMap (afterDollar f) := by
  fun_induction segments t with
  | case1 =>
    rw [replaceWords, segments]
    simp [dollarWords]
  | case2 rest ih =>
    rw [replaceWords_mark, List.cons_append, dollarWords_mark, dollarWords_mark,
      afterMark_replaceWords, ih]
  | case3 c rest hmark hw ih =>
    obtain ⟨hsplit, hrun⟩ := exists_run hw rest
    have hold : dollarWords (c :: rest) = dollarWords (rest.dropWhile isWordChar) := by
      rw [hsplit]
      exact dollarWords_append (fun d hd => isPlain_of_isWordChar (hrun d hd)) _
    rw [replaceWords_word hw, dollarWords_append (hf.getD hrun), ih, hold]
  | case4 c rest hmark hw ih =>
    have ho : isOtherChar c = true := by simp [isOtherChar, hw, hmark]
    obtain ⟨hsplit, hrun⟩ := exists_run ho rest
    have hnext : ∀ d tail, rest.dropWhile isOtherChar = d :: tail → isOtherChar d = false := by
      intro d tail heq
      exact head?_dropWhile rest d (by rw [heq]; rfl)
    rw [replaceWords_other ho, dollarWords_run hrun, ih, hsplit, dollarWords_run hrun,
      List.filterMap_append, lead?_replaceWords hnext]
    congr 1
    split
    · exact toList_bind _ _
    · rfl

end Replacing

/-! ### What becomes of the numbers -/

/-- A list stays only when each of its items does. -/
theorem filterMap_eq_self_iff {g : Text → Option Text} {ws : List Text} :
    ws.filterMap g = ws ↔ ∀ w ∈ ws, g w = some w := by
  induction ws with
  | nil => simp
  | cons w rest ih =>
    rw [List.forall_mem_cons]
    cases hg : g w with
    | none =>
      -- the list gets shorter
      rw [List.filterMap_cons_none hg]
      refine iff_of_false (fun heq => ?_) (fun hall => nomatch hall.1)
      have hle := List.length_filterMap_le g rest
      have heq := congrArg List.length heq
      rw [List.length_cons] at heq
      omega
    | some v => rw [List.filterMap_cons_some hg, List.cons.injEq, ih, Option.some.injEq]

/-- The digits that a word after a dollar sign leaves there. -/
def hexAfter (image : Text → Option Text) (w : Text) : Option Text := (image w).filter isHex

/-- The numbers of a text whose words after dollar signs go through an image: what they
become, exactly when they stay, and that in a text in which every dollar sign starts a number
they stay just when no number is the name of something that is replaced. -/
structure HexThrough (image : Text → Option Text) (before after : Text) : Prop where
  hex_eq : hexLiterals after = (dollarWords before).filterMap (hexAfter image)
  kept_iff : hexLiterals after = hexLiterals before ↔
    (dollarWords before).filterMap (hexAfter image) = (dollarWords before).filter isHex
  kept_iff_of_all_hex : (∀ w ∈ dollarWords before, isHex w = true) →
    (hexLiterals after = hexLiterals before ↔ ∀ w ∈ hexLiterals before, image w = some w)

theorem mem_dollarWords {w t : Text} (h : w ∈ dollarWords t) :
    w ≠ [] ∧ ∀ c ∈ w, isWordChar c = true := by
  fun_induction dollarWords t with
  | case1 => cases h
  | case2 rest ih => exact ih h
  | case3 rest _ ih =>
    rcases List.mem_append.1 h with hlead | hrest
    · rw [Option.mem_toList, lead?] at hlead
      split at hlead
      · cases hlead
      · rename_i hne
        rw [← Option.some.inj hlead]
        exact ⟨hne, fun c hc => List.all_eq_true.1 List.all_takeWhile c hc⟩
    · exact ih hrest
  | case4 c rest _ _ ih => exact ih h

theorem hexThrough_of_dollarWords {image : Text → Option Text} {before after : Text}
    (h : dollarWords after = (dollarWords before).filterMap image) :
    HexThrough image before after := by
  have hhex : hexLiterals after = (dollarWords before).filterMap (hexAfter image) := by
    rw [hexLiterals, h, List.filter_filterMap]
    rfl
  refine ⟨hhex, by rw [hhex]; rfl, fun hall => ?_⟩
  have hbefore : hexLiterals before = dollarWords before := List.filter_eq_self.2 hall
  rw [hhex, hbefore, filterMap_eq_self_iff]
  apply forall₂_congr
  intro w hw
  rw [hexAfter, Option.filter_eq_some_iff]
  exact and_iff_left (hall w hw)

/-- Only what words begin with after they are replaced counts. -/
theorem dollarWords_through {f image : Text → Option Text} (hf : BringsNoSigns f)
    (himage : ∀ w, w ≠ [] → (∀ c ∈ w, isWordChar c = true) → afterDollar f w = image w) (t : Text) :
    dollarWords (replaceWords f t) = (dollarWords t).filterMap image := by
  rw [dollarWords_replaceWords hf]
  apply List.filterMap_congr
  intro w hw
  obtain ⟨hne, hword⟩ := mem_dollarWords hw
  exact himage w hne hword

end ScriptMinifier.Text
