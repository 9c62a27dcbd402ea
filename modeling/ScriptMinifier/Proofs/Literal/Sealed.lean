import ScriptMinifier.Layout
import ScriptMinifier.Proofs.Literal.Restoring
import ScriptMinifier.Proofs.Text.Hexadecimal
import ScriptMinifier.Text.Argument

/-! Texts whose placeholders are whole.

A text is sealed when each mark in it belongs to the placeholder of a literal that the table
has. A placeholder is made of marks and digits only, so a sealed text may be cut before or
after any other character (`Sealed.of_append_cons`): into lines, fields, arguments, the sides
of an equals sign. Dropping blanks, squeezing and replacing words by sealed texts keep it
sealed as well. The segments of two sealed texts that no word joins are those of each
(`Sealed.flatMap_segments_append`), and what a table restores in a sealed text has no mark
(`Sealed.mark_not_mem_restore`). -/
namespace ScriptMinifier

open Literal (placeholder indexLimit)
open Text (mark Segment isWordChar isOtherChar isBlank StartsNoWord)

/-- A text in which every mark belongs to the placeholder of one of `n` literals. -/
inductive Sealed (n : Nat) : Text → Prop
  | nil : Sealed n []
  | char {c : Char} {t : Text} (hc : c ≠ mark) (rest : Sealed n t) : Sealed n (c :: t)
  | literal {k : Nat} {t : Text} (hk : k < n) (rest : Sealed n t) : Sealed n (placeholder k ++ t)

theorem Text.joined_cons_cons (sep : Char) (piece second : Text) (more : List Text) :
    Text.joined sep (piece :: second :: more) = piece ++ sep :: Text.joined sep
    (second :: more) := by
  simp [Text.joined, List.intercalate]

/-- What trimming cuts from the end of a text is blank. -/
theorem Text.exists_trimEnd (t : Text) :
    ∃ blanks, t = Text.trimEnd t ++ blanks ∧ ∀ c ∈ blanks, isBlank c = true := by
  refine ⟨(t.reverse.takeWhile isBlank).reverse, ?_, fun c hc => ?_⟩
  · rw [Text.trimEnd, ← List.reverse_append, List.takeWhile_append_dropWhile, List.reverse_reverse]
  · exact List.all_eq_true.1 List.all_takeWhile c (List.mem_reverse.1 hc)

/-- A blank is part of no word and no placeholder. -/
theorem Text.isOtherChar_of_isBlank {c : Char} (h : isBlank c = true) : isOtherChar c = true := by
  have hmark : c ≠ mark := by
    rintro rfl
    exact absurd h (by decide)
  have hword : isWordChar c = false := by
    rw [Bool.eq_false_iff]
    intro hw
    have hrange : 48 ≤ c.toNat ∧ c.toNat ≤ 122 := by
      simp only [isWordChar, Char.isAlphanum, Char.isAlpha, Char.isUpper, Char.isLower,
        Char.isDigit, Bool.or_eq_true, Bool.and_eq_true, decide_eq_true_eq, beq_iff_eq, ge_iff_le,
        UInt32.le_iff_toNat_le] at hw
      rcases hw with ((hw | hw) | hw) | rfl
      · exact ⟨Nat.le_trans (by decide) hw.1, Nat.le_trans hw.2 (by decide)⟩
      · exact ⟨Nat.le_trans (by decide) hw.1, Nat.le_trans hw.2 (by decide)⟩
      · exact ⟨Nat.le_trans (by decide) hw.1, Nat.le_trans hw.2 (by decide)⟩
      · decide
    simp only [isBlank, Bool.or_eq_true, Bool.and_eq_true, decide_eq_true_eq, beq_iff_eq] at h
    omega
  simp [isOtherChar, hword, hmark]

/-! ### Placeholders -/

namespace Literal

theorem placeholder_append (k : Nat) (t : Text) :
    placeholder k ++ t = mark :: (Text.ofNat k ++ mark :: t) := by
  simp [placeholder]

theorem placeholder_ne_nil (k : Nat) : placeholder k ≠ [] := by simp [placeholder]

theorem isDigit_of_mem_ofNat {k : Nat} {c : Char} (h : c ∈ Text.ofNat k) : c.isDigit = true :=
  Nat.isDigit_of_mem_toDigits (by decide) (by decide) h

/-- A placeholder is made of marks and digits. -/
theorem eq_mark_or_isDigit_of_mem_placeholder {k : Nat} {c : Char} (h : c ∈ placeholder k) :
    c = mark ∨ c.isDigit = true := by
  simp only [placeholder, List.cons_append, List.mem_cons, List.mem_append, List.not_mem_nil,
    or_false] at h
  rcases h with h | h | h
  · exact .inl h
  · exact .inr (isDigit_of_mem_ofNat h)
  · exact .inl h

/-- Neither a mark nor a digit, so no part of a placeholder. -/
def isFree (c : Char) : Bool := c != mark && !c.isDigit

theorem ne_mark_of_isFree {c : Char} (h : isFree c = true) : c ≠ mark := by
  rw [isFree, Bool.and_eq_true, bne_iff_ne] at h
  exact h.1

theorem not_mem_placeholder {k : Nat} {c : Char} (h : isFree c = true) : c ∉ placeholder k := by
  intro hmem
  rw [isFree, Bool.and_eq_true, bne_iff_ne, Bool.not_eq_true'] at h
  rcases eq_mark_or_isDigit_of_mem_placeholder hmem with hmark | hdigit
  · exact h.1 hmark
  · rw [h.2] at hdigit
    cases hdigit

theorem isFree_of_isBlank {c : Char} (h : isBlank c = true) : isFree c = true := by
  have ho := Text.isOtherChar_of_isBlank h
  have hdigit : c.isDigit = false := by
    rw [Bool.eq_false_iff]
    intro hd
    have hword : isWordChar c = true := by simp [isWordChar, Char.isAlphanum, hd]
    rw [Text.not_isWordChar_of_isOtherChar ho] at hword
    cases hword
  simp [isFree, Text.ne_mark_of_isOtherChar ho, hdigit]

end Literal

open Literal (isFree ne_mark_of_isFree not_mem_placeholder placeholder_append)

namespace Sealed

variable {n m : Nat} {s t : Text}

/-! ### Putting together -/

theorem append (hs : Sealed n s) (ht : Sealed n t) : Sealed n (s ++ t) := by
  induction hs with
  | nil => exact ht
  | char hc _ ih => exact .char hc ih
  | literal hk _ ih =>
    rw [List.append_assoc]
    exact .literal hk ih

theorem of_not_mem (h : mark ∉ t) : Sealed n t := by
  induction t with
  | nil => exact .nil
  | cons c rest ih =>
    rw [List.mem_cons, not_or] at h
    exact .char (Ne.symm h.1) (ih h.2)

theorem mono (h : Sealed n t) (hle : n ≤ m) : Sealed m t := by
  induction h with
  | nil => exact .nil
  | char hc _ ih => exact .char hc ih
  | literal hk _ ih => exact .literal (Nat.lt_of_lt_of_le hk hle) ih

theorem of_holds {ls : Literals} {ns : List Nat} {held written : Text}
    (h : Holds ls ns held written) :
    Sealed ls.size held := by
  induction h with
  | nil => exact .nil
  | char hc _ ih => exact .char hc ih
  | literal hget _ _ ih => exact .literal (Literals.lt_size_of_get? hget) ih

theorem flatten {ts : List Text} (h : ∀ t ∈ ts, Sealed n t) : Sealed n ts.flatten := by
  induction ts with
  | nil => exact .nil
  | cons t rest ih =>
    rw [List.forall_mem_cons] at h
    exact h.1.append (ih h.2)

theorem joined {sep : Char} (hsep : sep ≠ mark) {ts : List Text} (h : ∀ t ∈ ts, Sealed n t) :
    Sealed n (Text.joined sep ts) := by
  match ts with
  | [] => exact .nil
  | [piece] => simpa [Text.joined, List.intercalate] using h
  | piece :: second :: more =>
    rw [List.forall_mem_cons] at h
    rw [Text.joined_cons_cons]
    exact h.1.append (.char hsep (joined hsep h.2))

/-! ### Cutting -/

/-- What follows a mark is the rest of a placeholder, and a sealed text. -/
theorem of_mark (h : Sealed n (mark :: t)) :
    ∃ k t', k < n ∧ t = Text.ofNat k ++ mark :: t' ∧ Sealed n t' := by
  generalize hs : mark :: t = s at h
  cases h with
  | nil => cases hs
  | char hc _ =>
    rw [List.cons.injEq] at hs
    exact absurd hs.1.symm hc
  | @literal k t' hk rest =>
    rw [placeholder_append, List.cons.injEq] at hs
    exact ⟨k, t', hk, hs.2, rest⟩

theorem tail {c : Char} (hc : c ≠ mark) (h : Sealed n (c :: t)) : Sealed n t := by
  generalize hs : c :: t = s at h
  cases h with
  | nil => cases hs
  | char _ rest =>
    rw [(List.cons.inj hs).2]
    exact rest
  | literal =>
    rw [placeholder_append, List.cons.injEq] at hs
    exact absurd hs.1 hc

/-- A sealed text may be cut at any character that no placeholder has. -/
theorem of_append_cons {c : Char} (hc : isFree c = true) (h : Sealed n (s ++ c :: t)) :
    Sealed n s ∧ Sealed n t := by
  generalize hu : s ++ c :: t = u at h
  induction h generalizing s with
  | nil => simp at hu
  | @char d u hd rest ih =>
    cases s with
    | nil =>
      rw [List.nil_append, List.cons.injEq] at hu
      rw [hu.2]
      exact ⟨.nil, rest⟩
    | cons e s =>
      rw [List.cons_append, List.cons.injEq] at hu
      obtain ⟨hs, ht⟩ := ih hu.2
      rw [hu.1]
      exact ⟨.char hd hs, ht⟩
  | @literal k u hk rest ih =>
    rcases List.append_eq_append_iff.1 hu with ⟨x, hx, hrest⟩ | ⟨x, rfl, hrest⟩
    · -- the cut would lie inside the placeholder, or right after it
      cases x with
      | nil =>
        rw [List.append_nil] at hx
        obtain ⟨-, ht⟩ := ih (s := []) hrest
        refine ⟨?_, ht⟩
        have hs := Sealed.literal hk (t := []) .nil
        rwa [List.append_nil, hx] at hs
      | cons d x =>
        rw [List.cons_append, List.cons.injEq] at hrest
        refine absurd ?_ (not_mem_placeholder (k := k) hc)
        rw [hx, hrest.1]
        exact List.mem_append_right _ List.mem_cons_self
    · obtain ⟨hs, ht⟩ := ih hrest.symm
      exact ⟨.literal hk hs, ht⟩

/-- Cutting off characters that no placeholder has. -/
theorem of_append_right (h : Sealed n (s ++ t)) (ht : ∀ c ∈ t, isFree c = true) : Sealed n s := by
  cases t with
  | nil => rwa [List.append_nil] at h
  | cons c rest => exact (h.of_append_cons (ht c List.mem_cons_self)).1

theorem of_append_left (h : Sealed n (s ++ t)) (hs : ∀ c ∈ s, isFree c = true) : Sealed n t := by
  induction s with
  | nil => exact h
  | cons c rest ih =>
    rw [List.forall_mem_cons] at hs
    exact ih (h.tail (ne_mark_of_isFree hs.1)) hs.2

/-- Cutting at a text that no placeholder touches. -/
theorem of_cut {sep : Text} (hne : sep ≠ []) (hsep : ∀ c ∈ sep, isFree c = true)
    (h : Sealed n (s ++ sep ++ t)) :
    Sealed n s ∧ Sealed n t := by
  obtain ⟨c, rest, rfl⟩ := List.exists_cons_of_ne_nil hne
  rw [List.forall_mem_cons] at hsep
  rw [List.append_assoc, List.cons_append] at h
  obtain ⟨hs, hrest⟩ := h.of_append_cons hsep.1
  exact ⟨hs, hrest.of_append_left hsep.2⟩

theorem of_joined {sep : Char} (hsep : isFree sep = true) {ts : List Text}
    (h : Sealed n (Text.joined sep ts)) :
    ∀ t ∈ ts, Sealed n t := by
  match ts with
  | [] => nofun
  | [piece] =>
    rw [List.forall_mem_singleton]
    simpa [Text.joined, List.intercalate] using h
  | piece :: second :: more =>
    rw [Text.joined_cons_cons] at h
    obtain ⟨hpiece, hmore⟩ := h.of_append_cons hsep
    exact List.forall_mem_cons.2 ⟨hpiece, of_joined hsep hmore⟩

theorem pieces {sep : Char} (hsep : isFree sep = true) (h : Sealed n t) :
    ∀ piece ∈ Text.pieces sep t, Sealed n piece :=
  of_joined hsep (by rwa [Text.joined_pieces])

theorem dropWhile {p : Char → Bool} (hp : p mark = false) (h : Sealed n t) :
    Sealed n (t.dropWhile p) := by
  induction h with
  | nil => exact .nil
  | @char c t hc rest ih =>
    by_cases hpc : p c = true
    · rw [List.dropWhile_cons_of_pos hpc]
      exact ih
    · rw [List.dropWhile_cons_of_neg hpc]
      exact .char hc rest
  | literal hk rest _ =>
    rw [placeholder_append, List.dropWhile_cons_of_neg (by simp [hp]), ← placeholder_append]
    exact .literal hk rest

theorem of_word {w : Text} (hw : ∀ c ∈ w, isWordChar c = true) (ht : StartsNoWord t)
    (h : Sealed n (w ++ t)) : Sealed n t := by
  have hdrop := h.dropWhile Text.not_isWordChar_mark
  rwa [Text.dropWhile_append_of_startsNoWord hw ht] at hdrop

/-! ### Blanks -/

theorem trimStart (h : Sealed n t) : Sealed n (Text.trimStart t) := h.dropWhile (by decide)

theorem trimEnd (h : Sealed n t) : Sealed n (Text.trimEnd t) := by
  obtain ⟨blanks, hsplit, hblank⟩ := Text.exists_trimEnd t
  rw [hsplit] at h
  exact h.of_append_right fun c hc => Literal.isFree_of_isBlank (hblank c hc)

theorem trim (h : Sealed n t) : Sealed n (Text.trim t) := h.trimStart.trimEnd

theorem dropReturn (h : Sealed n t) : Sealed n (Text.dropReturn t) := by
  rw [Text.dropReturn, Text.dropEnd?]
  split
  · rename_i hsuffix
    obtain ⟨front, rfl⟩ := List.isSuffixOf_iff_suffix.1 hsuffix
    simpa using h.of_append_right (by decide)
  · exact h

theorem lines (h : Sealed n t) : ∀ line ∈ Text.lines t, Sealed n line := by
  have hpieces : ∀ piece ∈ Text.pieces '\n' t, Sealed n piece := h.pieces (by decide)
  intro line hline
  rcases List.mem_append.1 hline with hline | hline
  · obtain ⟨piece, hpiece, rfl⟩ := List.mem_map.1 hline
    exact (hpieces piece (List.dropLast_subset _ hpiece)).dropReturn
  · have hlast := (List.mem_filter.1 hline).1
    rw [Option.mem_toList] at hlast
    exact hpieces line (List.mem_of_getLast? hlast)

/-! ### Words -/

theorem throughMark_ofNat (k : Nat) (t : Text) :
    Text.throughMark (Text.ofNat k ++ mark :: t) = Text.ofNat k ++ [mark] :=
  Text.throughMark_append (Literal.mark_not_mem_ofNat k)

theorem afterMark_ofNat (k : Nat) (t : Text) : Text.afterMark (Text.ofNat k ++ mark :: t) = t :=
  Text.afterMark_append (Literal.mark_not_mem_ofNat k)

theorem afterMark (h : Sealed n (mark :: t)) : Sealed n (Text.afterMark t) := by
  obtain ⟨k, t', -, rfl, ht'⟩ := h.of_mark
  rwa [afterMark_ofNat]

theorem throughMark (h : Sealed n (mark :: t)) : Sealed n (mark :: Text.throughMark t) := by
  obtain ⟨k, t', hk, rfl, -⟩ := h.of_mark
  rw [throughMark_ofNat]
  have hone := Sealed.literal hk (t := []) .nil
  rwa [List.append_nil] at hone

theorem of_all_isWordChar (h : ∀ c ∈ t, isWordChar c = true) : Sealed n t :=
  of_not_mem fun hm => absurd (h mark hm) (by decide)

theorem of_all_isOtherChar (h : ∀ c ∈ t, isOtherChar c = true) : Sealed n t :=
  of_not_mem fun hm => absurd (h mark hm) (by decide)

/-- Every segment of a sealed text is sealed. -/
theorem segments (h : Sealed n t) : ∀ g ∈ Text.segments t, Sealed n g.text := by
  fun_induction Text.segments t with
  | case1 =>
    intro g hg
    cases hg
  | case2 rest ih => exact List.forall_mem_cons.2 ⟨h.throughMark, ih h.afterMark⟩
  | case3 c rest hmark hw ih =>
    refine List.forall_mem_cons.2 ⟨of_all_isWordChar (Text.exists_run hw rest).2, ih ?_⟩
    exact (h.tail hmark).dropWhile Text.not_isWordChar_mark
  | case4 c rest hmark hw ih =>
    have ho : isOtherChar c = true := by simp [isOtherChar, hw, hmark]
    refine List.forall_mem_cons.2 ⟨of_all_isOtherChar (Text.exists_run ho rest).2, ih ?_⟩
    exact (h.tail hmark).dropWhile (by decide)

/-- Replacing words by sealed texts keeps a text sealed. -/
theorem replaceWords {f : Text → Option Text} (hf : ∀ w r, f w = some r → Sealed n r)
    (h : Sealed n t) :
    Sealed n (Text.replaceWords f t) := by
  rw [Text.replaceWords, List.flatMap]
  apply flatten
  intro r hr
  obtain ⟨g, hg, rfl⟩ := List.mem_map.1 hr
  have hsealed := h.segments g hg
  cases g with
  | word w =>
    cases hfw : f w with
    | none => simpa [Segment.replaced, Segment.text, hfw] using hsealed
    | some r => simpa [Segment.replaced, hfw] using hf w r hfw
  | placeholder text => exact hsealed
  | other text => exact hsealed

/-! ### Layout -/

open Layout (squeezeFrom squeezeBlock dropEmptyLines)

theorem not_isHorizontal_of_mem_placeholder {k : Nat} {c : Char} (h : c ∈ placeholder k) :
    Text.isHorizontal c = false := by
  rw [Bool.eq_false_iff]
  intro hc
  exact not_mem_placeholder (Literal.isFree_of_isBlank (Text.isBlank_of_isHorizontal c hc)) h

/-- A run without blanks is kept as it is. -/
theorem squeezeFrom_append {run : Text} (hrun : ∀ c ∈ run, Text.isHorizontal c = false) (t : Text)
    (before : Option Char) :
    squeezeFrom before false (run ++ t) = run ++ squeezeFrom (run.getLast?.or before) false t := by
  induction run generalizing before with
  | nil => rfl
  | cons c rest ih =>
    rw [List.forall_mem_cons] at hrun
    rw [List.cons_append, squeezeFrom, if_neg (by simp [hrun.1]), Bool.false_and,
      if_neg Bool.false_ne_true, ih hrun.2, List.cons_append, List.getLast?_cons]
    cases rest.getLast? <;> rfl

/-- A run without blanks leaves at most a space before it. -/
theorem squeezeFrom_run {c : Char} {run : Text} (hrun : ∀ d ∈ c :: run, Text.isHorizontal d = false)
    (t : Text) (before : Option Char) (pending : Bool) :
    squeezeFrom before pending (c :: run ++ t) =
      (if pending && Layout.separates before c then [' '] else []) ++
        (c :: run ++ squeezeFrom (run.getLast?.or (some c)) false t) := by
  rw [List.forall_mem_cons] at hrun
  rw [List.cons_append, squeezeFrom, if_neg (by simp [hrun.1]), squeezeFrom_append hrun.2]
  split <;> rfl

theorem squeezeFrom_placeholder (before : Option Char) (pending : Bool) (k : Nat) (t : Text) :
    squeezeFrom before pending (placeholder k ++ t) =
      (if pending && Layout.separates before mark then [' '] else []) ++
        (placeholder k ++ squeezeFrom (some mark) false t) := by
  have hchars : ∀ d ∈ mark :: (Text.ofNat k ++ [mark]), Text.isHorizontal d = false :=
    fun d hd => not_isHorizontal_of_mem_placeholder (k := k) hd
  have hrun := squeezeFrom_run hchars t before pending
  rwa [List.getLast?_append, List.getLast?_singleton, Option.some_or, Option.some_or] at hrun

theorem squeezeFrom (h : Sealed n t) (before : Option Char) (pending : Bool) :
    Sealed n (Layout.squeezeFrom before pending t) := by
  induction h generalizing before pending with
  | nil => exact .nil
  | @char c t hc _ ih =>
    rw [Layout.squeezeFrom]
    split
    · exact ih before true
    · split
      · exact .char (by decide) (.char hc (ih _ _))
      · exact .char hc (ih _ _)
  | literal hk _ ih =>
    rw [squeezeFrom_placeholder]
    refine Sealed.append ?_ (.literal hk (ih _ _))
    split
    · exact .char (by decide) .nil
    · exact .nil

theorem squeezeBlock (h : Sealed n t) : Sealed n (Layout.squeezeBlock t) := by
  apply joined (by decide)
  intro line hline
  obtain ⟨piece, hpiece, rfl⟩ := List.mem_map.1 (List.mem_filter.1 hline).1
  exact (h.pieces (by decide) piece hpiece).squeezeFrom none false

theorem dropEmptyLines_append {run : Text} (hne : run ≠ []) (hrun : '\n' ∉ run) (fresh : Bool)
    (t : Text) :
    dropEmptyLines fresh (run ++ t) = run ++ dropEmptyLines false t := by
  induction run generalizing fresh with
  | nil => exact absurd rfl hne
  | cons c rest ih =>
    rw [List.mem_cons, not_or] at hrun
    rw [List.cons_append, dropEmptyLines, if_neg (Ne.symm hrun.1)]
    cases rest with
    | nil => rfl
    | cons d more => rw [ih (by simp) hrun.2 false]; rfl

theorem collapseNewlines (h : Sealed n t) : Sealed n (Layout.collapseNewlines t) := by
  rw [Layout.collapseNewlines]
  generalize true = fresh
  induction h generalizing fresh with
  | nil => exact .nil
  | @char c t hc _ ih =>
    rw [dropEmptyLines]
    split
    · split
      · exact ih true
      · exact .char hc (ih true)
    · exact .char hc (ih false)
  | @literal k t hk _ ih =>
    rw [dropEmptyLines_append (Literal.placeholder_ne_nil k) (not_mem_placeholder (by decide))]
    exact .literal hk (ih false)

/-! ### Segments -/

/-- What a run between words spells, it spells before what follows says. -/
theorem flatMap_segments_others {α : Type} {f : Segment → List α} {g : Char → List α}
    (hother : ∀ s, f (.other s) = s.flatMap g) (hs : ∀ c ∈ s, isOtherChar c = true) (t : Text) :
    (Text.segments (s ++ t)).flatMap f = s.flatMap g ++ (Text.segments t).flatMap f := by
  have hrun : ∀ u : Text, (Text.segments u).flatMap f =
      (u.takeWhile isOtherChar).flatMap g ++ (Text.segments (u.dropWhile isOtherChar)).flatMap f :=
    Text.flatMap_segments_run hother fun c rest hc => Text.segments_of_isOtherChar hc rest
  rw [hrun (s ++ t), hrun t, List.takeWhile_append_of_pos hs, List.dropWhile_append_of_pos hs,
    List.flatMap_append, List.append_assoc]

/-- The segments of two texts that no word joins say what the segments of each say. -/
theorem flatMap_segments_append {α : Type} {f : Segment → List α} {g : Char → List α}
    (hother : ∀ s, f (.other s) = s.flatMap g) (h : Sealed n s)
    (hcut : ∀ c ∈ s.getLast?, isWordChar c = true → StartsNoWord t) :
    (Text.segments (s ++ t)).flatMap f = (Text.segments s).flatMap f ++
    (Text.segments t).flatMap f := by
  induction s using Text.wordwise with
  | nil =>
    rw [Text.segments]
    rfl
  | placeholder rest ih =>
    obtain ⟨k, rest', -, rfl, hrest⟩ := h.of_mark
    have hsegments :
        ∀ u, Text.segments (placeholder k ++ u) = .placeholder (placeholder k) :: Text.segments u :=
      Text.segments_placeholder (Literal.mark_not_mem_ofNat k)
    rw [afterMark_ofNat] at ih
    rw [← placeholder_append] at hcut ⊢
    rw [List.append_assoc, hsegments, hsegments, List.flatMap_cons, List.flatMap_cons,
      List.append_assoc, ih hrest (Text.forall_getLast?_of_append hcut)]
  | word w s hne hw hs ih =>
    rw [List.append_assoc, Text.segments_word hne hw (hs.append_of_cut hne hw hcut),
      Text.segments_word hne hw hs, List.flatMap_cons, List.flatMap_cons, List.append_assoc,
      ih (h.of_word hw hs) (Text.forall_getLast?_of_append hcut)]
  | other c s hc ih =>
    have hrun (u : Text) := flatMap_segments_others hother (s := [c]) (by simpa using hc) u
    have hrest :=
      ih (h.tail (Text.ne_mark_of_isOtherChar hc)) (Text.forall_getLast?_of_append (s := [c]) hcut)
    simp only [List.singleton_append] at hrun
    rw [List.cons_append, hrun, hrun, hrest, List.append_assoc]

/-! ### Restoring -/

/-- What a table without marks restores in a sealed text has none. -/
theorem mark_not_mem_restore {ls : Literals} (h : Sealed ls.size t) (hlimit : ls.size ≤ indexLimit)
    (hls : ∀ raw ∈ ls.texts, mark ∉ raw) : mark ∉ ls.restore t := by
  induction h with
  | nil => simp
  | char hc _ ih =>
    rw [Literals.restore_cons hc, List.mem_cons, not_or]
    exact ⟨Ne.symm hc, ih⟩
  | @literal k t hk _ ih =>
    have hget : ls.get? k = some ls.texts[k] := List.getElem?_eq_getElem hk
    rw [Literals.restore_placeholder (Nat.lt_of_lt_of_le hk hlimit) hget, List.mem_append, not_or]
    exact ⟨hls _ (List.getElem_mem hk), ih⟩

end Sealed
end ScriptMinifier
