import ScriptMinifier.Proofs.Syntax.Rendering

/-! Reading texts that start as they were rendered.

Of a line or a block only the start may be known to be well-formed: the words of a declaration
before its equals sign, the header of a function before its body. Squeezing and trimming keep the
start, and it is read as what it was rendered from, whatever follows it; the rest is read as it is
squeezed and trimmed (`Declaration.parseAll_of_lines`, `Function.parse_opening`). -/
namespace ScriptMinifier

open Text (Trimmed ended isBlank isHorizontal isIdent joined)

namespace Text

variable {c : Char} {s : Text}

/-- Trimming stops where the start ends, if not before. -/
theorem trim_append_trimmed (hne : s ≠ []) (hs : Trimmed s) (t : Text) :
    trim (s ++ t) = s ++ trimEnd t := by
  have hstart : trimStart (s ++ t) = s ++ t := by
    obtain ⟨a, more, rfl⟩ := List.exists_cons_of_ne_nil hne
    exact List.dropWhile_cons_of_neg (by simp [hs.head a rfl])
  obtain ⟨init, d, rfl⟩ := (List.eq_nil_or_concat' s).resolve_left hne
  rw [trim, hstart, trimEnd_append (hs.last d (by simp))]

/-- A character that is no blank stays with what follows it. -/
theorem trimEnd_cons (hc : isBlank c = false) (t : Text) : trimEnd (c :: t) = c :: trimEnd t := by
  have hcut := trimEnd_append (s := []) hc t
  rwa [List.nil_append, List.singleton_append] at hcut

/-- A blank goes when nothing but blanks follows it. -/
theorem trimEnd_cons_cases (c : Char) (t : Text) :
    trimEnd (c :: t) = c :: trimEnd t ∨ trimEnd (c :: t) = [] ∧ trimEnd t = [] := by
  have hreverse : trimEnd (c :: t) = ((t.reverse ++ [c]).dropWhile isBlank).reverse := by
    rw [trimEnd, List.reverse_cons]
  rw [List.dropWhile_append] at hreverse
  split at hreverse
  · rename_i hnone
    rw [List.isEmpty_iff] at hnone
    have hrest : trimEnd t = [] := by rw [trimEnd, hnone, List.reverse_nil]
    by_cases hc : isBlank c = true
    · refine .inr ⟨?_, hrest⟩
      rw [hreverse, List.dropWhile_cons_of_pos hc]
      rfl
    · refine .inl ?_
      rw [hreverse, List.dropWhile_cons_of_neg hc, hrest]
      rfl
  · refine .inl ?_
    rw [hreverse, List.reverse_append]
    rfl

end Text

namespace Layout

variable {before : Option Char} {c : Char} {s t : Text}

theorem Tidy.squeezeFrom_append (h : Tidy before s) (t : Text) :
    squeezeFrom before false (s ++ t) =
      s ++ squeezeFrom (s.getLast?.or before) false t := by
  induction h with
  | nil => rfl
  | @char _ c s hc _ ih =>
    rw [List.cons_append, squeezeFrom, hc, if_neg Bool.false_ne_true, Bool.false_and,
      if_neg Bool.false_ne_true, ih, List.getLast?_cons]
    cases s.getLast? <;> rfl
  | @space _ c s hc hseparates _ ih =>
    have hblank : isHorizontal ' ' = true := rfl
    rw [List.cons_append, List.cons_append, squeezeFrom, if_pos hblank, squeezeFrom, hc,
      if_neg Bool.false_ne_true, hseparates, Bool.true_and, if_pos rfl, ih, List.getLast?_cons,
      List.getLast?_cons]
    cases s.getLast? <;> rfl

/-- Squeezing a line keeps its start. -/
theorem squeezeLine_append_cons (hc : isHorizontal c = false) (hs : Tidy none s) (t : Text) :
    squeezeLine (s ++ c :: t) = s ++ c :: squeezeFrom (some c) false t := by
  rw [squeezeLine, hs.squeezeFrom_append, squeezeFrom, hc, if_neg Bool.false_ne_true,
    Bool.false_and, if_neg Bool.false_ne_true]

/-- Squeezing a block keeps its first line, if that is solid. -/
theorem squeezedLines_opening (hs : Solid s) (hnewline : '\n' ∉ s) (rest : Text) :
    squeezedLines (' ' :: s ++ '\n' :: rest) = s :: squeezedLines rest := by
  have hline : squeezeLine (' ' :: s) = s := by
    rw [squeezeLine, squeezeFrom, if_pos (by decide), squeezeFrom_none, hs.tidy.squeezeFrom_eq]
  have hfirst : '\n' ∉ ' ' :: s := by
    rw [List.mem_cons, not_or]
    exact ⟨by decide, hnewline⟩
  rw [squeezedLines, Text.pieces_append_cons, Text.pieces_of_not_mem hfirst,
    List.singleton_append, List.map_cons, hline,
    List.filter_cons_of_pos (by simpa using hs.ne_nil), squeezedLines]

/-- Ended lines are squeezed one by one. -/
theorem squeezedLines_ended {ls : List Text} (h : ∀ l ∈ ls, '\n' ∉ l) :
    squeezedLines (ended ls) = (ls.map squeezeLine).filter (· ≠ []) := by
  have hpieces := Text.pieces_ended h []
  rw [List.append_nil] at hpieces
  rw [squeezedLines, hpieces, List.map_append, List.filter_append]
  exact List.append_nil _

end Layout

namespace Syntax

open Layout (Solid squeezeBlock squeezeFrom squeezeLine squeezedLines)

/-! ### Declarations -/

namespace Declaration

variable {d : Declaration} {ds : List Declaration} {line : Text} {lines : List Text}
  {value : Option Text}

/-- What a declaration declares, its value left out. -/
def signature (d : Declaration) : Declaration := { d with value := none, uses := 0 }

/-- A line that states what a declaration declares, with some text for its value. -/
def lineWith (d : Declaration) (value : Option Text) : Text :=
  joined ' ' d.words ++ (value.map ('=' :: ·)).getD []

/-- What is read from such a line. -/
def readWith (d : Declaration) (value : Option Text) : Declaration :=
  { d with value := value.map fun v => Text.trimEnd (squeezeFrom (some '=') false v), uses := 0 }

theorem trim_squeezeLine_lineWith (h : d.signature.Regular) (value : Option Text) :
    Text.trim (squeezeLine (d.lineWith value)) =
      d.lineWith (value.map fun v => Text.trimEnd (squeezeFrom (some '=') false v)) := by
  have hsolid : Solid (joined ' ' d.words) := solid_words (d := d.signature) h
  cases value with
  | none =>
    have hline : d.lineWith none = joined ' ' d.words := List.append_nil _
    rw [Option.map_none, hline, squeezeLine, hsolid.tidy.squeezeFrom_eq, hsolid.trimmed.trim_eq]
  | some v =>
    have hline : ∀ v : Text, d.lineWith (some v) = joined ' ' d.words ++ '=' :: v := fun _ => rfl
    rw [Option.map_some, hline, hline, Layout.squeezeLine_append_cons (by decide) hsolid.tidy,
      Text.trim_append_trimmed hsolid.ne_nil hsolid.trimmed, Text.trimEnd_cons (by decide)]

/-- A declaration is read from its words, whatever its value is. -/
theorem parse?_lineWith (h : d.signature.Regular) (value : Option Text) :
    parse? (Text.trim (squeezeLine (d.lineWith value))) = some (d.readWith value) := by
  have hequals : '=' ∉ joined ' ' d.words := not_mem_words h (by decide) (by decide)
  obtain ⟨htyped, hconstant⟩ := typedName?_words h
  have hsides : ∀ value : Option Text, sides (d.lineWith value) = (joined ' ' d.words, value) := by
    intro value
    cases value with
    | none =>
      have hline : d.lineWith none = joined ' ' d.words := List.append_nil _
      rw [sides, hline, Text.cutAt?_eq_none.2 hequals]
    | some v =>
      have hline : d.lineWith (some v) = joined ' ' d.words ++ '=' :: v := rfl
      rw [sides, hline, Text.cutAt?_append hequals]
  have hfields : Text.fields (joined ' ' d.words) = d.signature.words :=
    Text.fields_joined (isIdent_words (d := d.signature) h)
  rw [trim_squeezeLine_lineWith h, parse?, hsides]
  simp only [hfields]
  rw [htyped, hconstant]
  simp only [h.type, h.name, Bool.and_self, if_true]
  rfl

theorem lineWith_ne_nil (h : d.signature.Regular) (value : Option Text) : d.lineWith value ≠ [] :=
  List.append_ne_nil_of_left_ne_nil (solid_words (d := d.signature) h).ne_nil _

/-- A block of declarations is read from their words, with whatever values stand on the
lines. -/
theorem parseAll_of_lines {R : Declaration → Option Text → Prop}
    (hds : ∀ d ∈ ds, d.signature.Regular)
    (h : List.Forall₂ (fun d line => '\n' ∉ line ∧ ∃ v, R d v ∧ line = d.lineWith v) ds lines) :
    ∃ ds', parseAll (squeezeBlock (ended ([] :: lines))) = .ok ds' ∧
      List.Forall₂ (fun d d' => ∃ v, R d v ∧ d' = d.readWith v) ds ds' := by
  have hlines : ∀ line ∈ lines,
      squeezeLine line ≠ [] ∧ Text.trim (squeezeLine line) ≠ [] ∧ '\n' ∉ line := by
    intro line hline
    obtain ⟨d, hd, hnewline, v, -, rfl⟩ := exists_of_mem_right h hline
    have htrim := trim_squeezeLine_lineWith (hds d hd) v
    have hne : Text.trim (squeezeLine (d.lineWith v)) ≠ [] := htrim ▸ lineWith_ne_nil (hds d hd) _
    refine ⟨fun hnil => hne ?_, hne, hnewline⟩
    rw [hnil]
    rfl
  have hkept : (lines.map squeezeLine).filter (· ≠ []) = lines.map squeezeLine := by
    refine List.filter_eq_self.2 fun line hline => ?_
    obtain ⟨raw, hraw, rfl⟩ := List.mem_map.1 hline
    simpa using (hlines raw hraw).1
  have hparts : ((Text.lines (squeezeBlock (ended ([] :: lines)))).map Text.trim).filter (· ≠ []) =
      lines.map fun line => Text.trim (squeezeLine line) := by
    rw [Layout.lines_squeezeBlock, Layout.squeezedLines_ended
        (List.forall_mem_cons.2 ⟨List.not_mem_nil, fun l hl => (hlines l hl).2.2⟩),
      List.map_cons, show squeezeLine [] = [] from rfl, List.filter_cons_of_neg (by simp), hkept,
      List.map_map]
    refine List.filter_eq_self.2 fun line hline => ?_
    obtain ⟨raw, hraw, rfl⟩ := List.mem_map.1 hline
    simpa using (hlines raw hraw).2.1
  simp only [parseAll_eq_ok, hparts, List.forall₂_map_left_iff]
  clear hparts hkept hlines
  induction h with
  | nil => exact ⟨[], .nil, .nil⟩
  | @cons d line _ _ hfirst _ ih =>
    rw [List.forall_mem_cons] at hds
    obtain ⟨-, v, hv, rfl⟩ := hfirst
    obtain ⟨ds', hmore, hds'⟩ := ih hds.2
    exact ⟨d.readWith v :: ds', .cons (parse?_lineWith hds.1 v) hmore, .cons ⟨v, hv, rfl⟩ hds'⟩

end Declaration

/-! ### Functions -/

/-- A function is read from its header, with whatever stands after it for a body. -/
theorem Function.parse_opening {f : Function} (hname : isIdent f.name = true)
    (hresult : isIdent f.result = true) (hparams : Solid f.params)
    (hnewline : '\n' ∉ f.header.text) (rest : Text) :
    parse (squeezeBlock (' ' :: f.header.text ++ '\n' :: rest)) =
      .ok (new f.name f.params f.result (Text.trimEnd (squeezeBlock rest))) := by
  have hsolid : Solid f.header.text := Header.solid_text hname hresult hparams
  have hparse : Header.parse? f.header.text = some f.header :=
    Header.parse?_text hname hresult hparams
  -- the header is cut off at the end of its line, or is all that there is
  have hcut :
      (Text.cutAt? '\n' (Text.trim (squeezeBlock (' ' :: f.header.text ++ '\n' :: rest)))).getD
          (Text.trim (squeezeBlock (' ' :: f.header.text ++ '\n' :: rest)), []) =
        (f.header.text, Text.trimEnd (squeezeBlock rest)) := by
    have hnone : Text.cutAt? '\n' f.header.text = none := Text.cutAt?_eq_none.2 hnewline
    rw [squeezeBlock, Layout.squeezedLines_opening hsolid hnewline, squeezeBlock]
    cases squeezedLines rest with
    | nil =>
      have hjoined : joined '\n' [f.header.text] = f.header.text := by
        simp [joined, List.intercalate]
      rw [hjoined, hsolid.trimmed.trim_eq, hnone]
      rfl
    | cons l more =>
      rw [Text.joined_cons_cons, Text.trim_append_trimmed hsolid.ne_nil hsolid.trimmed]
      rcases Text.trimEnd_cons_cases '\n' (joined '\n' (l :: more)) with heq | ⟨heq, hblank⟩
      · rw [heq, Text.cutAt?_append hnewline]
        rfl
      · rw [heq, hblank, List.append_nil, hnone]
        rfl
  rw [parse, hcut]
  simp only [hparse]
  rfl

end Syntax
end ScriptMinifier
