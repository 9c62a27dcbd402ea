import ScriptMinifier.Proofs.Literal.Sealed

/-! Lines put together and taken apart.

Cutting a text at a character is the library's `splitOn` (`pieces_eq_splitOn`), so pieces that
lack the character come back from the text they make up. A text whose lines are all ended is
`ended`; collapsing its newlines drops the empty lines and nothing else
(`collapseNewlines_ended`). A text is trimmed just when it is `Trimmed`, with no blank at
either end. -/
namespace ScriptMinifier.Text

/-! ### Pieces -/

theorem pieces_eq_splitOn (sep : Char) (t : Text) : pieces sep t = t.splitOn sep := by
  induction t with
  | nil => exact (List.splitOn_nil sep).symm
  | cons c rest ih =>
    have hextend : ∀ ts : List Text, ts ≠ [] → extendFirst c ts = ts.modifyHead (c :: ·) := by
      intro ts hts
      cases ts with
      | nil => exact absurd rfl hts
      | cons piece more => rfl
    rw [pieces, List.splitOn, List.splitOnP_cons_eq_if_modifyHead, ← List.splitOn, ← ih]
    by_cases hc : c = sep
    · rw [if_pos hc, if_pos (beq_iff_eq.2 hc)]
    · rw [if_neg hc, if_neg (by simpa using hc), hextend _ (pieces_ne_nil sep rest)]

theorem pieces_of_not_mem {sep : Char} {t : Text} (h : sep ∉ t) : pieces sep t = [t] := by
  rw [pieces_eq_splitOn, List.splitOn, List.splitOnP_eq_singleton]
  intro c hc
  rw [beq_eq_false_iff_ne]
  rintro rfl
  exact h hc

theorem pieces_append_cons (sep : Char) (s t : Text) :
    pieces sep (s ++ sep :: t) = pieces sep s ++ pieces sep t := by
  simp only [pieces_eq_splitOn, List.splitOn]
  exact List.splitOnP_append_cons s t (beq_self_eq_true sep)

theorem pieces_joined {sep : Char} {ts : List Text} (hne : ts ≠ []) (h : ∀ t ∈ ts, sep ∉ t) :
    pieces sep (joined sep ts) = ts := by
  rw [pieces_eq_splitOn, joined]
  exact List.splitOn_intercalate sep h hne

theorem not_mem_of_mem_pieces {sep : Char} {t piece : Text} (h : piece ∈ pieces sep t) :
    sep ∉ piece := by
  induction t generalizing piece with
  | nil =>
    rw [pieces, List.mem_singleton] at h
    rw [h]
    exact List.not_mem_nil
  | cons c rest ih =>
    obtain ⟨first, more, hpieces⟩ := List.exists_cons_of_ne_nil (pieces_ne_nil sep rest)
    rw [pieces, hpieces] at h
    rw [hpieces] at ih
    split at h
    · rcases List.mem_cons.1 h with rfl | h
      · exact List.not_mem_nil
      · exact ih h
    · rename_i hc
      rcases List.mem_cons.1 h with rfl | h
      · rw [List.mem_cons, not_or]
        exact ⟨Ne.symm hc, ih List.mem_cons_self⟩
      · exact ih (List.mem_cons_of_mem _ h)

/-- Two texts side by side share one piece, the last of the one and the first of the other. -/
theorem pieces_append (sep : Char) (s t : Text) :
    ∃ init last first rest, pieces sep s = init ++ [last] ∧ pieces sep t = first :: rest ∧
      pieces sep (s ++ t) = init ++ (last ++ first) :: rest := by
  obtain ⟨first, rest, ht⟩ := List.exists_cons_of_ne_nil (pieces_ne_nil sep t)
  induction s with
  | nil => exact ⟨[], [], first, rest, rfl, ht, ht⟩
  | cons c s ih =>
    obtain ⟨init, last, first', rest', hs, ht', happend⟩ := ih
    rw [List.cons_append, pieces, pieces, hs, happend]
    split
    · exact ⟨[] :: init, last, first', rest', rfl, ht', rfl⟩
    · cases init with
      | nil => exact ⟨[], c :: last, first', rest', rfl, ht', rfl⟩
      | cons piece more => exact ⟨(c :: piece) :: more, last, first', rest', rfl, ht', rfl⟩

/-- A line of a text, and the newlines around it. -/
theorem exists_of_mem_pieces {c : Char} {t line : Text} (h : line ∈ pieces c t) :
    ∃ before after, t = before ++ line ++ after ∧ (∀ d ∈ before.getLast?, d = c) ∧
    ∀ d ∈ after.head?, d = c := by
  obtain ⟨front, back, hpieces⟩ := List.append_of_mem h
  have hjoined := joined_pieces c t
  rw [hpieces] at hjoined
  have hend : ∀ d ∈ (none : Option Char), d = c := fun d hd => by cases hd
  have hback : ∃ after, joined c (line :: back) = line ++ after ∧ ∀ d ∈ after.head?, d = c := by
    cases back with
    | nil => exact ⟨[], by simp [joined, List.intercalate], hend⟩
    | cons second more =>
      refine ⟨_, joined_cons_cons .., ?_⟩
      intro d hd
      exact (Option.some.inj hd).symm
  have hfront : ∃ before, joined c (front ++ line :: back) = before ++ joined c (line :: back) ∧
      ∀ d ∈ before.getLast?, d = c := by
    clear hpieces hjoined
    induction front with
    | nil => exact ⟨[], rfl, hend⟩
    | cons first rest ih =>
      obtain ⟨before, heq, hlast⟩ := ih
      obtain ⟨second, more, hcons⟩ :=
        List.exists_cons_of_ne_nil (show rest ++ line :: back ≠ [] by simp)
      refine ⟨first ++ c :: before, ?_, ?_⟩
      · rw [List.cons_append, hcons, joined_cons_cons, ← hcons, heq]
        simp
      · intro d hd
        rw [List.getLast?_append, List.getLast?_cons] at hd
        cases hb : before.getLast? with
        | none =>
          rw [hb] at hd
          exact (Option.some.inj hd).symm
        | some e =>
          rw [hb] at hd
          rw [← Option.some.inj hd]
          exact hlast e hb
  obtain ⟨after, hafter, hhead⟩ := hback
  obtain ⟨before, hbefore, hlast⟩ := hfront
  refine ⟨before, after, ?_, hlast, hhead⟩
  rw [← hjoined, hbefore, hafter, List.append_assoc]

/-- What stands in a line stands in the text. -/
theorem mem_of_mem_pieces {sep c : Char} {t line : Text} (hline : line ∈ pieces sep t)
    (hc : c ∈ line) : c ∈ t := by
  obtain ⟨before, after, rfl, -, -⟩ := exists_of_mem_pieces hline
  exact List.mem_append_left _ (List.mem_append_right _ hc)

/-- A character that is not cut at, within its piece. -/
theorem exists_piece_around (sep : Char) {c : Char} (hc : c ≠ sep) (s t : Text) :
    ∃ front back, front <:+ s ∧ back <+: t ∧ front ++ c :: back ∈ pieces sep (s ++ c :: t) := by
  obtain ⟨init, last, first, rest, hs, ht, hboth⟩ := pieces_append sep s (c :: t)
  obtain ⟨back, more, hback⟩ := List.exists_cons_of_ne_nil (pieces_ne_nil sep t)
  rw [pieces, if_neg hc, hback] at ht
  obtain ⟨rfl, -⟩ := List.cons.inj ht
  refine ⟨last, back, ?_, ?_, hboth ▸ by simp⟩
  · rw [← joined_pieces sep s, hs]
    clear hs hboth
    induction init with
    | nil => simp [joined, List.intercalate]
    | cons piece init ih =>
      obtain ⟨second, others, hcons⟩ :=
        List.exists_cons_of_ne_nil (show init ++ [last] ≠ [] by simp)
      rw [List.cons_append, hcons, joined_cons_cons, ← hcons]
      exact ih.trans ((List.suffix_cons _ _).trans (List.suffix_append _ _))
  · rw [← joined_pieces sep t, hback]
    cases more with
    | nil => simp [joined, List.intercalate]
    | cons second others =>
      rw [joined_cons_cons]
      exact List.prefix_append _ _

/-- A character that is not cut at stands in a piece. -/
theorem exists_piece_of_mem {sep c : Char} {t : Text} (hc : c ≠ sep) (h : c ∈ t) :
    ∃ piece ∈ pieces sep t, c ∈ piece := by
  obtain ⟨s, u, rfl⟩ := List.append_of_mem h
  obtain ⟨front, back, -, -, hpiece⟩ := exists_piece_around sep hc s u
  exact ⟨_, hpiece, by simp⟩

/-! ### Trimming -/

/-- No blank stands at either end of a text. -/
structure Trimmed (t : Text) : Prop where
  head : ∀ c ∈ t.head?, isBlank c = false
  last : ∀ c ∈ t.getLast?, isBlank c = false

theorem not_isBlank_of_head_trimStart {t : Text} {c : Char} (h : c ∈ (trimStart t).head?) :
    isBlank c = false :=
  head?_dropWhile t c h

theorem not_isBlank_of_getLast_trimEnd {t : Text} {c : Char} (h : c ∈ (trimEnd t).getLast?) :
    isBlank c = false := by
  rw [trimEnd, List.getLast?_reverse] at h
  exact head?_dropWhile t.reverse c h

theorem trimmed_trim (t : Text) : Trimmed (trim t) := by
  refine ⟨fun c hc => ?_, fun c hc => not_isBlank_of_getLast_trimEnd hc⟩
  obtain ⟨blanks, hsplit, -⟩ := exists_trimEnd (trimStart t)
  apply not_isBlank_of_head_trimStart (t := t)
  rw [hsplit, List.head?_append, ← trim, Option.mem_def.1 hc]
  rfl

/-- What trimming cuts off is blank. -/
theorem exists_trim (t : Text) : ∃ lead trail, t = lead ++ trim t ++ trail ∧
    (∀ c ∈ lead, isBlank c = true) ∧ ∀ c ∈ trail, isBlank c = true := by
  obtain ⟨trail, hsplit, htrail⟩ := exists_trimEnd (trimStart t)
  refine ⟨t.takeWhile isBlank, trail, ?_,
    fun c hc => List.all_eq_true.1 List.all_takeWhile c hc, htrail⟩
  rw [List.append_assoc, trim, ← hsplit, trimStart, List.takeWhile_append_dropWhile]

theorem mem_trim {c : Char} (hc : isBlank c = false) {t : Text} (h : c ∈ t) : c ∈ trim t := by
  obtain ⟨lead, trail, hsplit, hlead, htrail⟩ := exists_trim t
  rw [hsplit, List.mem_append, List.mem_append] at h
  rcases h with (hmem | hmem) | hmem
  · rw [hlead c hmem] at hc
    cases hc
  · exact hmem
  · rw [htrail c hmem] at hc
    cases hc

theorem trim_append {lead trail : Text} (hlead : ∀ c ∈ lead, isBlank c = true)
    (htrail : ∀ c ∈ trail, isBlank c = true) (t : Text) : trim (lead ++ t ++ trail) = trim t := by
  have hend : ∀ u : Text, trimEnd (u ++ trail) = trimEnd u := by
    intro u
    rw [trimEnd, List.reverse_append,
      List.dropWhile_append_of_pos fun c hc => htrail c (List.mem_reverse.1 hc), trimEnd]
  rw [List.append_assoc, trim, trimStart, List.dropWhile_append_of_pos hlead]
  by_cases hblank : ∀ c ∈ t, isBlank c = true
  · -- blank all through
    have hnil : ∀ {u : Text}, (∀ c ∈ u, isBlank c = true) → u.dropWhile isBlank = [] := by
      intro u hu
      have hdrop : (u ++ []).dropWhile isBlank = [] := List.dropWhile_append_of_pos hu
      rwa [List.append_nil] at hdrop
    rw [List.dropWhile_append_of_pos hblank, hnil htrail, trim, trimStart, hnil hblank]
  · have hdrop : t.dropWhile isBlank ≠ [] := by
      intro hnil
      refine hblank fun c hc => ?_
      rw [← List.takeWhile_append_dropWhile (p := isBlank) (l := t), hnil, List.append_nil] at hc
      exact List.all_eq_true.1 List.all_takeWhile c hc
    rw [List.dropWhile_append, if_neg (by simpa using hdrop), hend]
    rfl

theorem trim_sublist (t : Text) : (trim t).Sublist t := by
  obtain ⟨lead, trail, hsplit, -⟩ := exists_trim t
  have hpart : trim t <:+: t := ⟨lead, trail, hsplit.symm⟩
  exact hpart.sublist

theorem trim_blank {c : Char} (hc : isBlank c = true) (t : Text) : trim (c :: t) = trim t := by
  rw [trim, trimStart, List.dropWhile_cons_of_pos hc, trim, trimStart]

theorem Trimmed.trimStart_eq {t : Text} (h : Trimmed t) : trimStart t = t := by
  cases t with
  | nil => rfl
  | cons c rest => exact List.dropWhile_cons_of_neg (by simp [h.head c rfl])

theorem Trimmed.trim_eq {t : Text} (h : Trimmed t) : trim t = t := by
  rw [trim, h.trimStart_eq]
  rcases List.eq_nil_or_concat' t with rfl | ⟨init, c, rfl⟩
  · rfl
  · have hc : isBlank c = false := h.last c (by simp)
    have := trimEnd_append (s := init) hc []
    rwa [List.append_nil, show trimEnd [] = [] from rfl, List.append_nil] at this

/-! ### Lines -/

theorem dropReturn_of_not_mem {t : Text} (h : '\r' ∉ t) : dropReturn t = t := by
  rw [dropReturn, dropEnd?, if_neg, Option.getD_none]
  intro hsuffix
  exact h ((List.isSuffixOf_iff_suffix.1 hsuffix).subset (by simp))

/-- What a line loses is the carriage return at its end. -/
theorem dropReturn_cases (t : Text) : dropReturn t = t ∨ t = dropReturn t ++ ['\r'] := by
  rw [dropReturn, dropEnd?]
  split
  · rename_i hsuffix
    obtain ⟨front, rfl⟩ := List.isSuffixOf_iff_suffix.1 hsuffix
    exact .inr (by simp)
  · exact .inl rfl

/-- A piece that is not empty is a line, up to a carriage return. -/
theorem exists_mem_lines {t line : Text} (h : line ∈ pieces '\n' t) (hne : line ≠ []) :
    ∃ line' ∈ lines t, line' = line ∨ line' = dropReturn line := by
  obtain ⟨front, last, hpieces⟩ :=
    List.eq_nil_or_concat' (pieces '\n' t) |>.resolve_left (pieces_ne_nil '\n' t)
  simp only [lines, hpieces, List.dropLast_concat, List.getLast?_concat]
  rw [hpieces, List.mem_append, List.mem_singleton] at h
  rcases h with hfront | rfl
  · exact ⟨dropReturn line, List.mem_append_left _ (List.mem_map_of_mem hfront), .inr rfl⟩
  · exact ⟨line, List.mem_append_right _ (by simpa using hne), .inl rfl⟩

/-- A line is a piece, up to a carriage return. -/
theorem exists_piece_of_mem_lines {t line : Text} (h : line ∈ lines t) :
    ∃ piece ∈ pieces '\n' t, line = piece ∨ line = dropReturn piece := by
  rcases List.mem_append.1 h with h | h
  · obtain ⟨piece, hpiece, rfl⟩ := List.mem_map.1 h
    exact ⟨piece, List.dropLast_subset _ hpiece, .inr rfl⟩
  · have hlast := (List.mem_filter.1 h).1
    rw [Option.mem_toList] at hlast
    exact ⟨line, List.mem_of_getLast? hlast, .inl rfl⟩

theorem newline_not_mem_lines {t line : Text} (h : line ∈ lines t) : '\n' ∉ line := by
  obtain ⟨piece, hpiece, heq⟩ := exists_piece_of_mem_lines h
  have hnone := not_mem_of_mem_pieces hpiece
  rcases heq with rfl | rfl
  · exact hnone
  · rcases dropReturn_cases piece with heq | heq
    · rwa [heq]
    · rw [heq] at hnone
      exact fun hmem => hnone (List.mem_append_left _ hmem)

/-- Lines joined are read back. -/
theorem lines_joined {ls : List Text} (hne : ∀ l ∈ ls, l ≠ []) (hnewline : ∀ l ∈ ls, '\n' ∉ l)
    (hreturn : ∀ l ∈ ls, '\r' ∉ l) : lines (joined '\n' ls) = ls := by
  rcases List.eq_nil_or_concat' ls with rfl | ⟨init, last, rfl⟩
  · rfl
  · have hpieces : pieces '\n' (joined '\n' (init ++ [last])) = init ++ [last] :=
      pieces_joined (by simp) hnewline
    have hinit : init.map dropReturn = init := by
      conv => rhs; rw [← List.map_id init]
      exact List.map_congr_left fun l hl => dropReturn_of_not_mem
        (hreturn l (List.mem_append_left _ hl))
    have hlast : last ≠ [] := hne last (by simp)
    simp only [lines, hpieces]
    simp [hinit, hlast]

/-! ### Ended lines -/

/-- Lines with a newline after each. -/
def ended (ls : List Text) : Text := ls.flatMap (· ++ ['\n'])

@[simp] theorem ended_nil : ended [] = [] := rfl

@[simp] theorem ended_cons (l : Text) (ls : List Text) :
    ended (l :: ls) = l ++ '\n' :: ended ls := by
  simp [ended]

@[simp] theorem ended_append (ls ls' : List Text) : ended (ls ++ ls') = ended ls ++ ended ls' :=
  List.flatMap_append

theorem ended_eq_joined {ls : List Text} (hne : ls ≠ []) : ended ls = joined '\n' ls ++ ['\n'] := by
  match ls with
  | [] => exact absurd rfl hne
  | [l] => simp [joined, List.intercalate]
  | l :: l' :: more =>
    have hmore : ended (l' :: more) = joined '\n' (l' :: more) ++ ['\n'] :=
      ended_eq_joined (by simp)
    rw [ended_cons, joined_cons_cons, hmore]
    simp

theorem pieces_ended {ls : List Text} (h : ∀ l ∈ ls, '\n' ∉ l) (t : Text) :
    pieces '\n' (ended ls ++ t) = ls ++ pieces '\n' t := by
  induction ls with
  | nil => rfl
  | cons l rest ih =>
    rw [List.forall_mem_cons] at h
    rw [ended_cons, List.append_assoc, List.cons_append, pieces_append_cons, pieces_of_not_mem h.1,
      ih h.2]
    rfl

theorem mem_ended {ls : List Text} {c : Char} (h : c ∈ ended ls) : c = '\n' ∨ ∃ l ∈ ls, c ∈ l := by
  obtain ⟨l, hl, hc⟩ := List.mem_flatMap.1 h
  rcases List.mem_append.1 hc with hc | hc
  · exact .inr ⟨l, hl, hc⟩
  · exact .inl (List.mem_singleton.1 hc)

open Layout (dropEmptyLines collapseNewlines)

theorem collapseNewlines_ended {ls : List Text} (h : ∀ l ∈ ls, '\n' ∉ l) :
    collapseNewlines (ended ls) = ended (ls.filter (· ≠ [])) := by
  induction ls with
  | nil => rfl
  | cons l rest ih =>
    rw [List.forall_mem_cons] at h
    by_cases hl : l = []
    · rw [hl, List.filter_cons_of_neg (by simp), ← ih h.2]
      rfl
    · rw [List.filter_cons_of_pos (by simpa using hl), ended_cons, ended_cons, ← ih h.2,
        collapseNewlines, Sealed.dropEmptyLines_append hl h.1]
      rfl

end ScriptMinifier.Text
