import ScriptMinifier.Proofs.Literal.Restoring
import ScriptMinifier.Proofs.Naming.Replacements

/-! Names in literals.

A literal that names something does so by its first word, and renaming replaces that word and
nothing else of it (`exists_firstWord`). It looks at the literals that an idiom takes, each once
(`get?_renameLiterals`), and leaves all others as they are (`get?_renameLiterals_of_not_mem`). -/
namespace ScriptMinifier

open Naming (Pool newNames renamed renameLiterals namingLiterals replaceFirstWord)
open Text (mark isWordChar isOtherChar StartsNoWord segments words)
open Usage (literalName?)

/-! ### The first word -/

/-- A text with a first word `w`, between `before` and `after`. -/
structure FirstWord (before w after : Text) : Prop where
  ne_nil : w ≠ []
  word : ∀ c ∈ w, isWordChar c = true
  none_before : words before = []
  first : ∀ v : Text, v ≠ [] → (∀ c ∈ v, isWordChar c = true) →
    literalName? (before ++ (v ++ after)) = some v
  replaced : ∀ names : Text.Renaming,
    replaceFirstWord names (segments (before ++ (w ++ after))) =
      before ++ (renamed names w ++ after)

theorem words_segments_placeholder {inner : Text} (h : mark ∉ inner) (t : Text) :
    words (mark :: inner ++ [mark] ++ t) = words t := by
  rw [words, Text.segments_placeholder h]
  rfl

/-- A placeholder before a text that has a first word does not change what comes first. -/
theorem FirstWord.placeholder {before w after inner : Text} (hmark : mark ∉ inner)
    (h : FirstWord before w after) :
    FirstWord (mark :: inner ++ [mark] ++ before) w after where
  ne_nil := h.ne_nil
  word := h.word
  none_before := by rw [words_segments_placeholder hmark, h.none_before]
  first v hne hv := by
    rw [List.append_assoc, literalName?, words_segments_placeholder hmark]
    exact h.first v hne hv
  replaced names := by
    rw [List.append_assoc, Text.segments_placeholder hmark, replaceFirstWord, h.replaced names,
      ← List.append_assoc]
    · rfl
    · exact nofun

/-- Characters outside words before a text that has a first word do not change what comes first. -/
theorem FirstWord.others {before w after s : Text} (hs : ∀ c ∈ s, isOtherChar c = true)
    (hne : s ≠ [])
    (hstart : ∀ d ∈ (before ++ (w ++ after)).head?, isOtherChar d = false)
    (h : FirstWord before w after) :
    FirstWord (s ++ before) w after where
  ne_nil := h.ne_nil
  word := h.word
  none_before := by rw [Text.words_others hs, h.none_before]
  first v hne hv := by
    rw [List.append_assoc, literalName?, Text.words_others hs]
    exact h.first v hne hv
  replaced names := by
    rw [List.append_assoc, Text.segments_others hne hs hstart, replaceFirstWord, h.replaced names,
      ← List.append_assoc]
    · rfl
    · exact nofun

theorem firstWord_word {w after : Text} (hne : w ≠ []) (hw : ∀ c ∈ w, isWordChar c = true)
    (hafter : StartsNoWord after) :
    FirstWord [] w after where
  ne_nil := hne
  word := hw
  none_before := Text.words_nil
  first v hne hv := by
    rw [List.nil_append, literalName?, Text.words_word hne hv hafter]
    rfl
  replaced names := by
    rw [List.nil_append, Text.segments_word hne hw hafter, replaceFirstWord,
      Text.flatMap_text_segments]
    rfl

/-- A literal that names something has its name between two parts that stay. -/
theorem exists_firstWord {lit w : Text} (h : literalName? lit = some w) :
    ∃ before after, lit = before ++ (w ++ after) ∧ FirstWord before w after := by
  -- the cases are those of cutting the text into segments
  fun_induction segments lit with
  | case1 =>
    rw [literalName?, Text.words_nil] at h
    cases h
  | case2 rest ih =>
    rw [literalName?, words, segments, if_pos rfl] at h
    obtain ⟨before, after, hsplit, hfirst⟩ := ih h
    -- a word follows, so the placeholder is closed
    have hmem : mark ∈ rest := by
      by_contra hopen
      rw [Text.afterMark_of_not_mem hopen] at hsplit
      simp [hfirst.ne_nil] at hsplit
    obtain ⟨inner, more, rfl, hinner⟩ := List.eq_append_cons_of_mem hmem
    rw [Text.afterMark_append hinner] at hsplit
    refine ⟨mark :: inner ++ [mark] ++ before, after, ?_, hfirst.placeholder hinner⟩
    rw [hsplit]
    simp only [List.append_assoc, List.cons_append, List.nil_append]
  | case3 c rest hc hw ih =>
    obtain ⟨hsplit, hrun⟩ := Text.exists_run hw rest
    rw [literalName?, words, segments, if_neg hc, if_pos hw] at h
    obtain rfl : c :: rest.takeWhile isWordChar = w := Option.some.inj h
    exact ⟨[], _, hsplit, firstWord_word (List.cons_ne_nil _ _) hrun
      (Text.startsNoWord_dropWhile rest)⟩
  | case4 c rest hc hw ih =>
    have ho : isOtherChar c = true := by simp [isOtherChar, hw, hc]
    obtain ⟨hsplit, hrun⟩ := Text.exists_run ho rest
    rw [literalName?, words, segments, if_neg hc, if_neg hw] at h
    obtain ⟨before, after, hrest, hfirst⟩ := ih h
    refine ⟨c :: rest.takeWhile isOtherChar ++ before, after, ?_,
      hfirst.others hrun (List.cons_ne_nil _ _) ?_⟩
    · rw [hsplit, hrest, List.append_assoc]
    · rw [← hrest]
      exact Text.head?_dropWhile rest

/-! ### The table -/

namespace Naming

variable {names : Text.Renaming} {ids : List Nat} {ls : Literals} {n : Nat} {lit : Text}

theorem get?_set_of_ne {id : Nat} (h : n ≠ id) (raw : Text) : (ls.set id raw).get? n = ls.get? n :=
  List.getElem?_set_ne (Ne.symm h)

theorem get?_renameLiterals_of_not_mem (h : n ∉ ids) :
    (renameLiterals names ids ls).get? n = ls.get? n := by
  induction ids generalizing ls with
  | nil => rfl
  | cons id rest ih =>
    rw [List.mem_cons, not_or] at h
    rw [renameLiterals, List.foldl_cons]
    split
    · exact (ih h.2).trans (get?_set_of_ne h.1 _)
    · exact ih h.2

theorem get?_renameLiterals_of_none (h : ls.get? n = none) :
    (renameLiterals names ids ls).get? n = none := by
  induction ids generalizing ls with
  | nil => exact h
  | cons id rest ih =>
    rw [renameLiterals, List.foldl_cons]
    split
    · rename_i lit hlit
      have hne : n ≠ id := by
        rintro rfl
        rw [h] at hlit
        cases hlit
      exact ih ((get?_set_of_ne hne _).trans h)
    · exact ih h

/-- A literal among those that name something has its name replaced. -/
theorem get?_renameLiterals (hids : ids.Nodup) (hn : n ∈ ids) (hlit : ls.get? n = some lit) :
    (renameLiterals names ids ls).get? n = some (replaceFirstWord names (segments lit)) := by
  induction ids generalizing ls with
  | nil => cases hn
  | cons id rest ih =>
    rw [List.nodup_cons] at hids
    rw [renameLiterals, List.foldl_cons]
    by_cases hid : n = id
    · subst hid
      rw [hlit]
      refine (get?_renameLiterals_of_not_mem hids.1).trans ?_
      exact List.getElem?_set_self (Literals.lt_size_of_get? hlit)
    · have hrest := (List.mem_cons.1 hn).resolve_left hid
      split
      · exact ih hids.2 hrest ((get?_set_of_ne hid _).trans hlit)
      · exact ih hids.2 hrest hlit

theorem nodup_eraseDups (ids : List Nat) : ids.eraseDups.Nodup := by
  match ids with
  | [] => exact List.nodup_nil
  | id :: rest =>
    rw [List.eraseDups_cons, List.nodup_cons, List.mem_eraseDups]
    exact ⟨fun hmem => by simp at hmem, nodup_eraseDups _⟩
termination_by ids.length
decreasing_by exact Nat.lt_succ_of_le (List.length_filter_le _ rest)

theorem get?_renameGlobals_of_mem {p : Program} {pool : Pool} (hn : n ∈ namingLiterals p)
    (hlit : p.literals.get? n = some lit) :
    (renameGlobals p pool).program.literals.get? n = some
    (replaceFirstWord (newNames p pool) (segments lit)) :=
  get?_renameLiterals (nodup_eraseDups _) hn hlit

theorem get?_renameGlobals_of_not_mem {p : Program} {pool : Pool} (hn : n ∉ namingLiterals p) :
    (renameGlobals p pool).program.literals.get? n = p.literals.get? n :=
  get?_renameLiterals_of_not_mem hn

theorem mem_namingLiterals {p : Program} :
    n ∈ namingLiterals p ↔ ∃ f ∈ p.functions, ∃ idiom : Usage.Idiom, n ∈ idiom.ids f.body := by
  rw [namingLiterals, List.mem_eraseDups, List.mem_flatMap]
  refine exists_congr fun f => and_congr_right fun _ => ?_
  rw [List.mem_append]
  refine ⟨fun h => h.elim (⟨_, ·⟩) (⟨_, ·⟩), ?_⟩
  rintro ⟨idiom, h⟩
  cases idiom with
  | executeFunc => exact .inl h
  | variableEvent => exact .inr h

/-- A name in a literal, renamed, is a word. -/
theorem isWord_renamed (p : Program) (pool : Pool) {w : Text} (hne : w ≠ [])
    (hw : ∀ c ∈ w, isWordChar c = true) :
    renamed (newNames p pool) w ≠ [] ∧ ∀ c ∈ renamed (newNames p pool) w, isWordChar c = true := by
  rw [renamed]
  cases hfind : (newNames p pool).find? w with
  | none => exact ⟨hne, hw⟩
  | some new => exact givesWords_newNames p pool w new hfind

end Naming
end ScriptMinifier
