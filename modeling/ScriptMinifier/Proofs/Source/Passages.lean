import ScriptMinifier.Proofs.Source.Lexing
import ScriptMinifier.Source.Blocks

/-! Regions are the passages of the cut.

The regions of a script group its lexemes; the cut of a script speaks of characters and of
where words stand. A word that stands in the code of some lexemes is one of them
(`Lexed.mem_of_standsIn`), and neighbouring lexemes are apart (`Lexed.apart`), so the blocks
among the regions are exactly the passages of the cut (`cut_regions`), provided the script
does not end inside a block that must be closed. -/
namespace ScriptMinifier.Source

open Text (isWordChar mark StartsNoWord not_isWordChar_of_isOtherChar)

/-! ### Standing apart -/

theorem Apart.startsNoWord {a b : Annotated} (h : Apart a b) {c : Char}
    (hc : c ∈ (coded a).getLast?) (hword : isWordChar c = true) : StartsNoWord (coded b) := by
  intro d rest hd
  exact h c hc d (by rw [hd]; rfl) hword

theorem apart_of_startsNoWord {a b : Annotated} (h : StartsNoWord (coded b)) : Apart a b := by
  intro c _ d hd _
  obtain ⟨rest, hrest⟩ := List.head?_eq_some_iff.1 hd
  exact h d rest hrest

/-- A word that stands in the code is one of its words. -/
theorem StandsIn.mem_words {w : Text} {s : Annotated} (h : StandsIn w s) (hne : w ≠ [])
    (hword : ∀ c ∈ w, isWordChar c = true) (hmark : mark ∉ coded s) : w ∈ Text.words (coded s) := by
  obtain ⟨before, after, rfl, hbefore, hafter⟩ := h
  rw [coded_append, coded_append, coded_plain, List.append_assoc] at hmark ⊢
  have hlast : StartsNoWord (coded after) := by
    refine hafter.startsNoWord (c := w.getLast hne) ?_ (hword _ (List.getLast_mem hne))
    rw [coded_plain]
    exact List.getLast?_eq_some_getLast hne
  have hcut : ∀ c ∈ (coded before).getLast?, isWordChar c = true →
      StartsNoWord (w ++ coded after) := by
    intro c hc hcw
    have := hbefore.startsNoWord hc hcw
    rw [coded_plain] at this
    exact this.append hne _
  rw [Text.words_append (fun hm => hmark (List.mem_append_left _ hm)) hcut,
    Text.words_word hne hword hlast]
  exact List.mem_append_right _ List.mem_cons_self

/-! ### Lexemes stand apart -/

theorem annotated_ne_nil {kind : Enclosure} {t : Text} (hne : t ≠ []) : kind.annotated t ≠ [] := by
  obtain ⟨c, rest, rfl⟩ := List.exists_cons_of_ne_nil hne
  simp [Enclosure.annotated]

namespace Lexed

variable {ls ls' : List Lexeme}

theorem eq_nil_of_annotatedAll (h : Lexed ls) (hnil : annotatedAll ls = []) : ls = [] := by
  cases h with
  | nil => rfl
  | word hne => simp [Lexeme.annotated, plain, hne] at hnil
  | char => simp [Lexeme.annotated, plain] at hnil
  | enclosed hne => simp [Lexeme.annotated, annotated_ne_nil hne] at hnil
  | unclosed hne => simp [Lexeme.annotated, annotated_ne_nil hne] at hnil

theorem mark_not_mem (h : Lexed ls) : mark ∉ coded (annotatedAll ls) := by
  intro hm
  rcases h.mem_coded hm with hblank | hword | ⟨-, hother⟩
  · exact absurd hblank (by decide)
  · exact absurd hword (by decide)
  · exact absurd hother (by decide)

/-- A word that stands in the code of lexemes is one of them. -/
theorem mem_of_standsIn (h : Lexed ls) {w : Text} (hne : w ≠ [])
    (hword : ∀ c ∈ w, isWordChar c = true) (hw : StandsIn w (annotatedAll ls)) : .word w ∈ ls :=
  h.word_mem (hw.mem_words hne hword h.mark_not_mem)

theorem newline_mem_of_standsIn (h : Lexed ls) (hn : StandsIn ['\n'] (annotatedAll ls)) :
    .char '\n' ∈ ls := by
  obtain ⟨before, after, hs, -⟩ := hn
  have hmem : '\n' ∈ coded (annotatedAll ls) := by
    rw [hs]
    simp
  rcases h.mem_coded hmem with hblank | hword | ⟨hchar, -⟩
  · exact absurd hblank (by decide)
  · exact absurd hword (by decide)
  · exact hchar

/-- No word reaches from one lexeme into the next. -/
theorem apart_cons {l : Lexeme} (h : Lexed (l :: ls)) : Apart l.annotated (annotatedAll ls) := by
  cases h with
  | word _ _ hnext rest => exact apart_of_startsNoWord (rest.startsNoWord hnext)
  | @char c _ hc =>
    intro d hd _ _ hword
    have hcd : c = d := by simpa [coded, Lexeme.annotated, plain, Role.visible] using hd
    rw [← hcd, not_isWordChar_of_isOtherChar hc] at hword
    cases hword
  | enclosed =>
    intro d hd _ _ hword
    rw [mem_coded_enclosure (List.mem_of_getLast? hd)] at hword
    exact absurd hword (by decide)
  | unclosed =>
    intro d hd _ _ hword
    rw [mem_coded_enclosure (List.mem_of_getLast? hd)] at hword
    exact absurd hword (by decide)

/-- No word reaches across a place between lexemes. -/
theorem apart (h : Lexed (ls ++ ls')) : Apart (annotatedAll ls) (annotatedAll ls') := by
  induction ls with
  | nil => nofun
  | cons l rest ih =>
    by_cases hrest : rest = []
    · rw [hrest, annotatedAll_cons, annotatedAll_nil, List.append_nil]
      rw [hrest] at h
      exact h.apart_cons
    · have hne : coded (annotatedAll rest) ≠ [] := fun hnil =>
        hrest (h.tail.left.eq_nil_of_annotatedAll (List.map_eq_nil_iff.1 hnil))
      intro c hc
      refine ih h.tail c ?_
      rw [annotatedAll_cons, coded_append, List.getLast?_append,
        List.getLast?_eq_some_getLast hne] at hc
      rw [List.getLast?_eq_some_getLast hne]
      exact hc

end Lexed

/-! ### From regions to passages -/

/-- The passage that a region is. -/
def Region.passage? : Region → Option (BlockKind × Annotated)
  | outside _ => none
  | block kind body _ => some (kind, annotatedAll body)

/-- The lexeme that closes a block is what ends it. -/
theorem annotated_closing (kind : BlockKind) : kind.closing.annotated = plain kind.ending := by
  cases kind <;> rfl

theorem opened?_keyword (kind : BlockKind) :
    BlockKind.opened? (.word kind.keyword) = some kind := by
  cases kind <;> decide

/-- Among lexemes that open no block no opening word stands. -/
theorem not_standsIn_keyword {ls : List Lexeme} (h : Lexed ls)
    (hopen : ∀ l ∈ ls, BlockKind.opened? l = none)
    (kind : BlockKind) : ¬ StandsIn kind.keyword (annotatedAll ls) := by
  intro hs
  have hmem := h.mem_of_standsIn (keyword_ne_nil kind) isWordChar_of_mem_keyword hs
  have := hopen _ hmem
  rw [opened?_keyword] at this
  cases this

theorem closing_mem_of_standsIn {ls : List Lexeme} (h : Lexed ls) {kind : BlockKind}
    (hs : StandsIn kind.ending (annotatedAll ls)) : kind.closing ∈ ls := by
  cases kind with
  | globals => exact h.mem_of_standsIn (by decide) (List.all_eq_true.1 (by decide)) hs
  | function => exact h.mem_of_standsIn (by decide) (List.all_eq_true.1 (by decide)) hs
  | native => exact h.newline_mem_of_standsIn hs

theorem closing_not_mem_bodyOf (kind : BlockKind) (ls : List Lexeme) :
    kind.closing ∉ bodyOf kind ls := by
  intro hm
  have := List.all_eq_true.1 List.all_takeWhile _ hm
  simp at this

/-- Only the last region of a script can be left open. -/
theorem regions_openPart {r : Region} {rs : List Region}
    (h : ∀ last ∈ (r :: rs).getLast?, last.openPart? = none) :
    ∀ last ∈ rs.getLast?, last.openPart? = none := by
  intro last hlast
  apply h last
  rw [List.getLast?_cons, Option.mem_def.1 hlast]
  rfl

/-- An opening word among lexemes stands whole. -/
theorem whole_keyword {pre rest : List Lexeme} {kind : BlockKind}
    (h : Lexed (pre ++ .word kind.keyword :: rest)) :
    Whole (annotatedAll pre) kind.keyword (annotatedAll rest) := by
  constructor
  · have := h.apart
    rw [annotatedAll_cons] at this
    exact this.of_append_right
  · rw [show pre ++ .word kind.keyword :: rest = (pre ++ [.word kind.keyword]) ++ rest by simp] at h
    have := h.apart
    rw [annotatedAll_append] at this
    simpa [Lexeme.annotated] using this.of_append_left

theorem whole_ending {body tail : List Lexeme} {kind : BlockKind}
    (h : Lexed (body ++ kind.closing :: tail)) :
    Whole (annotatedAll body) kind.ending (annotatedAll tail) := by
  constructor
  · have := h.apart
    rw [annotatedAll_cons, annotated_closing] at this
    exact this.of_append_right
  · rw [← annotated_closing]
    exact h.right.apart_cons

theorem cut_closed {pre rest body tail : List Lexeme} {kind : BlockKind}
    {passages : List (BlockKind × Annotated)} (hrest : body ++ kind.closing :: tail = rest)
    (h : Lexed (pre ++ .word kind.keyword :: rest)) (hpre : ∀ l ∈ pre, BlockKind.opened? l = none)
    (hbody : kind.closing ∉ body) (hcut : Cut (annotatedAll tail) passages) :
    Cut (annotatedAll (pre ++ .word kind.keyword :: rest))
    ((kind, annotatedAll body) :: passages) := by
  have hinside :
      annotatedAll rest = annotatedAll body ++ plain kind.ending ++ annotatedAll tail := by
    simp [← hrest, annotated_closing]
  have hall : annotatedAll (pre ++ .word kind.keyword :: rest) =
      annotatedAll pre ++ plain kind.keyword ++
        (annotatedAll body ++ plain kind.ending ++ annotatedAll tail) := by
    rw [annotatedAll_append, annotatedAll_cons, hinside, ← List.append_assoc]
    rfl
  have hopen := whole_keyword h
  have hlexed : Lexed (body ++ kind.closing :: tail) := by
    rw [hrest]
    exact h.right.tail
  rw [hinside] at hopen
  rw [hall]
  exact .block (not_standsIn_keyword h.left hpre) hopen
    (fun hs => hbody (closing_mem_of_standsIn hlexed.left hs)) (whole_ending hlexed) hcut

theorem cut_native {pre body : List Lexeme}
    (h : Lexed (pre ++ .word BlockKind.native.keyword :: body))
    (hpre : ∀ l ∈ pre, BlockKind.opened? l = none) (hbody : BlockKind.native.closing ∉ body) :
    Cut (annotatedAll (pre ++ .word BlockKind.native.keyword :: body))
    [(.native, annotatedAll body)] := by
  have hall : annotatedAll (pre ++ .word BlockKind.native.keyword :: body) =
      annotatedAll pre ++ plain BlockKind.native.keyword ++ annotatedAll body := by
    rw [annotatedAll_append, annotatedAll_cons, ← List.append_assoc]
    rfl
  rw [hall]
  exact .lastNative (not_standsIn_keyword h.left hpre) (whole_keyword h)
    fun hs => hbody (closing_mem_of_standsIn h.right.tail hs)

/-- The blocks among the regions are the passages of the cut. -/
theorem cut_regions {pre ls : List Lexeme} (h : Lexed (pre ++ ls))
    (hpre : ∀ l ∈ pre, BlockKind.opened? l = none)
    (hend : ∀ last ∈ (regions ls).getLast?, last.openPart? = none) :
    Cut (annotatedAll (pre ++ ls)) ((regions ls).filterMap Region.passage?) := by
  -- `pre` collects what stands before the next opening word
  fun_induction regions ls generalizing pre with
  | case1 =>
    rw [List.append_nil] at h ⊢
    exact .outside (not_standsIn_keyword h hpre)
  | case2 l rest hopen ih =>
    have hsplit : pre ++ l :: rest = (pre ++ [l]) ++ rest := by simp
    rw [hsplit] at h ⊢
    refine ih h ?_ (regions_openPart hend)
    intro l' hl'
    rcases List.mem_append.1 hl' with hl' | hl'
    · exact hpre l' hl'
    · rw [List.mem_singleton.1 hl']
      exact hopen
  | case3 l rest kind hopen ih =>
    rw [BlockKind.opened?_eq_some hopen] at h ⊢
    have hbody := closing_not_mem_bodyOf kind rest
    have hrest := bodyOf_append_tailOf kind rest
    have htail := tailOf_eq kind rest
    by_cases hclosed : tailOf kind rest = []
    · -- the script ends inside the block, which is then a native declaration
      have hregions : regions ((tailOf kind rest).drop 1) = [] := by
        rw [hclosed, List.drop_nil, regions]
      have hlast := hend _ (by rw [hregions]; rfl)
      rw [hregions]
      rw [hclosed, List.append_nil] at hrest
      rw [hclosed] at hlast
      cases kind with
      | globals => cases hlast
      | function => cases hlast
      | native =>
        rw [hrest] at hbody
        show Cut _ [(.native, annotatedAll (bodyOf .native rest))]
        rw [hrest]
        exact cut_native h hpre hbody
    · have hne : (tailOf kind rest != []) = true := by simpa using hclosed
      rw [hne, if_pos rfl, List.singleton_append] at htail
      rw [htail] at hrest
      have hafter : Lexed ([] ++ (tailOf kind rest).drop 1) := by
        rw [← hrest] at h
        exact h.right.tail.right.tail
      exact cut_closed hrest h hpre hbody (ih hafter (by simp) (regions_openPart hend))

end ScriptMinifier.Source
