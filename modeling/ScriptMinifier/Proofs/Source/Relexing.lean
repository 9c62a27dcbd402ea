import ScriptMinifier.Proofs.Literal.Counting
import ScriptMinifier.Proofs.Literal.Renumbering
import ScriptMinifier.Proofs.Source.BlockTexts
import ScriptMinifier.Proofs.Source.ClosedBlocks

/-! Reading a text that is put back together.

A text that holds literals tells what lexemes it has once the literals are put back: words are
words, placeholders are literals, anything else is a character (`heldLexemes`). Reading the
restored text gives just these, as long as no quote and no comment sign stands in it
(`lexemes_restore`). A list of `Item`s, each a block in its enclosing words, is then read as the
blocks it was written from: their texts come back under a new numbering (`alike_textsOf`), and
the new table has no more literals than the text has placeholders (`size_collectAll`). -/
namespace ScriptMinifier.Source

open Text (Segment isQuote isWordChar isOtherChar mark StartsNoWord words)
open Literal (placeholder indexLimit)

/-! ### Lexemes of a text that holds literals -/

/-- The literal of a text with its quotes. -/
def Lexeme.ofLiteral (raw : Text) : Lexeme := .enclosed (.ofQuote (raw.headD '"')) raw

/-- The lexemes that a segment stands for. -/
def heldLexeme (ls : Literals) : Segment → List Lexeme
  | .word w => [.word w]
  | .placeholder t => ((ls.lookup? t).map Lexeme.ofLiteral).toList
  | .other t => t.flatMap fun c => [.char c]

/-- The lexemes of a text once its literals are put back. -/
def heldLexemes (ls : Literals) (t : Text) : List Lexeme :=
  (Text.segments t).flatMap (heldLexeme ls)

section Held

variable {ls : Literals} {n : Nat} {s t : Text}

theorem heldLexemes_nil : heldLexemes ls [] = [] := by simp [heldLexemes, Text.segments]

theorem heldLexemes_other {c : Char} (hc : isOtherChar c = true) (t : Text) :
    heldLexemes ls (c :: t) = .char c :: heldLexemes ls t :=
  Sealed.flatMap_segments_others (f := heldLexeme ls) (s := [c]) (fun _ => rfl)
    (List.forall_mem_singleton.2 hc) t

theorem heldLexemes_word {w : Text} (hne : w ≠ []) (hw : ∀ c ∈ w, isWordChar c = true)
    (ht : StartsNoWord t) :
    heldLexemes ls (w ++ t) = .word w :: heldLexemes ls t := by
  rw [heldLexemes, Text.segments_word hne hw ht]
  rfl

theorem heldLexemes_placeholder {k : Nat} {raw : Text} (hlimit : k < indexLimit)
    (hget : ls.get? k = some raw)
    (t : Text) : heldLexemes ls (placeholder k ++ t) = .ofLiteral raw :: heldLexemes ls t := by
  have hsegments :
      Text.segments (placeholder k ++ t) = .placeholder (placeholder k) :: Text.segments t :=
    Text.segments_placeholder (Literal.mark_not_mem_ofNat k) t
  have hfirst : heldLexeme ls (.placeholder (placeholder k)) = [.ofLiteral raw] := by
    rw [heldLexeme, Literals.lookup?, Literal.placeholderId?_placeholder hlimit, Option.bind_some,
      hget]
    rfl
  rw [heldLexemes, hsegments, List.flatMap_cons, hfirst]
  rfl

theorem heldLexemes_append (hs : Sealed n s)
    (hcut : ∀ c ∈ s.getLast?, isWordChar c = true → StartsNoWord t) :
    heldLexemes ls (s ++ t) = heldLexemes ls s ++ heldLexemes ls t :=
  hs.flatMap_segments_append (fun _ => rfl) hcut

/-- What a lexeme of a text that holds literals can be. -/
theorem mem_heldLexemes {l : Lexeme} (h : l ∈ heldLexemes ls t) :
    (∃ w ∈ words t, l = .word w) ∨ (∃ c ∈ t, l = .char c) ∨ ∃ raw, l = .ofLiteral raw := by
  obtain ⟨g, hg, hl⟩ := List.mem_flatMap.1 h
  cases g with
  | word u => exact .inl ⟨u, List.mem_filterMap.2 ⟨.word u, hg, rfl⟩, List.mem_singleton.1 hl⟩
  | placeholder u =>
    rw [heldLexeme, Option.mem_toList, Option.map_eq_some_iff] at hl
    obtain ⟨raw, -, hraw⟩ := hl
    exact .inr (.inr ⟨raw, hraw.symm⟩)
  | other u =>
    obtain ⟨c, hc, hlc⟩ := List.mem_flatMap.1 hl
    refine .inr (.inl ⟨c, ?_, List.mem_singleton.1 hlc⟩)
    rw [← Text.flatMap_text_segments t]
    exact List.mem_flatMap.2 ⟨.other u, hg, hc⟩

/-! ### Reading it -/

/-- No comment starts in a text. -/
def Uncommented (t : Text) : Prop := ¬ "//".toList <:+: t ∧ ¬ "/*".toList <:+: t

theorem Uncommented.of_part (h : Uncommented t) (hs : s <:+: t) : Uncommented s :=
  ⟨fun hpart => h.1 (hpart.trans hs), fun hpart => h.2 (hpart.trans hs)⟩

/-- What is restored starts with the same character, or with the quote of a literal. -/
theorem head?_restore {c : Char} (hlimit : ls.size ≤ indexLimit)
    (hclosed : ∀ raw ∈ ls.texts, ClosedLiteral raw)
    (h : Sealed ls.size t) (hc : c ∈ (ls.restore t).head?) : c ∈ t.head? ∨ isQuote c = true := by
  cases h with
  | nil =>
    rw [Literals.restore_nil] at hc
    cases hc
  | char hd _ =>
    rw [Literals.restore_cons hd] at hc
    exact .inl hc
  | @literal k t hk _ =>
    have hget : ls.get? k = some ls.texts[k] := List.getElem?_eq_getElem hk
    obtain ⟨quote, inside, hraw, hquote, -⟩ := hclosed _ (List.getElem_mem hk)
    rw [Literals.restore_placeholder (Nat.lt_of_lt_of_le hk hlimit) hget, hraw] at hc
    rw [← Option.mem_some_iff.1 hc]
    exact .inr hquote

theorem lexemes_other {c : Char} (hc : isOtherChar c = true) (hquote : isQuote c = false)
    (hline : ¬ (c = '/' ∧ t.head? = some '/')) (hblock : ¬ (c = '/' ∧ t.head? = some '*')) :
    lexemes (c :: t) = .char c :: lexemes t := by
  have hlexeme : lexeme c t = (.char c, t) := by
    rw [lexeme, if_neg hline, if_neg hblock, hquote, if_neg Bool.false_ne_true,
      Text.not_isWordChar_of_isOtherChar hc, if_neg Bool.false_ne_true]
  rw [lexemes, hlexeme]

theorem lexemes_word {w : Text} (hne : w ≠ []) (hw : ∀ c ∈ w, isWordChar c = true)
    (ht : StartsNoWord t) :
    lexemes (w ++ t) = .word w :: lexemes t := by
  obtain ⟨c, rest, rfl⟩ := List.exists_cons_of_ne_nil hne
  rw [List.forall_mem_cons] at hw
  have hslash : c ≠ '/' := by
    rintro rfl
    exact absurd hw.1 (by decide)
  have hlexeme : lexeme c (rest ++ t) = (.word (c :: rest), t) := by
    rw [lexeme, if_neg (fun h => hslash h.1), if_neg (fun h => hslash h.1),
      isQuote_of_isWordChar hw.1, if_neg Bool.false_ne_true, if_pos hw.1,
      Text.takeWhile_append_startsNoWord rest ht, Text.takeWhile_word hw.2,
      Text.dropWhile_append_of_startsNoWord hw.2 ht]
  rw [List.cons_append, lexemes, hlexeme]

theorem lexemes_literal {raw : Text} (h : ClosedLiteral raw) (t : Text) :
    lexemes (raw ++ t) = .ofLiteral raw :: lexemes t := by
  obtain ⟨quote, inside, rfl, hquote, hclose⟩ := h
  have hslash : quote ≠ '/' := by
    rintro rfl
    cases hquote
  have hlexeme : lexeme quote (inside ++ t) = (.ofLiteral (quote :: inside), t) := by
    rw [lexeme, if_neg (fun h => hslash h.1), if_neg (fun h => hslash h.1), if_pos hquote, literal,
      hclose]
    rfl
  rw [List.cons_append, lexemes, hlexeme]

/-- A restored text is read as the lexemes it was said to have. -/
theorem lexemes_restore (hlimit : ls.size ≤ indexLimit)
    (hclosed : ∀ raw ∈ ls.texts, ClosedLiteral raw)
    (h : Sealed ls.size t) (hquotes : ∀ c ∈ t, isQuote c = false) (hcomments : Uncommented t) :
    lexemes (ls.restore t) = heldLexemes ls t := by
  have hstarts : ∀ {u : Text}, Sealed ls.size u → StartsNoWord u → StartsNoWord (ls.restore u) := by
    intro u hu hword c rest hc
    rcases head?_restore hlimit hclosed hu (c := c) (by rw [hc]; rfl) with hhead | hquote
    · obtain ⟨more, rfl⟩ := List.head?_eq_some_iff.1 hhead
      exact hword c more rfl
    · rw [Bool.eq_false_iff]
      intro hw
      rw [isQuote_of_isWordChar hw] at hquote
      cases hquote
  refine Sealed.wordwise (motive := fun t => (∀ c ∈ t, isQuote c = false) → Uncommented t →
    lexemes (ls.restore t) = heldLexemes ls t) ?nil ?other ?word ?literal h hquotes hcomments
  case nil =>
    intro _ _
    rw [Literals.restore_nil, heldLexemes_nil, lexemes]
  case other =>
    intro c t hc ht ih hquotes hcomments
    rw [List.forall_mem_cons] at hquotes
    have hnext : ∀ d : Char, isQuote d = false → ¬ [c, d] <:+: c :: t →
        (ls.restore t).head? ≠ some d := by
      intro d hd hpart hhead
      rcases head?_restore hlimit hclosed ht hhead with hmem | hquote
      · obtain ⟨more, rfl⟩ := List.head?_eq_some_iff.1 hmem
        exact hpart ⟨[], more, rfl⟩
      · rw [hquote] at hd
        cases hd
    rw [Literals.restore_cons (Text.ne_mark_of_isOtherChar hc), heldLexemes_other hc,
      lexemes_other hc hquotes.1, ih hquotes.2 (hcomments.of_part (List.suffix_cons c t).isInfix)]
    · rintro ⟨rfl, hhead⟩
      exact hnext '/' (by decide) hcomments.1 hhead
    · rintro ⟨rfl, hhead⟩
      exact hnext '*' (by decide) hcomments.2 hhead
  case word =>
    intro w t hne hw hnext ht ih hquotes hcomments
    have hrestore : ls.restore (w ++ t) = w ++ ls.restore t := by
      clear hne hquotes hcomments
      induction w with
      | nil => rfl
      | cons c rest ihw =>
        rw [List.forall_mem_cons] at hw
        rw [List.cons_append, Literals.restore_cons (Text.ne_mark_of_isWordChar hw.1), ihw hw.2]
        rfl
    rw [hrestore, heldLexemes_word hne hw hnext, lexemes_word hne hw (hstarts ht hnext),
      ih (fun c hc => hquotes c (List.mem_append_right _ hc))
        (hcomments.of_part (List.suffix_append w t).isInfix)]
  case literal =>
    intro k t hk ht ih hquotes hcomments
    have hget : ls.get? k = some ls.texts[k] := List.getElem?_eq_getElem hk
    have hindex := Nat.lt_of_lt_of_le hk hlimit
    rw [Literals.restore_placeholder hindex hget, heldLexemes_placeholder hindex hget,
      lexemes_literal (hclosed _ (List.getElem_mem hk)),
      ih (fun c hc => hquotes c (List.mem_append_right _ hc))
        (hcomments.of_part (List.suffix_append (placeholder k) t).isInfix)]

/-! ### Collecting it -/

theorem collect_ofLiteral (lits : Literals) (raw : Text) :
    (Lexeme.ofLiteral raw).collect lits = lits.intern raw := by
  unfold Lexeme.ofLiteral Enclosure.ofQuote
  split <;> rfl

/-- What is collected is alike: the literals have the numbers that the new table gives them. -/
theorem alike_collectBody {all lits : Literals} (hlimit : ls.size ≤ indexLimit)
    (h : Sealed ls.size t) (hall : (collectBody lits (heldLexemes ls t)).2.texts <+: all.texts) :
    Alike ls all t (collectBody lits (heldLexemes ls t)).1 := by
  refine Sealed.wordwise (motive := fun t => ∀ lits : Literals,
    (collectBody lits (heldLexemes ls t)).2.texts <+: all.texts →
      Alike ls all t (collectBody lits (heldLexemes ls t)).1) ?nil ?other ?word ?literal h lits hall
  case nil =>
    intro lits _
    rw [heldLexemes_nil]
    exact .nil
  case other =>
    intro c t hc _ ih lits hall
    rw [heldLexemes_other hc] at hall ⊢
    exact .char (Text.ne_mark_of_isOtherChar hc) (ih lits hall)
  case word =>
    intro w t hne hw hnext _ ih lits hall
    rw [heldLexemes_word hne hw hnext] at hall ⊢
    have hmark : mark ∉ w := fun hmem => absurd (hw mark hmem) (by decide)
    exact (Alike.of_not_mem hmark).append (ih lits hall)
  case literal =>
    intro k t hk _ ih lits hall
    have hget : ls.get? k = some ls.texts[k] := List.getElem?_eq_getElem hk
    rw [heldLexemes_placeholder (Nat.lt_of_lt_of_le hk hlimit) hget, collectBody_cons,
      collect_ofLiteral] at hall ⊢
    refine .literal hget ?_ (ih _ hall)
    obtain ⟨more, hmore⟩ := hall
    rw [texts_collectBody_lexemes] at hmore
    simp [Literals.get?, ← hmore, Literals.intern, Literals.size]

/-- Every placeholder gives one literal, and a placeholder has two marks. -/
theorem size_collectBody {lits : Literals} (hlimit : ls.size ≤ indexLimit) (h : Sealed ls.size t) :
    2 * (collectBody lits (heldLexemes ls t)).2.size = 2 * lits.size + marks t := by
  refine Sealed.wordwise (motive := fun t => ∀ lits : Literals,
    2 * (collectBody lits (heldLexemes ls t)).2.size = 2 * lits.size + marks t) ?nil ?other ?word
      ?literal h lits
  case nil =>
    intro lits
    rw [heldLexemes_nil]
    rfl
  case other =>
    intro c t hc _ ih lits
    rw [heldLexemes_other hc, marks_cons (Text.ne_mark_of_isOtherChar hc)]
    exact ih lits
  case word =>
    intro w t hne hw hnext _ ih lits
    have hmark : mark ∉ w := fun hmem => absurd (hw mark hmem) (by decide)
    rw [heldLexemes_word hne hw hnext, marks_append, marks_eq_zero hmark, Nat.zero_add]
    exact ih lits
  case literal =>
    intro k t hk _ ih lits
    have hget : ls.get? k = some ls.texts[k] := List.getElem?_eq_getElem hk
    have hsize : (lits.intern ls.texts[k]).2.size = lits.size + 1 := by
      simp [Literals.intern, Literals.size]
    have hrest := ih (lits.intern ls.texts[k]).2
    rw [heldLexemes_placeholder (Nat.lt_of_lt_of_le hk hlimit) hget, collectBody_cons,
      collect_ofLiteral, marks_append, marks_placeholder]
    show 2 * (collectBody _ _).2.size = _
    omega

end Held

/-! ### Items -/

/-- A block with the text between the words that enclose it. -/
structure Item where
  kind : BlockKind
  inner : Text

namespace Item

/-- What follows the end of a block on its line. -/
def rest (i : Item) : Text := if i.kind = .native then [] else ['\n']

/-- An item as program text, up to the end of its last line. -/
def text (i : Item) : Text := i.kind.keyword ++ (i.inner ++ (i.kind.ending ++ i.rest))

theorem text_globals (t : Text) :
    text ⟨.globals, t⟩ = "globals".toList ++ (t ++ ("endglobals".toList ++ ['\n'])) := rfl

theorem text_function (t : Text) :
    text ⟨.function, t⟩ = "function".toList ++ (t ++ ("endfunction".toList ++ ['\n'])) := rfl

theorem text_native (t : Text) : text ⟨.native, t⟩ = "native".toList ++ (t ++ ['\n']) := rfl

/-- The text that an item leaves: a native declaration keeps its keyword. -/
def held (i : Item) : Text := if i.kind = .native then i.kind.keyword ++ i.inner else i.inner

/-- An item whose text is read as one block: it does not run into the words around it, and
what closes it stands nowhere in it. -/
structure Proper (ls : Literals) (i : Item) : Prop where
  sealed : Sealed ls.size i.inner
  head : ∃ c ∈ i.inner.head?, isWordChar c = false
  last : ∀ c ∈ i.inner.getLast?, isWordChar c = true → i.kind = .native
  closing : i.kind.closing ∉ heldLexemes ls i.inner

/-- The lexemes of an item. -/
def lexemes (ls : Literals) (i : Item) : List Lexeme :=
  .word i.kind.keyword :: (heldLexemes ls i.inner ++ i.kind.closing :: i.rest.map .char)

/-- The regions of an item. -/
def regions (ls : Literals) (i : Item) : List Region :=
  .block i.kind (heldLexemes ls i.inner) true :: i.rest.map fun c => .outside (.char c)

variable {ls : Literals} {i : Item} {items : List Item}

theorem Proper.inner_ne_nil (h : i.Proper ls) : i.inner ≠ [] := by
  intro hnil
  obtain ⟨c, hc, -⟩ := h.head
  rw [hnil] at hc
  cases hc

theorem Proper.startsNoWord (h : i.Proper ls) (t : Text) : StartsNoWord (i.inner ++ t) := by
  obtain ⟨c, hc, hword⟩ := h.head
  refine Text.StartsNoWord.append h.inner_ne_nil (fun d rest hd => ?_) t
  rw [hd] at hc
  rw [Option.mem_some_iff.1 hc]
  exact hword

theorem heldLexemes_newline (t : Text) :
    heldLexemes ls ('\n' :: t) = .char '\n' :: heldLexemes ls t :=
  heldLexemes_other (by decide) t

theorem startsNoWord_newline (t : Text) : StartsNoWord ('\n' :: t) := by
  rintro c rest hc
  rw [← (List.cons.inj hc).1]
  decide

theorem heldLexemes_ending (i : Item) (t : Text) :
    heldLexemes ls (i.kind.ending ++ (i.rest ++ t)) = i.kind.closing :: i.rest.map .char ++
      heldLexemes ls t := by
  have hword : ∀ w : Text, w ≠ [] → (∀ c ∈ w, isWordChar c = true) →
      heldLexemes ls (w ++ ('\n' :: t)) = .word w :: .char '\n' :: heldLexemes ls t := by
    intro w hne hw
    rw [heldLexemes_word hne hw (startsNoWord_newline t), heldLexemes_newline]
  obtain ⟨kind, inner⟩ := i
  cases kind with
  | globals => exact hword "endglobals".toList (by decide) (by decide)
  | function => exact hword "endfunction".toList (by decide) (by decide)
  | native => exact heldLexemes_newline t

theorem heldLexemes_text (h : i.Proper ls) (t : Text) :
    heldLexemes ls (i.text ++ t) = i.lexemes ls ++ heldLexemes ls t := by
  have hcut : ∀ c ∈ i.inner.getLast?, isWordChar c = true →
      StartsNoWord (i.kind.ending ++ (i.rest ++ t)) := by
    intro c hc hw
    have hnative := h.last c hc hw
    rw [hnative]
    exact startsNoWord_newline _
  rw [text, List.append_assoc, List.append_assoc, List.append_assoc,
    heldLexemes_word (keyword_ne_nil i.kind) isWordChar_of_mem_keyword (h.startsNoWord _),
    heldLexemes_append h.sealed hcut, heldLexemes_ending, lexemes]
  simp

theorem heldLexemes_items (h : ∀ i ∈ items, i.Proper ls) :
    heldLexemes ls (items.flatMap text) = items.flatMap (lexemes ls) := by
  induction items with
  | nil => exact heldLexemes_nil
  | cons i rest ih =>
    rw [List.forall_mem_cons] at h
    rw [List.flatMap_cons, heldLexemes_text h.1, ih h.2, List.flatMap_cons]

/-- The block that an item is read as. -/
def block (ls : Literals) (i : Item) : ClosedBlock := ⟨i.kind, heldLexemes ls i.inner⟩

theorem proper_block (h : i.Proper ls) : (i.block ls).Proper := by
  refine ⟨h.closing, fun l hl => ?_⟩
  rcases mem_heldLexemes hl with ⟨w, -, rfl⟩ | ⟨c, -, rfl⟩ | ⟨raw, rfl⟩ <;> rfl

theorem proper_blocks (h : ∀ i ∈ items, i.Proper ls) : ∀ b ∈ items.map (block ls), b.Proper := by
  intro b hb
  obtain ⟨i, hi, rfl⟩ := List.mem_map.1 hb
  exact proper_block (h i hi)

theorem lexemes_items (ls : Literals) (items : List Item) :
    items.flatMap (lexemes ls) = (items.map (block ls)).flatMap ClosedBlock.lexemes := by
  rw [List.flatMap_map]
  rfl

theorem regions_items (h : ∀ i ∈ items, i.Proper ls) :
    Source.regions (items.flatMap (lexemes ls)) = items.flatMap (regions ls) := by
  rw [lexemes_items, ClosedBlock.regions_all (proper_blocks h), List.flatMap_map]
  rfl

/-! ### The blocks of items -/

theorem openEnd?_items {src : Text} (hlexemes : Source.lexemes src = items.flatMap (lexemes ls))
    (h : ∀ i ∈ items, i.Proper ls) : openEnd? src = none :=
  ClosedBlock.openEnd?_all (hlexemes.trans (lexemes_items ls items)) (proper_blocks h)

theorem collect_block (lits : Literals) (i : Item) :
    (Region.block i.kind (heldLexemes ls i.inner) true).collect lits =
      ((if i.kind = .native then i.kind.keyword else []) ++
        (collectBody lits (heldLexemes ls i.inner)).1,
        (collectBody lits (heldLexemes ls i.inner)).2) :=
  ClosedBlock.collect_region lits (i.block ls)

/-- The region of an item leaves a text that is alike. -/
theorem alike_collect {all lits : Literals} (hlimit : ls.size ≤ indexLimit) (h : i.Proper ls)
    (hall : (collectBody lits (heldLexemes ls i.inner)).2.texts <+: all.texts) :
    Alike ls all i.held ((Region.block i.kind (heldLexemes ls i.inner) true).collect lits).1 := by
  have hinner := alike_collectBody hlimit h.sealed hall
  rw [collect_block, held]
  split
  · have hmark : mark ∉ i.kind.keyword :=
      fun hmem => absurd (isWordChar_of_mem_keyword mark hmem) (by decide)
    exact (Alike.of_not_mem hmark).append hinner
  · exact hinner

theorem collectAll_cons (ls lits : Literals) (i : Item) (items : List Item) :
    (collectAll lits ((i :: items).flatMap (regions ls))).2 =
        (collectAll (collectBody lits (heldLexemes ls i.inner)).2 (items.flatMap (regions ls))).2 ∧
      ∀ kind, textsOf kind (collectAll lits ((i :: items).flatMap (regions ls))).1 =
        (if i.kind = kind then
            [((Region.block i.kind (heldLexemes ls i.inner) true).collect lits).1]
          else []) ++
          textsOf kind
          (collectAll (collectBody lits (heldLexemes ls i.inner)).2
            (items.flatMap (regions ls))).1 := by
  have hafter :
      ((i.block ls).region.collect lits).2 = (collectBody lits (heldLexemes ls i.inner)).2 := by
    rw [ClosedBlock.region, block, collect_block]
  have hcons := ClosedBlock.collectAll_cons lits (i.block ls) (items.flatMap (regions ls))
  rw [hafter] at hcons
  exact hcons

/-- The table grows by the literals of each item. -/
theorem texts_prefix_collectAll (ls lits : Literals) (items : List Item) :
    lits.texts <+: (collectAll lits (items.flatMap (regions ls))).2.texts := by
  induction items generalizing lits with
  | nil => exact List.prefix_refl _
  | cons i rest ih =>
    rw [(collectAll_cons ls lits i rest).1]
    refine List.IsPrefix.trans ?_ (ih _)
    rw [texts_collectBody_lexemes]
    exact List.prefix_append ..

/-- The blocks of one kind come back under a new numbering. -/
theorem alike_textsOf {all lits : Literals} (hlimit : ls.size ≤ indexLimit)
    (h : ∀ i ∈ items, i.Proper ls)
    (hall : (collectAll lits (items.flatMap (regions ls))).2.texts <+: all.texts)
    (kind : BlockKind) :
    List.Forall₂ (fun (i : Item) t => Alike ls all i.held t) (items.filter fun i => i.kind = kind)
      (textsOf kind (collectAll lits (items.flatMap (regions ls))).1) := by
  induction items generalizing lits with
  | nil => exact .nil
  | cons i rest ih =>
    rw [List.forall_mem_cons] at h
    obtain ⟨htable, htexts⟩ := collectAll_cons ls lits i rest
    rw [htable] at hall
    have hfirst :=
      (texts_prefix_collectAll ls (collectBody lits (heldLexemes ls i.inner)).2 rest).trans hall
    have hmore := ih h.2 hall
    rw [htexts kind]
    by_cases hkind : i.kind = kind
    · rw [List.filter_cons_of_pos (by simpa using hkind), if_pos hkind]
      exact .cons (alike_collect hlimit h.1 hfirst) hmore
    · rw [List.filter_cons_of_neg (by simpa using hkind), if_neg hkind]
      exact hmore

/-- The new table has a literal for every placeholder. -/
theorem size_collectAll (lits : Literals) (hlimit : ls.size ≤ indexLimit)
    (h : ∀ i ∈ items, i.Proper ls) :
    2 * (collectAll lits (items.flatMap (regions ls))).2.size =
      2 * lits.size + (items.map fun i => marks i.inner).sum := by
  induction items generalizing lits with
  | nil => rfl
  | cons i rest ih =>
    rw [List.forall_mem_cons] at h
    rw [(collectAll_cons ls lits i rest).1, ih _ h.2, size_collectBody hlimit h.1.sealed,
      List.map_cons, List.sum_cons, Nat.add_assoc]

end Item

end ScriptMinifier.Source
