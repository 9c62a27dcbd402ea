import ScriptMinifier.Proofs.Output.Undoing
import ScriptMinifier.Proofs.Usage.Lasting

/-! Bodies as a run leaves them.

Naming the globals replaces words of a body, naming the locals drops lines and replaces words of the
others (`localsRenamed`), and extracting the truth values replaces words again. A line that stays is
the same line with other words, and replacing words twice is replacing them once
(`GivesIdents.replaceWords_andThen`). -/
namespace ScriptMinifier

open Naming (Rewritten newLocals onceLocals keptText)
open Syntax (Declaration Function OpensLocal Parameter localName?)
open Text (Smooth isBlank isHorizontal isIdent mark replacement words)

variable {n : Nat} {g : Text → Option Text} {t line x : Text} {f f' : Function}

theorem Sealed.closed (h : Sealed n t) : Text.Closed t := by
  refine h.wordwise (motive := Text.Closed) ?nil ?other ?word ?literal
  case nil => exact Text.closed_nil
  case other => exact fun c t hc _ ih => (Text.closed_other hc).2 ih
  case word => exact fun w t hne hw ht _ ih => (Text.closed_word hne hw ht).2 ih
  case literal =>
    intro k t _ _ ih
    have hnewline : '\n' ∉ Literal.placeholder k := Literal.not_mem_placeholder (by decide)
    have hclosed : (Text.Segment.placeholder (Literal.placeholder k)).isClosed = true := by
      rw [Text.Segment.isClosed, Bool.and_eq_true, Bool.not_eq_true', List.contains_eq_mem]
      exact ⟨by simp [Literal.placeholder], decide_eq_false hnewline⟩
    rw [Text.Closed, Literal.segments_placeholder, List.forall_mem_cons]
    exact ⟨hclosed, ih⟩

/-- No line comes to open with `local` when words are replaced. -/
theorem Syntax.OpensLocal.of_replaceWords (hg : Foreign g) (hline : Sealed n line)
    (h : OpensLocal (Text.replaceWords g line)) : OpensLocal line := by
  obtain ⟨rest, hrest⟩ := h
  induction line with
  | nil =>
    rw [Text.replaceWords_nil] at hrest
    cases hrest
  | cons c line ih =>
    by_cases hblank : isBlank c = true
    · have hother := Text.isOtherChar_of_isBlank hblank
      have hmark : c ≠ mark := Literal.ne_mark_of_isFree (Literal.isFree_of_isBlank hblank)
      rw [Sealed.replaceWords_cons hother, Text.trimStart,
        List.dropWhile_cons_of_pos hblank] at hrest
      obtain ⟨rest', hrest'⟩ := ih (hline.tail hmark) hrest
      exact ⟨rest', (List.dropWhile_cons_of_pos hblank).trans hrest'⟩
    · have hhead : ∀ d ∈ (Text.replaceWords g (c :: line)).head?, isBlank d = false := by
        intro d hd
        rcases Sealed.head?_replaceWords hg.smooth d hd with hsame | hsmooth
        · rw [← Option.mem_some_iff.1 hsame]
          exact Bool.eq_false_iff.2 hblank
        · exact Text.not_isBlank_of_isSmooth hsmooth
      have hstart :
          Text.trimStart (Text.replaceWords g (c :: line)) = Text.replaceWords g (c :: line) := by
        rw [Text.trimStart]
        cases hcons : Text.replaceWords g (c :: line) with
        | nil => rfl
        | cons d more =>
          rw [hcons] at hhead
          exact List.dropWhile_cons_of_neg (by simp [hhead d rfl])
      rw [hstart] at hrest
      obtain ⟨rest', heq, -⟩ := hg.local_of_replaceWords hline hrest
      exact ⟨rest', (List.dropWhile_cons_of_neg hblank).trans heq⟩

namespace Naming.Rewritten

/-- Where words are replaced, a line that stays becomes one that stays. -/
theorem keeps (h : Rewritten g f f') (hsealed : Sealed n f.body) (hline : f.Keeps line) :
    f'.Keeps (Text.replaceWords g line) where
  mem := by
    rw [h.pieces_body hsealed]
    exact List.mem_map_of_mem hline.mem
  stays := by
    intro x hx hdropped
    obtain ⟨hlocal, hdropped'⟩ := h.dropped hsealed hline.mem hx hdropped
    exact hline.stays x hlocal hdropped'

theorem plainLocals (h : Rewritten g f f') (hsealed : Sealed n f.body) (hf : f.PlainLocals) :
    f'.PlainLocals := by
  intro line hline hopens
  rw [h.pieces_body hsealed] at hline
  obtain ⟨old, hold, rfl⟩ := List.mem_map.1 hline
  have hsealed' := hsealed.pieces (by decide) old hold
  rw [(sides_replaceWords h.foreign.smooth hsealed').1]
  exact Sealed.not_mem_replaceWords h.foreign.smooth (by decide)
    (hf old hold (hopens.of_replaceWords h.foreign hsealed'))

end Naming.Rewritten

/-! ### Lines without unused locals -/

namespace Naming

variable {params : List Parameter}

theorem return_not_mem (h : ∀ c ∈ f.body, isHorizontal c = true → c = ' ')
    (hline : line ∈ Text.pieces '\n' f.body) : '\r' ∉ line := fun hmem =>
  absurd (h _ (Text.mem_of_mem_pieces hline hmem) (by decide)) (by decide)

/-- The lines that stay. -/
theorem mem_pieces_keptText (hdropped : (renameLocals f).dropped = onceLocals f)
    (hspaced : ∀ c ∈ f.body, isHorizontal c = true → c = ' ') (hne : line ≠ []) :
    line ∈ Text.pieces '\n' (keptText f) ↔ f.Keeps line := by
  rw [keptText_eq]
  constructor
  · intro hline
    rw [dropLocals] at hline
    split at hline
    · rename_i hnone
      refine ⟨hline, fun x _ hx => ?_⟩
      rw [hdropped, hnone] at hx
      cases hx
    · generalize hkept : (Text.lines f.body).filter
        (fun line => !(localName? line).any (onceLocals f).contains) = kept at hline
      have hnil : kept ≠ [] := by
        rintro rfl
        exact hne (List.mem_singleton.1 hline)
      have hnewline : ∀ l ∈ kept, '\n' ∉ l := by
        intro l hl
        rw [← hkept] at hl
        exact Text.newline_not_mem_lines (List.mem_filter.1 hl).1
      rw [Text.pieces_joined hnil hnewline, ← hkept] at hline
      obtain ⟨hmem, hstays⟩ := List.mem_filter.1 hline
      obtain ⟨piece, hpiece, heq⟩ := Text.exists_piece_of_mem_lines hmem
      rw [Text.dropReturn_of_not_mem (return_not_mem hspaced hpiece), or_self] at heq
      refine ⟨heq ▸ hpiece, fun x hx hdrop => ?_⟩
      rw [hdropped] at hdrop
      rw [Option.mem_def.1 hx] at hstays
      simp [hdrop] at hstays
  · intro hkeeps
    have hstays := hkeeps.stays
    rw [hdropped] at hstays
    obtain ⟨line', hline', heq⟩ := exists_mem_pieces_dropLocals hkeeps.mem hne hstays
    rw [Text.dropReturn_of_not_mem (return_not_mem hspaced hkeeps.mem), or_self] at heq
    exact heq ▸ hline'

/-- What a function binds are identifiers. -/
theorem isIdent_of_mem_scopedNames (h : x ∈ f.scopedNames) : isIdent x = true := by
  rcases List.mem_append.1 h with hparam | hlocal
  · rw [Function.paramNames] at hparam
    cases hparse : Parameter.parseAll? f.params with
    | none =>
      rw [hparse] at hparam
      cases hparam
    | some params =>
      rw [hparse] at hparam
      obtain ⟨q, hq, rfl⟩ := List.mem_map.1 hparam
      exact (Parameter.isIdent_of_parseAll? hparse q hq).2
  · obtain ⟨line, -, hname⟩ := List.mem_filterMap.1 hlocal
    obtain ⟨-, -, -, -, -, -, hident⟩ := localName?_eq_some.1 hname
    exact hident

/-- A new name of a local is no word of the language and has no upper-case letter. -/
theorem newLocal_lower {w r : Text} (hr : (newLocals f).find? w = some r) :
    r.any Char.isUpper = false ∧ r ∉ Syntax.keywords ++ Syntax.datatypes := by
  have hdrawn := mem_drawMany_of_find? hr
  have hreserved : Syntax.keywords ++ Syntax.datatypes ⊆ (localPool f).reserved :=
    Pool.language_subset_reserved .locals [] _
  exact ⟨Pool.not_any_isUpper_of_mem_drawMany rfl hdrawn,
    Pool.not_mem_language_of_mem_drawMany hreserved hdrawn⟩

theorem boundNames_subset (f : Function) : boundNames f ⊆ f.scopedNames := by
  intro w hw
  rcases List.mem_append.1 hw with hparam | hlocal
  · exact List.mem_append_left _ hparam
  · exact List.mem_append_right _ (Text.mem_distinct.1 (List.mem_filter.1 hlocal).1)

/-- What is left of a function when its locals are renamed: the lines that stay, with words replaced
that it binds. What it binds then has no upper-case letter. -/
structure LocalsRenamed (f f' : Function) (g : Text → Option Text) : Prop where
  foreign : Foreign g
  idents : GivesIdents g
  bound : ∀ w, w ∉ f.scopedNames → g w = none
  lines : ∀ line ∈ Text.pieces '\n' f'.body, line ≠ [] →
    ∃ old, f.Keeps old ∧ line = Text.replaceWords g old
  keeps : ∀ line, f.Keeps line → line ≠ [] → Text.replaceWords g line ∈ Text.pieces '\n' f'.body
  lower : ∀ x ∈ f'.scopedNames,
    x.any Char.isUpper = false ∧ x ∉ Syntax.keywords ++ Syntax.datatypes

/-- The names of parameters that get new ones. -/
theorem names_of_renamed (g : Text → Text) (params : List Parameter) :
    (params.map fun q => { q with name := g q.name }).map Parameter.name =
      params.map fun q => g q.name := List.map_map ..

/-- Only what a function binds gets a new name in it. -/
theorem mem_scopedNames_of_newLocals (h : Text.Closed f.body) {w r : Text}
    (hr : (newLocals f).find? w = some r) : w ∈ f.scopedNames := by
  by_contra hfree
  have hnone := (find?_newLocals_eq_none h).2 fun hmem => hfree (boundNames_subset f hmem)
  rw [hnone] at hr
  cases hr

theorem foreign_newLocals (h : Text.Closed f.body) : Foreign (newLocals f).find? :=
  have hidents : GivesIdents (newLocals f).find? := givesIdents_deal _ _
  ⟨hidents.smooth, fun _ _ hr => isIdent_of_mem_scopedNames (mem_scopedNames_of_newLocals h hr),
    fun _ _ hr hmem => (newLocal_lower hr).2 (Syntax.localWords_subset_language hmem)⟩

/-- The lines of a function whose locals are renamed are those that stay, with words replaced. -/
theorem pieces_renameLocals (hsealed : Sealed n f.body)
    (hparams : Parameter.parseAll? f.params = some params) :
    Text.pieces '\n' (renameLocals f).function.body =
      (Text.pieces '\n' (keptText f)).map (Text.replaceWords (newLocals f).find?) := by
  have hkept : Sealed n (keptText f) := sealed_dropLocals hsealed _
  have hsmooth := (foreign_newLocals hsealed.closed).smooth
  rw [(renameLocals_eq hsealed.closed hparams).2,
    hkept.pieces_replaceWords (by decide) (by decide) (by decide) hsmooth]

/-- What a function binds gets a name that is no word of the language and has no upper-case
letter. -/
theorem lower_boundNames (h : Text.Closed f.body) {w : Text} (hw : w ∈ boundNames f) :
    (renamed (newLocals f) w).any Char.isUpper = false ∧
      renamed (newLocals f) w ∉ Syntax.keywords ++ Syntax.datatypes := by
  obtain ⟨new, hfind, heq⟩ := exists_newLocal h hw
  rw [heq]
  exact newLocal_lower hfind

/-- What the function binds then are such names. -/
theorem exists_of_mem_scopedNames_renameLocals (hsealed : Sealed n f.body)
    (hparams : Parameter.parseAll? f.params = some params)
    (hspaced : ∀ c ∈ f.body, isHorizontal c = true → c = ' ') {x : Text}
    (hx : x ∈ (renameLocals f).function.scopedNames) :
    ∃ w ∈ boundNames f, renamed (newLocals f) w = x := by
  have hclosed := hsealed.closed
  have hkept : Sealed n (keptText f) := sealed_dropLocals hsealed _
  obtain ⟨hdropped, hfunction⟩ := renameLocals_eq hclosed hparams
  rcases List.mem_append.1 hx with hparam | hlocal
  · have hidents : GivesIdents (newLocals f).find? := givesIdents_deal _ _
    have hparse := parseAll?_renamed hidents hparams
    rw [hfunction, Function.paramNames, hparse, Option.getD_some,
      names_of_renamed (renamed (newLocals f)) params] at hparam
    obtain ⟨q, hq, rfl⟩ := List.mem_map.1 hparam
    refine ⟨q.name, List.mem_append_left _ ?_, rfl⟩
    rw [Function.paramNames, hparams]
    exact List.mem_map_of_mem hq
  · rw [localNames_eq_filterMap, pieces_renameLocals hsealed hparams] at hlocal
    obtain ⟨line, hline, hname⟩ := List.mem_filterMap.1 hlocal
    obtain ⟨old, hold, rfl⟩ := List.mem_map.1 hline
    obtain ⟨w, hw, rfl⟩ :=
      localName?_replaceWords (foreign_newLocals hclosed) (hkept.pieces (by decide) old hold) hname
    have hne : old ≠ [] := by
      rintro rfl
      cases hw
    have hkeeps := (mem_pieces_keptText hdropped hspaced hne).1 hold
    have hword : w ∈ words (keptText f) := by
      rw [← hkept.closed.words_pieces]
      exact List.mem_flatMap.2 ⟨old, hold, mem_words_of_localName? hw⟩
    exact ⟨w, mem_boundNames_of_mem_words_keptText hclosed hword
      (List.mem_append_right _ (mem_localNames hkeeps.mem hw)), rfl⟩

/-- Renaming the locals keeps all other lines, word by word. -/
theorem localsRenamed (hsealed : Sealed n f.body)
    (hparse : (Parameter.parseAll? f.params).isSome = true)
    (hspaced : ∀ c ∈ f.body, isHorizontal c = true → c = ' ') :
    LocalsRenamed f (renameLocals f).function (newLocals f).find? := by
  obtain ⟨params, hparams⟩ := Option.isSome_iff_exists.1 hparse
  have hclosed := hsealed.closed
  have hdropped := (renameLocals_eq hclosed hparams).1
  have hpieces := pieces_renameLocals hsealed hparams
  constructor
  case foreign => exact foreign_newLocals hclosed
  case idents => exact givesIdents_deal _ _
  case bound =>
    exact fun w hw => Option.eq_none_iff_forall_ne_some.2 fun r hr =>
      hw (mem_scopedNames_of_newLocals hclosed hr)
  case lines =>
    intro line hline hne
    rw [hpieces] at hline
    obtain ⟨old, hold, rfl⟩ := List.mem_map.1 hline
    have hne' : old ≠ [] := by
      rintro rfl
      exact hne Text.replaceWords_nil
    exact ⟨old, (mem_pieces_keptText hdropped hspaced hne').1 hold, rfl⟩
  case keeps =>
    intro line hline hne
    rw [hpieces]
    exact List.mem_map_of_mem ((mem_pieces_keptText hdropped hspaced hne).2 hline)
  case lower =>
    intro x hx
    obtain ⟨w, hw, rfl⟩ := exists_of_mem_scopedNames_renameLocals hsealed hparams hspaced hx
    exact lower_boundNames hclosed hw

theorem LocalsRenamed.plainLocals {f' : Function} (h : LocalsRenamed f f' g)
    (hsealed : Sealed n f.body) (hf : f.PlainLocals) : f'.PlainLocals := by
  intro line hline hopens
  have hne : line ≠ [] := by
    rintro rfl
    obtain ⟨rest, hrest⟩ := hopens
    cases hrest
  obtain ⟨old, hold, rfl⟩ := h.lines line hline hne
  have hsealed' := hsealed.pieces (by decide) old hold.mem
  rw [(sides_replaceWords h.foreign.smooth hsealed').1]
  exact Sealed.not_mem_replaceWords h.foreign.smooth (by decide)
    (hf old hold.mem (hopens.of_replaceWords h.foreign hsealed'))

theorem LocalsRenamed.spaced {f' : Function} (h : LocalsRenamed f f' g)
    (hf : ∀ c ∈ f.body, isHorizontal c = true → c = ' ') :
    ∀ c ∈ f'.body, isHorizontal c = true → c = ' ' := by
  intro c hc hhorizontal
  have hnewline : c ≠ '\n' := by
    rintro rfl
    exact absurd hhorizontal (by decide)
  obtain ⟨line, hline, hmem⟩ := Text.exists_piece_of_mem hnewline hc
  obtain ⟨old, hold, rfl⟩ := h.lines line hline (List.ne_nil_of_mem hmem)
  refine Text.spaced_replaceWords h.foreign.smooth ?_ c hmem hhorizontal
  exact fun d hd => hf d (Text.mem_of_mem_pieces hold.mem hd)

end Naming

/-! ### One replacement after another -/

/-- Words replaced one way, and what comes of them another way. -/
def Text.andThen (f g : Text → Option Text) (w : Text) : Option Text :=
  (g (replacement f w)).or (f w)

theorem Text.replacement_andThen (f g : Text → Option Text) (w : Text) :
    replacement (andThen f g) w = replacement g (replacement f w) := by
  show ((g (replacement f w)).or (f w)).getD w = (g (replacement f w)).getD (replacement f w)
  cases g (replacement f w) with
  | none => rfl
  | some r => rfl

namespace GivesIdents

variable {f g : Text → Option Text}

theorem andThen (hf : GivesIdents f) (hg : GivesIdents g) : GivesIdents (Text.andThen f g) := by
  intro w r hr
  rcases Option.or_eq_some_iff.1 hr with hsome | ⟨-, hsome⟩
  · exact hg _ r hsome
  · exact hf w r hsome

theorem replaceWords_andThen (hf : GivesIdents f) (g : Text → Option Text) (t : Text) :
    Text.replaceWords (Text.andThen f g) t = Text.replaceWords g (Text.replaceWords f t) := by
  rw [Text.replaceWords_replaceWords (Naming.GivesIdents.wordly hf)]
  exact Text.replaceWords_congr_words fun w _ => Text.replacement_andThen f g w

end GivesIdents

end ScriptMinifier
