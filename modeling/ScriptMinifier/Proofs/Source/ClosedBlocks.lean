import ScriptMinifier.Proofs.Source.Passages

/-! Scripts that are nothing but closed blocks.

A script whose lexemes are those of blocks, each closed and followed by the end of its line, has
just these blocks for its regions (`regions_all`) and has no open end (`openEnd?_all`), so it is
read block by block (`blocks_all`). -/
namespace ScriptMinifier.Source

/-- A block that is closed, with the lexemes between its opening word and what closes it. -/
structure ClosedBlock where
  kind : BlockKind
  body : List Lexeme

namespace ClosedBlock

/-- What follows the end of a block on its line. -/
def rest (b : ClosedBlock) : Text := if b.kind = .native then [] else ['\n']

/-- All lexemes of a block, up to the end of its last line. -/
def lexemes (b : ClosedBlock) : List Lexeme :=
  .word b.kind.keyword :: (b.body ++ b.kind.closing :: b.rest.map .char)

theorem lexemes_globals (body : List Lexeme) :
    lexemes ⟨.globals, body⟩ = .word "globals".toList ::
    (body ++ [.word "endglobals".toList, .char '\n']) := rfl

theorem lexemes_function (body : List Lexeme) :
    lexemes ⟨.function, body⟩ = .word "function".toList ::
    (body ++ [.word "endfunction".toList, .char '\n']) := rfl

theorem lexemes_native (body : List Lexeme) :
    lexemes ⟨.native, body⟩ = .word "native".toList :: (body ++ [.char '\n']) := rfl

/-- A block as a region. -/
def region (b : ClosedBlock) : Region := .block b.kind b.body true

/-- The regions of a block: itself and the end of its line. -/
def regions (b : ClosedBlock) : List Region := b.region :: b.rest.map fun c => .outside (.char c)

/-- A block that ends where it is closed and leaves nothing open inside. -/
structure Proper (b : ClosedBlock) : Prop where
  closing : b.kind.closing ∉ b.body
  closed : ∀ l ∈ b.body, l.openPart? = none

variable {b : ClosedBlock} {bs : List ClosedBlock}

/-! ### Regions -/

theorem regions_newline (more : List Lexeme) :
    Source.regions (.char '\n' :: more) = .outside (.char '\n') :: Source.regions more := by
  rw [Source.regions]
  rfl

theorem regions_block {kind : BlockKind} {body : List Lexeme} (hbody : kind.closing ∉ body)
    (more : List Lexeme) :
    Source.regions (.word kind.keyword :: (body ++ kind.closing :: more)) =
      .block kind body true :: Source.regions more := by
  have hne : ∀ l ∈ body, (l != kind.closing) = true :=
    fun l hl => bne_iff_ne.2 fun heq => hbody (heq ▸ hl)
  have htake : bodyOf kind (body ++ kind.closing :: more) = body := by
    rw [bodyOf, List.takeWhile_append_of_pos hne, List.takeWhile_cons_of_neg (by simp),
      List.append_nil]
  have hdrop : tailOf kind (body ++ kind.closing :: more) = kind.closing :: more := by
    rw [tailOf, List.dropWhile_append_of_pos hne, List.dropWhile_cons_of_neg (by simp)]
  rw [Source.regions]
  split
  · rename_i hnone
    rw [opened?_keyword] at hnone
    cases hnone
  · rename_i kind' hsome
    rw [opened?_keyword, Option.some.injEq] at hsome
    subst hsome
    rw [htake, hdrop]
    rfl

theorem regions_lexemes (h : b.Proper) (more : List Lexeme) :
    Source.regions (b.lexemes ++ more) = b.regions ++ Source.regions more := by
  have hsplit :
      b.lexemes ++ more =
        .word b.kind.keyword :: (b.body ++ b.kind.closing :: (b.rest.map .char ++ more)) := by
    simp [lexemes]
  have hrest : Source.regions (b.rest.map .char ++ more) =
      (b.rest.map fun c => Region.outside (.char c)) ++ Source.regions more := by
    rw [rest]
    split
    · rfl
    · exact regions_newline more
  rw [hsplit, regions_block h.closing, hrest, regions]
  rfl

/-- The regions of closed blocks are these blocks. -/
theorem regions_all (h : ∀ b ∈ bs, b.Proper) :
    Source.regions (bs.flatMap lexemes) = bs.flatMap regions := by
  induction bs with
  | nil => exact Source.regions.eq_1
  | cons b more ih =>
    rw [List.forall_mem_cons] at h
    rw [List.flatMap_cons, regions_lexemes h.1, ih h.2, List.flatMap_cons]

/-! ### Open ends -/

theorem openPart_lexemes (h : b.Proper) : ∀ l ∈ b.lexemes, l.openPart? = none := by
  intro l hl
  simp only [lexemes, List.mem_cons, List.mem_append, List.mem_map] at hl
  rcases hl with rfl | hl | rfl | ⟨c, -, rfl⟩
  · rfl
  · exact h.closed l hl
  · cases b.kind <;> rfl
  · rfl

theorem openPart_regions : ∀ r ∈ b.regions, r.openPart? = none := by
  intro r hr
  rcases List.mem_cons.1 hr with rfl | hr
  · rw [region]
    cases b.kind <;> rfl
  · obtain ⟨c, -, rfl⟩ := List.mem_map.1 hr
    rfl

/-- A script of closed blocks has no open end. -/
theorem openEnd?_all {src : Text} (hlexemes : Source.lexemes src = bs.flatMap lexemes)
    (h : ∀ b ∈ bs, b.Proper) :
    openEnd? src = none := by
  have hinner : ∀ l ∈ (Source.lexemes src).getLast?, l.openPart? = none := by
    intro l hl
    rw [hlexemes] at hl
    obtain ⟨b, hb, hl⟩ := List.mem_flatMap.1 (List.mem_of_getLast? hl)
    exact openPart_lexemes (h b hb) l hl
  have houter : ∀ r ∈ (Source.regions (Source.lexemes src)).getLast?, r.openPart? = none := by
    intro r hr
    rw [hlexemes, regions_all h] at hr
    obtain ⟨b, -, hr⟩ := List.mem_flatMap.1 (List.mem_of_getLast? hr)
    exact openPart_regions r hr
  rw [openEnd?, Option.or_eq_none_iff, Option.bind_eq_none_iff, Option.bind_eq_none_iff]
  exact ⟨fun l hl => by rw [hinner l hl]; rfl, fun r hr => by rw [houter r hr]; rfl⟩

/-! ### Texts -/

/-- The text of a block, after its keyword if it is a native declaration. -/
theorem collect_region (lits : Literals) (b : ClosedBlock) :
    b.region.collect lits =
      ((if b.kind = .native then b.kind.keyword else []) ++ (collectBody lits b.body).1,
        (collectBody lits b.body).2) := by
  obtain ⟨kind, body⟩ := b
  cases kind <;> rfl

theorem collectAll_outside (lits : Literals) (t : Text) (rs : List Region) :
    (collectAll lits ((t.map fun c => .outside (.char c)) ++ rs)).2 = (collectAll lits rs).2 ∧
      ∀ kind, textsOf kind (collectAll lits ((t.map fun c => .outside (.char c)) ++ rs)).1 =
        textsOf kind (collectAll lits rs).1 := by
  induction t with
  | nil => exact ⟨rfl, fun _ => rfl⟩
  | cons c rest ih => exact ih

theorem collectAll_cons (lits : Literals) (b : ClosedBlock) (rs : List Region) :
    (collectAll lits (b.regions ++ rs)).2 = (collectAll (b.region.collect lits).2 rs).2 ∧
      ∀ kind, textsOf kind (collectAll lits (b.regions ++ rs)).1 =
        (if b.kind = kind then [(b.region.collect lits).1] else []) ++
          textsOf kind (collectAll (b.region.collect lits).2 rs).1 := by
  obtain ⟨htable, htexts⟩ := collectAll_outside (b.region.collect lits).2 b.rest rs
  rw [regions, List.cons_append, collectAll]
  refine ⟨htable, fun kind => ?_⟩
  rw [← htexts kind]
  simp only [textsOf, List.filterMap_cons, region]
  split <;> simp_all

/-- A script of closed blocks is read as these blocks. -/
theorem blocks_all {src : Text} (hlexemes : Source.lexemes src = bs.flatMap lexemes)
    (h : ∀ b ∈ bs, b.Proper) :
    blocks src =
      .ok
      (.ofCollected (collectAll {} (bs.flatMap regions)).1
        (collectAll {} (bs.flatMap regions)).2) := by
  rw [blocks, openEnd?_all hlexemes h, collected, hlexemes, regions_all h]

end ClosedBlock
end ScriptMinifier.Source
