import ScriptMinifier.Naming.Global
import ScriptMinifier.Proofs.Naming.Dealing
import ScriptMinifier.Proofs.Text.Dictionary
import ScriptMinifier.Proofs.Text.Segment

/-! When two words of a function meet.

Renaming the globals of a program replaces every word of a body by its image. Two words
that are both replaced keep apart, since no two names are dealt the same new one. A word
that is replaced and one that is not keep apart as well, as long as the second is reserved,
which every word of the program is that is not itself renamed. What is left is a parameter
or local that hides a renamed global: its name stays inside the function, yet it is not
reserved, and it can be dealt to another global that the function uses. Nothing else makes
two words of a function meet (`words_apart_iff_no_capture`), whatever pool the names come
from, and this does happen (`hiding_captures`). -/
namespace ScriptMinifier.Naming

open Syntax (Function)

/-! ### The words of a function and their images -/

/-- The words of a function's body and of its parameter list. -/
def wordsOf (f : Function) : List Text := Text.words f.body ++ Text.words f.params

/-- What a word of a function becomes: its new name, unless the function hides it. -/
def image (names : Text.Renaming) (f : Function) (w : Text) : Text :=
  if w ∈ f.scopedNames then w else (names.find? w).getD w

/-- A name that the function binds is the new name of another of its words; the global it
hides is renamed too. -/
structure Captures (names : Text.Renaming) (f : Function) (bound reference : Text) : Prop where
  bound_mem : bound ∈ wordsOf f
  bound_scoped : bound ∈ f.scopedNames
  bound_renamed : names.contains bound = true
  reference_mem : reference ∈ wordsOf f
  reference_visible : reference ∉ f.scopedNames
  renamed_to : names.find? reference = some bound

/-- The names that renaming a program gives out. -/
def newNames (p : Program) (pool : Pool) : Text.Renaming := .ofPairs (renameGlobals p pool).names

theorem image_of_scoped {names : Text.Renaming} {f : Function} {w : Text} (h : w ∈ f.scopedNames) :
    image names f w = w := if_pos h

theorem image_of_kept {names : Text.Renaming} {f : Function} {w : Text} (h : names.find? w = none) :
    image names f w = w := by
  rw [image, h]
  split <;> rfl

theorem image_of_renamed {names : Text.Renaming} {f : Function} {w new : Text}
    (hs : w ∉ f.scopedNames) (h : names.find? w = some new) : image names f w = new := by
  rw [image, if_neg hs, h]
  rfl

/-- Only what a word becomes counts, not whether it is listed. -/
theorem replaceWords_congr {f g : Text → Option Text} (h : ∀ w, (f w).getD w = (g w).getD w)
    (t : Text) :
    Text.replaceWords f t = Text.replaceWords g t := by
  have : Text.Segment.replaced f = Text.Segment.replaced g := by
    funext s
    cases s with
    | word w => exact h w
    | placeholder t => rfl
    | other t => rfl
  rw [Text.replaceWords, Text.replaceWords, this]

theorem renameFunction_eq (names : Text.Renaming) (f : Function) :
    renameFunction names f =
      { f with
        name := renamed names f.name
        body := Text.replaceWords (fun w => some (image names f w)) f.body } := by
  have hbody :
      Text.replaceWords (fun w => if f.scopedNames.contains w then none else names.find? w) f.body =
      Text.replaceWords (fun w => some (image names f w)) f.body := by
    refine replaceWords_congr (fun w => ?_) _
    by_cases h : w ∈ f.scopedNames
    · rw [if_pos (List.contains_iff_mem.2 h), image_of_scoped h]
      rfl
    · rw [if_neg fun hc => h (List.contains_iff_mem.1 hc), image, if_neg h]
      rfl
  rw [renameFunction, ← hbody]

/-! ### New names are fresh -/

variable {p : Program} {pool : Pool}

theorem find?_newNames {w new : Text} :
    (newNames p pool).find? w = some new ↔
    (w, new) ∈ ((reserveKept p pool).deal (globalOrder p)).1 := by
  refine Text.Dictionary.find?_ofPairs_eq_some ?_
  show (((reserveKept p pool).deal (globalOrder p)).1.map Prod.fst).Nodup
  rw [Pool.map_fst_deal]
  exact Text.nodup_distinct _

theorem find?_newNames_eq_none {w : Text} (h : (newNames p pool).find? w = none) :
    w ∉ globalOrder p := by
  intro hw
  rw [← Pool.map_fst_deal (reserveKept p pool) (globalOrder p)] at hw
  obtain ⟨⟨old, new⟩, hmem, rfl⟩ := List.mem_map.1 hw
  rw [find?_newNames.2 hmem] at h
  cases h

/-- A word of the program that keeps its form is no new name. -/
theorem ne_of_kept {w v new : Text} (hw : w ∈ programWords p)
    (hkept : (newNames p pool).find? w = none)
    (hv : (newNames p pool).find? v = some new) : new ≠ w := by
  rintro rfl
  have hfree := Pool.isFree_of_mem_drawMany (Pool.mem_drawMany_of_mem_deal (find?_newNames.1 hv))
  have hreserved : new ∈ (reserveKept p pool).reserved := by
    refine List.mem_append_left _ (List.mem_filter.2 ⟨hw, ?_⟩)
    rw [Bool.not_eq_eq_eq_not, Bool.not_true]
    exact Bool.eq_false_iff.2 fun h => find?_newNames_eq_none hkept (List.contains_iff_mem.1 h)
  rw [Pool.isFree, Pool.isReserved, List.contains_iff_mem.2 hreserved, Bool.not_true,
    Bool.and_false] at hfree
  exact Bool.false_ne_true hfree

/-- Pools that deal alike give out the same names. -/
theorem names_renameGlobals_congr {pool' : Pool} (h : pool.DealsLike pool') (p : Program) :
    (renameGlobals p pool').names = (renameGlobals p pool).names := (h.reserve _).deal _

theorem newNames_congr {pool' : Pool} (h : pool.DealsLike pool') (p : Program) :
    newNames p pool' = newNames p pool := by
  rw [newNames, newNames, names_renameGlobals_congr h]

theorem program_renameGlobals_congr {pool' : Pool} (h : pool.DealsLike pool') (p : Program) :
    (renameGlobals p pool').program = (renameGlobals p pool).program :=
  congrArg (renameProgram · p) (newNames_congr h p)

theorem mem_programWords {f : Function} (hf : f ∈ p.functions) {w : Text} (hw : w ∈ wordsOf f) :
    w ∈ programWords p := by
  refine List.mem_append_right _ (List.mem_flatMap.2 ⟨f, hf, ?_⟩)
  rcases List.mem_append.1 hw with hbody | hparams
  · exact List.mem_append_right _ hbody
  · exact List.mem_append_left _ (List.mem_cons_of_mem _ (List.mem_cons_of_mem _ hparams))

/-- A replaced word meets only a word that hides a renamed global. -/
theorem captures_of_image_eq {f : Function} (hf : f ∈ p.functions) {u v new : Text}
    (hu : u ∈ wordsOf f) (hv : v ∈ wordsOf f) (hvisible : v ∉ f.scopedNames)
    (hnew : (newNames p pool).find? v = some new) (heq : image (newNames p pool) f u = new)
    (hne : u ≠ v) :
    Captures (newNames p pool) f u v := by
  by_cases hs : u ∈ f.scopedNames
  · rw [image_of_scoped hs] at heq
    subst heq
    refine ⟨hu, hs, ?_, hv, hvisible, hnew⟩
    rw [Text.Dictionary.contains, Option.isSome_iff_ne_none]
    exact fun hkept => ne_of_kept (mem_programWords hf hu) hkept hnew rfl
  · exfalso
    match hfound : (newNames p pool).find? u with
    | none =>
      rw [image_of_kept hfound] at heq
      exact ne_of_kept (mem_programWords hf hu) hfound hnew heq.symm
    | some other =>
      rw [image_of_renamed hs hfound] at heq
      subst heq
      exact hne (Pool.deal_injective (find?_newNames.1 hfound) (find?_newNames.1 hnew))

/-- Two words of a function meet exactly when one is captured. -/
theorem exists_meeting_iff (pool : Pool) {f : Function} (hf : f ∈ p.functions) :
    (∃ u ∈ wordsOf f, ∃ v ∈ wordsOf f, u ≠ v ∧
      image (newNames p pool) f u = image (newNames p pool) f v) ↔
      ∃ bound reference, Captures (newNames p pool) f bound reference := by
  constructor
  · rintro ⟨u, hu, v, hv, hne, heq⟩
    by_cases hvs : v ∈ f.scopedNames ∨ (newNames p pool).find? v = none
    · have hfixed : image (newNames p pool) f v = v := hvs.elim image_of_scoped image_of_kept
      rw [hfixed] at heq
      by_cases hus : u ∈ f.scopedNames ∨ (newNames p pool).find? u = none
      · exact absurd ((hus.elim image_of_scoped image_of_kept).symm.trans heq) hne
      · rw [not_or] at hus
        obtain ⟨new, hnew⟩ := Option.ne_none_iff_exists'.1 hus.2
        rw [image_of_renamed hus.1 hnew] at heq
        exact ⟨v, u, captures_of_image_eq hf hv hu hus.1 hnew (hfixed.trans heq.symm) hne.symm⟩
    · rw [not_or] at hvs
      obtain ⟨new, hnew⟩ := Option.ne_none_iff_exists'.1 hvs.2
      rw [image_of_renamed hvs.1 hnew] at heq
      exact ⟨u, v, captures_of_image_eq hf hu hv hvs.1 hnew heq hne⟩
  · rintro ⟨bound, reference, h⟩
    refine ⟨bound, h.bound_mem, reference, h.reference_mem, ?_, ?_⟩
    · rintro rfl
      exact h.reference_visible h.bound_scoped
    · rw [image_of_scoped h.bound_scoped, image_of_renamed h.reference_visible h.renamed_to]

/-- A visible word becomes a bound name exactly when it is captured. -/
theorem image_eq_bound_iff {f : Function} (hf : f ∈ p.functions) {bound reference : Text}
    (hb : bound ∈ wordsOf f) (hs : bound ∈ f.scopedNames) (hr : reference ∈ wordsOf f)
    (hvisible : reference ∉ f.scopedNames) :
    image (newNames p pool) f reference = bound ↔ Captures (newNames p pool) f bound reference := by
  constructor
  · intro heq
    have hne : bound ≠ reference := fun h => hvisible (h ▸ hs)
    match hfound : (newNames p pool).find? reference with
    | none =>
      rw [image_of_kept hfound] at heq
      exact absurd heq.symm hne
    | some new =>
      rw [image_of_renamed hvisible hfound] at heq
      exact captures_of_image_eq hf hb hr hvisible hfound ((image_of_scoped hs).trans heq.symm) hne
  · intro h
    exact image_of_renamed hvisible h.renamed_to

/-- **Renaming globals replaces every word of a body by its image, and keeps the words of a
function apart exactly when none is captured.** A visible word becomes a name that the
function binds in the captured case only. -/
theorem words_apart_iff_no_capture (p : Program) (pool : Pool) :
    (renameGlobals p pool).program.functions = p.functions.map (fun f =>
        { f with
          name := renamed (newNames p pool) f.name
          body := Text.replaceWords (fun w => some (image (newNames p pool) f w)) f.body }) ∧
      ∀ f ∈ p.functions,
        ((∀ u ∈ wordsOf f, ∀ v ∈ wordsOf f,
            image (newNames p pool) f u = image (newNames p pool) f v ↔ u = v) ↔
          ∀ bound reference, ¬ Captures (newNames p pool) f bound reference) ∧
        ∀ bound ∈ wordsOf f, bound ∈ f.scopedNames →
          ∀ reference ∈ wordsOf f, reference ∉ f.scopedNames →
            (image (newNames p pool) f reference = bound ↔
              Captures (newNames p pool) f bound reference) := by
  refine ⟨List.map_congr_left fun f _ => renameFunction_eq _ f, fun f hf => ⟨?_, ?_⟩⟩
  · have hmeet := exists_meeting_iff pool hf
    constructor
    · intro hinj bound reference hcap
      obtain ⟨u, hu, v, hv, hne, heq⟩ := hmeet.2 ⟨bound, reference, hcap⟩
      exact hne ((hinj u hu v hv).1 heq)
    · intro hnone u hu v hv
      refine ⟨fun heq => ?_, fun h => by rw [h]⟩
      by_contra hne
      obtain ⟨bound, reference, hcap⟩ := hmeet.1 ⟨u, hu, v, hv, hne, heq⟩
      exact hnone bound reference hcap
  · intro bound hb hs reference hr hvisible
    exact image_eq_bound_iff hf hb hs hr hvisible

/-- A function with a parameter that hides the global `A`, and a use of the global `g`. -/
def hidingFunction : Function :=
  { name := ['F'], params := "integer A".toList, result := "nothing".toList,
    body := "set g=A".toList, uses := 1, entry := false }

/-- Its caller, which binds no name. -/
def hidingCaller : Function :=
  { name := "main".toList, params := "nothing".toList, result := "nothing".toList,
    body := "call F(g)\nset g=1".toList, uses := 1, entry := true }

/-- A program in which `g` is used more often than `A`. -/
def hidingProgram : Program :=
  { declarations := [
      { constant := false, array := false, type := "integer".toList, name := ['A'], value := none },
      { constant := false, array := false, type := "integer".toList, name := ['g'], value := none,
        uses := 3 }],
    functions := [hidingCaller, hidingFunction] }

theorem hidingCaller_words_apart :
    hidingCaller ∈ hidingProgram.functions ∧
      ∀ u ∈ wordsOf hidingCaller, ∀ v ∈ wordsOf hidingCaller,
        image (newNames hidingProgram (Pool.new .globals)) hidingCaller u =
          image (newNames hidingProgram (Pool.new .globals)) hidingCaller v ↔ u = v := by
  have hmem : hidingCaller ∈ hidingProgram.functions := List.mem_cons_self
  refine ⟨hmem, ((words_apart_iff_no_capture _ _).2 _ hmem).1.2 fun bound reference h => ?_⟩
  have hnone : hidingCaller.scopedNames = [] := by decide +kernel
  have hscoped := h.bound_scoped
  rw [hnone] at hscoped
  cases hscoped

/-- `g` becomes `A` inside a function whose parameter is `A`: the body `set g=A` turns into
`set A=A`. -/
theorem hiding_captures :
    hidingFunction ∈ hidingProgram.functions ∧
      ((renameGlobals hidingProgram (Pool.new .globals)).program.functions.map Function.body)[1]? =
        some "set A=A".toList ∧
      ¬ ∀ u ∈ wordsOf hidingFunction, ∀ v ∈ wordsOf hidingFunction,
        (image (newNames hidingProgram (Pool.new .globals)) hidingFunction u =
          image (newNames hidingProgram (Pool.new .globals)) hidingFunction v ↔ u = v) := by
  have hbody :
      ((renameGlobals hidingProgram (Pool.new .globals)).program.functions.map Function.body)[1]? =
      some "set A=A".toList := by
    rw [← program_renameGlobals_congr Pool.dealsLike_unreserved]
    decide +kernel
  have hA : ['A'] ∈ wordsOf hidingFunction := by decide +kernel
  have hg : ['g'] ∈ wordsOf hidingFunction := by decide +kernel
  have heq : image (newNames hidingProgram (Pool.new .globals)) hidingFunction ['A'] =
      image (newNames hidingProgram (Pool.new .globals)) hidingFunction ['g'] := by
    rw [← newNames_congr Pool.dealsLike_unreserved]
    decide +kernel
  refine ⟨List.mem_cons_of_mem _ List.mem_cons_self, hbody, fun hapart => ?_⟩
  have hsame := (hapart _ hA _ hg).1 heq
  exact absurd hsame (by decide)

end ScriptMinifier.Naming
