import ScriptMinifier.Naming.Local
import ScriptMinifier.Proofs.Constant.Folding
import ScriptMinifier.Proofs.Naming.Capture

/-! Hexadecimal numbers under the passes that replace words.

Folding constants, renaming globals and renaming locals replace words wherever they stand, and
the digits of a hexadecimal number are a word to them. So a number is carried along like a name
(`hexLiterals_through_passes`): its digits become what the pass puts in the place of a word of
that spelling, and the numbers of a text stay exactly when the digits that come out are the
digits that went in. A script that names a global, a parameter or a constant like a number it
writes loses that number in each of the three passes (`numbers_replaced`). -/
namespace ScriptMinifier

open Syntax (Declaration Function)
open Text (HexThrough isWordChar isPlain lead? dollarWords hexLiterals)
open Naming (Pool renamed image newNames renameGlobals renameLocals)
open Constant (fold foldedPairs foldedValues verdicts replaceInTurn replaceName)

/-! ### Replacing what is not hidden -/

/-- What stands after a dollar sign when the words that are not hidden are replaced. -/
def visibleImage (values : Text.Dictionary Text) (hidden : List Text) (w : Text) : Option Text :=
  if w ∈ hidden then some w else (values.find? w).elim (some w) lead?

theorem hexThrough_visible {values : Text.Dictionary Text}
    (h : ∀ w v, values.find? w = some v → ∀ c ∈ v, isPlain c = true) (hidden : List Text)
    (t : Text) :
    HexThrough (visibleImage values hidden) t
      (Text.replaceWords (fun w => if hidden.contains w then none else values.find? w) t) := by
  apply Text.hexThrough_of_dollarWords
  apply Text.dollarWords_through
  · intro w v hw
    beta_reduce at hw
    by_cases hhidden : hidden.contains w = true
    · rw [if_pos hhidden] at hw
      cases hw
    · rw [if_neg hhidden] at hw
      exact h w v hw
  · intro w hne hword
    by_cases hhidden : w ∈ hidden
    · rw [Text.afterDollar, if_pos (List.contains_iff_mem.2 hhidden), visibleImage, if_pos hhidden]
      exact Text.lead?_word hne hword
    · rw [Text.afterDollar, if_neg fun hc => hhidden (List.contains_iff_mem.1 hc), visibleImage,
        if_neg hhidden]
      cases values.find? w with
      | none => exact Text.lead?_word hne hword
      | some v => rfl

/-! ### Renaming -/

/-- All new names are words. -/
def GivesWords (names : Text.Renaming) : Prop :=
  ∀ w new, names.find? w = some new → new ≠ [] ∧ ∀ c ∈ new, isWordChar c = true

theorem givesWords_deal (pool : Pool) (items : List Text) :
    GivesWords (.ofPairs (pool.deal items).1) := by
  intro w new h
  have hdrawn := Pool.mem_drawMany_of_mem_deal (Text.Dictionary.mem_of_find?_ofPairs h)
  obtain ⟨hne, hword⟩ := Pool.isWord_of_mem_drawMany hdrawn
  exact ⟨hne, List.all_eq_true.1 hword⟩

/-- A name is put in whole. -/
theorem visibleImage_of_givesWords {names : Text.Renaming} (h : GivesWords names)
    (hidden : List Text) :
    visibleImage names hidden = fun w => some (if w ∈ hidden then w else renamed names w) := by
  funext w
  rw [visibleImage]
  split
  · rfl
  · rw [renamed]
    cases hfind : names.find? w with
    | none => rfl
    | some new => exact Text.lead?_word (h w new hfind).1 (h w new hfind).2

theorem hexThrough_rename {names : Text.Renaming} (h : GivesWords names) (hidden : List Text)
    (t : Text) :
    HexThrough (fun w => some (if w ∈ hidden then w else renamed names w)) t
      (Text.replaceWords (fun w => if hidden.contains w then none else names.find? w) t) := by
  rw [← visibleImage_of_givesWords h]
  exact hexThrough_visible
    (fun w new hw c hc => Text.isPlain_of_isWordChar ((h w new hw).2 c hc)) hidden t

theorem hexThrough_renameAll {names : Text.Renaming} (h : GivesWords names) (t : Text) :
    HexThrough (fun w => some (renamed names w)) t (Text.replaceWords names.find? t) :=
  hexThrough_rename h [] t

/-- What a word of a function becomes when its parameters and locals are renamed. -/
def localImage (f : Function) (w : Text) : Text :=
  (renameLocals f).names.elim w fun names => renamed names w

/-- The lines of a body that renaming its locals keeps. -/
def keptBody (f : Function) : Text := Naming.dropLocals (renameLocals f).dropped f.body

theorem hexThrough_refl (t : Text) : HexThrough some t t := by
  apply Text.hexThrough_of_dollarWords
  rw [List.filterMap_some]

theorem hexThrough_renameLocals (f : Function) :
    HexThrough (fun w => some (localImage f w)) (keptBody f) (renameLocals f).function.body := by
  unfold localImage keptBody renameLocals
  split
  · exact hexThrough_refl f.body
  · exact hexThrough_renameAll (givesWords_deal _ _) _

/-! ### Folding -/

/-- What stands after a dollar sign when names are replaced in turn. -/
def imageInTurn : List (Text × Text) → Text → Option Text
  | [], w => some w
  | (name, value) :: rest, w => (if w = name then lead? value else some w).bind (imageInTurn rest)

theorem dollarWords_replaceName {value : Text} (h : ∀ c ∈ value, isPlain c = true) (name t : Text) :
    dollarWords (replaceName name value t) =
      (dollarWords t).filterMap fun w => if w = name then lead? value else some w := by
  apply Text.dollarWords_through
  · intro w v hw
    beta_reduce at hw
    split at hw
    · rw [← Option.some.inj hw]
      exact h
    · cases hw
  · intro w hne hword
    rw [Text.afterDollar]
    split
    · rfl
    · exact Text.lead?_word hne hword

theorem dollarWords_replaceInTurn {pairs : List (Text × Text)}
    (h : ∀ pair ∈ pairs, ∀ c ∈ pair.2, isPlain c = true) (t : Text) :
    dollarWords (replaceInTurn pairs t) = (dollarWords t).filterMap (imageInTurn pairs) := by
  induction pairs generalizing t with
  | nil => exact (List.filterMap_some ..).symm
  | cons pair rest ih =>
    obtain ⟨name, value⟩ := pair
    have hfirst := dollarWords_replaceName (h (name, value) List.mem_cons_self) name t
    have hrest := ih (fun pair hp => h pair (List.mem_cons_of_mem _ hp)) (replaceName name value t)
    rw [hfirst, List.filterMap_filterMap] at hrest
    exact hrest

theorem isPlain_of_foldedValues {p : Program} (w v : Text) (h : (foldedValues p).find? w = some v) :
    ∀ c ∈ v, isPlain c = true :=
  Constant.all_isPlain_of_mem_foldedPairs (Text.Dictionary.mem_of_find?_ofPairs h)

theorem hexThrough_folded {p : Program} (t : Text) :
    HexThrough (imageInTurn (foldedPairs (verdicts p))) t
    (replaceInTurn (foldedPairs (verdicts p)) t) :=
  Text.hexThrough_of_dollarWords
    (dollarWords_replaceInTurn (fun _ hpair => Constant.all_isPlain_of_mem_foldedPairs hpair) t)

/-! ### The three passes -/

theorem forall₂_map {α β : Type} {R : α → β → Prop} {g : α → β} (h : ∀ x, R x (g x)) (xs : List α) :
    List.Forall₂ R xs (xs.map g) :=
  List.forall₂_map_right_iff.2 (List.forall₂_same.2 fun x _ => h x)

theorem rel_map {R : Text → Text → Prop} {g : Text → Text} (h : ∀ t, R t (g t)) (o : Option Text) :
    Option.Rel R o (o.map g) := by
  cases o with
  | none => exact .none
  | some t => exact .some (h t)

theorem givesWords_newNames (p : Program) (pool : Pool) : GivesWords (newNames p pool) :=
  givesWords_deal _ _

/-- **The passes that replace words carry the hexadecimal numbers along with them.** In turn:
the values and the bodies of a program whose globals are renamed, whatever the pool; the kept
lines of each body whose locals are renamed; the values that stay and the bodies of a program
whose constants are folded. Beside each text stands what a word becomes there. -/
theorem hexLiterals_through_passes (p : Program) (pool : Pool) :
    (List.Forall₂
        (fun d d' =>
          Option.Rel (HexThrough fun w => some (renamed (newNames p pool) w)) d.value d'.value)
        p.declarations (renameGlobals p pool).program.declarations ∧
      List.Forall₂
      (fun f f' => HexThrough (fun w => some (image (newNames p pool) f w)) f.body f'.body)
        p.functions (renameGlobals p pool).program.functions) ∧
    List.Forall₂ (fun f f' => HexThrough (fun w => some (localImage f w)) (keptBody f) f'.body)
      p.functions (Naming.renameAllLocals p).functions ∧
    (∃ retained : List Declaration, retained.Sublist p.declarations ∧
      List.Forall₂
        (fun d d' => d.name = d'.name ∧
          Option.Rel (HexThrough (imageInTurn (foldedPairs (verdicts p)))) d.value d'.value)
        retained (fold p).declarations) ∧
    List.Forall₂
    (fun f f' => HexThrough (visibleImage (foldedValues p) f.scopedNames) f.body f'.body)
      p.functions (fold p).functions := by
  refine ⟨⟨?_, ?_⟩, ?_, ?_, ?_⟩
  · apply forall₂_map
    intro d
    exact rel_map (hexThrough_renameAll (givesWords_newNames p pool)) d.value
  · apply forall₂_map
    intro f
    exact hexThrough_rename (givesWords_newNames p pool) f.scopedNames f.body
  · apply forall₂_map
    exact hexThrough_renameLocals
  · obtain ⟨retained, hsub, heq⟩ := Constant.declarations_fold p
    refine ⟨retained, hsub, ?_⟩
    rw [heq]
    apply forall₂_map
    intro d
    exact ⟨rfl, rel_map hexThrough_folded d.value⟩
  · apply forall₂_map
    intro f
    exact hexThrough_visible isPlain_of_foldedValues f.scopedNames f.body

/-! ### A name spelled like a number -/

/-- A global, a constant or a function's parameter spelled like a number. -/
def spelledProgram (constant : Bool) : Program :=
  { declarations := [
      { constant, array := false, type := "integer".toList, name := "FF".toList,
        value := some ['7'] }],
    functions := [
      { name := "main".toList, params := "integer c".toList, result := "nothing".toList,
        body := "call f($FF,$c)".toList, entry := true }] }

/-- The numbers in the bodies of a program. -/
def bodyNumbers (p : Program) : List (List Text) := p.functions.map fun f => hexLiterals f.body

/-- Each pass takes a number that is spelled like a name for the name. -/
theorem numbers_replaced :
    (∀ constant, bodyNumbers (spelledProgram constant) = [["FF".toList, ['c']]]) ∧
      bodyNumbers (renameGlobals (spelledProgram false) (Pool.new .globals)).program =
      [[['A'], ['c']]] ∧
      bodyNumbers (Naming.renameAllLocals (spelledProgram false)) = [["FF".toList, ['a']]] ∧
      bodyNumbers (fold (spelledProgram true)) = [[['7'], ['c']]] := by
  rw [← Naming.program_renameGlobals_congr Pool.dealsLike_unreserved]
  refine ⟨by decide +kernel, by decide +kernel, by decide +kernel, by decide +kernel⟩

end ScriptMinifier
