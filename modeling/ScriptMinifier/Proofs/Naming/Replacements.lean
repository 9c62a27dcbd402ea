import ScriptMinifier.Proofs.Naming.Locals
import ScriptMinifier.Proofs.Naming.Order
import ScriptMinifier.Proofs.Steps
import ScriptMinifier.Proofs.WordPasses

/-! What takes the place of a word.

Folding puts in the text of a value, and renaming a name that has been dealt. Neither is a word
of a local's declaration, and only the names of declarations and functions give way, which are
identifiers in a program that has been read (`named_readProgram`). So both passes replace
identifiers by what is foreign to such a declaration (`foreign_folded`, `foreign_renamed`). -/
namespace ScriptMinifier

open Syntax (Declaration Function datatypes)
open Text (isIdent isWordChar Smooth)
open Naming (Pool newNames globalOrder)

/-! ### Values and names -/

namespace Constant

/-- The only identifiers among the texts of values are the truth values. -/
theorem Value.exists_boolText {v : Value} (h : isIdent v.text = true) :
    ∃ b, v.text = Value.boolText b := by
  cases v with
  | int n =>
    rw [Value.text, Text.ofInt] at h
    split at h
    · cases h
    · cases hdigits : Text.ofNat n.natAbs with
      | nil => exact absurd hdigits Nat.toDigits_ne_nil
      | cons c rest =>
        have hdigit : c.isDigit = true :=
          Nat.isDigit_of_mem_toDigits (by decide) (by decide) (hdigits ▸ List.mem_cons_self)
        rw [hdigits] at h
        rw [Text.not_isDigit_of_isIdent h c rfl] at hdigit
        cases hdigit
  | real x =>
    have hword := Text.isWordChar_of_isIdent h '.' (Value.point_mem_realText x)
    exact absurd hword (by decide)
  | bool b => exact ⟨b, rfl⟩

theorem Value.text_not_mem (v : Value) :
    v.text ∉ "local".toList :: "array".toList :: datatypes := by
  intro hmem
  have hident : isIdent v.text = true := by
    rcases List.mem_cons.1 hmem with h | h
    · rw [h]
      decide
    · rcases List.mem_cons.1 h with h | h
      · rw [h]
        decide
      · exact (Syntax.isIdent_datatypes _ h).1
  obtain ⟨b, hb⟩ := Value.exists_boolText hident
  rw [hb, List.mem_cons, List.mem_cons] at hmem
  have htype : Value.boolText b ∈ datatypes :=
    (hmem.resolve_left (by cases b <;> decide)).resolve_left (by cases b <;> decide)
  cases b with
  | true => exact (Syntax.ne_of_mem_datatypes htype).1 rfl
  | false => exact (Syntax.ne_of_mem_datatypes htype).2 rfl

end Constant

theorem GivesWords.smooth {names : Text.Renaming} (h : GivesWords names) : Smooth names.find? :=
  fun w new hfind =>
    ⟨(h w new hfind).1, fun c hc => Text.isSmooth_of_isWordChar ((h w new hfind).2 c hc)⟩

/-- Replacements by names. -/
def GivesIdents (g : Text → Option Text) : Prop := ∀ w r, g w = some r → isIdent r = true

namespace GivesIdents

variable {g : Text → Option Text}

theorem smooth (h : GivesIdents g) : Smooth g := fun w r hr =>
  ⟨Text.ne_nil_of_isIdent (h w r hr), fun c hc => Text.isSmooth_of_isWordChar
    (Text.isWordChar_of_isIdent (h w r hr) c hc)⟩

theorem getD (h : GivesIdents g) {w : Text} (hw : isIdent w = true) :
    isIdent ((g w).getD w) = true := by
  cases hgw : g w with
  | none => exact hw
  | some r => exact h w r hgw

end GivesIdents

theorem givesIdents_deal (pool : Pool) (items : List Text) :
    GivesIdents (Text.Dictionary.ofPairs (pool.deal items).1).find? :=
  fun _ _ h => Pool.isIdent_of_mem_drawMany
    (Pool.mem_drawMany_of_mem_deal (Text.Dictionary.mem_of_find?_ofPairs h))

/-! ### Names of a program -/

/-- A program whose declarations and functions have identifiers for names. -/
structure Program.Named (p : Program) : Prop where
  declarations : ∀ name ∈ p.declarationNames, isIdent name = true
  functions : ∀ name ∈ p.functionNames, isIdent name = true

theorem Program.Named.of_subset {p q : Program} (h : p.Named)
    (hdeclarations : q.declarationNames ⊆ p.declarationNames)
    (hfunctions : q.functionNames ⊆ p.functionNames) : q.Named :=
  ⟨fun name hname => h.declarations name (hdeclarations hname), fun name hname => h.functions name
    (hfunctions hname)⟩

theorem exists_parse?_of_readProgram {src : Text} {p : Program} (h : readProgram src = .ok p)
    {d : Declaration} (hd : d ∈ p.declarations) : ∃ line, Declaration.parse? line = some d := by
  obtain ⟨b, -, hb⟩ := readProgram_eq_ok.1 h
  obtain ⟨line, -, hparse⟩ :=
    exists_of_mem_right (Declaration.parseAll_eq_ok.1 (Program.ofBlocks_eq_ok.1 hb).2.1) hd
  exact ⟨line, hparse⟩

theorem named_readProgram {src : Text} {p : Program} (h : readProgram src = .ok p) : p.Named := by
  constructor
  · intro name hname
    obtain ⟨d, hd, rfl⟩ := List.mem_map.1 hname
    obtain ⟨line, hparse⟩ := exists_parse?_of_readProgram h hd
    exact (Declaration.parse?_eq_some hparse).2.2.1
  · intro name hname
    obtain ⟨b, -, hb⟩ := readProgram_eq_ok.1 h
    obtain ⟨-, -, -, hfunctions⟩ := Program.ofBlocks_eq_ok.1 hb
    obtain ⟨f, hf, rfl⟩ := List.mem_map.1 hname
    obtain ⟨t, -, hparse⟩ := exists_of_mem_right hfunctions hf
    obtain ⟨header, fields, hheader, -, heq, -⟩ := Function.parse_eq_ok hparse
    rw [heq]
    exact (Syntax.Header.parse?_eq_some hheader).2.1

theorem isIdent_type_readProgram {src : Text} {p : Program} (h : readProgram src = .ok p)
    {d : Declaration} (hd : d ∈ p.declarations) : isIdent d.type = true := by
  obtain ⟨line, hparse⟩ := exists_parse?_of_readProgram h hd
  exact Syntax.isIdent_of_isDatatype (Declaration.parse?_eq_some hparse).2.1

/-! ### The two passes -/

/-- Folding replaces names of constants by values. -/
theorem foreign_folded {p : Program} (h : ∀ name ∈ p.declarationNames, isIdent name = true) :
    Foreign (Constant.foldedValues p).find? := by
  have hpair : ∀ w r, (Constant.foldedValues p).find? w = some r →
      (w, r) ∈ Constant.foldedPairs (Constant.verdicts p) :=
    fun w r hr => Text.Dictionary.mem_of_find?_ofPairs hr
  refine ⟨fun w r hr => ?_, fun w r hr => ?_, fun w r hr => ?_⟩
  · obtain ⟨v, rfl⟩ := Constant.exists_value_of_mem_foldedPairs (hpair w r hr)
    exact ⟨v.text_ne_nil, List.all_eq_true.1 v.all_isSmooth_text⟩
  · exact h w (Constant.foldedNames_subset p (List.mem_map_of_mem (hpair w r hr)))
  · obtain ⟨v, rfl⟩ := Constant.exists_value_of_mem_foldedPairs (hpair w r hr)
    exact v.text_not_mem

namespace Naming

theorem mem_globalOrder {p : Program} {name : Text} : name ∈ globalOrder p ↔
    name ∈ p.declarationNames ∨ ∃ f ∈ p.functions, f.entry = false ∧ f.name = name := by
  have hkinds : name ∈ (p.constants ++ p.globals).map Declaration.name ↔
      name ∈ p.declarationNames := by
    simp only [Program.constants, Program.globals, Program.declarationNames, List.mem_map,
      List.mem_append, List.mem_filter, ← and_or_left]
    simp
  have hitems : name ∈ (globalItems p).map Prod.fst ↔
      name ∈ (p.constants ++ p.globals).map Declaration.name ∨
      ∃ f ∈ p.functions, f.entry = false ∧ f.name = name := by
    simp [globalItems, and_assoc, or_assoc]
  rw [globalOrder, Text.mem_distinct, mem_byCount, hitems, hkinds]

/-- Only names of declarations and functions are replaced. -/
theorem mem_names_of_find? {p : Program} {pool : Pool} {w r : Text}
    (h : (newNames p pool).find? w = some r) :
    w ∈ p.declarationNames ∨ w ∈ p.functionNames := by
  have hmem : w ∈ globalOrder p := by
    rw [← Pool.map_fst_deal (reserveKept p pool) (globalOrder p)]
    exact List.mem_map_of_mem (find?_newNames.1 h)
  refine (mem_globalOrder.1 hmem).imp_right ?_
  rintro ⟨f, hf, -, rfl⟩
  exact List.mem_map_of_mem hf

end Naming

/-- The words that declare a local are words of the language. -/
theorem Syntax.localWords_subset_language :
    "local".toList :: "array".toList :: datatypes ⊆ keywords ++ datatypes := by
  refine List.cons_subset.2 ⟨List.mem_append_left _ (by decide), List.cons_subset.2 ⟨?_, ?_⟩⟩
  · exact List.mem_append_left _ (by decide)
  · exact List.subset_append_right _ _

/-- Renaming replaces names of declarations and functions by names that have been dealt. -/
theorem foreign_renamed {p : Program} (h : p.Named) :
    Foreign (newNames p (Pool.new .globals)).find? := by
  refine ⟨(givesWords_newNames p _).smooth, fun w r hr => ?_, fun w r hr => ?_⟩
  · exact (Naming.mem_names_of_find? hr).elim (h.declarations w) (h.functions w)
  · have hfree :=
      Pool.isFree_of_mem_drawMany (Pool.mem_drawMany_of_mem_deal (Naming.find?_newNames.1 hr))
    intro hmem
    have htaken : r ∈ (Naming.reserveKept p (Pool.new .globals)).reserved :=
      List.mem_append_right _ (Syntax.localWords_subset_language hmem)
    rw [Pool.isFree, Pool.isReserved, List.contains_iff_mem.2 htaken, Bool.not_true,
      Bool.and_false] at hfree
    cases hfree

/-! ### Functions -/

/-- The words that a function does not bind, with their replacements. -/
def visible (values : Text.Dictionary Text) (f : Function) (w : Text) : Option Text :=
  if f.scopedNames.contains w then none else values.find? w

theorem visible_eq_none {values : Text.Dictionary Text} {f : Function} {w : Text}
    (h : w ∈ f.scopedNames ∨ values.find? w = none) : visible values f w = none := by
  rw [visible]
  rcases h with hbound | hfind
  · exact if_pos (List.contains_iff_mem.2 hbound)
  · rw [hfind]
    split <;> rfl

theorem find?_of_visible {values : Text.Dictionary Text} {f : Function} {w r : Text}
    (h : visible values f w = some r) :
    values.find? w = some r := by
  rw [visible] at h
  split at h
  · cases h
  · exact h

theorem foreign_visible {values : Text.Dictionary Text} (h : Foreign values.find?) (f : Function) :
    Foreign (visible values f) :=
  ⟨fun w r hr => h.smooth w r (find?_of_visible hr),
    fun w r hr => h.ident w r (find?_of_visible hr),
    fun w r hr => h.fresh w r (find?_of_visible hr)⟩

theorem rewritten_folded {p : Program} (h : p.Named) (f : Function) :
    Naming.Rewritten (visible (Constant.foldedValues p) f) f
    (Constant.replaceIn (Constant.foldedValues p) f) :=
  ⟨foreign_visible (foreign_folded h.declarations) f,
    fun _ hw => visible_eq_none (.inl hw), rfl, rfl⟩

theorem rewritten_renamed {p : Program} (h : p.Named) (f : Function) :
    Naming.Rewritten (visible (newNames p (Pool.new .globals)) f) f
      (Naming.renameFunction (newNames p (Pool.new .globals)) f) :=
  ⟨foreign_visible (foreign_renamed h) f, fun _ hw => visible_eq_none (.inl hw), rfl, rfl⟩

/-- A function whose text stays is rewritten by replacing nothing. -/
theorem rewritten_none {f f' : Function} (hparams : f'.params = f.params)
    (hbody : f'.body = f.body) :
    Naming.Rewritten (fun _ => none) f f' :=
  ⟨⟨nofun, nofun, nofun⟩, fun _ _ => rfl, hparams, by rw [hbody, Text.replaceWords_none]⟩

end ScriptMinifier
