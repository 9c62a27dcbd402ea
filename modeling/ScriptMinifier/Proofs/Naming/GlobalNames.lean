import ScriptMinifier.Proofs.Naming.History
import ScriptMinifier.Proofs.Naming.Order
import ScriptMinifier.Proofs.Naming.Replacements

/-! The names that globals get.

In a program whose names are distinct, every declaration and every function that is no entry is
dealt a name of its own. The name is fresh: the pool has not dealt it before, whatever was asked
of the pool, and it is no word that stays in the program. It is as short as its uses earn: more
uses never make it longer, and among equals the pool is asked for constants, for globals and for
functions in turn (`wellNamed_renameGlobals`). -/
namespace ScriptMinifier

open Syntax (Declaration Function)

theorem Text.distinct_of_nodup {ts : List Text} (h : ts.Nodup) : distinct ts = ts := by
  induction ts with
  | nil => rfl
  | cons t rest ih =>
    obtain ⟨hnew, hrest⟩ := List.nodup_cons.1 h
    rw [distinct, ih hrest, List.filter_eq_self.2 fun s hs => ?_]
    rw [bne_iff_ne]
    rintro rfl
    exact hnew hs

namespace Naming

variable {p : Program} {pool : Pool}

/-! ### What is renamed -/

/-- The names of the items with a number of uses: constants, then globals, then functions that are
no entries, each kind in the order of the program. -/
def namesUsed (p : Program) (uses : Nat) : List Text :=
  (p.constants.filter (·.uses = uses)).map Declaration.name ++
    (p.globals.filter (·.uses = uses)).map Declaration.name ++
    (p.functions.filter fun f => !f.entry && f.uses = uses).map Function.name

theorem map_fst_globalItems (p : Program) : (globalItems p).map Prod.fst =
    (p.constants ++ p.globals).map Declaration.name ++
    (p.functions.filter (!·.entry)).map Function.name := by
  simp only [globalItems, List.map_append, List.map_map, Function.comp_def]

theorem map_fst_filter_globalItems (p : Program) (uses : Nat) :
    ((globalItems p).filter (·.2 = (uses : Int))).map Prod.fst = namesUsed p uses := by
  simp only [globalItems, namesUsed, List.filter_append, List.filter_map, List.map_append,
    List.map_map, List.filter_filter, Function.comp_def, Int.natCast_inj, Bool.and_comm]

/-- Names that are distinct in the program are distinct among the items. -/
theorem nodup_globalItems (h : (p.declarationNames ++ p.functionNames).Nodup) :
    ((globalItems p).map Prod.fst).Nodup := by
  have hkinds : ((p.constants ++ p.globals).map Declaration.name).Perm p.declarationNames :=
    (List.filter_append_perm Declaration.constant p.declarations).map Declaration.name
  have hfunctions : ((p.functions.filter (!·.entry)).map Function.name).Sublist p.functionNames :=
    List.filter_sublist.map Function.name
  rw [map_fst_globalItems, (hkinds.append_right _).nodup_iff]
  exact h.sublist ((List.Sublist.refl _).append hfunctions)

theorem globalOrder_eq_byCount (h : (p.declarationNames ++ p.functionNames).Nodup) :
    globalOrder p = byCount (globalItems p) :=
  Text.distinct_of_nodup ((byCount_perm _).nodup_iff.2 (nodup_globalItems h))

/-! ### What renaming owes -/

/-- What renaming the globals of a program owes, where `pool` is the pool it draws from and
`before` are the names that this pool has dealt. -/
structure WellNamed (p : Program) (pool : Pool) (before : List Text) (r : GlobalRenaming) :
    Prop where
  /-- Each old name has one new name, -/
  once : (r.names.map Prod.fst).Nodup
  /-- and the old names are those of the declarations and of the functions that are no entries. -/
  total : ∀ name, name ∈ r.names.map Prod.fst ↔
    name ∈ p.declarationNames ∨ ∃ f ∈ p.functions, f.entry = false ∧ f.name = name
  /-- No new name is given twice, -/
  injective : (r.names.map Prod.snd).Nodup
  /-- each is a name of a global -/
  upper : ∀ new ∈ r.names.map Prod.snd, new.any Char.isUpper = true
  /-- and no word of the language; -/
  language : ∀ new ∈ r.names.map Prod.snd, new ∉ Syntax.keywords ++ Syntax.datatypes
  /-- the pool has not dealt it before, -/
  undealt : ∀ new ∈ r.names.map Prod.snd, new ∉ before
  /-- and no word that stays in the program is the same. -/
  foreign : ∀ new ∈ r.names.map Prod.snd, ∀ w ∈ programWords p, w ∉ r.names.map Prod.fst → new ≠ w
  /-- Declarations get their new names, -/
  declarations : r.program.declarationNames = p.declarationNames.map (renamed (.ofPairs r.names))
  /-- and so do functions, except that entries keep theirs. -/
  functions : r.program.functionNames =
    p.functions.map fun f => if f.entry then f.name else renamed (.ofPairs r.names) f.name
  /-- The pool deals the new names in the order in which they are listed, -/
  dealing : r.names.map Prod.snd =
    ((pool.reserve ((programWords p).filter (!(r.names.map Prod.fst).contains ·))).drawMany
      r.names.length).1
  /-- more uses never make a name longer, -/
  ranked : ∀ old new old' new' uses uses', (old, new) ∈ r.names → (old', new') ∈ r.names →
    old ∈ namesUsed p uses → old' ∈ namesUsed p uses' → uses' < uses → new.length ≤ new'.length
  /-- and items of equal use come as constants, globals and functions in the order of the
  program. -/
  ties : ∀ uses, (r.names.map Prod.fst).filter (namesUsed p uses).contains = namesUsed p uses

/-! ### What renaming gives -/

theorem names_renameGlobals (p : Program) (pool : Pool) :
    (renameGlobals p pool).names = ((reserveKept p pool).deal (globalOrder p)).1 := rfl

theorem map_fst_names (p : Program) (pool : Pool) :
    (renameGlobals p pool).names.map Prod.fst = globalOrder p :=
  Pool.map_fst_deal _ _

theorem map_snd_names (p : Program) (pool : Pool) :
    (renameGlobals p pool).names.map Prod.snd =
    ((reserveKept p pool).drawMany (globalOrder p).length).1 :=
  Pool.map_snd_deal _ _

theorem find?_newNames_eq_none_of_not_mem {w : Text} (h : w ∉ globalOrder p) :
    (newNames p pool).find? w = none := by
  refine Text.Dictionary.find?_ofPairs_eq_none.2 ?_
  rwa [map_fst_names]

/-- An entry's name is no item's. -/
theorem entry_not_mem_globalOrder (h : (p.declarationNames ++ p.functionNames).Nodup) {f : Function}
    (hf : f ∈ p.functions) (hentry : f.entry = true) : f.name ∉ globalOrder p := by
  obtain ⟨-, hfunctions, hapart⟩ := List.nodup_append.1 h
  intro hmem
  rcases mem_globalOrder.1 hmem with hdeclared | ⟨g, hg, hother, hname⟩
  · exact hapart f.name hdeclared f.name (List.mem_map_of_mem hf) rfl
  · rw [List.inj_on_of_nodup_map hfunctions hg hf hname, hentry] at hother
    cases hother

theorem exists_of_mem_namesUsed {name : Text} {uses : Nat} (h : name ∈ namesUsed p uses) :
    (name, (uses : Int)) ∈ globalItems p := by
  rw [← map_fst_filter_globalItems, List.mem_map] at h
  obtain ⟨item, hitem, rfl⟩ := h
  obtain ⟨hmem, hcount⟩ := List.mem_filter.1 hitem
  rw [← of_decide_eq_true hcount]
  exact hmem

theorem length_le_of_more_uses (h : (p.declarationNames ++ p.functionNames).Nodup)
    {old new old' new' : Text} {uses uses' : Nat} (hnew : (old, new) ∈ (renameGlobals p pool).names)
    (hnew' : (old', new') ∈ (renameGlobals p pool).names) (huses : old ∈ namesUsed p uses)
    (huses' : old' ∈ namesUsed p uses') (hlt : uses' < uses) : new.length ≤ new'.length := by
  rw [names_renameGlobals, globalOrder_eq_byCount h] at hnew hnew'
  obtain ⟨m, n, hm, hn, hlength⟩ := length_le_of_deal_byCount hnew hnew'
  have hcount :=
    List.inj_on_of_nodup_map (nodup_globalItems h) hm (exists_of_mem_namesUsed huses) rfl
  have hcount' :=
    List.inj_on_of_nodup_map (nodup_globalItems h) hn (exists_of_mem_namesUsed huses') rfl
  obtain ⟨-, rfl⟩ := Prod.ext_iff.1 hcount
  obtain ⟨-, rfl⟩ := Prod.ext_iff.1 hcount'
  exact hlength (Int.ofNat_lt.2 hlt)

/-- **Renaming gives every global a name of its own that is new, foreign to the program and no
longer than its uses earn**, in every program with distinct names and from every pool that has
ever dealt names of globals. -/
theorem wellNamed_renameGlobals (p : Program) (requests : List Pool.Request)
    (hdistinct : (p.declarationNames ++ p.functionNames).Nodup) :
    WellNamed p ((Pool.new .globals).after requests) ((Pool.new .globals).dealt requests)
      (renameGlobals p ((Pool.new .globals).after requests)) := by
  have hscheme : (reserveKept p ((Pool.new .globals).after requests)).scheme = .globals :=
    Pool.after_scheme _ requests
  generalize hpool : (Pool.new .globals).after requests = pool at hscheme
  have hdrawn : ∀ new ∈ (renameGlobals p pool).names.map Prod.snd,
      new ∈ ((reserveKept p pool).drawMany (globalOrder p).length).1 := by
    intro new hnew
    rwa [map_snd_names] at hnew
  constructor
  case once =>
    rw [map_fst_names]
    exact Text.nodup_distinct _
  case total =>
    intro name
    rw [map_fst_names]
    exact mem_globalOrder
  case injective =>
    rw [map_snd_names]
    exact Pool.nodup_drawMany _ _
  case upper =>
    intro new hnew
    exact Pool.any_isUpper_of_mem_drawMany hscheme (hdrawn new hnew)
  case language =>
    intro new hnew
    subst hpool
    exact Pool.not_mem_language_of_mem_drawMany (Pool.language_subset_reserved _ _ _)
      (hdrawn new hnew)
  case undealt =>
    intro new hnew
    subst hpool
    exact Pool.not_mem_dealt_of_mem_drawMany (hdrawn new hnew)
  case foreign =>
    intro new hnew w hw hkept
    obtain ⟨⟨old, _⟩, hmem, rfl⟩ := List.mem_map.1 hnew
    rw [map_fst_names] at hkept
    exact ne_of_kept hw (find?_newNames_eq_none_of_not_mem hkept) (find?_newNames.2 hmem)
  case declarations =>
    exact (List.map_map ..).trans (List.map_map (g := renamed (newNames p pool)) ..).symm
  case functions =>
    refine (List.map_map ..).trans (List.map_congr_left fun f hf => ?_)
    cases hentry : f.entry with
    | false => rfl
    | true =>
      have hkept : (newNames p pool).find? f.name = none :=
        find?_newNames_eq_none_of_not_mem (entry_not_mem_globalOrder hdistinct hf hentry)
      exact congrArg (Option.getD · f.name) hkept
  case dealing =>
    rw [map_snd_names, map_fst_names, names_renameGlobals, Pool.deal_fst, List.length_zip,
      Pool.length_drawMany, Nat.min_self]
    rfl
  case ranked =>
    intro old new old' new' uses uses' hnew hnew' huses huses' hlt
    exact length_le_of_more_uses hdistinct hnew hnew' huses huses' hlt
  case ties =>
    intro uses
    rw [map_fst_names, globalOrder_eq_byCount hdistinct, ← map_fst_filter_globalItems]
    exact filter_byCount (nodup_globalItems hdistinct) uses

/-- A program with a constant, two globals and a function besides its entry. -/
def sharingProgram : Program :=
  { declarations := [
      { constant := false, array := false, type := "integer".toList, name := ['g'], value := none,
        uses := 2 },
      { constant := true, array := false, type := "integer".toList, name := ['c'],
        value := some ['1'], uses := 2 },
      { constant := false, array := false, type := "integer".toList, name := ['h'], value := none,
        uses := 5 }],
    functions := [
      { name := "main".toList, params := "nothing".toList, result := "nothing".toList,
        body := "call f()".toList, uses := 1, entry := true },
      { name := ['f'], params := "integer E".toList, result := "nothing".toList,
        body := "set h=h+c".toList, uses := 2, entry := false }] }

/-- `A` has been dealt, `D` is reserved and `E` is a parameter, so the pool goes on with `B`, `C`,
`F` and `G`: first for `h`, then for the constant, the global and the function that are used
twice. -/
theorem sharingProgram_wellNamed :
    (renameGlobals sharingProgram
      ((Pool.new .globals).after [.draw, .peek, .reserve [['D']]])).names =
        [(['h'], ['B']), (['c'], ['C']), (['g'], ['F']), (['f'], ['G'])] ∧
      WellNamed sharingProgram ((Pool.new .globals).after [.draw, .peek, .reserve [['D']]]) [['A']]
        (renameGlobals sharingProgram
          ((Pool.new .globals).after [.draw, .peek, .reserve [['D']]])) := by
  have hdealt : (Pool.new .globals).dealt [.draw, .peek, .reserve [['D']]] = [['A']] := by
    rw [← Pool.dealsLike_unreserved.dealt]
    decide +kernel
  refine ⟨?_, ?_⟩
  · rw [← names_renameGlobals_congr (Pool.dealsLike_unreserved.after _)]
    decide +kernel
  · rw [← hdealt]
    exact wellNamed_renameGlobals _ _ (by decide +kernel)

end Naming
end ScriptMinifier
