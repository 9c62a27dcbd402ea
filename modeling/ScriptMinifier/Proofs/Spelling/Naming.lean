import ScriptMinifier.Proofs.Naming.LiteralNames
import ScriptMinifier.Proofs.Naming.Occurrences
import ScriptMinifier.Proofs.Ranking
import ScriptMinifier.Proofs.Spelling.Folding

/-! Renaming a respelled program.

Names are dealt in the order of their uses, and among equals in the order of the program, so two
programs that differ in spelling deal the same new names in the same order, provided the same words
are reserved. They are: every old name that the program holds is replaced (`Closed`), and so is
every new one (`Respelled.reserveKept`). After renaming the two programs differ in the uses of
entries only (`Respelled.renameGlobals`). -/
namespace ScriptMinifier

open Naming
  (Pool byCount globalItems globalOrder newNames programWords renamed renameFunction renameGlobals
    reserveKept)
open Syntax (Declaration Function Native)
open Text (words replaceWords replacement)

variable {g : Text → Option Text} {p p' : Program} {f f' : Function} {w : Text}

/-! ### Ranking -/

theorem Text.distinct_map {h : Text → Text} {ts : List Text}
    (hinj : ∀ s ∈ ts, ∀ t ∈ ts, h s = h t → s = t) :
    distinct (ts.map h) = (distinct ts).map h := by
  induction ts with
  | nil => rfl
  | cons t rest ih =>
    have hrest :=
      ih fun s hs u hu => hinj s (List.mem_cons_of_mem _ hs) u (List.mem_cons_of_mem _ hu)
    rw [List.map_cons, distinct, hrest, List.filter_map, distinct, List.map_cons]
    congr 2
    refine List.filter_congr fun s hs => ?_
    have hne : h s = h t ↔ s = t :=
      ⟨hinj s (List.mem_cons_of_mem _ (mem_distinct.1 hs)) t List.mem_cons_self,
        fun heq => heq ▸ rfl⟩
    rw [Function.comp_apply, Bool.eq_iff_iff, bne_iff_ne, bne_iff_ne, ne_eq, hne]

theorem byCount_map (h : Text → Text) (items : List (Text × Int)) :
    byCount (items.map fun item => (h item.1, item.2)) = (byCount items).map h := by
  have hranked := List.map_insertionSort (fun a b : Text × Int => b.2 ≤ a.2) (fun a b => b.2 ≤ a.2)
    (fun item => (h item.1, item.2)) items fun _ _ _ _ => Iff.rfl
  rw [← ranked_eq_insertionSort, ← ranked_eq_insertionSort] at hranked
  rw [byCount, ← hranked, List.map_map, byCount, List.map_map]
  rfl

/-! ### The order of names -/

/-- The items of functions, respelled. -/
theorem functionItems_respelled {fs fs' : List Function}
    (h : List.Forall₂ (fun f f' => Respells g f f' ∧ SameUses f f') fs fs') :
    (fs'.filter (!·.entry)).map (fun f => (f.name, (f.uses : Int))) =
      ((fs.filter (!·.entry)).map fun f => (f.name, (f.uses : Int))).map fun item =>
        (replacement g item.1, item.2) := by
  induction h with
  | nil => rfl
  | @cons f f' fs fs' hf _ ih =>
    obtain ⟨hr, huses⟩ := hf
    rw [List.filter_cons, List.filter_cons, hr.entry]
    cases hentry : f.entry with
    | true => exact ih
    | false =>
      rw [if_pos (by rfl), if_pos (by rfl), List.map_cons, List.map_cons, List.map_cons, ih,
        hr.name, huses hentry]

namespace Respelled

theorem globalItems (h : Respelled g p p')
    (huses : List.Forall₂ (fun f f' => Respells g f f' ∧ SameUses f f') p.functions p'.functions) :
    globalItems p' = (globalItems p).map fun item => (replacement g item.1, item.2) := by
  have hkinds :
      p'.constants ++ p'.globals = (p.constants ++ p.globals).map (Declaration.respell g) := by
    rw [Program.constants, Program.globals, h.declarations, List.filter_map, List.filter_map,
      ← List.map_append]
    rfl
  rw [Naming.globalItems, Naming.globalItems, functionItems_respelled huses, hkinds]
  simp only [List.map_append, List.map_map]
  rfl

end Respelled

/-- Every name to be replaced is an old one. -/
theorem Suits.named_of_mem_globalOrder (hp : Suits g p) (h : w ∈ globalOrder p) : g w ≠ none := by
  rcases Naming.mem_globalOrder.1 h with hdeclared | ⟨f, hf, hentry, rfl⟩
  · obtain ⟨d, hd, rfl⟩ := List.mem_map.1 hdeclared
    exact (hp.declarations d hd).named
  · exact (hp.functions f hf).named hentry

namespace Respelled

theorem globalOrder (hg : Spelling g) (hp : Suits g p) (h : Respelled g p p')
    (huses : List.Forall₂ (fun f f' => Respells g f f' ∧ SameUses f f') p.functions p'.functions) :
    globalOrder p' = (globalOrder p).map (replacement g) := by
  have hbyCount :
      byCount (Naming.globalItems p') = (byCount (Naming.globalItems p)).map (replacement g) := by
    rw [h.globalItems huses, byCount_map]
  have hold : ∀ n ∈ byCount (Naming.globalItems p), Old g n := fun n hn =>
    hg.old_of_named (hp.named_of_mem_globalOrder (Text.mem_distinct.2 hn))
  rw [Naming.globalOrder, hbyCount,
    Text.distinct_map fun m hm n hn => hg.replacement_injective (hold m hm) (hold n hn)]
  rfl

end Respelled

/-! ### Reserved words -/

/-- Where the words of a program stand. -/
theorem mem_programWords_cases (hw : w ∈ programWords p) :
    (∃ d ∈ p.declarations, w = d.type ∨ w = d.name ∨ ∃ v ∈ d.value, w ∈ words v) ∨
      (∃ n ∈ p.natives, w ∈ n.ownWords) ∨
      ∃ f ∈ p.functions, w = f.name ∨ w = f.result ∨ w ∈ words f.params ∨ w ∈ words f.body := by
  rw [programWords, List.mem_append, List.mem_append, List.mem_flatMap, List.mem_flatMap,
    List.mem_flatMap, or_assoc] at hw
  refine hw.imp ?_ (Or.imp ?_ ?_)
  · rintro ⟨d, hd, hmem⟩
    rw [List.mem_cons, List.mem_cons] at hmem
    refine ⟨d, hd, hmem.imp_right (Or.imp_right fun hvalue => ?_)⟩
    cases hv : d.value with
    | none =>
      rw [hv, Option.getD_none, Text.words_nil] at hvalue
      cases hvalue
    | some v =>
      rw [hv] at hvalue
      exact ⟨v, rfl, hvalue⟩
  · exact id
  · rintro ⟨f, hf, hmem⟩
    rw [List.mem_append, List.mem_cons, List.mem_cons] at hmem
    exact ⟨f, hf, by tauto⟩

/-- No word of the program is a new name. -/
theorem Suits.old_programWords (hg : Spelling g) (hp : Suits g p) (hw : w ∈ programWords p) :
    Old g w := by
  rcases mem_programWords_cases hw with ⟨d, hd, hcase⟩ | ⟨n, hn, hmem⟩ | ⟨f, hf, hcase⟩
  · have hsuits := hp.declarations d hd
    rcases hcase with rfl | rfl | ⟨v, hv, hmem⟩
    · exact hsuits.type.old
    · exact hg.old_of_named hsuits.named
    · exact (hsuits.value v hv).old w hmem
  · exact (hp.natives n hn w hmem).old
  · have hsuits := hp.functions f hf
    rcases hcase with rfl | rfl | hmem | hmem
    · exact hp.old_functionNames hg f.name (List.mem_map_of_mem hf)
    · exact hsuits.result.old
    · exact (hsuits.params w hmem).old
    · exact hsuits.body.old w hmem

/-- Every old name in the program is to be replaced. -/
theorem Closed.mem_globalOrder (hp : Suits g p) (h : Closed g p) (hw : w ∈ programWords p)
    (hnamed : g w ≠ none) :
    w ∈ globalOrder p := by
  have hfunction : ∀ f ∈ p.functions, g f.name ≠ none → f.name ∈ globalOrder p := by
    intro f hf hnamed
    cases hentry : f.entry with
    | true => exact absurd ((hp.functions f hf).entry hentry).kept hnamed
    | false => exact Naming.mem_globalOrder.2 (.inr ⟨f, hf, hentry, rfl⟩)
  rcases mem_programWords_cases hw with ⟨d, hd, hcase⟩ | ⟨n, hn, hmem⟩ | ⟨f, hf, hcase⟩
  · rcases hcase with rfl | rfl | ⟨v, hv, hmem⟩
    · exact absurd (hp.declarations d hd).type.kept hnamed
    · exact Naming.mem_globalOrder.2 (.inl (List.mem_map_of_mem hd))
    · exact Naming.mem_globalOrder.2 (.inl (h.values d hd v hv w hmem hnamed))
  · exact absurd (hp.natives n hn w hmem).kept hnamed
  · rcases hcase with rfl | rfl | hmem | hmem
    · exact hfunction f hf hnamed
    · exact absurd (hp.functions f hf).result.kept hnamed
    · exact absurd ((hp.functions f hf).params w hmem).kept hnamed
    · rcases h.bodies f hf w hmem hnamed with hdeclared | hname
      · exact Naming.mem_globalOrder.2 (.inl hdeclared)
      · obtain ⟨e, he, rfl⟩ := List.mem_map.1 hname
        exact hfunction e he hnamed

theorem map_replacement_of_outside {ws : List Text} (h : ∀ w ∈ ws, Outside g w) :
    ws.map (replacement g) = ws :=
  List.map_congr_left (fun w hw => (h w hw).replacement_eq) |>.trans (List.map_id ws)

namespace Respelled

theorem programWords (hg : Spelling g) (hp : Suits g p) (h : Respelled g p p') :
    programWords p' = (programWords p).map (replacement g) := by
  have hdeclarations :
      p'.declarations.flatMap (fun d => d.type :: d.name :: words (d.value.getD [])) =
      (p.declarations.flatMap fun d => d.type :: d.name :: words (d.value.getD [])).map
        (replacement g) := by
    rw [h.declarations, List.flatMap_map, List.map_flatMap]
    refine List.flatMap_congr fun d hd => ?_
    rw [words_value hg, List.map_cons, List.map_cons, (hp.declarations d hd).type.replacement_eq]
    rfl
  have hnatives : p'.natives.flatMap Native.ownWords =
      (p.natives.flatMap Native.ownWords).map (replacement g) := by
    rw [h.natives, map_replacement_of_outside fun w hw => ?_]
    obtain ⟨n, hn, hmem⟩ := List.mem_flatMap.1 hw
    exact hp.natives n hn w hmem
  have hfunctions :
      p'.functions.flatMap (fun f => f.name :: f.result :: words f.params ++ words f.body) =
      (p.functions.flatMap fun f => f.name :: f.result :: words f.params ++ words f.body).map
        (replacement g) := by
    rw [List.map_flatMap, List.flatMap_def, List.flatMap_def]
    refine congrArg List.flatten (map_eq_of_forall₂ (h.suited hp) fun f f' hf => ?_)
    obtain ⟨hsuits, hr⟩ := hf
    rw [hr.name, hr.result, hr.params, hr.body, hg.words_replaceWords, List.map_append,
      List.map_cons, List.map_cons, hsuits.result.replacement_eq,
      map_replacement_of_outside hsuits.params]
  show p'.declarations.flatMap _ ++ p'.natives.flatMap Native.ownWords ++ p'.functions.flatMap _ = _
  rw [hdeclarations, hnatives, hfunctions, ← List.map_append, ← List.map_append]
  rfl

/-- The same words are reserved. -/
theorem reserveKept (hg : Spelling g) (hp : Suits g p) (hclosed : Closed g p) (h : Respelled g p p')
    (huses : List.Forall₂ (fun f f' => Respells g f f' ∧ SameUses f f') p.functions p'.functions)
    (pool : Pool) :
    reserveKept p' pool = reserveKept p pool := by
  have hkept : (Naming.programWords p').filter (!(Naming.globalOrder p').contains ·) =
      (Naming.programWords p).filter (!(Naming.globalOrder p).contains ·) := by
    rw [h.programWords hg hp, h.globalOrder hg hp huses, List.filter_map]
    have hfilter : (Naming.programWords p).filter
        ((!((Naming.globalOrder p).map (replacement g)).contains ·) ∘ replacement g) =
        (Naming.programWords p).filter (!(Naming.globalOrder p).contains ·) := by
      refine List.filter_congr fun w hw => ?_
      have hiff : replacement g w ∈ (Naming.globalOrder p).map (replacement g) ↔
          w ∈ Naming.globalOrder p := by
        refine ⟨fun hmem => ?_, List.mem_map_of_mem⟩
        obtain ⟨n, hn, heq⟩ := List.mem_map.1 hmem
        rwa [← hg.replacement_injective (hg.old_of_named (hp.named_of_mem_globalOrder hn))
          (hp.old_programWords hg hw) heq]
      simp only [Function.comp_apply, List.contains_eq_mem, hiff]
    rw [hfilter]
    refine (List.map_congr_left fun w hw => ?_).trans (List.map_id _)
    -- a name that is not replaced is no old name
    obtain ⟨hmem, hnot⟩ := List.mem_filter.1 hw
    have hnone : g w = none := by
      by_contra hnamed
      simp [hclosed.mem_globalOrder hp hmem hnamed] at hnot
    rw [replacement, hnone]
    rfl
  rw [Naming.reserveKept, Naming.reserveKept, hkept]

/-! ### New names -/

/-- A new name is found under the respelled name. -/
theorem find?_newNames (hg : Spelling g) (hp : Suits g p) (hclosed : Closed g p)
    (h : Respelled g p p')
    (huses : List.Forall₂ (fun f f' => Respells g f f' ∧ SameUses f f') p.functions p'.functions)
    (pool : Pool)
    (hw : Old g w) : (newNames p' pool).find? (replacement g w) = (newNames p pool).find? w := by
  have hpairs : (renameGlobals p' pool).names =
      (renameGlobals p pool).names.map fun pair => (replacement g pair.1, pair.2) := by
    show ((Naming.reserveKept p' pool).deal (Naming.globalOrder p')).1 =
      ((Naming.reserveKept p pool).deal (Naming.globalOrder p)).1.map _
    rw [h.reserveKept hg hp hclosed huses, h.globalOrder hg hp huses, Pool.deal_fst, Pool.deal_fst,
      List.length_map, List.zip_map_left]
    rfl
  rw [newNames, hpairs]
  refine Text.Dictionary.find?_ofPairs_map fun other hother => ?_
  refine hg.replacement_injective (hg.old_of_named (hp.named_of_mem_globalOrder ?_)) hw
  rwa [show (renameGlobals p pool).names.map Prod.fst = Naming.globalOrder p from
    Pool.map_fst_deal _ _] at hother

/-- What becomes of a word in the end does not depend on its spelling. -/
theorem replacement_newNames (hg : Spelling g) (hp : Suits g p) (hclosed : Closed g p)
    (h : Respelled g p p')
    (huses : List.Forall₂ (fun f f' => Respells g f f' ∧ SameUses f f') p.functions p'.functions)
    (pool : Pool) (hw : w ∈ Naming.programWords p) :
    renamed (newNames p' pool) (replacement g w) = renamed (newNames p pool) w := by
  rw [renamed, renamed, h.find?_newNames hg hp hclosed huses pool (hp.old_programWords hg hw)]
  cases hgw : g w with
  | none =>
    rw [replacement, hgw]
    rfl
  | some r =>
    have hnew : (newNames p pool).find? w ≠ none := fun hnone =>
      Naming.find?_newNames_eq_none hnone
        (hclosed.mem_globalOrder hp hw (by rw [hgw]; exact Option.some_ne_none r))
    obtain ⟨new, hnew⟩ := Option.ne_none_iff_exists'.1 hnew
    rw [hnew]
    rfl

/-- Renaming a respelled program leaves its literals. -/
theorem literals_renameGlobals (hg : Spelling g) (hp : Suits g p) (h : Respelled g p p')
    (huses : List.Forall₂ (fun f f' => Respells g f f' ∧ SameUses f f') p.functions p'.functions)
    (pool : Pool) :
    (renameGlobals p' pool).program.literals = p.literals := by
  rw [← h.literals]
  refine congrArg Literals.mk (List.ext_getElem? fun n => Naming.get?_renameGlobals_eq_iff.2 ?_)
  rintro ⟨hn, lit, w, hlit, hw, hrenamed⟩
  obtain ⟨f', hf', idiom, hid⟩ := Naming.mem_namingLiterals.1 hn
  obtain ⟨f, hf, hsuits, hr⟩ := exists_of_mem_right (h.suited hp) hf'
  have hmem : w ∈ idiom.names p'.literals f'.body :=
    List.mem_filterMap.2 ⟨lit, List.mem_filterMap.2 ⟨n, hid, hlit⟩, hw⟩
  rw [h.literals, hr.body] at hmem
  have hold := hp.quiet.old hg (hsuits.idioms idiom) hmem
  refine hrenamed ?_
  rw [renamed]
  cases hfind : (newNames p' pool).find? w with
  | none => rfl
  | some new =>
    have horder : w ∈ Naming.globalOrder p' := by
      rw [← Pool.map_fst_deal (Naming.reserveKept p' pool) (Naming.globalOrder p')]
      exact List.mem_map_of_mem (Naming.find?_newNames.1 hfind)
    rw [h.globalOrder hg hp huses] at horder
    obtain ⟨old, hlisted, rfl⟩ := List.mem_map.1 horder
    obtain ⟨r, hgr⟩ := Option.ne_none_iff_exists'.1 (hp.named_of_mem_globalOrder hlisted)
    exact absurd (show g old = some (replacement g old) by rw [replacement, hgr]; rfl) (hold old)

end Respelled

theorem Suits.literals_renameGlobals (hp : Suits g p) (pool : Pool) :
    (renameGlobals p pool).program.literals = p.literals := by
  refine congrArg Literals.mk (List.ext_getElem? fun n => Naming.get?_renameGlobals_eq_iff.2 ?_)
  rintro ⟨hn, -⟩
  obtain ⟨f, hf, idiom, hid⟩ := Naming.mem_namingLiterals.1 hn
  rw [Usage.Idiom.ids_eq_nil ((hp.functions f hf).idioms idiom)] at hid
  cases hid

/-! ### The renamed program -/

/-- A program without what is known of the uses of its functions. -/
def Program.withoutUses (p : Program) : Program :=
  { p with functions := p.functions.map fun f => { f with uses := 0 } }

theorem replacement_visible (names : Text.Renaming) (f : Function) (w : Text) :
    replacement (visible names f) w = if w ∈ f.scopedNames then w else renamed names w := by
  rw [replacement, visible]
  by_cases hbound : w ∈ f.scopedNames <;> simp [hbound, renamed]

namespace Respelled

section

variable (hg : Spelling g) (hp : Suits g p) (hclosed : Closed g p) (h : Respelled g p p')
  (huses : List.Forall₂ (fun f f' => Respells g f f' ∧ SameUses f f') p.functions p'.functions)
    (pool : Pool)

include hg hp hclosed h huses

theorem renameDeclaration {d : Declaration} (hd : d ∈ p.declarations) :
    Naming.renameDeclaration (newNames p' pool) (d.respell g) = Naming.renameDeclaration
    (newNames p pool) d := by
  have hname := h.replacement_newNames hg hp hclosed huses pool (w := d.name)
    (List.mem_append_left _
      (List.mem_append_left _
        (List.mem_flatMap.2 ⟨d, hd, List.mem_cons_of_mem _ List.mem_cons_self⟩)))
  have hvalue : (d.value.map (replaceWords g)).map (replaceWords (newNames p' pool).find?) =
      d.value.map (replaceWords (newNames p pool).find?) := by
    cases hv : d.value with
    | none => rfl
    | some v =>
      refine congrArg some ?_
      rw [Text.replaceWords_replaceWords hg.wordly]
      refine Text.replaceWords_congr_words fun w hw => h.replacement_newNames hg hp hclosed
        huses pool ?_
      refine List.mem_append_left _ (List.mem_append_left _ (List.mem_flatMap.2 ⟨d, hd, ?_⟩))
      rw [hv]
      exact List.mem_cons_of_mem _ (List.mem_cons_of_mem _ hw)
  rw [Naming.renameDeclaration, Naming.renameDeclaration, Declaration.respell]
  simp only [hname, hvalue]

theorem renameFunction (hf : f ∈ p.functions) (hr : Respells g f f') :
    { Naming.renameFunction (newNames p' pool) f' with uses := 0 } =
      { Naming.renameFunction (newNames p pool) f with uses := 0 } := by
  have hsuits := hp.functions f hf
  have hname := h.replacement_newNames hg hp hclosed huses pool (w := f.name)
    (List.mem_append_right _ (List.mem_flatMap.2 ⟨f, hf, List.mem_cons_self⟩))
  have hbody : replaceWords (visible (newNames p' pool) f') f'.body =
      replaceWords (visible (newNames p pool) f) f.body := by
    rw [hr.body, Text.replaceWords_replaceWords hg.wordly]
    refine Text.replaceWords_congr_words fun w hw => ?_
    have hiff := replacement_mem_scopedNames hg hsuits (hsuits.body.old w hw)
    show replacement (visible (newNames p' pool) f') (replacement g w) = replacement
      (visible (newNames p pool) f) w
    rw [replacement_visible, replacement_visible, scopedNames hg hsuits hr]
    by_cases hbound : w ∈ f.scopedNames
    · rw [if_pos (hiff.2 hbound), if_pos hbound, (hsuits.bound w hbound).replacement_eq]
    · rw [if_neg (hiff.not.2 hbound), if_neg hbound]
      exact h.replacement_newNames hg hp hclosed huses pool
        (List.mem_append_right _ (List.mem_flatMap.2 ⟨f, hf, List.mem_append_right _ hw⟩))
  show Function.mk (renamed _ f'.name) f'.params f'.result (replaceWords (visible _ f') f'.body) 0
    f'.entry = _
  rw [hbody, hr.name, hr.params, hr.result, hr.entry, hname]
  rfl

/-- Renaming makes respelled programs the same, the uses of entries apart. -/
theorem renameGlobals :
    (renameGlobals p' pool).program.withoutUses = (renameGlobals p pool).program.withoutUses ∧
    (Naming.renameGlobals p' pool).pool = (Naming.renameGlobals p pool).pool := by
  have hdeclarations : (Naming.renameGlobals p' pool).program.declarations =
      (Naming.renameGlobals p pool).program.declarations := by
    show p'.declarations.map (Naming.renameDeclaration (newNames p' pool)) =
      p.declarations.map (Naming.renameDeclaration (newNames p pool))
    rw [h.declarations, List.map_map]
    exact List.map_congr_left fun d hd => h.renameDeclaration hg hp hclosed huses pool hd
  have hfunctions :
      ((Naming.renameGlobals p' pool).program.functions.map fun f => { f with uses := 0 }) =
      (Naming.renameGlobals p pool).program.functions.map fun f => { f with uses := 0 } := by
    show (p'.functions.map (Naming.renameFunction (newNames p' pool))).map _ =
      (p.functions.map (Naming.renameFunction (newNames p pool))).map _
    rw [List.map_map, List.map_map]
    exact map_eq_of_forall₂ h.members fun f f' hf => h.renameFunction hg hp hclosed huses
      pool hf.1 hf.2
  have hliterals : (Naming.renameGlobals p' pool).program.literals =
      (Naming.renameGlobals p pool).program.literals := by
    rw [h.literals_renameGlobals hg hp huses, hp.literals_renameGlobals]
  constructor
  · show Program.mk _ _ p'.natives _ = Program.mk _ _ p.natives _
    rw [hliterals, hdeclarations, hfunctions, h.natives]
  · show ((Naming.reserveKept p' pool).drawMany _).2 = ((Naming.reserveKept p pool).drawMany _).2
    rw [h.reserveKept hg hp hclosed huses, h.globalOrder hg hp huses, List.length_map]

end

end Respelled

end ScriptMinifier
