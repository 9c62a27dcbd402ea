import ScriptMinifier.Proofs.Literal.Passes
import ScriptMinifier.Proofs.Text.Renaming
import ScriptMinifier.Proofs.Usage.Declared

/-! Which literals a program holds.

The texts of a script's blocks hold each literal once. Squeezing moves blanks and newlines only,
reading takes values and bodies from different places, and pruning, folding and counting put no
literal anywhere. So a program that is read and reduced without tables holds no literal twice
(`nodup_numbers_counted`). -/
namespace ScriptMinifier

open Literal (indexLimit numbersIn numbersOf placeholder)
open Syntax (Declaration Function)
open Text (mark)

/-! ### Texts -/

namespace Literal

theorem numbersIn_append_of_not_mem {s : Text} (h : mark ∉ s) (t : Text) :
    numbersIn (s ++ t) = numbersIn t := by
  induction s with
  | nil => rfl
  | cons c rest ih =>
    rw [List.mem_cons, not_or] at h
    rw [List.cons_append, numbersIn_cons (Ne.symm h.1), ih h.2]

theorem numbersIn_of_not_mem {t : Text} (h : mark ∉ t) : numbersIn t = [] := by
  rw [← List.append_nil t, numbersIn_append_of_not_mem h, numbersIn_nil]

theorem numbersIn_placeholder_append (k : Nat) (t : Text) :
    numbersIn (placeholder k ++ t) = numbersOf (.placeholder (placeholder k)) ++ numbersIn t := by
  rw [numbersIn, Literal.segments_placeholder]
  rfl

theorem numbersIn_mark (rest : Text) :
    numbersIn (mark :: rest) = numbersOf (.placeholder (mark :: Text.throughMark rest)) ++ numbersIn
    (Text.afterMark rest) := by
  rw [numbersIn, Text.segments, if_pos rfl]
  rfl

/-- Replacing words puts no literal in. -/
theorem numbersIn_replaceWords {f : Text → Option Text} (hf : ∀ w r, f w = some r → mark ∉ r)
    (t : Text) :
    numbersIn (Text.replaceWords f t) = numbersIn t := by
  induction t using Text.wordwise with
  | nil => rw [Text.replaceWords_nil]
  | placeholder rest ih =>
    rw [Text.replaceWords_mark, List.cons_append, numbersIn_mark, Text.throughMark_replaceWords,
      Text.afterMark_replaceWords, ih, numbersIn_mark]
  | word w t hne hw ht ih =>
    have hword : mark ∉ w := fun hmem => Text.ne_mark_of_isWordChar (hw mark hmem) rfl
    have hnew : mark ∉ (f w).getD w := by
      cases hfw : f w with
      | none => exact hword
      | some r => exact hf _ r hfw
    rw [Text.replaceWords_run hne hw ht, numbersIn_append_of_not_mem hnew, ih,
      numbersIn_append_of_not_mem hword]
  | other c t hc ih =>
    have hmark := Text.ne_mark_of_isOtherChar hc
    rw [Sealed.replaceWords_cons hc, numbersIn_cons hmark, ih, numbersIn_cons hmark]

end Literal

open Literal
  (numbersIn_append_of_not_mem numbersIn_of_not_mem numbersIn_placeholder_append numbersIn_cons
    numbersIn_nil
  numbersIn_replaceWords)

namespace Sealed

variable {n : Nat} {s t : Text}

theorem numbersIn_append (hs : Sealed n s) (t : Text) :
    numbersIn (s ++ t) = numbersIn s ++ numbersIn t := by
  induction hs with
  | nil => rw [List.nil_append, numbersIn_nil, List.nil_append]
  | char hc _ ih => rw [List.cons_append, numbersIn_cons hc, numbersIn_cons hc, ih]
  | literal _ _ ih =>
    rw [List.append_assoc, numbersIn_placeholder_append, numbersIn_placeholder_append, ih,
      List.append_assoc]

theorem numbersIn_trim (h : Sealed n t) : numbersIn (Text.trim t) = numbersIn t := by
  have hfree : ∀ s : Text, (∀ c ∈ s, Text.isBlank c = true) → mark ∉ s := fun s hs hmem =>
    absurd (hs mark hmem) (by decide)
  obtain ⟨blanks, hsplit, hblanks⟩ := Text.exists_trimEnd (Text.trimStart t)
  have hstart :=
    numbersIn_append_of_not_mem
      (hfree (t.takeWhile Text.isBlank) (List.all_eq_true.1 List.all_takeWhile))
    (Text.trimStart t)
  rw [Text.trimStart, List.takeWhile_append_dropWhile, ← Text.trimStart, hsplit,
    h.trimStart.trimEnd.numbersIn_append, numbersIn_of_not_mem (hfree blanks hblanks),
    List.append_nil] at hstart
  exact hstart.symm

theorem numbersIn_joined {sep : Char} (hsep : sep ≠ mark) {ts : List Text}
    (h : ∀ t ∈ ts, Sealed n t) :
    numbersIn (Text.joined sep ts) = ts.flatMap numbersIn := by
  match ts with
  | [] => exact numbersIn_nil
  | [t] => simp [Text.joined, List.intercalate]
  | t :: u :: more =>
    rw [List.forall_mem_cons] at h
    rw [Text.joined_cons_cons, h.1.numbersIn_append, numbersIn_cons hsep, numbersIn_joined hsep h.2]
    rfl

theorem numbersIn_squeezeFrom (h : Sealed n t) (before : Option Char) (pending : Bool) :
    numbersIn (Layout.squeezeFrom before pending t) = numbersIn t := by
  induction h generalizing before pending with
  | nil => rfl
  | char hc _ ih =>
    rw [Layout.squeezeFrom, numbersIn_cons hc]
    split
    · exact ih before true
    · split
      · rw [numbersIn_cons (by decide), numbersIn_cons hc, ih]
      · rw [numbersIn_cons hc, ih]
  | literal _ _ ih =>
    rw [squeezeFrom_placeholder, numbersIn_append_of_not_mem, numbersIn_placeholder_append,
      numbersIn_placeholder_append, ih]
    split <;> decide

end Sealed

/-- Empty texts hold nothing. -/
theorem flatMap_numbersIn_filter (ts : List Text) :
    (ts.filter (· ≠ [])).flatMap numbersIn = ts.flatMap numbersIn := by
  induction ts with
  | nil => rfl
  | cons t rest ih =>
    by_cases ht : t = []
    · rw [ht, List.filter_cons_of_neg (by simp), List.flatMap_cons, numbersIn_nil]
      exact ih
    · rw [List.filter_cons_of_pos (by simpa using ht), List.flatMap_cons, List.flatMap_cons, ih]

namespace Sealed

variable {n : Nat} {t : Text}

theorem flatMap_numbersIn_squeezedLines (h : Sealed n t) :
    (Layout.squeezedLines t).flatMap numbersIn = numbersIn t := by
  have hpieces : ∀ piece ∈ Text.pieces '\n' t, Sealed n piece := h.pieces (by decide)
  calc (Layout.squeezedLines t).flatMap numbersIn
      = ((Text.pieces '\n' t).map Layout.squeezeLine).flatMap numbersIn :=
        flatMap_numbersIn_filter _
    _ = (Text.pieces '\n' t).flatMap numbersIn := by
        rw [List.flatMap_map]
        exact List.flatMap_congr fun piece hpiece => (hpieces piece hpiece).numbersIn_squeezeFrom
          none false
    _ = numbersIn t := by
      rw [← numbersIn_joined (show '\n' ≠ mark by decide) hpieces, Text.joined_pieces]

theorem squeezedLines (h : Sealed n t) : ∀ line ∈ Layout.squeezedLines t, Sealed n line := by
  intro line hline
  obtain ⟨piece, hpiece, rfl⟩ := List.mem_map.1 (List.mem_filter.1 hline).1
  exact (h.pieces (by decide) piece hpiece).squeezeFrom none false

theorem numbersIn_squeezeBlock (h : Sealed n t) :
    numbersIn (Layout.squeezeBlock t) = numbersIn t := by
  rw [Layout.squeezeBlock, numbersIn_joined (by decide) h.squeezedLines,
    h.flatMap_numbersIn_squeezedLines]

end Sealed

/-! ### Reading -/

/-- The literals of a declaration's value. -/
def Syntax.Declaration.numbers (d : Declaration) : List Nat := numbersIn (d.value.getD [])

/-- The literals that a program's texts hold. -/
def Program.numbers (p : Program) : List Nat :=
  p.declarations.flatMap Declaration.numbers ++ p.functions.flatMap fun f => numbersIn f.body

theorem numbers_parse? {n : Nat} {line : Text} {d : Declaration} (hline : Sealed n line)
    (h : Declaration.parse? line = some d) : d.numbers.Sublist (numbersIn line) := by
  obtain ⟨⟨left, -, hsides⟩, -⟩ := Declaration.parse?_eq_some h
  rw [Declaration.numbers]
  rcases hsides with ⟨-, hnone⟩ | ⟨value, rfl, hsome⟩
  · rw [hnone, Option.getD_none, numbersIn_nil]
    exact List.nil_sublist _
  · rw [hsome, Option.getD_some, (hline.of_append_cons (by decide)).1.numbersIn_append,
      numbersIn_cons (by decide)]
    exact List.sublist_append_right _ _

theorem numbersIn_body {n : Nat} {block : Text} {f : Function} (hblock : Sealed n block)
    (h : Function.parse block = .ok f) : (numbersIn f.body).Sublist (numbersIn block) := by
  obtain ⟨header, -, -, -, -, hsplit⟩ := Function.parse_eq_ok h
  rcases hsplit with ⟨-, hbody⟩ | hsplit
  · rw [hbody, numbersIn_nil]
    exact List.nil_sublist _
  · have htrim := hblock.trim
    rw [hsplit] at htrim
    rw [← hblock.numbersIn_trim, hsplit, (htrim.of_append_cons (by decide)).1.numbersIn_append,
      numbersIn_cons (by decide)]
    exact List.sublist_append_right _ _

/-- Literals of texts, compared part by part. -/
theorem flatMap_sublist {α β : Type} {R : α → β → Prop} {f : α → List Nat} {g : β → List Nat}
    {xs : List α} {ys : List β}
    (h : List.Forall₂ R xs ys) (hsub : ∀ x ∈ xs, ∀ y, R x y → (g y).Sublist (f x)) :
    (ys.flatMap g).Sublist (xs.flatMap f) := by
  induction h with
  | nil => exact .slnil
  | cons hxy _ ih =>
    rw [List.flatMap_cons, List.flatMap_cons]
    exact (hsub _ List.mem_cons_self _ hxy).append
      (ih fun x hx => hsub x (List.mem_cons_of_mem _ hx))

theorem numbers_parseAll {n : Nat} {t : Text} {ds : List Declaration} (ht : Sealed n t)
    (h : Declaration.parseAll (Layout.squeezeBlock t) = .ok ds) :
    (ds.flatMap Declaration.numbers).Sublist (numbersIn t) := by
  rw [Declaration.parseAll_eq_ok, Layout.lines_squeezeBlock] at h
  have hlines : ∀ line ∈ (Layout.squeezedLines t).map Text.trim, Sealed n line := by
    intro line hline
    obtain ⟨line', hline', rfl⟩ := List.mem_map.1 hline
    exact (ht.squeezedLines line' hline').trim
  have htrim : ((Layout.squeezedLines t).map Text.trim).flatMap numbersIn =
      (Layout.squeezedLines t).flatMap numbersIn := by
    rw [List.flatMap_map]
    exact List.flatMap_congr fun line hline => (ht.squeezedLines line hline).numbersIn_trim
  rw [← ht.flatMap_numbersIn_squeezedLines, ← htrim, ← flatMap_numbersIn_filter]
  exact flatMap_sublist h fun line hline d hparse => numbers_parse?
    (hlines line (List.mem_filter.1 hline).1) hparse

theorem Holds.numbersIn_sublist {ls : Literals} {ns : List Nat} {held written : Text}
    (h : Holds ls ns held written) :
    (numbersIn held).Sublist ns := by
  induction h with
  | nil => rw [numbersIn_nil]
  | char hc _ ih => rwa [numbersIn_cons hc]
  | @literal n _ _ _ _ _ _ _ _ ih =>
    have hown : (numbersOf (.placeholder (Literal.placeholder n))).Sublist [n] := by
      rw [numbersOf, Literal.placeholderId?_eq_filter, Option.filter]
      split
      · exact List.Sublist.refl _
      · exact List.nil_sublist _
    rw [numbersIn_placeholder_append]
    exact hown.append ih

namespace Source

theorem HoldEach.numbersIn_sublist {all : Literals} {ns : List Nat} {es : List Extract}
    (h : HoldEach all ns es) :
    (es.flatMap fun e => numbersIn e.text).Sublist ns := by
  induction h with
  | nil => exact .slnil
  | cons first _ ih => exact first.numbersIn_sublist.append ih

theorem numbersIn_foldl_joinGlobals {n : Nat} {ts : List Text} (h : ∀ t ∈ ts, Sealed n t)
    {sofar : Text} (hsofar : Sealed n sofar) :
    numbersIn (ts.foldl joinGlobals sofar) = numbersIn sofar ++ ts.flatMap numbersIn := by
  induction ts generalizing sofar with
  | nil => rw [List.foldl_nil, List.flatMap_nil, List.append_nil]
  | cons t rest ih =>
    rw [List.forall_mem_cons] at h
    have hstep : Sealed n (joinGlobals sofar t) ∧
        numbersIn (joinGlobals sofar t) = numbersIn sofar ++ numbersIn t := by
      rw [joinGlobals]
      split
      · rename_i hnil
        rw [hnil, numbersIn_nil]
        exact ⟨h.1, rfl⟩
      · rw [hsofar.numbersIn_append, numbersIn_cons (by decide)]
        exact ⟨hsofar.append (.char (by decide) h.1), rfl⟩
    rw [List.foldl_cons, ih h.2 hstep.1, hstep.2, List.flatMap_cons, List.append_assoc]

/-- The blocks of a script hold each literal once. -/
theorem nodup_numbersIn_blocks {src : Text} {b : Blocks} (hmark : mark ∉ src)
    (h : blocks src = .ok b) :
    (numbersIn b.globals ++ b.functions.flatMap numbersIn).Nodup := by
  unfold blocks at h
  split at h
  · cases h
  rename_i hend
  cases h
  have hhold := holdEach_collected hmark hend
  have hnodup : ((extractsOf (collected src).1).flatMap fun e => numbersIn e.text).Nodup :=
    List.nodup_range.sublist hhold.numbersIn_sublist
  have htexts (kind : BlockKind) (hkind : kind.finish = id) : textsOf kind (collected src).1 =
      (Extract.ofKind kind (extractsOf (collected src).1)).map Extract.text := by
    rw [← map_finish_textsOf, hkind, List.map_id]
  have hglobals : ∀ t ∈ textsOf .globals (collected src).1, Sealed (collected src).2.size t := by
    rw [htexts .globals rfl]
    intro t ht
    obtain ⟨e, he, rfl⟩ := List.mem_map.1 ht
    obtain ⟨ms, hms⟩ := hhold.exists_holds (List.mem_filter.1 he).1
    exact .of_holds hms
  show (numbersIn ((textsOf .globals _).foldl joinGlobals []) ++ (textsOf .function _).flatMap
    numbersIn).Nodup
  rw [numbersIn_foldl_joinGlobals hglobals .nil, numbersIn_nil, List.nil_append,
    htexts .globals rfl, htexts .function rfl, List.flatMap_map, List.flatMap_map,
    ← List.flatMap_append]
  -- the two kinds are different extracts
  have hperm :=
    List.filter_append_perm (fun e : Extract => e.kind = .globals) (extractsOf (collected src).1)
  refine ((hperm.flatMap_right _).nodup_iff.2 hnodup).sublist
    (List.Sublist.flatMap (.append (.refl _) ?_) _)
  refine List.monotone_filter_right _ fun e he => ?_
  rw [decide_eq_true_eq] at he
  rw [he]
  rfl

end Source

theorem nodup_numbers_readProgram {src : Text} {p : Program} (hmark : mark ∉ src)
    (h : readProgram src = .ok p) :
    p.numbers.Nodup := by
  obtain ⟨b, hb, hp⟩ := readProgram_eq_ok.1 h
  obtain ⟨-, hdeclarations, -, hfunctions⟩ := Program.ofBlocks_eq_ok.1 hp
  have hsealed := sealed_blocks hmark hb
  refine (Source.nodup_numbersIn_blocks hmark hb).sublist
    ((numbers_parseAll hsealed.globals hdeclarations).append ?_)
  refine flatMap_sublist hfunctions fun t ht f hparse => ?_
  rw [← (hsealed.functions t ht).numbersIn_squeezeBlock]
  exact numbersIn_body (hsealed.functions t ht).squeezeBlock hparse

/-! ### Passes -/

theorem flatMap_zipIdx {α β : Type} (f : α → List β) (xs : List α) :
    (xs.zipIdx.flatMap fun x => f x.1) = xs.flatMap f := by
  conv_rhs => rw [← List.zipIdx_map_fst 0 xs, List.flatMap_map]

section Passes

variable (p : Program)

theorem numbers_markEntries (names : List Text) : (p.markEntries names).numbers = p.numbers := by
  rw [Program.numbers, Program.markEntries, List.flatMap_map]
  rfl

theorem numbers_countCalls : (Usage.countCalls p).numbers = p.numbers := by
  rw [Program.numbers, Usage.countCalls, List.flatMap_map]
  exact congrArg _ (flatMap_zipIdx (fun f : Function => numbersIn f.body) p.functions)

theorem numbers_countDeclarationUses : (Usage.countDeclarationUses p).numbers = p.numbers := by
  rw [Program.numbers, Usage.countDeclarationUses, List.flatMap_map]
  exact congrArg (· ++ _) (flatMap_zipIdx Declaration.numbers p.declarations)

theorem numbers_prune : (Pruning.prune p).numbers.Sublist p.numbers := by
  have hfunctions :
      (Pruning.dropFunctions (Usage.countCalls p)).numbers.Sublist (Usage.countCalls p).numbers :=
    List.Sublist.append (.refl _) (List.filter_sublist.flatMap _)
  rw [numbers_countCalls, ← numbers_countDeclarationUses] at hfunctions
  exact (List.Sublist.append (List.filter_sublist.flatMap _) (.refl _)).trans hfunctions

theorem numbersIn_replaceInTurn {pairs : List (Text × Text)} (h : ∀ pair ∈ pairs, mark ∉ pair.2)
    (t : Text) :
    numbersIn (Constant.replaceInTurn pairs t) = numbersIn t := by
  induction pairs generalizing t with
  | nil => rfl
  | cons pair rest ih =>
    rw [List.forall_mem_cons] at h
    rw [Constant.replaceInTurn, List.foldl_cons, ← Constant.replaceInTurn, ih h.2,
      Constant.replaceName]
    refine numbersIn_replaceWords (fun w r hr => ?_) t
    split at hr
    · rw [← Option.some.inj hr]
      exact h.1
    · cases hr

theorem numbers_mapValue {f : Text → Text} (hf : ∀ t, numbersIn (f t) = numbersIn t)
    (d : Declaration) :
    (d.mapValue f).numbers = d.numbers := by
  rw [Declaration.numbers, Declaration.mapValue, Declaration.numbers]
  cases d.value with
  | none => rfl
  | some t => exact hf t

theorem numbers_fold : (Constant.fold p).numbers.Sublist p.numbers := by
  obtain ⟨retained, hsub, hdeclarations⟩ := Constant.declarations_fold p
  have hvalues :
      ∀ t, numbersIn (Constant.replaceInTurn (Constant.foldedPairs (Constant.verdicts p)) t) =
        numbersIn t :=
    numbersIn_replaceInTurn fun pair hpair => mark_not_mem_of_plain
      (Constant.all_isPlain_of_mem_foldedPairs hpair)
  rw [Program.numbers, hdeclarations, List.flatMap_map, Constant.fold, List.flatMap_map]
  refine List.Sublist.append ?_ (List.Sublist.flatMap_right _ fun f _ => ?_)
  · refine (List.Sublist.flatMap_right _ fun d _ => ?_).trans (hsub.flatMap _)
    rw [numbers_mapValue hvalues]
  · rw [Constant.replaceIn, numbersIn_replaceWords fun w r hr => ?_]
    split at hr
    · cases hr
    · exact mark_not_mem_of_plain (isPlain_of_foldedValues w r hr)

end Passes

/-- Without tables no literal is held twice when names are dealt. -/
theorem nodup_numbers_counted {options : Options} {src : Text} {p : Program} (hmark : mark ∉ src)
    (htables : options.tables = {}) (h : readProgram src = .ok p) :
    (stages options p).counted.numbers.Nodup := by
  rw [counted_stages, numbers_countDeclarationUses, numbers_countCalls, folded_stages,
    pruned_stages, inlined_stages, htables, Substitution.Tables.inline_empty, marked_stages]
  refine (nodup_numbers_readProgram hmark h).sublist ((numbers_fold _).trans ?_)
  rw [← numbers_markEntries p options.entries]
  exact numbers_prune _

end ScriptMinifier
