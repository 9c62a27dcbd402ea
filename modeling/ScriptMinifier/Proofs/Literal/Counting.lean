import ScriptMinifier.Proofs.Literal.SealedProgram
import ScriptMinifier.Proofs.Syntax.Rendering

/-! How many placeholders a program has.

A placeholder has two marks, so counting marks counts placeholders, and counts add up over
texts put together. Squeezing moves blanks and newlines only. The texts of a script's blocks
have one placeholder for each literal, and reading takes values and bodies from different
places of them; so a program has no more placeholders than its table has literals
(`marks_ofBlocks`). -/
namespace ScriptMinifier

open Text (mark)
open Literal (placeholder)
open Syntax (Declaration Function)

/-- The number of marks in a text. -/
def marks (t : Text) : Nat := t.count mark

/-! ### Marks of texts -/

@[simp] theorem marks_nil : marks [] = 0 := rfl

@[simp] theorem marks_append (s t : Text) : marks (s ++ t) = marks s + marks t := List.count_append

theorem marks_cons {c : Char} (hc : c ≠ mark) (t : Text) : marks (c :: t) = marks t :=
  List.count_cons_of_ne hc

theorem marks_eq_zero {t : Text} (h : mark ∉ t) : marks t = 0 := List.count_eq_zero.2 h

theorem marks_placeholder (k : Nat) : marks (placeholder k) = 2 := by
  simp [marks, placeholder, List.count_eq_zero.2 (Literal.mark_not_mem_ofNat k)]

theorem marks_le_of_sublist {s t : Text} (h : s.Sublist t) : marks s ≤ marks t := h.count_le mark

theorem marks_joined {c : Char} (hsep : c ≠ mark) (ts : List Text) :
    marks (Text.joined c ts) = (ts.map marks).sum := by
  match ts with
  | [] => rfl
  | [t] => simp [Text.joined, List.intercalate]
  | t :: u :: more =>
    rw [Text.joined_cons_cons, marks_append, marks_cons hsep, marks_joined hsep (u :: more)]
    rfl

theorem marks_squeezeFrom (before : Option Char) (pending : Bool) (t : Text) :
    marks (Layout.squeezeFrom before pending t) = marks t := by
  induction t generalizing before pending with
  | nil => rfl
  | cons c rest ih =>
    have hcons : ∀ u, marks u = marks rest → marks (c :: u) = marks (c :: rest) := by
      intro u hu
      rw [← List.singleton_append, ← List.singleton_append (l := rest), marks_append, marks_append,
        hu]
    rw [Layout.squeezeFrom]
    split
    · rename_i hc
      have hmark : c ≠ mark := by
        rintro rfl
        cases hc
      rw [ih, marks_cons hmark]
    · split
      · rw [marks_cons (by decide)]
        exact hcons _ (ih _ _)
      · exact hcons _ (ih _ _)

/-- A list of texts without the empty ones has the same marks. -/
theorem sum_marks_filter (ts : List Text) :
    ((ts.filter (· ≠ [])).map marks).sum = (ts.map marks).sum := by
  induction ts with
  | nil => rfl
  | cons t rest ih =>
    by_cases ht : t = []
    · rw [ht, List.filter_cons_of_neg (by simp), List.map_cons, List.sum_cons, marks_nil,
        Nat.zero_add]
      exact ih
    · rw [List.filter_cons_of_pos (by simpa using ht), List.map_cons, List.map_cons, List.sum_cons,
        List.sum_cons, ih]

theorem sum_marks_squeezedLines (t : Text) :
    ((Layout.squeezedLines t).map marks).sum = marks t := by
  have hpieces := marks_joined (c := '\n') (by decide) (Text.pieces '\n' t)
  rw [Text.joined_pieces] at hpieces
  rw [Layout.squeezedLines, sum_marks_filter, List.map_map, hpieces]
  exact congrArg List.sum (List.map_congr_left fun line _ => marks_squeezeFrom none false line)

theorem marks_squeezeBlock (t : Text) : marks (Layout.squeezeBlock t) = marks t := by
  rw [Layout.squeezeBlock, marks_joined (by decide), sum_marks_squeezedLines]

/-- Sums of marks compared part by part. -/
theorem sum_marks_le {α β : Type} {R : α → β → Prop} {f : α → Text} {g : β → Text} {xs : List α}
    {ys : List β}
    (h : List.Forall₂ R xs ys) (hle : ∀ x, ∀ y ∈ ys, R x y → marks (g y) ≤ marks (f x)) :
    (ys.map fun y => marks (g y)).sum ≤ (xs.map fun x => marks (f x)).sum := by
  induction h with
  | nil => exact Nat.le_refl 0
  | cons hxy _ ih =>
    have hfirst := hle _ _ List.mem_cons_self hxy
    have hrest := ih fun x y hy => hle x y (List.mem_cons_of_mem _ hy)
    simp only [List.map_cons, List.sum_cons]
    omega

/-! ### Marks of blocks -/

theorem Holds.marks_eq {ls : Literals} {ns : List Nat} {held written : Text}
    (h : Holds ls ns held written) :
    marks held = 2 * ns.length := by
  induction h with
  | nil => rfl
  | char hc _ ih => rw [marks_cons hc, ih]
  | literal _ _ _ ih =>
    rw [marks_append, marks_placeholder, ih, List.length_cons]
    omega

namespace Source

theorem HoldEach.sum_marks {all : Literals} {ns : List Nat} {es : List Extract}
    (h : HoldEach all ns es) :
    (es.map fun e => marks e.text).sum = 2 * ns.length := by
  induction h with
  | nil => rfl
  | cons first _ ih =>
    rw [List.map_cons, List.sum_cons, ih, first.marks_eq, List.length_append]
    omega

theorem marks_foldl_joinGlobals (ts : List Text) (sofar : Text) :
    marks (ts.foldl joinGlobals sofar) = marks sofar + (ts.map marks).sum := by
  induction ts generalizing sofar with
  | nil => rfl
  | cons t rest ih =>
    have hstep : marks (joinGlobals sofar t) = marks sofar + marks t := by
      rw [joinGlobals]
      split
      · rename_i hnil
        rw [hnil, marks_nil, Nat.zero_add]
      · rw [marks_append, marks_cons (by decide)]
    rw [List.foldl_cons, ih, hstep, List.map_cons, List.sum_cons, Nat.add_assoc]

theorem sum_marks_ofKind (es : List Extract) :
    ((Extract.ofKind .globals es).map fun e => marks e.text).sum +
      ((Extract.ofKind .function es).map fun e => marks e.text).sum ≤
      (es.map fun e => marks e.text).sum := by
  induction es with
  | nil => exact Nat.le_refl 0
  | cons e rest ih =>
    simp only [Extract.ofKind, List.filter_cons] at ih ⊢
    cases e.kind <;> simp <;> omega

/-- The blocks of a script have one placeholder for each literal. -/
theorem marks_blocks {src : Text} {b : Blocks} (hmark : mark ∉ src) (h : blocks src = .ok b) :
    marks b.globals + (b.functions.map marks).sum ≤ 2 * b.literals.size := by
  unfold blocks at h
  split at h
  · cases h
  rename_i hend
  cases h
  have hhold := (holdEach_collected hmark hend).sum_marks
  have hkinds := sum_marks_ofKind (extractsOf (collected src).1)
  have htexts (kind : BlockKind) (hkind : kind.finish = id) :
      (textsOf kind (collected src).1).map marks =
      (Extract.ofKind kind (extractsOf (collected src).1)).map fun e => marks e.text := by
    have := congrArg (List.map marks) (map_finish_textsOf kind (collected src).1)
    rwa [hkind, List.map_id, List.map_map] at this
  show marks ((textsOf .globals _).foldl joinGlobals []) + ((textsOf .function _).map marks).sum ≤ _
  rw [marks_foldl_joinGlobals, htexts .globals rfl, htexts .function rfl, marks_nil, Nat.zero_add]
  rw [hhold, List.length_range] at hkinds
  exact hkinds

end Source

/-! ### Marks of programs -/

theorem marks_render_le {line : Text} {d : Declaration} (h : Declaration.parse? line = some d)
    (hd : d.Regular) : marks d.render ≤ marks line := by
  obtain ⟨⟨left, -, hsides⟩, -⟩ := Declaration.parse?_eq_some h
  have hhead : marks (Text.joined ' ' d.words) = 0 :=
    marks_eq_zero (Declaration.not_mem_words hd (by decide) (by decide))
  rw [Declaration.render_eq, marks_append, hhead, Nat.zero_add, Declaration.assigned]
  rcases hsides with ⟨-, hnone⟩ | ⟨value, rfl, hsome⟩
  · rw [hnone]
    exact Nat.zero_le _
  · rw [hsome]
    refine marks_le_of_sublist ?_
    cases value with
    | nil => exact List.nil_sublist _
    | cons c rest => exact List.sublist_append_right _ _

theorem marks_body_le {block : Text} {f : Function} (h : Function.parse block = .ok f) :
    marks f.body ≤ marks block := by
  obtain ⟨header, -, -, -, -, hsplit⟩ := Function.parse_eq_ok h
  refine marks_le_of_sublist (List.Sublist.trans ?_ (Text.trim_sublist block))
  rcases hsplit with ⟨-, hbody⟩ | hsplit
  · rw [hbody]
    exact List.nil_sublist _
  · rw [hsplit]
    exact List.sublist_append_of_sublist_right (List.sublist_cons_self _ _)

theorem sum_marks_parseAll {t : Text} {ds : List Declaration}
    (h : Declaration.parseAll (Layout.squeezeBlock t) = .ok ds) :
    (ds.map fun d => marks d.render).sum ≤ marks t := by
  have hregular : ∀ d ∈ ds, d.Regular := fun d hd => Declaration.regular_of_parseAll h hd
  rw [Declaration.parseAll_eq_ok, Layout.lines_squeezeBlock] at h
  have htrim : List.Forall₂ (fun line line' => line' = Text.trim line) (Layout.squeezedLines t)
      ((Layout.squeezedLines t).map Text.trim) :=
        List.forall₂_map_right_iff.2 (List.forall₂_same.2 fun _ _ => rfl)
  calc (ds.map fun d => marks d.render).sum
      ≤ ((((Layout.squeezedLines t).map Text.trim).filter (· ≠ [])).map marks).sum :=
        sum_marks_le (f := fun line => line) h fun _ d hd hparse => marks_render_le hparse
          (hregular d hd)
    _ = (((Layout.squeezedLines t).map Text.trim).map marks).sum := sum_marks_filter _
    _ ≤ ((Layout.squeezedLines t).map marks).sum := by
        refine sum_marks_le (f := fun line => line) (g := fun line => line) htrim
          fun line _ _ hline => ?_
        rw [hline]
        exact marks_le_of_sublist (Text.trim_sublist line)
    _ = marks t := sum_marks_squeezedLines t

/-- A program has no more placeholders than literals. -/
theorem marks_ofBlocks {src : Text} {b : Source.Blocks} {p : Program} (hmark : mark ∉ src)
    (hb : Source.blocks src = .ok b) (hp : Program.ofBlocks b = .ok p) :
    (p.declarations.map fun d => marks d.render).sum + (p.functions.map fun f => marks f.body).sum ≤
      2 * p.literals.size := by
  obtain ⟨hliterals, hdeclarations, -, hfunctions⟩ := Program.ofBlocks_eq_ok.1 hp
  have hblocks := Source.marks_blocks hmark hb
  have hdecls := sum_marks_parseAll hdeclarations
  have hbodies : (p.functions.map fun f => marks f.body).sum ≤ (b.functions.map marks).sum :=
    sum_marks_le (f := fun t => t) hfunctions fun t f _ hf => by
      rw [← marks_squeezeBlock t]
      exact marks_body_le hf
  rw [hliterals]
  omega

end ScriptMinifier
