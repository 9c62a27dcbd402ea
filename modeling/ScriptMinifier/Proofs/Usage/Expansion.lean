import Mathlib
import ScriptMinifier.Usage.CallGraph

/-! What a frontier expands to.

Meeting a node moves it from the unseen to the pending ones and changes nothing else, so
unseen and pending nodes together stay a permutation of what they were (`meetAll_perm`).
It follows that no node is expanded twice (`expand_subperm`). Everything pending is expanded,
the unseen callees of what is expanded are expanded (`expand_closed`), and nothing else is
(`expand_induction`). The expansion of a graph inherits all of this. -/
namespace ScriptMinifier.Usage

namespace Frontier

variable {f : Frontier} {node : Nat}

theorem meet_perm (f : Frontier) (node : Nat) :
    ((f.meet node).pending ++ (f.meet node).unseen).Perm (f.pending ++ f.unseen) := by
  unfold meet
  split
  · rename_i h
    have hmoved := (List.perm_cons_erase h).symm.append_left f.pending
    exact (List.perm_middle.symm).trans hmoved
  · exact .refl _

theorem meetAll_perm (nodes : List Nat) (f : Frontier) :
    ((nodes.foldl meet f).pending ++ (nodes.foldl meet f).unseen).Perm (f.pending ++ f.unseen) := by
  induction nodes generalizing f with
  | nil => exact .refl _
  | cons node rest ih => exact (ih (f.meet node)).trans (meet_perm f node)

theorem pending_subset_meet (f : Frontier) (node : Nat) : f.pending ⊆ (f.meet node).pending := by
  unfold meet
  split
  · exact List.subset_cons_self _ _
  · exact List.Subset.refl _

theorem pending_subset_meetAll (nodes : List Nat) (f : Frontier) :
    f.pending ⊆ (nodes.foldl meet f).pending := by
  induction nodes generalizing f with
  | nil => exact List.Subset.refl _
  | cons node rest ih => exact List.Subset.trans (pending_subset_meet f node) (ih (f.meet node))

/-- A node that is met while unseen is pending afterwards. -/
theorem mem_pending_meet (h : node ∈ f.unseen) : node ∈ (f.meet node).pending := by
  rw [meet, if_pos h]
  exact List.mem_cons_self

/-- Whatever is no longer unseen has become pending. -/
theorem mem_pending_or_unseen (nodes : List Nat) {other : Nat} (h : other ∈ f.unseen) :
    other ∈ (nodes.foldl meet f).pending ∨ other ∈ (nodes.foldl meet f).unseen := by
  rw [← List.mem_append, (meetAll_perm nodes f).mem_iff]
  exact List.mem_append_right _ h

theorem mem_pending_meetAll {nodes : List Nat} (hnode : node ∈ nodes) (h : node ∈ f.unseen) :
    node ∈ (nodes.foldl meet f).pending := by
  induction nodes generalizing f with
  | nil => cases hnode
  | cons first rest ih =>
    rcases List.mem_cons.1 hnode with rfl | hrest
    · exact pending_subset_meetAll rest _ (mem_pending_meet h)
    · rcases mem_pending_or_unseen [first] h with hpending | hunseen
      · exact pending_subset_meetAll rest _ hpending
      · exact ih hrest hunseen

/-- Only nodes that are met become pending. -/
theorem of_mem_pending_meetAll {nodes : List Nat} {other : Nat}
    (h : other ∈ (nodes.foldl meet f).pending) : other ∈ f.pending ∨ other ∈ nodes := by
  induction nodes generalizing f with
  | nil => exact .inl h
  | cons first rest ih =>
    rcases ih h with hpending | hrest
    · unfold meet at hpending
      split at hpending
      · rcases List.mem_cons.1 hpending with rfl | hpending
        · exact .inr List.mem_cons_self
        · exact .inl hpending
      · exact .inl hpending
    · exact .inr (List.mem_cons_of_mem _ hrest)

end Frontier

/-! ### Expansion of a frontier -/

variable {callees : Nat → List Nat}

/-- Each node is expanded at most once. -/
theorem expand_subperm (callees : Nat → List Nat) (f : Frontier) :
    List.Subperm (expand callees f) (f.pending ++ f.unseen) := by
  fun_induction expand callees f with
  | case1 f h => exact List.nil_subperm
  | case2 f node rest h ih =>
    have hstep := ih.trans (Frontier.meetAll_perm (callees node) ⟨f.unseen, rest⟩).subperm
    rw [h, List.cons_append]
    exact List.subperm_cons _ |>.2 hstep

theorem pending_subset_expand (callees : Nat → List Nat) (f : Frontier) :
    f.pending ⊆ expand callees f := by
  fun_induction expand callees f with
  | case1 f h => rw [h]; exact List.nil_subset _
  | case2 f node rest h ih =>
    rw [h]
    refine List.cons_subset_cons _ ?_
    exact List.Subset.trans (Frontier.pending_subset_meetAll (callees node) ⟨f.unseen, rest⟩) ih

/-- Unseen callees of what is expanded are expanded. -/
theorem expand_closed {f : Frontier} {caller callee : Nat} (hcaller : caller ∈ expand callees f)
    (hcall : callee ∈ callees caller) (hunseen : callee ∈ f.unseen) :
    callee ∈ expand callees f := by
  fun_induction expand callees f with
  | case1 f h => cases hcaller
  | case2 f node rest h ih =>
    refine List.mem_cons_of_mem _ ?_
    rcases List.mem_cons.1 hcaller with rfl | hcaller
    · exact pending_subset_expand _ _ (Frontier.mem_pending_meetAll hcall hunseen)
    · -- a callee met on the way is pending by now, any other is still unseen
      rcases Frontier.mem_pending_or_unseen (f := ⟨f.unseen, rest⟩)
        (callees node) hunseen with hp | hu
      · exact pending_subset_expand _ _ hp
      · exact ih hcaller hu

/-- What holds of the pending nodes and goes from callers to callees holds of all that is
expanded. -/
theorem expand_induction {P : Nat → Prop} {f : Frontier} (hpending : ∀ node ∈ f.pending, P node)
    (hstep : ∀ caller, P caller → ∀ callee ∈ callees caller, P callee) :
    ∀ node ∈ expand callees f, P node := by
  fun_induction expand callees f with
  | case1 f h => intro node hnode; cases hnode
  | case2 f node rest h ih =>
    rw [h] at hpending
    have hnode := hpending node List.mem_cons_self
    intro other hother
    rcases List.mem_cons.1 hother with rfl | hother
    · exact hnode
    · refine ih (fun met hmet => ?_) other hother
      rcases Frontier.of_mem_pending_meetAll hmet with hrest | hcall
      · exact hpending met (List.mem_cons_of_mem _ hrest)
      · exact hstep node hnode met hcall

/-! ### Expansion of a graph -/

namespace CallGraph

variable {g : CallGraph} {roots : List Nat}

theorem nodup_expansion (g : CallGraph) (roots : List Nat) : (g.expansion roots).Nodup := by
  have hsub := expand_subperm g.callees (roots.foldl Frontier.meet ⟨List.range g.names.length, []⟩)
  obtain ⟨nodes, hperm, hsublist⟩ := hsub.trans (Frontier.meetAll_perm roots _).subperm
  exact hperm.nodup_iff.1 (List.nodup_range.sublist hsublist)

theorem mem_expansion_of_root {root : Nat} (hroot : root ∈ roots) (hlt : root < g.names.length) :
    root ∈ g.expansion roots :=
  pending_subset_expand _ _ (Frontier.mem_pending_meetAll hroot (List.mem_range.2 hlt))

theorem mem_expansion_of_call {caller callee : Nat} (hcaller : caller ∈ g.expansion roots)
    (hcall : callee ∈ g.callees caller) (hlt : callee < g.names.length) :
    callee ∈ g.expansion roots := by
  -- a callee among the roots was pending at the start
  rcases Frontier.mem_pending_or_unseen (f := ⟨List.range g.names.length, []⟩) roots
    (List.mem_range.2 hlt) with hp | hu
  · exact pending_subset_expand _ _ hp
  · exact expand_closed hcaller hcall hu

theorem expansion_induction {P : Nat → Prop} (hroots : ∀ root ∈ roots, P root)
    (hstep : ∀ caller, P caller → ∀ callee ∈ g.callees caller, P callee) :
    ∀ node ∈ g.expansion roots, P node := by
  refine expand_induction (fun node hnode => ?_) hstep
  rcases Frontier.of_mem_pending_meetAll hnode with hnone | hroot
  · cases hnone
  · exact hroots node hroot

end CallGraph
end ScriptMinifier.Usage
