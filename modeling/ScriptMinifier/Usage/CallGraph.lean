import ScriptMinifier.Program
import ScriptMinifier.Usage.Idiom

/-! Who calls whom.

The nodes of the call graph are the functions by position, and a name stands for the
first function of that name. A function has one edge for each word of its body that is a
function's name, and one for each name it gives to `ExecuteFunc`. Starting from some
roots, every function that is reached is expanded once (`expansion`); what is counted
are the edges of the expanded functions. -/
namespace ScriptMinifier.Usage

open Syntax (Function)

/-- The functions of a program and the calls in each. -/
structure CallGraph where
  names : List Text
  calls : List (List Nat)
deriving DecidableEq, Repr

/-- The names of functions that a body calls, one for each call. -/
def calledNames (ls : Literals) (f : Function) : List Text :=
  Text.words f.body ++ Idiom.executeFunc.names ls f.body

/-- The first position of a name. -/
def firstIndex? (names : List Text) (name : Text) : Option Nat := names.findIdx? (· == name)

namespace CallGraph

/-- The call graph of a program. -/
def ofProgram (p : Program) : CallGraph where
  names := p.functionNames
  calls :=
    p.functions.map fun f => (calledNames p.literals f).filterMap (firstIndex? p.functionNames)

/-- The node that a name stands for. -/
def node? (g : CallGraph) (name : Text) : Option Nat := firstIndex? g.names name

/-- The functions that a node calls, one for each call. -/
def callees (g : CallGraph) (node : Nat) : List Nat := g.calls.getD node []

/-- The name of a node. -/
def nameOf (g : CallGraph) (node : Nat) : Text := g.names.getD node []

end CallGraph

/-! ### Expansion -/

/-- The nodes that have not been met, and those met and not yet expanded, the last met
first. -/
structure Frontier where
  unseen : List Nat
  pending : List Nat

namespace Frontier

/-- Meets a node; one met before is passed over. -/
def meet (f : Frontier) (node : Nat) : Frontier :=
  if node ∈ f.unseen then ⟨f.unseen.erase node, node :: f.pending⟩ else f

/-- What is left to do: an unseen node has to be met and expanded. -/
def weight (f : Frontier) : Nat := 2 * f.unseen.length + f.pending.length

theorem weight_meet_le (f : Frontier) (node : Nat) : (f.meet node).weight ≤ f.weight := by
  unfold meet
  split
  · rename_i h
    have := List.length_erase_of_mem h
    have := List.length_pos_of_mem h
    simp only [weight, List.length_cons]
    omega
  · exact Nat.le_refl _

theorem weight_meetAll_le (nodes : List Nat) (f : Frontier) :
    (nodes.foldl meet f).weight ≤ f.weight := by
  induction nodes generalizing f with
  | nil => exact Nat.le_refl _
  | cons node rest ih => exact Nat.le_trans (ih _) (weight_meet_le f node)

end Frontier

/-- The nodes expanded from a frontier, in order. -/
def expand (callees : Nat → List Nat) (f : Frontier) : List Nat :=
  match _h : f.pending with
  | [] => []
  | node :: rest => node :: expand callees ((callees node).foldl Frontier.meet ⟨f.unseen, rest⟩)
termination_by f.weight
decreasing_by
  have := Frontier.weight_meetAll_le (callees node) ⟨f.unseen, rest⟩
  simp only [Frontier.weight, _h, List.length_cons] at this ⊢
  omega

namespace CallGraph

/-- The nodes expanded from some roots, in order. -/
def expansion (g : CallGraph) (roots : List Nat) : List Nat :=
  expand g.callees (roots.foldl Frontier.meet ⟨List.range g.names.length, []⟩)

/-- Every call in the functions that are reached from some roots. -/
def reachedCalls (g : CallGraph) (roots : List Nat) : List Nat :=
  (g.expansion roots).flatMap g.callees

/-- How often each function is called in the functions that are reached. -/
def counts (g : CallGraph) (roots : List Nat) : List Nat :=
  let calls := g.reachedCalls roots
  (List.range g.names.length).map calls.count

end CallGraph
end ScriptMinifier.Usage
