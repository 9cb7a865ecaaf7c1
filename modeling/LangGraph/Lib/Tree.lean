import Mathlib.Data.List.Basic

/- Finite trees with data at the leaves and labels at the inner nodes, in two
   layers: the induction over them, and the recursion that hands a node its
   subtrees beside what they gave. A predicate on labels or on leaves is an
   instance of it, with its equation at a node as the only thing a proof uses. -/
namespace LangGraph

inductive Tree (α κ : Type) where
  | leaf (a : α)
  | node (k : κ) (ts : List (Tree α κ))

namespace Tree

variable {α κ β : Type}

mutual
theorem ind_tree {P : Tree α κ → Prop} (leaf : ∀ a, P (.leaf a))
    (node : ∀ k ts, (∀ t ∈ ts, P t) → P (.node k ts)) : ∀ t, P t
  | .leaf a => leaf a
  | .node k ts => node k ts (ind_list leaf node ts)

theorem ind_list {P : Tree α κ → Prop} (leaf : ∀ a, P (.leaf a))
    (node : ∀ k ts, (∀ t ∈ ts, P t) → P (.node k ts)) : ∀ ts : List (Tree α κ), ∀ t ∈ ts, P t
  | [], t, h => by cases h
  | s :: ts, t, h => by
    cases List.mem_cons.mp h with
    | inl e => exact e ▸ ind_tree leaf node s
    | inr h => exact ind_list leaf node ts t h
end

/-- A property of every tree, from the leaves and from the subtrees of a node. -/
@[elab_as_elim]
theorem ind {P : Tree α κ → Prop} (leaf : ∀ a, P (.leaf a))
    (node : ∀ k ts, (∀ t ∈ ts, P t) → P (.node k ts)) (t : Tree α κ) : P t :=
  ind_tree leaf node t

mutual
/-- Recursion over a tree: a node is given its subtrees and their results. -/
def para (f : α → β) (g : κ → List (Tree α κ) → List β → β) : Tree α κ → β
  | .leaf a => f a
  | .node k ts => g k ts (paraAll f g ts)

def paraAll (f : α → β) (g : κ → List (Tree α κ) → List β → β) : List (Tree α κ) → List β
  | [] => []
  | t :: ts => para f g t :: paraAll f g ts
end

theorem paraAll_eq_map (f : α → β) (g : κ → List (Tree α κ) → List β → β) :
    ∀ ts, paraAll f g ts = ts.map (para f g)
  | [] => by simp only [paraAll, List.map_nil]
  | t :: ts => by simp only [paraAll, List.map_cons, paraAll_eq_map f g ts]

@[simp] theorem para_leaf (f : α → β) (g : κ → List (Tree α κ) → List β → β) (a : α) :
    para f g (.leaf a) = f a := by
  simp only [para]

@[simp] theorem para_node (f : α → β) (g : κ → List (Tree α κ) → List β → β) (k : κ)
    (ts : List (Tree α κ)) : para f g (.node k ts) = g k ts (ts.map (para f g)) := by
  simp only [para, paraAll_eq_map]

/-- Some node of the tree has a label with `p`. -/
def anyNode (p : κ → Bool) : Tree α κ → Bool :=
  para (fun _ => false) fun k _ bs => p k || bs.any id

@[simp] theorem anyNode_leaf (p : κ → Bool) (a : α) : anyNode p (.leaf a) = false := by
  simp only [anyNode, para_leaf]

@[simp] theorem anyNode_node (p : κ → Bool) (k : κ) (ts : List (Tree α κ)) :
    anyNode p (.node k ts) = (p k || ts.any (anyNode p)) := by
  simp only [anyNode, para_node, List.any_map]
  rfl

/-- Every leaf of the tree has `p`. -/
def allLeaves (p : α → Bool) : Tree α κ → Bool :=
  para p fun _ _ bs => bs.all id

@[simp] theorem allLeaves_leaf (p : α → Bool) (a : α) :
    allLeaves p (.leaf a : Tree α κ) = p a := by
  simp only [allLeaves, para_leaf]

@[simp] theorem allLeaves_node (p : α → Bool) (k : κ) (ts : List (Tree α κ)) :
    allLeaves p (.node k ts) = ts.all (allLeaves p) := by
  simp only [allLeaves, para_node, List.all_map]
  rfl

end Tree
end LangGraph
