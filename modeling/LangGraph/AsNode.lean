import Mathlib.Data.Prod.Lex
import Mathlib.Order.Nat
import LangGraph.Lib.SortBy
import LangGraph.Checkpointing

/- The node that an update without `as_node` is taken to come from.

   Correspondence (source ↔ Lean):
     the inference in `bulk_update_state`           ↔ `bulkUpdateAsNode`
     the inference in `abulk_update_state`          ↔ `abulkUpdateAsNode`
     `last_seen_by_node`, before it is sorted       ↔ `seenByNode`
     the choice of its last entry                   ↔ `lastSeenNode`
   A version is true if it is not the null version of its type (`⊥`). The two
   functions differ in the guard of the input node: no true version has been
   seen, or no checkpoint is saved. `lastSeenNode_eq_some_iff`: a node is chosen
   iff one entry has a version above all others. -/
namespace LangGraph

inductive InputChannels where
  | single (chan : String)
  | many (chans : List String)
  deriving DecidableEq, Repr

section AsNode
variable {V : Type} [LinearOrder V]

/-- `(v, n) for n, seen in checkpoint["versions_seen"].items() if n in self.nodes …` -/
def seenByNode (nodes : List String) (cp : Checkpoint V) : List (V × String) :=
  (cp.versionsSeen.entries.filter fun e => nodes.contains e.1).flatMap fun e =>
    e.2.values.map (·, e.1)

/-- The last entry in the order of the pairs, if its version differs from the one before. -/
def lastSeenNode (entries : List (V × String)) : Option String :=
  match (SortBy.sortBy (fun e : V × String => toLex e) entries).reverse with
  | [] => none
  | [e] => some e.2
  | e :: e' :: _ => if e.1 ≠ e'.1 then some e.2 else none

/-- `if isinstance(self.input_channels, str) and self.input_channels in self.nodes` -/
def inputNode (nodes : List String) : InputChannels → Option String
  | .single chan => if nodes.contains chan then some chan else none
  | .many _ => none

def ambiguousUpdate : String := "Ambiguous update, specify as_node"

/-- What follows the inference. -/
def checkAsNode (nodes : List String) : Option String → Except String String
  | none => .error ambiguousUpdate
  | some n => if nodes.contains n then .ok n else .error ("Node " ++ n ++ " does not exist")

/-- A node is chosen iff one entry has a version above the versions of all others. -/
theorem lastSeenNode_eq_some_iff {entries : List (V × String)} {n : String} :
    lastSeenNode entries = some n ↔
      ∃ v others, entries.Perm ((v, n) :: others) ∧ ∀ x ∈ others, x.1 < v := by
  have hperm : (SortBy.sortBy (fun e : V × String => toLex e) entries).reverse.Perm entries :=
    (List.reverse_perm _).trans (SortBy.perm_sortBy _ _)
  have hsorted : (SortBy.sortBy (fun e : V × String => toLex e) entries).reverse.Pairwise
      fun a b => b.1 ≤ a.1 := by
    rw [List.pairwise_reverse]
    refine (SortBy.pairwise_sortBy (fun e : V × String => toLex e) entries).imp ?_
    intro a b hle
    rcases Prod.Lex.le_iff.mp hle with hlt | ⟨heq, _⟩
    · exact le_of_lt hlt
    · exact le_of_eq heq
  unfold lastSeenNode
  generalize (SortBy.sortBy (fun e : V × String => toLex e) entries).reverse = sorted at hperm hsorted
  match sorted with
  | [] =>
    refine iff_of_false (fun h => nomatch h) fun h => ?_
    obtain ⟨v, others, hothers, _⟩ := h
    exact List.not_perm_nil_cons _ _ (hperm.trans hothers)
  | [e] =>
    constructor
    · intro h
      refine ⟨e.1, [], ?_, fun _ hx => nomatch hx⟩
      rw [← Option.some.inj h]
      exact hperm.symm
    · intro h
      obtain ⟨v, others, hothers, _⟩ := h
      have hmem : (v, n) ∈ [e] := (hperm.trans hothers).mem_iff.mpr List.mem_cons_self
      rw [← List.mem_singleton.mp hmem]
  | e :: e' :: rest =>
    rw [List.pairwise_cons, List.pairwise_cons] at hsorted
    obtain ⟨hfirst, hsecond, _⟩ := hsorted
    show (if e.1 ≠ e'.1 then some e.2 else none) = some n ↔ _
    constructor
    · intro h
      split at h
      · next hne =>
        refine ⟨e.1, e' :: rest, ?_, ?_⟩
        · rw [← Option.some.inj h]
          exact hperm.symm
        · -- no version is above the second one
          have hlt : e'.1 < e.1 := lt_of_le_of_ne (hfirst e' List.mem_cons_self) (Ne.symm hne)
          intro x hx
          rcases List.mem_cons.mp hx with rfl | hx
          · exact hlt
          · exact lt_of_le_of_lt (hsecond x hx) hlt
      · cases h
    · intro h
      obtain ⟨v, others, hothers, hbelow⟩ := h
      have hall := hperm.trans hothers
      have he : e = (v, n) := by
        have hmem : e ∈ (v, n) :: others := hall.mem_iff.mp List.mem_cons_self
        rcases List.mem_cons.mp hmem with he | he
        · exact he
        · have hlt := hbelow e he
          have hmax : (v, n) ∈ e :: e' :: rest := hall.mem_iff.mpr List.mem_cons_self
          rcases List.mem_cons.mp hmax with heq | hmax
          · exact heq.symm
          · exact absurd (hfirst _ hmax) (not_le_of_gt hlt)
      subst he
      have hothers' : e' ∈ others := (List.Perm.cons_inv hall).mem_iff.mp List.mem_cons_self
      rw [if_pos (ne_of_gt (hbelow e' hothers'))]

variable [OrderBot V]

/-- `any(v for vv in checkpoint["versions_seen"].values() for v in vv.values())` -/
def anySeen (cp : Checkpoint V) : Bool := cp.versionsSeen.values.any fun seen => seen.values.any (· != ⊥)

def bulkUpdateAsNode (nodes : List String) (inputChannels : InputChannels)
    (saved : Option (Checkpoint V)) : Except String String :=
  let checkpoint := saved.getD (emptyCheckpoint "")
  checkAsNode nodes <|
    if nodes.length = 1 then nodes.head?
    else if !anySeen checkpoint then inputNode nodes inputChannels
    else lastSeenNode (seenByNode nodes checkpoint)

omit [OrderBot V] in
def abulkUpdateAsNode (nodes : List String) (inputChannels : InputChannels)
    (saved : Option (Checkpoint V)) : Except String String :=
  let checkpoint := saved.getD (emptyCheckpoint "")
  checkAsNode nodes <|
    if nodes.length = 1 then nodes.head?
    else if saved.isNone then inputNode nodes inputChannels
    else lastSeenNode (seenByNode nodes checkpoint)

/-- Both functions choose the node `n` that meets `chosen`, or both raise the ambiguous update. -/
def SameAsNode (nodes : List String) (inputChannels : InputChannels) (saved : Option (Checkpoint V))
    (chosen : String → Prop) : Prop :=
  (∃ n, bulkUpdateAsNode nodes inputChannels saved = .ok n ∧
    abulkUpdateAsNode nodes inputChannels saved = .ok n ∧ chosen n) ∨
  bulkUpdateAsNode nodes inputChannels saved = .error ambiguousUpdate ∧
    abulkUpdateAsNode nodes inputChannels saved = .error ambiguousUpdate

omit [OrderBot V] in
/-- The only node, or the one node whose seen trigger version is the maximum. -/
def LastSeen (nodes : List String) (saved : Option (Checkpoint V)) (n : String) : Prop :=
  nodes = [n] ∨ ∃ cp, saved = some cp ∧ ∃ v others,
    (seenByNode nodes cp).Perm ((v, n) :: others) ∧ ∀ x ∈ others, x.1 < v

theorem anySeen_emptyCheckpoint (id : String) : anySeen (emptyCheckpoint id : Checkpoint V) = false := rfl

theorem sameAsNode_of_eq {nodes : List String} {inputChannels : InputChannels}
    {saved : Option (Checkpoint V)} {chosen : String → Prop} (x : Option String)
    (hbulk : bulkUpdateAsNode nodes inputChannels saved = checkAsNode nodes x)
    (habulk : abulkUpdateAsNode nodes inputChannels saved = checkAsNode nodes x)
    (hx : ∀ n, x = some n → n ∈ nodes ∧ chosen n) : SameAsNode nodes inputChannels saved chosen := by
  cases x with
  | none => exact Or.inr ⟨hbulk, habulk⟩
  | some n =>
    obtain ⟨hn, hchosen⟩ := hx n rfl
    have hok : checkAsNode nodes (some n) = .ok n := by
      show (if nodes.contains n then Except.ok n else _) = _
      rw [if_pos (List.contains_iff_mem.mpr hn)]
    exact Or.inl ⟨n, hbulk.trans hok, habulk.trans hok, hchosen⟩

omit [LinearOrder V] [OrderBot V] in
theorem mem_of_seenByNode {nodes : List String} {cp : Checkpoint V} {v : V} {n : String}
    (h : (v, n) ∈ seenByNode nodes cp) : n ∈ nodes := by
  obtain ⟨e, he, hmem⟩ := List.mem_flatMap.mp h
  obtain ⟨w, _, heq⟩ := List.mem_map.mp hmem
  obtain ⟨_, rfl⟩ := Prod.mk.inj heq
  exact List.contains_iff_mem.mp (List.mem_filter.mp he).2

/-- The guards agree: without a checkpoint, and with one that has seen a true version.
    Without a checkpoint the node of the input channel is chosen. -/
theorem sameAsNode (nodes : List String) (inputChannels : InputChannels)
    (saved : Option (Checkpoint V)) (hseen : ∀ cp, saved = some cp → anySeen cp = true) :
    SameAsNode nodes inputChannels saved fun n =>
      LastSeen nodes saved n ∨ (saved = none ∧ inputNode nodes inputChannels = some n) := by
  by_cases hone : nodes.length = 1
  · obtain ⟨n, rfl⟩ := List.length_eq_one_iff.mp hone
    refine sameAsNode_of_eq (some n) rfl rfl ?_
    intro n' hn
    obtain rfl := Option.some.inj hn
    exact ⟨List.mem_singleton_self n, Or.inl (Or.inl rfl)⟩
  cases saved with
  | none =>
    refine sameAsNode_of_eq (inputNode nodes inputChannels) ?_ ?_ ?_
    · unfold bulkUpdateAsNode
      simp only [hone, if_false, Option.getD_none, anySeen_emptyCheckpoint, Bool.not_false, if_true]
    · unfold abulkUpdateAsNode
      simp only [hone, if_false, Option.isNone_none, if_true]
    · intro n hn
      refine ⟨?_, Or.inr ⟨rfl, hn⟩⟩
      cases inputChannels with
      | many chans => cases hn
      | single chan =>
        unfold inputNode at hn
        dsimp only at hn
        split at hn
        · next hmem =>
          rw [← Option.some.inj hn]
          exact List.contains_iff_mem.mp hmem
        · cases hn
  | some cp =>
    refine sameAsNode_of_eq (lastSeenNode (seenByNode nodes cp)) ?_ ?_ ?_
    · unfold bulkUpdateAsNode
      simp only [hone, if_false, Option.getD_some, hseen cp rfl, Bool.not_true, Bool.false_eq_true]
    · unfold abulkUpdateAsNode
      simp only [hone, if_false, Option.getD_some, Option.isNone_some, Bool.false_eq_true]
    · intro n hn
      obtain ⟨v, others, hperm, hbelow⟩ := lastSeenNode_eq_some_iff.mp hn
      exact ⟨mem_of_seenByNode (hperm.mem_iff.mpr List.mem_cons_self),
        Or.inl (Or.inr ⟨cp, rfl, v, others, hperm, hbelow⟩)⟩

/-! A graph with one node beside `__start__`. -/

def startNodes : List String := ["__start__", "a"]

/-- The checkpoint after a first step that ran `__start__`. -/
def startSeen : Checkpoint Nat :=
  { emptyCheckpoint "1" with
    versionsSeen := OrdDict.ofList [("__input__", ∅), ("__start__", OrdDict.ofList [("__start__", 1)])] }

theorem sameAsNode_startSeen :
    SameAsNode startNodes (.single "__start__") (some startSeen) fun n =>
      LastSeen startNodes (some startSeen) n ∨
        ((some startSeen : Option (Checkpoint Nat)) = none ∧ inputNode startNodes (.single "__start__") = some n) :=
  sameAsNode startNodes (.single "__start__") (some startSeen) (by
    intro cp hcp
    obtain rfl := Option.some.inj hcp
    decide)

/-- The checkpoint after an update as input: its task has no triggers. -/
def savedAsInput : Checkpoint Nat :=
  markSeen (emptyCheckpoint "1") ⟨[], Const.INPUT, [("__start__", .none)], []⟩

/-- Without a checkpoint the input node is chosen, though it has seen nothing; and
    after an update as input only one of the functions raises. -/
theorem not_sameAsNode :
    ¬SameAsNode (V := Nat) startNodes (.single "__start__") none (LastSeen startNodes (none : Option (Checkpoint Nat))) ∧
      ¬SameAsNode startNodes (.single "__start__") (some savedAsInput)
        (LastSeen startNodes (some savedAsInput)) := by
  have hfresh : bulkUpdateAsNode startNodes (.single "__start__") (none : Option (Checkpoint Nat)) =
      .ok "__start__" := by decide
  have hbulk : bulkUpdateAsNode startNodes (.single "__start__") (some savedAsInput) =
      .ok "__start__" := by decide
  have habulk : abulkUpdateAsNode startNodes (.single "__start__") (some savedAsInput) =
      .error ambiguousUpdate := by decide
  refine ⟨?_, ?_⟩
  · intro h
    rcases h with ⟨n, _, _, hone | ⟨cp, hcp, _⟩⟩ | ⟨herr, _⟩
    · cases hone
    · cases hcp
    · rw [hfresh] at herr
      cases herr
  · intro h
    rcases h with ⟨n, _, hok, _⟩ | ⟨herr, _⟩
    · rw [habulk] at hok
      cases hok
    · rw [hbulk] at herr
      cases herr

end AsNode
end LangGraph
