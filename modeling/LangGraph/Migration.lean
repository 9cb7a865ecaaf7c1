import Mathlib.Logic.Relation
import LangGraph.JoinChannels
import LangGraph.Checkpointing

/- The migration of checkpoints that an older release wrote.

   Correspondence (source ↔ Lean):
     a checkpoint with `v` and `pending_sends`      ↔ `OldCheckpoint`
     `Pregel._migrate_checkpoint` (pregel/main.py)  ↔ `migrateSends`
     `k.startswith("start:")`, `k.split(":")[1]`    ↔ `startNode`
     `k.count(":") == 3`, `k.split(":")[-1]`        ↔ `branchNode`
     the body of the first two loops                ↔ `moveChannel`
     the body of the third one, its inner loop      ↔ `moveNode`, `publish`
     `CompiledStateGraph._migrate_checkpoint`       ↔ `migrateCheckpoint`
   Each iteration takes one channel away and gives its version, what was seen of
   it and its value to the channels `branch:to:` of some nodes (`Moved`); a
   migration is a chain of such moves that ends when no channel of an older
   layout has a version (`migrate_spec`), so that a migrated checkpoint is not
   changed by another migration (`migrateCheckpoint_spec`). -/
namespace LangGraph

structure OldCheckpoint (V : Type) where
  v : Nat
  checkpoint : Checkpoint V
  pendingSends : List PyVal

/-! ## The names of the older layouts -/

/-- `k.split(":")` -/
def segments (k : String) : List String := (k.toList.splitOn ':').map String.ofList

/-- The node of a channel `start:node`. -/
def startNode (k : String) : Option String :=
  if "start:".toList.isPrefixOf k.toList then (segments k)[1]? else none

/-- The node of a channel `branch:source:condition:node`. -/
def branchNode (k : String) : Option String :=
  if "branch:".toList.isPrefixOf k.toList ∧ k.toList.count ':' = 3 then (segments k).getLast?
  else none

/-- `source_to_target[k]` -/
def StateGraph.targets (g : StateGraph) (k : String) : List String :=
  (g.edges.filter fun e => e.1 = k ∧ e.1 ≠ Const.START ∧ e.2 ≠ Const.END).map Prod.snd

theorem segments_append {a b : List Char} (k : String) (h : k.toList = a ++ ':' :: b) :
    segments k = (a.splitOn ':' ++ b.splitOn ':').map String.ofList := by
  rw [segments, h]
  exact congrArg (List.map String.ofList) (List.splitOnP_append_cons a b (by simp))

theorem splitOn_of_not_mem {a : List Char} (h : ':' ∉ a) : a.splitOn ':' = [a] := by
  apply List.splitOnP_eq_singleton
  intro c hc
  rw [beq_eq_false_iff_ne]
  exact fun heq => h (heq ▸ hc)

/-- The channel of an edge from the start. -/
def startTo (node : String) : String := "start:" ++ node

/-- The channel of a conditional edge. -/
def branchName (source condition target : String) : String :=
  "branch:" ++ source ++ ":" ++ condition ++ ":" ++ target

theorem startNode_startTo {x : String} (h : ':' ∉ x.toList) : startNode (startTo x) = some x := by
  have hlist : (startTo x).toList = "start".toList ++ ':' :: x.toList := by
    simp [startTo, String.toList_append]
  have hpre : "start:".toList.isPrefixOf (startTo x).toList = true := by
    rw [hlist]
    simp
  rw [startNode, if_pos hpre, segments_append _ hlist, splitOn_of_not_mem h,
    splitOn_of_not_mem (by decide)]
  simp

theorem prefix_of_startNode {k x : String} (h : startNode k = some x) :
    ∃ l, k.toList = "start:".toList ++ l := by
  unfold startNode at h
  split at h
  · next hp =>
    obtain ⟨l, hl⟩ := List.isPrefixOf_iff_prefix.mp hp
    exact ⟨l, hl.symm⟩
  · cases h

theorem prefix_of_branchNode {k x : String} (h : branchNode k = some x) :
    (∃ l, k.toList = "branch:".toList ++ l) ∧ k.toList.count ':' = 3 := by
  unfold branchNode at h
  split at h
  · next hp =>
    obtain ⟨l, hl⟩ := List.isPrefixOf_iff_prefix.mp hp.1
    exact ⟨⟨l, hl.symm⟩, hp.2⟩
  · cases h

theorem toList_branchName (a c x : String) : (branchName a c x).toList =
    ("branch:".toList ++ a.toList ++ ':' :: c.toList) ++ ':' :: x.toList := by
  simp [branchName, String.toList_append]

theorem count_branchName (a c x : String) : (branchName a c x).toList.count ':' =
    3 + (a.toList.count ':' + c.toList.count ':' + x.toList.count ':') := by
  rw [toList_branchName]
  simp only [List.count_append, List.count_cons_self]
  have : "branch:".toList.count ':' = 1 := by decide
  omega

theorem branchNode_branchName {a c x : String} (ha : ':' ∉ a.toList) (hx : ':' ∉ x.toList) :
    branchNode (branchName a c x) = if ':' ∈ c.toList then none else some x := by
  have hpre : "branch:".toList.isPrefixOf (branchName a c x).toList = true := by
    rw [List.isPrefixOf_iff_prefix, toList_branchName, List.append_assoc, List.append_assoc]
    exact List.prefix_append _ _
  have hcount := count_branchName a c x
  rw [List.count_eq_zero_of_not_mem ha, List.count_eq_zero_of_not_mem hx] at hcount
  by_cases hc : ':' ∈ c.toList
  · have hpos := List.count_pos_iff.mpr hc
    rw [if_pos hc, branchNode, if_neg]
    intro h
    omega
  · rw [List.count_eq_zero_of_not_mem hc] at hcount
    rw [if_neg hc, branchNode, if_pos ⟨hpre, hcount⟩, segments_append _ (toList_branchName a c x),
      splitOn_of_not_mem hx]
    simp

theorem mem_toList_branchTo (x : String) : ':' ∈ (branchTo x).toList := by
  simp [branchTo, String.toList_append]

theorem startNode_branchTo (x : String) : startNode (branchTo x) = none := by
  cases h : startNode (branchTo x) with
  | none => rfl
  | some y =>
    obtain ⟨l, hl⟩ := prefix_of_startNode h
    simp [branchTo, String.toList_append] at hl

theorem branchNode_branchTo {x : String} (hx : ':' ∉ x.toList) : branchNode (branchTo x) = none := by
  cases h : branchNode (branchTo x) with
  | none => rfl
  | some y =>
    obtain ⟨-, hcount⟩ := prefix_of_branchNode h
    rw [branchTo, String.toList_append, List.count_append, List.count_eq_zero_of_not_mem hx] at hcount
    have : "branch:to:".toList.count ':' = 2 := by decide
    omega

theorem branchTo_injective {x y : String} (h : branchTo x = branchTo y) : x = y := by
  have hl := congrArg String.toList h
  rw [branchTo, branchTo, String.toList_append, String.toList_append] at hl
  exact String.toList_injective (List.append_cancel_left hl)

/-! ## Which channels are moved, and to which nodes -/

/-- The channel `k` is moved to `branch:to:x`. -/
def StateGraph.Moves (g : StateGraph) (k x : String) : Prop :=
  ((startNode k = some x ∨ branchNode k = some x) ∧ x ∈ g.compile.nodes.keys) ∨
    (k ∈ g.compile.nodes.keys ∧ k ≠ Const.START) ∧ x ∈ g.targets k

/-- The channel `k` is taken away. -/
def StateGraph.Renames (g : StateGraph) (k : String) : Prop :=
  (∃ x ∈ g.compile.nodes.keys, startNode k = some x ∨ branchNode k = some x) ∨
    k ∈ g.compile.nodes.keys ∧ k ≠ Const.START

/-- What `add_node` and `validate` check of the names. -/
structure StateGraph.Named (g : StateGraph) : Prop where
  nodes : ∀ n ∈ g.compile.nodes.keys, ':' ∉ n.toList
  ends : ∀ e ∈ g.edges, e.2 = Const.END ∨ e.2 ∈ g.compile.nodes.keys

namespace StateGraph.Named
variable {g : StateGraph} {k x : String}

theorem startNode_eq_none (h : g.Named) (hk : k ∈ g.compile.nodes.keys) : startNode k = none := by
  cases hs : startNode k with
  | none => rfl
  | some y =>
    obtain ⟨l, hl⟩ := prefix_of_startNode hs
    exact absurd (hl ▸ List.mem_append_left l (by decide)) (h.nodes k hk)

theorem branchNode_eq_none (h : g.Named) (hk : k ∈ g.compile.nodes.keys) : branchNode k = none := by
  cases hs : branchNode k with
  | none => rfl
  | some y =>
    obtain ⟨⟨l, hl⟩, -⟩ := prefix_of_branchNode hs
    exact absurd (hl ▸ List.mem_append_left l (by decide)) (h.nodes k hk)

theorem mem_of_targets (h : g.Named) (hx : x ∈ g.targets k) : x ∈ g.compile.nodes.keys := by
  obtain ⟨e, he, rfl⟩ := List.mem_map.mp hx
  obtain ⟨he, hcond⟩ := List.mem_filter.mp he
  rw [decide_eq_true_eq] at hcond
  exact (h.ends e he).resolve_left hcond.2.2

/-- A channel is moved to nodes of the graph, and none of theirs is taken away. -/
theorem mem_of_moves (h : g.Named) (hx : g.Moves k x) : x ∈ g.compile.nodes.keys :=
  hx.elim And.right fun hx => h.mem_of_targets hx.2

theorem not_renames_branchTo (h : g.Named) (hx : ':' ∉ x.toList) : ¬ g.Renames (branchTo x) := by
  intro hr
  rcases hr with ⟨y, -, hs | hb⟩ | ⟨hk, -⟩
  · rw [startNode_branchTo] at hs
    cases hs
  · rw [branchNode_branchTo hx] at hb
    cases hb
  · exact h.nodes _ hk (mem_toList_branchTo x)

theorem ne_branchTo (h : g.Named) (hk : g.Renames k) (hx : x ∈ g.compile.nodes.keys) :
    k ≠ branchTo x :=
  fun heq => h.not_renames_branchTo (h.nodes x hx) (heq ▸ hk)

theorem moves_iff_of_startNode (h : g.Named) {node : String} (hk : startNode k = some node)
    (hn : node ∈ g.compile.nodes.keys) : g.Moves k x ↔ x = node := by
  have hb : branchNode k = none := by
    cases hb : branchNode k with
    | none => rfl
    | some y =>
      obtain ⟨l, hl⟩ := prefix_of_startNode hk
      obtain ⟨⟨l', hl'⟩, -⟩ := prefix_of_branchNode hb
      rw [hl] at hl'
      simp at hl'
  have hnot : k ∉ g.compile.nodes.keys := by
    intro hmem
    rw [h.startNode_eq_none hmem] at hk
    cases hk
  simp only [Moves, hk, hb, hnot, Option.some.injEq, reduceCtorEq, or_false, false_and]
  exact ⟨fun hx => hx.1.symm, fun hx => ⟨hx.symm, hx ▸ hn⟩⟩

theorem moves_iff_of_branchNode (h : g.Named) {node : String} (hk : branchNode k = some node)
    (hn : node ∈ g.compile.nodes.keys) : g.Moves k x ↔ x = node := by
  have hs : startNode k = none := by
    cases hs : startNode k with
    | none => rfl
    | some y =>
      obtain ⟨l, hl⟩ := prefix_of_startNode hs
      obtain ⟨⟨l', hl'⟩, -⟩ := prefix_of_branchNode hk
      rw [hl] at hl'
      simp at hl'
  have hnot : k ∉ g.compile.nodes.keys := by
    intro hmem
    rw [h.branchNode_eq_none hmem] at hk
    cases hk
  simp only [Moves, hk, hs, hnot, Option.some.injEq, reduceCtorEq, false_or, false_and, or_false]
  exact ⟨fun hx => hx.1.symm, fun hx => ⟨hx.symm, hx ▸ hn⟩⟩

theorem moves_iff_of_node (h : g.Named) (hk : k ∈ g.compile.nodes.keys) (hne : k ≠ Const.START) :
    g.Moves k x ↔ x ∈ g.targets k := by
  simp [Moves, h.startNode_eq_none hk, h.branchNode_eq_none hk, hk, hne]

end StateGraph.Named

section Migrate
variable {V : Type} [LinearOrder V]

/-! ## The loops -/

/-- `max(d[k], v) if k in d else v` -/
def maxWith (d : Option V) (v : V) : V :=
  match d with
  | some w => max w v
  | none => v

/-- `ss.pop(k)` goes to `ss[new_k]`. -/
def moveKey (k newK : String) (ss : OrdDict String V) : OrdDict String V :=
  match ss.get? k with
  | none => ss
  | some s => (ss.erase k).set newK (maxWith (ss.get? newK) s)

/-- The update of `seen[node]`, if it is there. -/
def moveSeen (k newK : String) (seen : OrdDict String (OrdDict String V)) (node : String) :
    OrdDict String (OrdDict String V) :=
  match seen.get? node with
  | none => seen
  | some ss => seen.set node (moveKey k newK ss)

/-- What the channel `k` of version `v` and value `c` leaves to `branch:to:node`. -/
def publish (k : String) (v : V) (c : Option PyVal) (cp : Checkpoint V) (node : String) :
    Checkpoint V :=
  { cp with
    versionsSeen := [node, Const.INTERRUPT].foldl (moveSeen k (branchTo node)) cp.versionsSeen
    channelValues := match cp.channelValues.get? (branchTo node), c with
      | none, some u => cp.channelValues.set (branchTo node) u
      | _, _ => cp.channelValues
    channelVersions := cp.channelVersions.set (branchTo node)
      (maxWith (cp.channelVersions.get? (branchTo node)) v) }

def moveChannel (k node : String) (cp : Checkpoint V) : Checkpoint V :=
  match cp.channelVersions.get? k with
  | none => cp -- not reached: `k` is a key of the versions
  | some v =>
    let cp' := publish k v (cp.channelValues.get? k)
      { cp with channelVersions := cp.channelVersions.erase k } node
    -- the value is popped only where it is moved
    if cp.channelValues.contains (branchTo node) then cp'
    else { cp' with channelValues := cp'.channelValues.erase k }

/-- One of the first two loops, over `list(versions)`. -/
def migrateChannels (nodes : OrdDict String PregelNode) (nodeOf : String → Option String)
    (cp : Checkpoint V) : Checkpoint V :=
  cp.channelVersions.keys.foldl
    (fun cp k => match nodeOf k with
      | some node => if nodes.contains node then moveChannel k node cp else cp
      | none => cp)
    cp

def moveNode (g : StateGraph) (k : String) (cp : Checkpoint V) : Checkpoint V :=
  match cp.channelVersions.get? k with
  | none => cp -- not reached: `k` is a key of the versions
  | some v =>
    let c := cp.channelValues.get? k
    let cp' := (g.targets k).foldl (publish k v c)
      { cp with
        channelVersions := cp.channelVersions.erase k
        channelValues := cp.channelValues.erase k }
    { cp' with
      versionsSeen := match cp'.versionsSeen.get? Const.INTERRUPT with
        | some ss => cp'.versionsSeen.set Const.INTERRUPT (ss.erase k)
        | none => cp'.versionsSeen }

/-- The third loop, and the test before it. -/
def migrateNodes (g : StateGraph) (nodes : OrdDict String PregelNode) (cp : Checkpoint V) :
    Checkpoint V :=
  if nodes.keys.any cp.channelVersions.contains then
    cp.channelVersions.keys.foldl
      (fun cp k => if k ≠ Const.START ∧ nodes.contains k then moveNode g k cp else cp) cp
  else cp

/-- `Pregel._migrate_checkpoint` -/
def migrateSends (c : OldCheckpoint V) : Except PyErr (OldCheckpoint V) :=
  if c.v < 4 ∧ c.pendingSends ≠ [] then
    match c.checkpoint.channelVersions.values.max? with
    | none => .error (.raised (.obj "ValueError" [("args", .str "max() iterable argument is empty")]))
    | some v => .ok { c with
        pendingSends := []
        checkpoint := { c.checkpoint with
          channelValues := c.checkpoint.channelValues.set Const.TASKS (.list c.pendingSends)
          channelVersions := c.checkpoint.channelVersions.set Const.TASKS v } }
  else .ok c

/-- The loops of `_migrate_checkpoint`. -/
def migrateLayout (g : StateGraph) (cp : Checkpoint V) : Checkpoint V :=
  let nodes := g.compile.nodes
  migrateNodes g nodes (migrateChannels nodes branchNode (migrateChannels nodes startNode cp))

/-- `CompiledStateGraph._migrate_checkpoint` -/
def migrateCheckpoint (g : StateGraph) (c : OldCheckpoint V) : Except PyErr (OldCheckpoint V) :=
  match migrateSends c with
  | .error e => .error e
  | .ok c =>
    if c.checkpoint.channelVersions.entries.isEmpty ∨ 3 ≤ c.v then .ok c
    else .ok { c with checkpoint := migrateLayout g c.checkpoint }

/-! ## What a loop moves -/

/-- A node has seen no other versions after a move than before it, and the same
    ones of the channels to keep. -/
structure SeenKept (keep : String → Prop) (ss ss' : OrdDict String V) : Prop where
  old : ∀ j s, ss'.get? j = some s → ∃ j', ss.get? j' = some s
  kept : ∀ j, keep j → ss'.get? j = ss.get? j

omit [LinearOrder V] in
theorem SeenKept.refl (keep : String → Prop) (ss : OrdDict String V) : SeenKept keep ss ss :=
  ⟨fun j _ h => ⟨j, h⟩, fun _ _ => rfl⟩

omit [LinearOrder V] in
theorem SeenKept.trans {keep : String → Prop} {ss₁ ss₂ ss₃ : OrdDict String V}
    (h₁ : SeenKept keep ss₁ ss₂) (h₂ : SeenKept keep ss₂ ss₃) : SeenKept keep ss₁ ss₃ where
  old := by
    intro j s h
    obtain ⟨j', h'⟩ := h₂.old j s h
    exact h₁.old j' s h'
  kept := fun j hj => (h₂.kept j hj).trans (h₁.kept j hj)

omit [LinearOrder V] in
theorem SeenKept.mono {keep keep' : String → Prop} {ss ss' : OrdDict String V}
    (h : SeenKept keep ss ss') (hle : ∀ j, keep' j → keep j) : SeenKept keep' ss ss' :=
  ⟨h.old, fun j hj => h.kept j (hle j hj)⟩

/-- The same, of what every node has seen. -/
def AllSeenKept (keep : String → Prop) (seen seen' : OrdDict String (OrdDict String V)) : Prop :=
  ∀ n, Option.Rel (SeenKept keep) (seen.get? n) (seen'.get? n)

namespace AllSeenKept
variable {keep : String → Prop} {seen seen₂ seen₃ : OrdDict String (OrdDict String V)}

omit [LinearOrder V] in
theorem refl : AllSeenKept keep seen seen := by
  intro n
  cases seen.get? n with
  | none => exact .none
  | some ss => exact .some (.refl keep ss)

omit [LinearOrder V] in
theorem trans (h₁ : AllSeenKept keep seen seen₂) (h₂ : AllSeenKept keep seen₂ seen₃) :
    AllSeenKept keep seen seen₃ := by
  intro n
  have h₁ := h₁ n
  have h₂ := h₂ n
  generalize seen.get? n = a at h₁ ⊢
  generalize seen₂.get? n = b at h₁ h₂
  generalize seen₃.get? n = c at h₂ ⊢
  cases h₁ with
  | none =>
    cases h₂
    exact .none
  | some h₁ =>
    cases h₂ with
    | some h₂ => exact .some (h₁.trans h₂)

omit [LinearOrder V] in
theorem mono {keep' : String → Prop} (h : AllSeenKept keep seen seen₂)
    (hle : ∀ j, keep' j → keep j) : AllSeenKept keep' seen seen₂ := by
  intro n
  have h := h n
  generalize seen.get? n = a at h ⊢
  generalize seen₂.get? n = b at h ⊢
  cases h with
  | none => exact .none
  | some h => exact .some (h.mono hle)

omit [LinearOrder V] in
/-- What one node has seen changes so. -/
theorem set {n : String} {ss ss' : OrdDict String V} (hn : seen.get? n = some ss)
    (h : SeenKept keep ss ss') : AllSeenKept keep seen (seen.set n ss') := by
  intro n'
  by_cases hn' : n' = n
  · subst hn'
    rw [hn, OrdDict.get?_set_self]
    exact .some h
  · rw [OrdDict.get?_set_of_ne hn']
    exact refl n'

end AllSeenKept

theorem moveKey_kept {keep : String → Prop} {k newK : String} (hk : ¬ keep k) (hnew : ¬ keep newK)
    (ss : OrdDict String V) : SeenKept keep ss (moveKey k newK ss) := by
  unfold moveKey
  cases hs : ss.get? k with
  | none => exact .refl keep ss
  | some s =>
    refine ⟨fun j u hu => ?_, fun j hj => ?_⟩
    · by_cases hj : j = newK
      · subst hj
        rw [OrdDict.get?_set_self, Option.some.injEq] at hu
        -- the later one of two versions that were seen
        cases hw : ss.get? j with
        | none =>
          rw [hw] at hu
          exact ⟨k, hu ▸ hs⟩
        | some w =>
          rw [hw] at hu
          rcases max_choice w s with hm | hm
          · exact ⟨j, by rw [hw, ← hu, maxWith, hm]⟩
          · exact ⟨k, by rw [hs, ← hu, maxWith, hm]⟩
      · rw [OrdDict.get?_set_of_ne hj, OrdDict.get?_erase] at hu
        split at hu
        · cases hu
        · exact ⟨j, hu⟩
    · have hjk : j ≠ k := fun h => hk (h ▸ hj)
      have hjn : j ≠ newK := fun h => hnew (h ▸ hj)
      rw [OrdDict.get?_set_of_ne hjn, OrdDict.get?_erase_of_ne hjk]

theorem moveSeen_kept {keep : String → Prop} {k newK : String} (hk : ¬ keep k) (hnew : ¬ keep newK)
    (seen : OrdDict String (OrdDict String V)) (node : String) :
    AllSeenKept keep seen (moveSeen k newK seen node) := by
  unfold moveSeen
  cases hn : seen.get? node with
  | none => exact .refl
  | some ss => exact .set hn (moveKey_kept hk hnew ss)

/-- What one channel leaves to `branch:to:x`, channel by channel. -/
theorem get?_versions_publish (k : String) (v : V) (c : Option PyVal) (cp : Checkpoint V)
    (node j : String) : (publish k v c cp node).channelVersions.get? j =
      if j = branchTo node then some (maxWith (cp.channelVersions.get? j) v)
      else cp.channelVersions.get? j := by
  show (cp.channelVersions.set (branchTo node) _).get? j = _
  rw [OrdDict.get?_set]
  split
  · next h => rw [h]
  · rfl

theorem get?_values_publish (k : String) (v : V) (c : Option PyVal) (cp : Checkpoint V)
    (node j : String) : (publish k v c cp node).channelValues.get? j =
      if j = branchTo node then (cp.channelValues.get? j).or c else cp.channelValues.get? j := by
  unfold publish
  by_cases hj : j = branchTo node
  · subst hj
    rw [if_pos rfl]
    cases hval : cp.channelValues.get? (branchTo node) with
    | some u => exact hval
    | none =>
      cases c with
      | none => exact hval
      | some u => exact OrdDict.get?_set_self _ _ _
  · rw [if_neg hj]
    cases cp.channelValues.get? (branchTo node) with
    | some u => rfl
    | none =>
      cases c with
      | none => rfl
      | some u => exact OrdDict.get?_set_of_ne hj _ _

theorem publish_seen {keep : String → Prop} {k : String} (hk : ¬ keep k) (v : V) (c : Option PyVal)
    (cp : Checkpoint V) {node : String} (hnew : ¬ keep (branchTo node)) :
    AllSeenKept keep cp.versionsSeen (publish k v c cp node).versionsSeen :=
  (moveSeen_kept hk hnew _ _).trans (moveSeen_kept hk hnew _ _)

/-- One iteration: the channel `k` is gone, and the channels of its nodes have the
    later version and, unless they had one, its value. -/
structure Moved (g : StateGraph) (k : String) (v : V) (cp cp' : Checkpoint V) : Prop where
  had : cp.channelVersions.get? k = some v
  gone : cp'.channelVersions.get? k = none
  version : ∀ x, g.Moves k x →
    cp'.channelVersions.get? (branchTo x) = some (maxWith (cp.channelVersions.get? (branchTo x)) v)
  value : ∀ x, g.Moves k x → cp'.channelValues.get? (branchTo x) =
    (cp.channelValues.get? (branchTo x)).or (cp.channelValues.get? k)
  other : ∀ j, j ≠ k → (∀ x, g.Moves k x → j ≠ branchTo x) →
    cp'.channelVersions.get? j = cp.channelVersions.get? j ∧
      cp'.channelValues.get? j = cp.channelValues.get? j
  seen : AllSeenKept (fun j => j ≠ k ∧ ∀ x, g.Moves k x → j ≠ branchTo x) cp.versionsSeen
    cp'.versionsSeen

theorem maxWith_maxWith (d : Option V) (v : V) : maxWith (some (maxWith d v)) v = maxWith d v := by
  cases d with
  | none => exact max_self v
  | some w => exact max_eq_left (le_max_right w v)

section Fold
variable (k : String) (v : V) (c : Option PyVal)

theorem get?_versions_foldl_publish (j : String) : ∀ (l : List String) (cp : Checkpoint V),
    (l.foldl (publish k v c) cp).channelVersions.get? j =
      if ∃ x ∈ l, j = branchTo x then some (maxWith (cp.channelVersions.get? j) v)
      else cp.channelVersions.get? j
  | [], cp => by simp
  | x :: l, cp => by
    rw [List.foldl_cons, get?_versions_foldl_publish j l, get?_versions_publish]
    by_cases hx : j = branchTo x
    · have hcons : ∃ y ∈ x :: l, j = branchTo y := ⟨x, List.mem_cons_self, hx⟩
      rw [if_pos hx, if_pos hcons, maxWith_maxWith]
      exact ite_self _
    · simp [hx]

theorem get?_values_foldl_publish (j : String) : ∀ (l : List String) (cp : Checkpoint V),
    (l.foldl (publish k v c) cp).channelValues.get? j =
      if ∃ x ∈ l, j = branchTo x then (cp.channelValues.get? j).or c
      else cp.channelValues.get? j
  | [], cp => by simp
  | x :: l, cp => by
    rw [List.foldl_cons, get?_values_foldl_publish j l, get?_values_publish]
    by_cases hx : j = branchTo x
    · have hcons : ∃ y ∈ x :: l, j = branchTo y := ⟨x, List.mem_cons_self, hx⟩
      rw [if_pos hx, if_pos hcons, Option.or_assoc, Option.or_self]
      exact ite_self _
    · simp [hx]

theorem foldl_publish_seen {keep : String → Prop} (hk : ¬ keep k) :
    ∀ (l : List String) (cp : Checkpoint V), (∀ x ∈ l, ¬ keep (branchTo x)) →
      AllSeenKept keep cp.versionsSeen (l.foldl (publish k v c) cp).versionsSeen
  | [], _, _ => .refl
  | x :: l, cp, hl => by
    rw [List.foldl_cons]
    apply (publish_seen hk v c cp (hl x List.mem_cons_self)).trans
    exact foldl_publish_seen hk l _ fun y hy => hl y (List.mem_cons_of_mem _ hy)

end Fold

theorem moveChannel_moved {g : StateGraph} {k node : String} (hmoves : ∀ x, g.Moves k x ↔ x = node)
    (hne : k ≠ branchTo node) {cp : Checkpoint V} {v : V} (hv : cp.channelVersions.get? k = some v) :
    Moved g k v cp (moveChannel k node cp) := by
  have hcalc : (moveChannel k node cp).channelVersions =
      (publish k v (cp.channelValues.get? k)
        { cp with channelVersions := cp.channelVersions.erase k } node).channelVersions ∧
      (moveChannel k node cp).versionsSeen = (publish k v (cp.channelValues.get? k)
        { cp with channelVersions := cp.channelVersions.erase k } node).versionsSeen ∧
      ∀ j, j ≠ k → (moveChannel k node cp).channelValues.get? j =
        (publish k v (cp.channelValues.get? k)
          { cp with channelVersions := cp.channelVersions.erase k } node).channelValues.get? j := by
    unfold moveChannel
    rw [hv]
    dsimp only
    split
    · exact ⟨rfl, rfl, fun _ _ => rfl⟩
    · exact ⟨rfl, rfl, fun j hj => OrdDict.get?_erase_of_ne hj _⟩
  obtain ⟨hversions, hseen, hvalues⟩ := hcalc
  refine ⟨hv, ?_, ?_, ?_, ?_, ?_⟩
  · rw [hversions, get?_versions_publish, if_neg hne]
    exact OrdDict.get?_erase_self _ _
  · intro x hx
    obtain rfl := (hmoves x).mp hx
    rw [hversions, get?_versions_publish, if_pos rfl]
    show some (maxWith ((cp.channelVersions.erase k).get? _) v) = _
    rw [OrdDict.get?_erase_of_ne hne.symm]
  · intro x hx
    obtain rfl := (hmoves x).mp hx
    rw [hvalues _ hne.symm, get?_values_publish, if_pos rfl]
  · intro j hj hother
    have hjn := hother node ((hmoves node).mpr rfl)
    refine ⟨?_, ?_⟩
    · rw [hversions, get?_versions_publish, if_neg hjn]
      exact OrdDict.get?_erase_of_ne hj _
    · rw [hvalues j hj, get?_values_publish, if_neg hjn]
  · rw [hseen]
    exact publish_seen (fun h => h.1 rfl) v _
      { cp with channelVersions := cp.channelVersions.erase k }
      fun h => h.2 node ((hmoves node).mpr rfl) rfl

theorem moveNode_moved {g : StateGraph} {k : String} (hmoves : ∀ x, g.Moves k x ↔ x ∈ g.targets k)
    (hne : ∀ x, k ≠ branchTo x) {cp : Checkpoint V} {v : V} (hv : cp.channelVersions.get? k = some v) :
    Moved g k v cp (moveNode g k cp) := by
  let cp₁ : Checkpoint V := { cp with
    channelVersions := cp.channelVersions.erase k, channelValues := cp.channelValues.erase k }
  let cp₂ := (g.targets k).foldl (publish k v (cp.channelValues.get? k)) cp₁
  have hcalc : moveNode g k cp = { cp₂ with
      versionsSeen := match cp₂.versionsSeen.get? Const.INTERRUPT with
        | some ss => cp₂.versionsSeen.set Const.INTERRUPT (ss.erase k)
        | none => cp₂.versionsSeen } := by
    unfold moveNode
    rw [hv]
  have hnot : ¬ ∃ x ∈ g.targets k, k = branchTo x := fun ⟨x, _, hx⟩ => hne x hx
  rw [hcalc]
  refine ⟨hv, ?_, ?_, ?_, ?_, ?_⟩
  · show cp₂.channelVersions.get? k = none
    rw [get?_versions_foldl_publish, if_neg hnot]
    exact OrdDict.get?_erase_self _ _
  · intro x hx
    show cp₂.channelVersions.get? (branchTo x) = _
    rw [get?_versions_foldl_publish, if_pos ⟨x, (hmoves x).mp hx, rfl⟩]
    show some (maxWith ((cp.channelVersions.erase k).get? _) v) = _
    rw [OrdDict.get?_erase_of_ne (hne x).symm]
  · intro x hx
    show cp₂.channelValues.get? (branchTo x) = _
    rw [get?_values_foldl_publish, if_pos ⟨x, (hmoves x).mp hx, rfl⟩]
    show ((cp.channelValues.erase k).get? _).or _ = _
    rw [OrdDict.get?_erase_of_ne (hne x).symm]
  · intro j hj hother
    have hjn : ¬ ∃ x ∈ g.targets k, j = branchTo x :=
      fun ⟨x, hx, heq⟩ => hother x ((hmoves x).mpr hx) heq
    refine ⟨?_, ?_⟩
    · show cp₂.channelVersions.get? j = _
      rw [get?_versions_foldl_publish, if_neg hjn]
      exact OrdDict.get?_erase_of_ne hj _
    · show cp₂.channelValues.get? j = _
      rw [get?_values_foldl_publish, if_neg hjn]
      exact OrdDict.get?_erase_of_ne hj _
  · have hfold : AllSeenKept (fun j => j ≠ k ∧ ∀ x, g.Moves k x → j ≠ branchTo x) cp.versionsSeen
        cp₂.versionsSeen :=
      foldl_publish_seen k v _ (fun h => h.1 rfl) _ cp₁
        fun x hx h => h.2 x ((hmoves x).mpr hx) rfl
    apply hfold.trans
    dsimp only
    split
    · next ss hss =>
      refine AllSeenKept.set hss ⟨fun j s hs => ?_, fun j hj => OrdDict.get?_erase_of_ne hj.1 ss⟩
      rw [OrdDict.get?_erase] at hs
      split at hs
      · cases hs
      · exact ⟨j, hs⟩
    · exact .refl

/-! ## The chain of moves -/

/-- One iteration of one of the loops. -/
def Moving (g : StateGraph) (cp cp' : Checkpoint V) : Prop :=
  ∃ k v, g.Renames k ∧ Moved g k v cp cp'

section Chain
variable {g : StateGraph} (hg : g.Named)
include hg

theorem Moving.renames {cp cp' : Checkpoint V} (h : Moving g cp cp') {k : String}
    (hk : g.Renames k) : cp'.channelVersions.get? k = none ∨
      cp'.channelVersions.get? k = cp.channelVersions.get? k ∧
        cp'.channelValues.get? k = cp.channelValues.get? k := by
  obtain ⟨k₀, v, hk₀, hmoved⟩ := h
  by_cases heq : k = k₀
  · subst heq
    exact Or.inl hmoved.gone
  · exact Or.inr (hmoved.other k heq fun x hx => hg.ne_branchTo hk (hg.mem_of_moves hx))

/-- A channel of an older layout that has no version gets none. -/
theorem absent_of_chain {cp cp' : Checkpoint V} (h : Relation.ReflTransGen (Moving g) cp cp')
    {k : String} (hk : g.Renames k) (hnone : cp.channelVersions.get? k = none) :
    cp'.channelVersions.get? k = none := by
  induction h with
  | refl => exact hnone
  | tail _ hstep ih => exact (hstep.renames hg hk).elim id fun h => h.1.trans ih

/-- A loop over the channels that have versions: those it moves are gone after it. -/
theorem foldl_chain {f : Checkpoint V → String → Checkpoint V} {P : String → Prop}
    (hrenames : ∀ k, P k → g.Renames k)
    (hmove : ∀ cp k v, P k → cp.channelVersions.get? k = some v → Moved g k v cp (f cp k))
    (hskip : ∀ cp k, ¬ P k → f cp k = cp) :
    ∀ (l : List String), l.Nodup → ∀ cp : Checkpoint V,
      (∀ k ∈ l, P k → ∃ v, cp.channelVersions.get? k = some v) →
      Relation.ReflTransGen (Moving g) cp (l.foldl f cp) ∧
        ∀ k ∈ l, P k → (l.foldl f cp).channelVersions.get? k = none := by
  intro l hl
  induction l with
  | nil => exact fun cp _ => ⟨.refl, fun k hk => absurd hk List.not_mem_nil⟩
  | cons k l ih =>
    intro cp hsome
    obtain ⟨hnot, hl⟩ := List.nodup_cons.mp hl
    rw [List.foldl_cons]
    by_cases hk : P k
    · obtain ⟨v, hv⟩ := hsome k List.mem_cons_self hk
      have hmoved := hmove cp k v hk hv
      -- the other channels of the list still have their versions
      have hrest : ∀ j ∈ l, P j → ∃ w, (f cp k).channelVersions.get? j = some w := by
        intro j hj hpj
        obtain ⟨w, hw⟩ := hsome j (List.mem_cons_of_mem _ hj) hpj
        have hjk : j ≠ k := fun heq => hnot (heq ▸ hj)
        refine ⟨w, (hmoved.other j hjk fun x hx => ?_).1.trans hw⟩
        exact hg.ne_branchTo (hrenames j hpj) (hg.mem_of_moves hx)
      obtain ⟨hchain, hgone⟩ := ih hl _ hrest
      refine ⟨.head ⟨k, v, hrenames k hk, hmoved⟩ hchain, fun j hj hpj => ?_⟩
      rcases List.mem_cons.mp hj with rfl | hj
      · exact absent_of_chain hg hchain (hrenames j hpj) hmoved.gone
      · exact hgone j hj hpj
    · rw [hskip cp k hk]
      obtain ⟨hchain, hgone⟩ := ih hl cp fun j hj => hsome j (List.mem_cons_of_mem _ hj)
      refine ⟨hchain, fun j hj hpj => ?_⟩
      rcases List.mem_cons.mp hj with rfl | hj
      · exact absurd hpj hk
      · exact hgone j hj hpj

/-- The same, over all channels that have versions. -/
theorem foldl_keys_chain {f : Checkpoint V → String → Checkpoint V} {P : String → Prop}
    (hrenames : ∀ k, P k → g.Renames k)
    (hmove : ∀ cp k v, P k → cp.channelVersions.get? k = some v → Moved g k v cp (f cp k))
    (hskip : ∀ cp k, ¬ P k → f cp k = cp) (cp : Checkpoint V) :
    Relation.ReflTransGen (Moving g) cp (cp.channelVersions.keys.foldl f cp) ∧
      ∀ k, P k → (cp.channelVersions.keys.foldl f cp).channelVersions.get? k = none := by
  obtain ⟨hchain, hgone⟩ := foldl_chain hg hrenames hmove hskip _ cp.channelVersions.keys_nodup cp
    fun k hk _ => OrdDict.mem_keys_iff.mp hk
  refine ⟨hchain, fun k hk => ?_⟩
  by_cases hmem : k ∈ cp.channelVersions.keys
  · exact hgone k hmem hk
  · exact absent_of_chain hg hchain (hrenames k hk) (OrdDict.get?_eq_none_iff.mpr hmem)

/-- One of the first two loops. -/
theorem migrateChannels_chain (nodeOf : String → Option String)
    (hmoves : ∀ k node, nodeOf k = some node → node ∈ g.compile.nodes.keys →
      g.Renames k ∧ ∀ x, g.Moves k x ↔ x = node) (cp : Checkpoint V) :
    Relation.ReflTransGen (Moving g) cp (migrateChannels g.compile.nodes nodeOf cp) ∧
      ∀ k node, nodeOf k = some node → node ∈ g.compile.nodes.keys →
        (migrateChannels g.compile.nodes nodeOf cp).channelVersions.get? k = none := by
  obtain ⟨hchain, hgone⟩ := foldl_keys_chain hg
    (P := fun k => ∃ node, nodeOf k = some node ∧ node ∈ g.compile.nodes.keys)
    (f := fun cp k => match nodeOf k with
      | some node => if g.compile.nodes.contains node then moveChannel k node cp else cp
      | none => cp)
    (fun k ⟨node, hk, hn⟩ => (hmoves k node hk hn).1)
    (fun cp k v ⟨node, hk, hn⟩ hv => by
      obtain ⟨hr, hm⟩ := hmoves k node hk hn
      simp only [hk, OrdDict.contains_iff.mpr hn, if_true]
      exact moveChannel_moved hm (hg.ne_branchTo hr hn) hv)
    (fun cp k hnot => by
      cases hk : nodeOf k with
      | none => rfl
      | some node =>
        have hn : g.compile.nodes.contains node = false := by
          rw [Bool.eq_false_iff]
          exact fun hc => hnot ⟨node, hk, OrdDict.contains_iff.mp hc⟩
        simp only [hn, Bool.false_eq_true, if_false])
    cp
  exact ⟨hchain, fun k node hk hn => hgone k ⟨node, hk, hn⟩⟩

theorem migrateNodes_chain (cp : Checkpoint V) :
    Relation.ReflTransGen (Moving g) cp (migrateNodes g g.compile.nodes cp) ∧
      ∀ k ∈ g.compile.nodes.keys, k ≠ Const.START →
        (migrateNodes g g.compile.nodes cp).channelVersions.get? k = none := by
  unfold migrateNodes
  split
  · obtain ⟨hchain, hgone⟩ := foldl_keys_chain hg
      (P := fun k => k ≠ Const.START ∧ g.compile.nodes.contains k = true)
      (f := fun cp k => if k ≠ Const.START ∧ g.compile.nodes.contains k then moveNode g k cp else cp)
      (fun k hk => Or.inr ⟨OrdDict.contains_iff.mp hk.2, hk.1⟩)
      (fun cp k v hk hv => by
        have hmem := OrdDict.contains_iff.mp hk.2
        simp only [hk, and_self, if_true, ne_eq, not_false_eq_true]
        refine moveNode_moved (fun x => hg.moves_iff_of_node hmem hk.1) (fun x heq => ?_) hv
        exact hg.nodes k hmem (heq ▸ mem_toList_branchTo x))
      (fun cp k hnot => if_neg hnot)
      cp
    exact ⟨hchain, fun k hk hne => hgone k ⟨hne, OrdDict.contains_iff.mpr hk⟩⟩
  · next hany =>
    refine ⟨.refl, fun k hk _ => OrdDict.get?_eq_none_iff.mpr fun hmem => hany ?_⟩
    exact List.any_eq_true.mpr ⟨k, hk, OrdDict.contains_iff.mpr hmem⟩

/-- The loops take every channel of an older layout away. -/
theorem migrateLayout_chain (cp : Checkpoint V) :
    Relation.ReflTransGen (Moving g) cp (migrateLayout g cp) ∧
      ∀ k, g.Renames k → (migrateLayout g cp).channelVersions.get? k = none := by
  obtain ⟨hstart, hgone₁⟩ := migrateChannels_chain hg startNode
    (fun k node hk hn => ⟨Or.inl ⟨node, hn, Or.inl hk⟩, fun x => hg.moves_iff_of_startNode hk hn⟩) cp
  obtain ⟨hbranch, hgone₂⟩ := migrateChannels_chain hg branchNode
    (fun k node hk hn => ⟨Or.inl ⟨node, hn, Or.inr hk⟩, fun x => hg.moves_iff_of_branchNode hk hn⟩)
    (migrateChannels g.compile.nodes startNode cp)
  obtain ⟨hnodes, hgone₃⟩ := migrateNodes_chain hg
    (migrateChannels g.compile.nodes branchNode (migrateChannels g.compile.nodes startNode cp))
  refine ⟨(hstart.trans hbranch).trans hnodes, fun k hk => ?_⟩
  rcases hk with ⟨node, hn, hs | hb⟩ | ⟨hmem, hne⟩
  · have hr : g.Renames k := Or.inl ⟨node, hn, Or.inl hs⟩
    exact absent_of_chain hg (hbranch.trans hnodes) hr (hgone₁ k node hs hn)
  · have hr : g.Renames k := Or.inl ⟨node, hn, Or.inr hb⟩
    exact absent_of_chain hg hnodes hr (hgone₂ k node hb hn)
  · exact hgone₃ k hmem hne

end Chain

/-! ## What the chain leaves -/

/-- A channel that the loops leave alone: it has no version, or another name than the
    channels of an older layout, and is none of the new ones. -/
def StateGraph.Kept (g : StateGraph) (cp : Checkpoint V) (j : String) : Prop :=
  (g.Renames j → cp.channelVersions.get? j = none) ∧ ∀ x ∈ g.compile.nodes.keys, j ≠ branchTo x

/-- The channels that `branch:to:x` takes over. -/
def StateGraph.Source (g : StateGraph) (x c : String) : Prop := c = branchTo x ∨ g.Moves c x

/-- What the channel of the node `x` has gathered of its sources so far. -/
structure Gathered (g : StateGraph) (x : String) (cp cp' : Checkpoint V) : Prop where
  versionFrom : ∀ v, cp'.channelVersions.get? (branchTo x) = some v →
    ∃ c, g.Source x c ∧ cp.channelVersions.get? c = some v
  versionAbove : ∀ c w, g.Source x c → cp.channelVersions.get? c = some w →
    c ≠ branchTo x ∧ cp'.channelVersions.get? c = some w ∨
      ∃ v, cp'.channelVersions.get? (branchTo x) = some v ∧ w ≤ v
  valueFrom : ∀ u, cp'.channelValues.get? (branchTo x) = some u →
    ∃ c, g.Source x c ∧ cp.channelValues.get? c = some u
  valueKept : ∀ u, cp.channelValues.get? (branchTo x) = some u →
    cp'.channelValues.get? (branchTo x) = some u
  valueTo : ∀ c w u, g.Source x c → cp.channelVersions.get? c = some w →
    cp.channelValues.get? c = some u →
    c ≠ branchTo x ∧ cp'.channelVersions.get? c = some w ∧ cp'.channelValues.get? c = some u ∨
      (cp'.channelValues.get? (branchTo x)).isSome
  pending : ∀ k, g.Renames k → cp'.channelVersions.get? k = none ∨
    cp'.channelVersions.get? k = cp.channelVersions.get? k ∧
      cp'.channelValues.get? k = cp.channelValues.get? k

theorem le_maxWith (d : Option V) (v : V) : v ≤ maxWith d v := by
  cases d with
  | none => exact le_refl v
  | some w => exact le_max_right w v

theorem maxWith_eq_or (d : Option V) (v : V) : maxWith d v = v ∨ d = some (maxWith d v) := by
  cases d with
  | none => exact Or.inl rfl
  | some w => exact (max_choice w v).symm.imp id fun h => congrArg some h.symm

theorem renames_of_moves {g : StateGraph} {k x : String} (hx : g.Moves k x) : g.Renames k :=
  hx.imp (fun h => ⟨x, h.2, h.1⟩) And.left

theorem gathered_refl {g : StateGraph} (x : String) (cp : Checkpoint V) : Gathered g x cp cp where
  versionFrom := fun _ hv => ⟨_, Or.inl rfl, hv⟩
  versionAbove := by
    intro c w _ hw
    by_cases heq : c = branchTo x
    · exact Or.inr ⟨w, heq ▸ hw, le_refl w⟩
    · exact Or.inl ⟨heq, hw⟩
  valueFrom := fun _ hu => ⟨_, Or.inl rfl, hu⟩
  valueKept := fun _ hu => hu
  valueTo := by
    intro c w u _ hw hu
    by_cases heq : c = branchTo x
    · exact Or.inr (by rw [← heq, hu]; rfl)
    · exact Or.inl ⟨heq, hw, hu⟩
  pending := fun _ _ => Or.inr ⟨rfl, rfl⟩

section Chain
variable {g : StateGraph} (hg : g.Named)
include hg

theorem kept_of_chain {cp cp' : Checkpoint V} (h : Relation.ReflTransGen (Moving g) cp cp') :
    (∀ j, g.Kept cp j → cp'.channelVersions.get? j = cp.channelVersions.get? j ∧
      cp'.channelValues.get? j = cp.channelValues.get? j) ∧
      AllSeenKept (g.Kept cp) cp.versionsSeen cp'.versionsSeen := by
  induction h with
  | refl => exact ⟨fun _ _ => ⟨rfl, rfl⟩, .refl⟩
  | @tail cp₁ cp₂ _ hstep ih =>
    obtain ⟨ihkept, ihseen⟩ := ih
    obtain ⟨k, v, hk, hmoved⟩ := hstep
    have hother : ∀ j, g.Kept cp j → j ≠ k ∧ ∀ x, g.Moves k x → j ≠ branchTo x := by
      intro j hj
      refine ⟨fun heq => ?_, fun x hx => hj.2 x (hg.mem_of_moves hx)⟩
      have hnone := (ihkept j hj).1.trans (hj.1 (heq ▸ hk))
      rw [heq, hmoved.had] at hnone
      cases hnone
    refine ⟨fun j hj => ?_, ihseen.trans (hmoved.seen.mono hother)⟩
    obtain ⟨hne, hx⟩ := hother j hj
    obtain ⟨hver, hval⟩ := hmoved.other j hne hx
    exact ⟨hver.trans (ihkept j hj).1, hval.trans (ihkept j hj).2⟩

theorem Gathered.step {x : String} (hx : x ∈ g.compile.nodes.keys) {cp cp₁ cp₂ : Checkpoint V}
    (h : Gathered g x cp cp₁) (hstep : Moving g cp₁ cp₂) : Gathered g x cp cp₂ := by
  have hpending : ∀ k, g.Renames k → cp₂.channelVersions.get? k = none ∨
      cp₂.channelVersions.get? k = cp.channelVersions.get? k ∧
        cp₂.channelValues.get? k = cp.channelValues.get? k := by
    intro k hk
    rcases hstep.renames hg hk with hnone | ⟨hver, hval⟩
    · exact Or.inl hnone
    · rw [hver, hval]
      exact h.pending k hk
  obtain ⟨k, v, hk, hmoved⟩ := hstep
  have hne : branchTo x ≠ k := (hg.ne_branchTo hk hx).symm
  obtain ⟨hver, hval⟩ := (h.pending k hk).resolve_left (by rw [hmoved.had]; simp)
  -- the sources that are not moved by this step
  have hother : ∀ c, g.Source x c → c ≠ branchTo x → c ≠ k →
      cp₂.channelVersions.get? c = cp₁.channelVersions.get? c ∧
        cp₂.channelValues.get? c = cp₁.channelValues.get? c := by
    intro c hc hcx hck
    apply hmoved.other c hck
    intro y hy
    exact hg.ne_branchTo (renames_of_moves (hc.resolve_left hcx)) (hg.mem_of_moves hy)
  by_cases hmoves : g.Moves k x
  · have hversion := hmoved.version x hmoves
    have hvalue := hmoved.value x hmoves
    refine ⟨?_, ?_, ?_, ?_, ?_, hpending⟩
    · intro v' hv'
      rw [hversion, Option.some.injEq] at hv'
      subst hv'
      rcases maxWith_eq_or (cp₁.channelVersions.get? (branchTo x)) v with heq | heq
      · exact ⟨k, Or.inr hmoves, by rw [heq, ← hver, hmoved.had]⟩
      · exact h.versionFrom _ heq
    · intro c w hc hw
      rcases h.versionAbove c w hc hw with ⟨hcx, hcw⟩ | ⟨v₁, hv₁, hle⟩
      · by_cases hck : c = k
        · subst hck
          obtain rfl := Option.some.inj (hmoved.had.symm.trans hcw)
          exact Or.inr ⟨_, hversion, le_maxWith _ _⟩
        · exact Or.inl ⟨hcx, (hother c hc hcx hck).1.trans hcw⟩
      · refine Or.inr ⟨_, hversion, hle.trans ?_⟩
        rw [hv₁]
        exact le_max_left v₁ v
    · intro u hu
      rw [hvalue, Option.or_eq_some_iff] at hu
      rcases hu with hu | ⟨-, hu⟩
      · exact h.valueFrom u hu
      · exact ⟨k, Or.inr hmoves, hval ▸ hu⟩
    · intro u hu
      rw [hvalue, h.valueKept u hu, Option.some_or]
    · intro c w u hc hw hu
      rcases h.valueTo c w u hc hw hu with ⟨hcx, hcw, hcu⟩ | hsome
      · by_cases hck : c = k
        · subst hck
          exact Or.inr (by rw [hvalue, hcu]; cases cp₁.channelValues.get? (branchTo x) <;> rfl)
        · obtain ⟨ho, ho'⟩ := hother c hc hcx hck
          exact Or.inl ⟨hcx, ho.trans hcw, ho'.trans hcu⟩
      · obtain ⟨u', hu'⟩ := Option.isSome_iff_exists.mp hsome
        exact Or.inr (by rw [hvalue, hu']; rfl)
  · obtain ⟨hversion, hvalue⟩ := hmoved.other (branchTo x) hne
      fun y hy heq => hmoves (branchTo_injective heq ▸ hy)
    -- a source that this step moves would be one of `x`
    have hsource : ∀ c, g.Source x c → c ≠ branchTo x → c ≠ k :=
      fun c hc hcx hck => hmoves (hck ▸ hc.resolve_left hcx)
    refine ⟨?_, ?_, ?_, ?_, ?_, hpending⟩
    · exact fun v' hv' => h.versionFrom v' (hversion ▸ hv')
    · intro c w hc hw
      refine (h.versionAbove c w hc hw).imp (fun ⟨hcx, hcw⟩ => ⟨hcx, ?_⟩) fun hle => hversion ▸ hle
      exact (hother c hc hcx (hsource c hc hcx)).1.trans hcw
    · exact fun u hu => h.valueFrom u (hvalue ▸ hu)
    · exact fun u hu => hvalue.trans (h.valueKept u hu)
    · intro c w u hc hw hu
      refine (h.valueTo c w u hc hw hu).imp (fun ⟨hcx, hcw, hcu⟩ => ⟨hcx, ?_, ?_⟩)
        fun hsome => hvalue ▸ hsome
      · exact (hother c hc hcx (hsource c hc hcx)).1.trans hcw
      · exact (hother c hc hcx (hsource c hc hcx)).2.trans hcu

theorem gathered_of_chain {x : String} (hx : x ∈ g.compile.nodes.keys) {cp cp' : Checkpoint V}
    (h : Relation.ReflTransGen (Moving g) cp cp') : Gathered g x cp cp' := by
  induction h with
  | refl => exact gathered_refl x cp
  | tail _ hstep ih => exact ih.step hg hx hstep

end Chain

/-- What the migration of a layout leaves: the channels of the older layouts have no
    version any more, those it does not know are as they were, and those of the
    nodes have gathered their sources. -/
structure LayoutMigrated (g : StateGraph) (cp cp' : Checkpoint V) : Prop where
  gone : ∀ k, g.Renames k → cp'.channelVersions.get? k = none
  kept : ∀ j, g.Kept cp j → cp'.channelVersions.get? j = cp.channelVersions.get? j ∧
    cp'.channelValues.get? j = cp.channelValues.get? j
  seen : AllSeenKept (g.Kept cp) cp.versionsSeen cp'.versionsSeen
  gathered : ∀ x ∈ g.compile.nodes.keys, Gathered g x cp cp'

theorem migrate_spec {g : StateGraph} (hg : g.Named) (cp : Checkpoint V) :
    LayoutMigrated g cp (migrateLayout g cp) := by
  obtain ⟨hchain, hgone⟩ := migrateLayout_chain hg cp
  obtain ⟨hkept, hseen⟩ := kept_of_chain hg hchain
  exact ⟨hgone, hkept, hseen, fun x hx => gathered_of_chain hg hx hchain⟩

/-! ## Migrating again -/

omit [LinearOrder V] in
theorem foldl_of_skipped {f : Checkpoint V → String → Checkpoint V} {cp : Checkpoint V}
    (l : List String) (hskip : ∀ k ∈ l, f cp k = cp) : l.foldl f cp = cp := by
  induction l with
  | nil => rfl
  | cons k l ih =>
    rw [List.foldl_cons, hskip k List.mem_cons_self]
    exact ih fun j hj => hskip j (List.mem_cons_of_mem _ hj)

section Again
variable {g : StateGraph} {cp : Checkpoint V}
  (hgone : ∀ k, g.Renames k → cp.channelVersions.get? k = none)
include hgone

omit [LinearOrder V] in
theorem not_renames_of_mem {k : String} (hk : k ∈ cp.channelVersions.keys) : ¬ g.Renames k :=
  fun h => OrdDict.get?_eq_none_iff.mp (hgone k h) hk

theorem migrateChannels_of_gone {nodeOf : String → Option String}
    (hnode : ∀ k x, nodeOf k = some x → startNode k = some x ∨ branchNode k = some x) :
    migrateChannels g.compile.nodes nodeOf cp = cp := by
  apply foldl_of_skipped
  intro k hk
  split
  · next node hn =>
    apply if_neg
    intro hc
    exact not_renames_of_mem hgone hk (Or.inl ⟨node, OrdDict.contains_iff.mp hc, hnode k node hn⟩)
  · rfl

theorem migrateNodes_of_gone : migrateNodes g g.compile.nodes cp = cp := by
  unfold migrateNodes
  split
  · apply foldl_of_skipped
    intro k hk
    apply if_neg
    intro hc
    exact not_renames_of_mem hgone hk (Or.inr ⟨OrdDict.contains_iff.mp hc.2, hc.1⟩)
  · rfl

/-- Where no channel of an older layout has a version there is nothing to migrate. -/
theorem migrateLayout_of_gone : migrateLayout g cp = cp := by
  have hstart : migrateChannels g.compile.nodes startNode cp = cp :=
    migrateChannels_of_gone hgone fun _ _ => Or.inl
  have hbranch : migrateChannels g.compile.nodes branchNode cp = cp :=
    migrateChannels_of_gone hgone fun _ _ => Or.inr
  show migrateNodes g g.compile.nodes (migrateChannels g.compile.nodes branchNode
    (migrateChannels g.compile.nodes startNode cp)) = cp
  rw [hstart, hbranch, migrateNodes_of_gone hgone]

end Again

theorem migrateSends_of_sent {c : OldCheckpoint V} (h : c.pendingSends = []) :
    migrateSends c = .ok c :=
  if_neg fun hc => hc.2 h

theorem migrateSends_ok {c c₁ : OldCheckpoint V} (hv : c.v < 4) (h : migrateSends c = .ok c₁) :
    c₁.v = c.v ∧ c₁.pendingSends = [] := by
  unfold migrateSends at h
  split at h
  · split at h
    · cases h
    · cases h
      exact ⟨rfl, rfl⟩
  · next hnot =>
    cases h
    exact ⟨rfl, by_contra fun hne => hnot ⟨hv, hne⟩⟩

end Migrate

/-- `START → a → b` -/
def chainGraph : StateGraph where
  channels := .ofList [("x", .lastValue ⟨"x", none⟩)]
  nodes := .ofList [("a", ⟨["x"], none, false, none⟩), ("b", ⟨["x"], none, false, none⟩)]
  edges := [(Const.START, "a"), ("a", "b")]
  waitingEdges := []
  waiting_ends := by decide

/-- `a` has run and has sent a packet; `b` is due by its edge and by a branch. -/
def legacyCheckpoint : OldCheckpoint Nat where
  v := 1
  checkpoint := {
    id := "1ef4f797"
    channelValues := .ofList [("x", .int 1), ("a", .str "a"), ("branch:a:cond:b", .str "a")]
    channelVersions := .ofList
      [(Const.START, 2), ("start:a", 2), ("x", 3), ("a", 3), ("branch:a:cond:b", 4)]
    versionsSeen := .ofList [("a", .ofList [("start:a", 2)]), ("b", .ofList [("a", 1)])]
    updatedChannels := none }
  pendingSends := [.send "b" .none]

end LangGraph
