import LangGraph.Commands
import LangGraph.Joins
import LangGraph.Migration
import LangGraph.Runner

/- What the nodes of a compiled graph write.

   Correspondence (source ↔ Lean):
     `BranchSpec`, its `_finish`                    ↔ `BranchSpec`, `BranchSpec.finish`
     the writer of `attach_branch`                  ↔ `Writers.branchWrite`, `Writers.routes`
     the writers of `attach_edge`                   ↔ `edgeWrites`, `waitingWrites`
     the writers of a node, as `compile` appends them ↔ `Writers.writes`
   A path function is known by what it returns for the value of its node, given the
   writes of the task so far, on which the state that its reader builds depends.
   `Leads` and `sentBy` are the edges: where a node that returns a value leads, and
   what it sends. What a node writes is read off them, channel by channel. -/
namespace LangGraph

/-- `BranchSpec`. `ends` looks a label up in the path map, if there is one with entries. -/
structure BranchSpec where
  path : List (String × PyVal) → PyVal → Except PyErr PyVal
  ends : Option (PyVal → Option String)

inductive WriterErr where
  /-- `_get_updates` or `_control_branch` raises. -/
  | node (e : NodeErr)
  /-- The path function raises. -/
  | path (e : PyErr)
  | keyError (label : PyVal)
  /-- "Branch did not return a valid destination" -/
  | invalidDestination
  /-- "Cannot send a packet to the END node" -/
  | sendToEnd

def isSend : PyVal → Bool
  | .send .. => true
  | _ => false

def sendsToEnd : PyVal → Bool
  | .send node _ => node == Const.END
  | _ => false

namespace BranchSpec
variable (b : BranchSpec)

def destination : PyVal → Except WriterErr PyVal
  | .send node arg => .ok (.send node arg)
  | r =>
    match b.ends with
    | none => .ok r
    | some ends =>
      match ends r with
      | some name => .ok (.str name)
      | none => .error (.keyError r)

/-- `_finish`, up to the writer. -/
def finish (result : PyVal) : Except WriterErr (List PyVal) :=
  match ((seqOf result).getD [result]).mapM b.destination with
  | .error e => .error e
  | .ok ds =>
    if ds.any fun d => d = .none ∨ d = .str Const.START then .error .invalidDestination
    else if ds.any sendsToEnd then .error .sendToEnd
    else .ok ds

end BranchSpec

/-- What the writers of a graph's nodes depend on: the keys of the state, as each node sees
    them, and the branches. `format` is `str.format` of a value that is no string. -/
structure Writers where
  shape : String → GraphShape
  branches : String → List BranchSpec
  format : PyVal → String

namespace StateGraph
variable (g : StateGraph)

/-- The writers of the plain edges of a node. -/
def edgeWrites (name : String) : List (String × PyVal) :=
  (g.edges.filter fun e => e.1 = name ∧ e.2 ≠ Const.END).map fun e => (branchTo e.2, .none)

/-- The writers of the edges with several starts. -/
def waitingWrites (name : String) : List (String × PyVal) :=
  (g.waitingEdges.filter fun e => e.2 ≠ Const.END).flatMap fun e =>
    (e.1.filter fun start => start = name).map fun start => (joinName e.1 e.2, .str start)

end StateGraph

namespace Writers
variable (w : Writers)

/-- `get_writes`, for one destination. -/
def branchWrite : PyVal → Option (String × PyVal)
  | .send node arg => some (Const.TASKS, .send node arg)
  | .str node => if node ≠ Const.END then some (branchTo node, .none) else none
  | v => some (branchTo (w.format v), .none)

/-- The destinations of the branches, each of which sees the writes before it. -/
def routes : List BranchSpec → List (String × PyVal) → PyVal → Except WriterErr (List PyVal)
  | [], _, _ => .ok []
  | b :: bs, ws, v =>
    match b.path ws v with
    | .error e => .error (.path e)
    | .ok r =>
      match b.finish r with
      | .error e => .error e
      | .ok ds => (routes bs (ws ++ ds.filterMap w.branchWrite) v).map (ds ++ ·)

variable (g : StateGraph) (name : String) (v : PyVal)

/-- The writes of the node before its branches. -/
def before : Except WriterErr (List (String × PyVal)) :=
  match (w.shape name).nodeWrites v with
  | .error e => .error (.node e)
  | .ok ws => .ok (ws ++ g.edgeWrites name ++ g.waitingWrites name)

/-- The writes of a node that returns `v`. -/
def writes : Except WriterErr (List (String × PyVal)) :=
  match w.before g name v with
  | .error e => .error e
  | .ok ws => (w.routes (w.branches name) ws v).map fun ds => ws ++ ds.filterMap w.branchWrite

end Writers

/- ── Where a node leads ────────────────────────────────────────── -/

/-- What the commands in the value go to, or the Send that the value is. -/
def gotos : PyVal → List PyVal
  | .send node arg => [.send node arg]
  | v => (commandsOf v).flatMap fun c => c.gotoTargets.toOption.getD []

namespace Writers
variable (w : Writers) (g : StateGraph) (name : String) (v : PyVal)

/-- The destinations of the branches of the node. -/
def chosen : List PyVal :=
  ((w.before g name v).toOption.bind fun ws =>
    (w.routes (w.branches name) ws v).toOption).getD []

/-- The node that a destination of a branch names. -/
def nodeOf : PyVal → Option String
  | .send .. => none
  | .str node => if node ≠ Const.END then some node else none
  | v => some (w.format v)

/-- The node leads to another one: by a command, an edge or a branch. -/
def Leads (node : String) : Prop :=
  (PyVal.str node ∈ gotos v ∨ (name, node) ∈ g.edges) ∧ node ≠ Const.END ∨
    ∃ d ∈ w.chosen g name v, w.nodeOf d = some node

/-- The Sends of the node, in order. -/
def sentBy : List PyVal := (gotos v ++ w.chosen g name v).filter isSend

end Writers

/-- A key of the state, that no channel of the compiled graph has for a name. -/
structure StateGraph.StateKey (g : StateGraph) (k : String) : Prop where
  notControl : k ∉ controlChannels
  notTasks : k ≠ Const.TASKS
  notStart : k ≠ Const.START
  notBranch : ∀ node, k ≠ branchTo node
  notJoin : ∀ e ∈ g.waitingEdges, k ≠ joinName e.1 e.2

/-- The updates of the node are of keys of the state. -/
def Writers.KeepsToState (w : Writers) (g : StateGraph) (name : String) (v : PyVal) : Prop :=
  ∀ us, (w.shape name).updates v = .ok us → ∀ u ∈ us, g.StateKey u.1

/- ── What is written ───────────────────────────────────────────── -/

theorem controlWrites_ok : ∀ {cs : List Command} {ws : List (String × PyVal)},
    controlWrites cs = .ok ws →
      ws = (cs.flatMap fun c => c.gotoTargets.toOption.getD []).filterMap gotoWrite
  | [], ws, h => by
    cases h
    rfl
  | c :: cs, ws, h => by
    rw [controlWrites] at h
    split at h
    · cases h
    · split at h
      · cases h
      · next targets htargets =>
        cases hrest : controlWrites cs with
        | error e =>
          rw [hrest] at h
          cases h
        | ok rest =>
          rw [hrest] at h
          cases h
          have ih := controlWrites_ok hrest
          rw [List.flatMap_cons, List.filterMap_append, ← ih, Command.gotoWrites, htargets]
          rfl

theorem controlBranch_ok {v : PyVal} {ws : List (String × PyVal)} (h : controlBranch v = .ok ws) :
    ws = (gotos v).filterMap gotoWrite := by
  cases v with
  | send node arg =>
    cases h
    rfl
  | _ => exact controlWrites_ok h

section Pieces
variable {g : StateGraph} {name : String} {c : String} {x : PyVal}

theorem mem_edgeWrites : (c, x) ∈ g.edgeWrites name ↔
    ∃ node, (name, node) ∈ g.edges ∧ node ≠ Const.END ∧ c = branchTo node ∧ x = .none := by
  rw [StateGraph.edgeWrites, List.mem_map]
  simp only [List.mem_filter, decide_eq_true_eq, Prod.mk.injEq]
  constructor
  · intro h
    obtain ⟨e, ⟨he, hname, hend⟩, hc, hx⟩ := h
    exact ⟨e.2, hname ▸ he, hend, hc.symm, hx.symm⟩
  · intro h
    obtain ⟨node, he, hend, hc, hx⟩ := h
    exact ⟨(name, node), ⟨he, rfl, hend⟩, hc.symm, hx.symm⟩

theorem mem_waitingWrites : (c, x) ∈ g.waitingWrites name ↔
    ∃ e ∈ g.waitingEdges, e.2 ≠ Const.END ∧ name ∈ e.1 ∧ c = joinName e.1 e.2 ∧ x = .str name := by
  rw [StateGraph.waitingWrites, List.mem_flatMap]
  simp only [List.mem_filter, List.mem_map, decide_eq_true_eq, Prod.mk.injEq]
  constructor
  · intro h
    obtain ⟨e, ⟨he, hend⟩, start, ⟨hstart, hname⟩, hc, hx⟩ := h
    exact ⟨e, he, hend, hname ▸ hstart, hc.symm, hname ▸ hx.symm⟩
  · intro h
    obtain ⟨e, he, hend, hname, hc, hx⟩ := h
    exact ⟨e, ⟨he, hend⟩, name, ⟨hname, rfl⟩, hc.symm, hx.symm⟩

/-- A goto writes to the tasks, or to the channel of the node it names. -/
theorem gotoWrite_eq_some_iff {d : PyVal} : gotoWrite d = some (c, x) ↔
    c = Const.TASKS ∧ x = d ∧ isSend d = true ∨
      ∃ node, d = .str node ∧ node ≠ Const.END ∧ c = branchTo node ∧ x = .none := by
  cases d with
  | send node arg => simp [gotoWrite, isSend, eq_comm]
  | str node =>
    by_cases h : node = Const.END
    · simp [gotoWrite, isSend, h]
    · simp [gotoWrite, isSend, h, eq_comm]
  | _ => simp [gotoWrite, isSend]

theorem branchWrite_eq_some_iff {w : Writers} {d : PyVal} : w.branchWrite d = some (c, x) ↔
    c = Const.TASKS ∧ x = d ∧ isSend d = true ∨
      ∃ node, w.nodeOf d = some node ∧ c = branchTo node ∧ x = .none := by
  cases d with
  | send node arg => simp [Writers.branchWrite, Writers.nodeOf, isSend, eq_comm]
  | str node =>
    by_cases h : node = Const.END
    · simp [Writers.branchWrite, Writers.nodeOf, isSend, h]
    · simp [Writers.branchWrite, Writers.nodeOf, isSend, h, eq_comm]
  | _ => simp [Writers.branchWrite, Writers.nodeOf, isSend, eq_comm]

theorem branchTo_ne_tasks (node : String) : branchTo node ≠ Const.TASKS := fun h =>
  branchTo_not_reserved node (h ▸ List.mem_cons_self)

theorem joinName_ne_tasks (starts : List String) (target : String) :
    joinName starts target ≠ Const.TASKS := fun h =>
  joinName_not_reserved starts target (h ▸ List.mem_cons_self)

theorem branchTo_notControl (node : String) :
    branchTo node ∉ controlChannels ∧ branchTo node ≠ Const.START := by
  have hp : ∀ r ∈ Const.START :: controlChannels, r.toList.take 7 ≠ "branch:".toList := by decide
  have hne : branchTo node ∉ Const.START :: controlChannels := by
    intro hmem
    refine hp _ hmem ?_
    simp [branchTo, String.toList_append]
  rw [List.mem_cons, not_or] at hne
  exact ⟨hne.2, hne.1⟩

theorem joinName_notControl (starts : List String) (target : String) :
    joinName starts target ∉ controlChannels ∧ joinName starts target ≠ Const.START := by
  have hp : ∀ r ∈ Const.START :: controlChannels, r.toList.take 5 ≠ "join:".toList := by decide
  have hne : joinName starts target ∉ Const.START :: controlChannels := by
    intro hmem
    refine hp _ hmem ?_
    simp [joinName, String.toList_append]
  rw [List.mem_cons, not_or] at hne
  exact ⟨hne.2, hne.1⟩

end Pieces

section Written
variable {w : Writers} {g : StateGraph} {name : String} {v : PyVal} {ws : List (String × PyVal)}

/-- The writes of a node: its updates, its gotos, its edges and its branches. -/
theorem Writers.writes_ok (h : w.writes g name v = .ok ws) :
    ∃ us, (w.shape name).updates v = .ok us ∧
      ws = us ++ (gotos v).filterMap gotoWrite ++ g.edgeWrites name ++ g.waitingWrites name ++
        (w.chosen g name v).filterMap w.branchWrite := by
  unfold Writers.writes at h
  split at h
  · cases h
  · next before hbefore =>
    cases hroutes : w.routes (w.branches name) before v with
    | error e =>
      rw [hroutes] at h
      cases h
    | ok ds =>
      have hchosen : w.chosen g name v = ds := by
        rw [Writers.chosen, hbefore]
        show (w.routes (w.branches name) before v).toOption.getD [] = ds
        rw [hroutes]
        rfl
      rw [hroutes] at h
      cases h
      rw [Writers.before, GraphShape.nodeWrites] at hbefore
      split at hbefore
      · cases hbefore
      · next node hnode =>
        split at hnode
        · cases hnode
        · next us hus =>
          cases hcontrol : controlBranch v with
          | error e =>
            rw [hcontrol] at hnode
            cases hnode
          | ok cs =>
            rw [hcontrol] at hnode
            cases hnode
            cases hbefore
            refine ⟨us, hus, ?_⟩
            rw [controlBranch_ok hcontrol, hchosen]

/-- The channel of a node is written when the node that returned leads to it. -/
theorem Writers.writes_branch (hkeys : w.KeepsToState g name v) (h : w.writes g name v = .ok ws)
    (node : String) : (∃ x, (branchTo node, x) ∈ ws) ↔ w.Leads g name v node := by
  obtain ⟨us, hus, rfl⟩ := Writers.writes_ok h
  have hout : ∀ x, (branchTo node, x) ∉ us := fun x hx =>
    (hkeys us hus _ hx).notBranch node rfl
  have hwaiting : ∀ x, (branchTo node, x) ∉ g.waitingWrites name := by
    intro x hx
    obtain ⟨e, -, -, -, hc, -⟩ := mem_waitingWrites.mp hx
    exact joinName_ne_branchTo e.1 e.2 node hc.symm
  have hgotos : (∃ x, (branchTo node, x) ∈ (gotos v).filterMap gotoWrite) ↔
      PyVal.str node ∈ gotos v ∧ node ≠ Const.END := by
    simp only [List.mem_filterMap, gotoWrite_eq_some_iff, branchTo_ne_tasks, false_and, false_or]
    constructor
    · intro hx
      obtain ⟨x, d, hd, node', rfl, hend, hc, -⟩ := hx
      rw [branchTo_injective hc]
      exact ⟨hd, hend⟩
    · intro hx
      exact ⟨.none, .str node, hx.1, node, rfl, hx.2, rfl, rfl⟩
  have hedges : (∃ x, (branchTo node, x) ∈ g.edgeWrites name) ↔
      (name, node) ∈ g.edges ∧ node ≠ Const.END := by
    simp only [mem_edgeWrites]
    constructor
    · intro hx
      obtain ⟨x, node', he, hend, hc, -⟩ := hx
      rw [branchTo_injective hc]
      exact ⟨he, hend⟩
    · intro hx
      exact ⟨.none, node, hx.1, hx.2, rfl, rfl⟩
  have hbranches : (∃ x, (branchTo node, x) ∈ (w.chosen g name v).filterMap w.branchWrite) ↔
      ∃ d ∈ w.chosen g name v, w.nodeOf d = some node := by
    simp only [List.mem_filterMap, branchWrite_eq_some_iff, branchTo_ne_tasks, false_and, false_or]
    constructor
    · intro hx
      obtain ⟨x, d, hd, node', hnode, hc, -⟩ := hx
      rw [branchTo_injective hc]
      exact ⟨d, hd, hnode⟩
    · intro hx
      obtain ⟨d, hd, hnode⟩ := hx
      exact ⟨.none, d, hd, node, hnode, rfl, rfl⟩
  simp only [List.mem_append, hout, hwaiting, false_or, or_false, exists_or, hgotos, hedges, hbranches,
    Writers.Leads]
  tauto

/-- The barrier of an edge is written, with the name of the node, by the starts of the edges
    that have it. -/
theorem Writers.writes_join (hkeys : w.KeepsToState g name v) (h : w.writes g name v = .ok ws)
    {e : List String × String} (he : e ∈ g.waitingEdges) (x : PyVal) :
    (joinName e.1 e.2, x) ∈ ws ↔ x = .str name ∧ ∃ e' ∈ g.waitingEdges,
      e'.2 ≠ Const.END ∧ joinName e'.1 e'.2 = joinName e.1 e.2 ∧ name ∈ e'.1 := by
  obtain ⟨us, hus, rfl⟩ := Writers.writes_ok h
  have hout : (joinName e.1 e.2, x) ∉ us := fun hx => (hkeys us hus _ hx).notJoin e he rfl
  have hgotos : (joinName e.1 e.2, x) ∉ (gotos v).filterMap gotoWrite := by
    intro hx
    obtain ⟨d, -, hd⟩ := List.mem_filterMap.mp hx
    obtain hd | ⟨node, -, -, hd, -⟩ := gotoWrite_eq_some_iff.mp hd
    · exact joinName_ne_tasks _ _ hd.1
    · exact joinName_ne_branchTo _ _ _ hd
  have hedges : (joinName e.1 e.2, x) ∉ g.edgeWrites name := by
    intro hx
    obtain ⟨node, -, -, hc, -⟩ := mem_edgeWrites.mp hx
    exact joinName_ne_branchTo _ _ _ hc
  have hbranches : (joinName e.1 e.2, x) ∉ (w.chosen g name v).filterMap w.branchWrite := by
    intro hx
    obtain ⟨d, -, hd⟩ := List.mem_filterMap.mp hx
    obtain hd | ⟨node, -, hd, -⟩ := branchWrite_eq_some_iff.mp hd
    · exact joinName_ne_tasks _ _ hd.1
    · exact joinName_ne_branchTo _ _ _ hd
  simp only [List.mem_append, hout, hgotos, hedges, hbranches, false_or, or_false, mem_waitingWrites]
  constructor
  · intro hx
    obtain ⟨e', he', hend, hname, hc, hx⟩ := hx
    exact ⟨hx, e', he', hend, hc.symm, hname⟩
  · intro hx
    obtain ⟨hx, e', he', hend, hc, hname⟩ := hx
    exact ⟨e', he', hend, hname, hc.symm, hx⟩

/-- The tasks are written with what the node sends. -/
theorem Writers.writes_tasks (hkeys : w.KeepsToState g name v) (h : w.writes g name v = .ok ws) :
    (ws.filterMap fun u => if u.1 = Const.TASKS then some u.2 else none) = w.sentBy g name v := by
  obtain ⟨us, hus, rfl⟩ := Writers.writes_ok h
  have hout : ∀ (l : List (String × PyVal)), (∀ u ∈ l, u.1 ≠ Const.TASKS) →
      (l.filterMap fun u => if u.1 = Const.TASKS then some u.2 else none) = [] := by
    intro l hl
    rw [List.filterMap_eq_nil_iff]
    exact fun u hu => if_neg (hl u hu)
  have hsends : ∀ (write : PyVal → Option (String × PyVal)), (∀ d c x, write d = some (c, x) →
      c = Const.TASKS ∧ x = d ∧ isSend d = true ∨ ∃ node, c = branchTo node) →
      (∀ d, isSend d = true → write d = some (Const.TASKS, d)) → ∀ ds : List PyVal,
        ((ds.filterMap write).filterMap fun u => if u.1 = Const.TASKS then some u.2 else none) =
          ds.filter isSend := by
    intro write hwrite hsend ds
    rw [List.filterMap_filterMap, ← List.filterMap_eq_filter]
    apply List.filterMap_congr
    intro d _
    cases hd : isSend d with
    | true =>
      rw [hsend d hd]
      simp [Option.guard, hd]
    | false =>
      cases hw : write d with
      | none => simp [Option.guard, hd]
      | some u =>
        obtain ⟨-, -, hd'⟩ | ⟨node, hc⟩ := hwrite d u.1 u.2 hw
        · rw [hd] at hd'
          cases hd'
        · simp [Option.guard, hd, hc, branchTo_ne_tasks]
  simp only [List.filterMap_append, Writers.sentBy, List.filter_append]
  rw [hout us fun u hu => (hkeys us hus u hu).notTasks, hout (g.edgeWrites name) ?_,
    hout (g.waitingWrites name) ?_, hsends gotoWrite ?_ ?_, hsends w.branchWrite ?_ ?_]
  · simp
  · intro d c x hd
    obtain hd | ⟨node, -, hc, -⟩ := branchWrite_eq_some_iff.mp hd
    · exact Or.inl hd
    · exact Or.inr ⟨node, hc⟩
  · intro d hd
    exact branchWrite_eq_some_iff.mpr (Or.inl ⟨rfl, rfl, hd⟩)
  · intro d c x hd
    obtain hd | ⟨node, -, -, hc, -⟩ := gotoWrite_eq_some_iff.mp hd
    · exact Or.inl hd
    · exact Or.inr ⟨node, hc⟩
  · intro d hd
    exact gotoWrite_eq_some_iff.mpr (Or.inl ⟨rfl, rfl, hd⟩)
  · intro u hu
    obtain ⟨e, -, -, -, hc, -⟩ := mem_waitingWrites.mp hu
    rw [hc]
    exact joinName_ne_tasks _ _
  · intro u hu
    obtain ⟨node, -, -, hc, -⟩ := mem_edgeWrites.mp hu
    rw [hc]
    exact branchTo_ne_tasks node

/-- A node writes to no control channel, and not to `START`. -/
theorem Writers.writes_channel (hkeys : w.KeepsToState g name v) (h : w.writes g name v = .ok ws) :
    ∀ u ∈ ws, u.1 ∉ controlChannels ∧ u.1 ≠ Const.START := by
  obtain ⟨us, hus, rfl⟩ := Writers.writes_ok h
  have htasks : Const.TASKS ∉ controlChannels ∧ Const.TASKS ≠ Const.START := by decide
  intro u hu
  simp only [List.mem_append] at hu
  obtain (((hu | hu) | hu) | hu) | hu := hu
  · exact ⟨(hkeys us hus u hu).notControl, (hkeys us hus u hu).notStart⟩
  · obtain ⟨d, -, hd⟩ := List.mem_filterMap.mp hu
    obtain hd | ⟨node, -, -, hd, -⟩ := gotoWrite_eq_some_iff.mp hd
    · exact hd.1 ▸ htasks
    · exact hd ▸ branchTo_notControl node
  · obtain ⟨node, -, -, hc, -⟩ := mem_edgeWrites.mp hu
    exact hc ▸ branchTo_notControl node
  · obtain ⟨e, -, -, -, hc, -⟩ := mem_waitingWrites.mp hu
    exact hc ▸ joinName_notControl e.1 e.2
  · obtain ⟨d, -, hd⟩ := List.mem_filterMap.mp hu
    obtain hd | ⟨node, -, hd, -⟩ := branchWrite_eq_some_iff.mp hd
    · exact hd.1 ▸ htasks
    · exact hd ▸ branchTo_notControl node

/-- The mark of a task without writes is on a control channel. -/
theorem mem_finalWrites {c : String} {x : PyVal} (hc : c ∉ controlChannels) :
    (c, x) ∈ finalWrites ws ↔ (c, x) ∈ ws := by
  unfold finalWrites
  split
  · next hnil =>
    rw [List.isEmpty_iff.mp hnil, List.mem_singleton, Prod.mk.injEq]
    have hne : c ≠ Const.NO_WRITES := fun h => hc (h ▸ by decide)
    simp [hne]
  · rfl

end Written

end LangGraph
