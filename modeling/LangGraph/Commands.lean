import Mathlib.Data.List.Perm.Basic
import LangGraph.StateGraph
import LangGraph.Subgraphs

/- The Commands that the nodes of a superstep return.

   Correspondence (source ↔ Lean):
     `isinstance(value, Command)`, its fields       ↔ `asCommand`, `Command`
     `Command._update_as_tuples`                    ↔ `Command.updateAsTuples`
     `_get_updates`, `_get_root`, `_control_branch` ↔ `getUpdates`, `getRoot`, `controlBranch`
     `get_update_as_tuples`                         ↔ `getUpdateAsTuples`
     the writer of `attach_node` (`do_write`)       ↔ `nodeWrites`
     `_panic_or_proceed`, on tasks that have ended  ↔ `panicOrProceed`
     `run_with_retry`, `except ParentCommand`       ↔ `Superstep.catcher`, `Superstep.outcome`
   A command is an object of class `Command`. The keys of updates are strings; the
   attributes of a pydantic model are those that are set or not None by default.
   `annotated` says which classes have annotated keys. The writes of edges and
   branches are left out: they do not depend on what the node returns.
   `commandsKept_iff`: nothing is lost iff no Command goes to the enclosing graph,
   or the one that goes there is alone. -/
namespace LangGraph

namespace Const

def PARENT := "__parent__"

end Const

structure Command where
  graph : Option String
  update : PyVal
  goto : PyVal

def attrOf (attrs : List (String × PyVal)) (name : String) (default : PyVal) : PyVal :=
  (attrs.lookup name).getD default

/-- `isinstance(value, Command)` -/
def asCommand : PyVal → Option Command
  | .obj cls attrs =>
    if cls = "Command" then
      some {
        graph := match attrOf attrs "graph" .none with
          | .str s => some s
          | _ => none
        update := attrOf attrs "update" .none
        goto := attrOf attrs "goto" (.tuple []) }
    else none
  | _ => none

namespace Command

def isParent (c : Command) : Bool := c.graph == some Const.PARENT

/-- The entries of a dict with a string for a key. -/
def itemsOf (entries : List (PyVal × PyVal)) : List (String × PyVal) :=
  entries.filterMap fun
    | (.str k, v) => some (k, v)
    | _ => none

/-- The pairs of a list, if it holds nothing else. -/
def pairsOf (xs : List PyVal) : Option (List (String × PyVal)) :=
  xs.mapM fun
    | .tuple [.str k, v] => some (k, v)
    | _ => none

end Command

/-- `get_update_as_tuples` -/
def getUpdateAsTuples (attrs : List (String × PyVal)) (keys : List String) : List (String × PyVal) :=
  keys.filterMap fun k => (attrs.lookup k).map (k, ·)

section Mappers
variable (annotated : String → List String)

/-- `_update_as_tuples` -/
def Command.updateAsTuples (c : Command) : List (String × PyVal) :=
  match c.update with
  | .dict entries => Command.itemsOf entries
  | .list xs => (Command.pairsOf xs).getD [("__root__", .list xs)]
  | .tuple xs => (Command.pairsOf xs).getD [("__root__", .tuple xs)]
  | .obj cls attrs =>
    if annotated cls ≠ [] then getUpdateAsTuples attrs (annotated cls)
    else [("__root__", .obj cls attrs)]
  | .none => []
  | v => [("__root__", v)]

inductive NodeErr where
  | parentCommand (c : Command)
  | invalidUpdate (input : PyVal)
  | notIterable

def isCommand (v : PyVal) : Bool := (asCommand v).isSome

/-- The updates of a command for the current graph. -/
def commandUpdates (keys : List String) (c : Command) : List (String × PyVal) :=
  if c.isParent then [] else (c.updateAsTuples annotated).filter fun w => keys.contains w.1

mutual
/-- `_get_updates`, with `keys` for `output_keys`; None is no update. -/
def getUpdates (keys : List String) : PyVal → Except NodeErr (List (String × PyVal))
  | .none => .ok []
  | .dict entries => .ok ((Command.itemsOf entries).filter fun w => keys.contains w.1)
  | .list xs =>
    if xs.any isCommand then getUpdatesList keys xs else .error (.invalidUpdate (.list xs))
  | .tuple xs =>
    if xs.any isCommand then getUpdatesList keys xs else .error (.invalidUpdate (.tuple xs))
  | .send node arg => .ok (getUpdateAsTuples [("node", .str node), ("arg", arg)] keys)
  | .obj cls attrs =>
    match asCommand (.obj cls attrs) with
    | some c => .ok (commandUpdates annotated keys c)
    | none =>
      if annotated cls ≠ [] then .ok (getUpdateAsTuples attrs keys)
      else .error (.invalidUpdate (.obj cls attrs))
  | v => .error (.invalidUpdate v)

def getUpdatesList (keys : List String) : List PyVal → Except NodeErr (List (String × PyVal))
  | [] => .ok []
  | v :: vs =>
    match getUpdates keys v with
    | .error err => .error err
    | .ok ws => (getUpdatesList keys vs).map (ws ++ ·)
end

/-- What one element of a list is to `_get_root`. -/
def rootUpdates (v : PyVal) : List (String × PyVal) :=
  match asCommand v with
  | some c => if c.isParent then [] else c.updateAsTuples annotated
  | none => [("__root__", v)]

/-- `_get_root` -/
def getRoot : PyVal → List (String × PyVal)
  | .none => []
  | .list xs => if xs.any isCommand then xs.flatMap (rootUpdates annotated) else [("__root__", .list xs)]
  | .tuple xs => if xs.any isCommand then xs.flatMap (rootUpdates annotated) else [("__root__", .tuple xs)]
  | v => rootUpdates annotated v

end Mappers

/-- The commands that `_control_branch` looks at. -/
def commandsOf : PyVal → List Command
  | .list xs | .tuple xs => xs.filterMap asCommand
  | v => (asCommand v).toList

/-- `goto_targets` -/
def Command.gotoTargets (c : Command) : Except NodeErr (List PyVal) :=
  match c.goto with
  | .send node arg => .ok [.send node arg]
  | .str node => .ok [.str node]
  | .list xs | .tuple xs => .ok xs
  | _ => .error .notIterable

/-- The write of one target; END and what is no target have none. -/
def gotoWrite : PyVal → Option (String × PyVal)
  | .send node arg => some (Const.TASKS, .send node arg)
  | .str node => if node ≠ Const.END then some (branchTo node, .none) else none
  | _ => none

def Command.gotoWrites (c : Command) : List (String × PyVal) :=
  match c.gotoTargets with
  | .ok targets => targets.filterMap gotoWrite
  | .error _ => []

/-- The loop of `_control_branch` over the commands. -/
def controlWrites : List Command → Except NodeErr (List (String × PyVal))
  | [] => .ok []
  | c :: cs =>
    if c.isParent then .error (.parentCommand c)
    else
      match c.gotoTargets with
      | .error err => .error err
      | .ok _ => (controlWrites cs).map (c.gotoWrites ++ ·)

/-- `_control_branch` -/
def controlBranch : PyVal → Except NodeErr (List (String × PyVal))
  | .send node arg => .ok [(Const.TASKS, .send node arg)]
  | v => controlWrites (commandsOf v)

/-- A graph: the classes with annotated keys, the keys of the state and the channels. -/
structure GraphShape where
  annotated : String → List String
  outputKeys : List String
  channels : List String

namespace GraphShape
variable (g : GraphShape)

/-- The first mapper of the writer. -/
def updates (v : PyVal) : Except NodeErr (List (String × PyVal)) :=
  if g.outputKeys = ["__root__"] then .ok (getRoot g.annotated v) else getUpdates g.annotated g.outputKeys v

/-- The writer that `attach_node` gives every node: nothing is written if a mapper raises. -/
def nodeWrites (v : PyVal) : Except NodeErr (List (String × PyVal)) :=
  match g.updates v with
  | .error err => .error err
  | .ok ws => (controlBranch v).map (ws ++ ·)

/-- The writes that `apply_writes` brings to a channel. -/
def reaches (w : String × PyVal) : Bool := g.channels.contains w.1 && !controlChannels.contains w.1

end GraphShape
/-! ## What the commands ask for -/

/-- The value of a command. -/
def Command.toValue (c : Command) : PyVal :=
  .obj "Command" [("graph", (c.graph.map PyVal.str).getD .none), ("update", c.update), ("goto", c.goto)]

/-- The commands that go to the enclosing graph. -/
def parentsOf (v : PyVal) : List Command := (commandsOf v).filter Command.isParent

/-- `isinstance(value, (list, tuple))` -/
def seqOf : PyVal → Option (List PyVal)
  | .list xs | .tuple xs => some xs
  | _ => none

def sendWrites : PyVal → List (String × PyVal)
  | .send node arg => [(Const.TASKS, .send node arg)]
  | _ => []

namespace GraphShape
variable (g : GraphShape)

def updatesOrNone (v : PyVal) : List (String × PyVal) :=
  match g.updates v with
  | .ok ws => ws
  | .error _ => []

/-- The keys that the writer does not pass over. -/
def accepts (w : String × PyVal) : Bool := g.outputKeys == ["__root__"] || g.outputKeys.contains w.1

/-- The writes of a command in the graph. -/
def commandWrites (c : Command) : List (String × PyVal) :=
  (c.updateAsTuples g.annotated).filter g.accepts ++ c.gotoWrites

/-- What a command asks of the graph. -/
def asked (c : Command) : List (String × PyVal) := (g.commandWrites c).filter g.reaches

/-- The writes of a value that is no command, in a list of commands. -/
def plainUpdates (v : PyVal) : List (String × PyVal) :=
  if isCommand v then []
  else if g.outputKeys = ["__root__"] then [("__root__", v)]
  else
    match getUpdates g.annotated g.outputKeys v with
    | .ok ws => ws
    | .error _ => []

/-- The writes of the plain updates of a value. -/
def plainWrites (v : PyVal) : List (String × PyVal) :=
  match seqOf v with
  | some xs => if xs.any isCommand then xs.flatMap g.plainUpdates else g.updatesOrNone v
  | none => if isCommand v then [] else g.updatesOrNone v ++ sendWrites v

end GraphShape

/-! ## The writes of one task -/

theorem asCommand_eq_some {v : PyVal} {c : Command} (h : asCommand v = some c) :
    ∃ attrs, v = .obj "Command" attrs := by
  cases v with
  | obj cls attrs =>
    unfold asCommand at h
    dsimp only at h
    split at h
    · next hcls => exact ⟨attrs, by rw [hcls]⟩
    · cases h
  | _ => cases h

theorem commandsOf_of_command {v : PyVal} {c : Command} (h : asCommand v = some c) :
    commandsOf v = [c] := by
  obtain ⟨attrs, rfl⟩ := asCommand_eq_some h
  simp [commandsOf, h]

/-- Without a command for the enclosing graph the loop goes through all of them. -/
theorem controlWrites_eq : ∀ {cs : List Command}, (∀ c ∈ cs, ∃ targets, c.gotoTargets = .ok targets) →
    controlWrites cs = match cs.filter Command.isParent with
      | [] => .ok (cs.flatMap Command.gotoWrites)
      | c :: _ => .error (.parentCommand c)
  | [], _ => rfl
  | c :: cs, h => by
    rw [List.forall_mem_cons] at h
    obtain ⟨⟨targets, htargets⟩, hrest⟩ := h
    rw [controlWrites, List.filter_cons]
    cases hparent : c.isParent with
    | true => rfl
    | false =>
      rw [htargets, controlWrites_eq hrest]
      simp only [Bool.false_eq_true, if_false, List.flatMap_cons]
      cases cs.filter Command.isParent <;> rfl

namespace GraphShape
variable {g : GraphShape}

/-- What an element of a list of commands adds to the updates. -/
def itemUpdates (g : GraphShape) (v : PyVal) : List (String × PyVal) :=
  if g.outputKeys = ["__root__"] then rootUpdates g.annotated v
  else match getUpdates g.annotated g.outputKeys v with
    | .ok ws => ws
    | .error _ => []

theorem getUpdatesList_eq {annotated : String → List String} {keys : List String} :
    ∀ {xs : List PyVal} {ws : List (String × PyVal)}, getUpdatesList annotated keys xs = .ok ws →
      ws = xs.flatMap fun v => match getUpdates annotated keys v with
        | .ok ws => ws
        | .error _ => []
  | [], ws, h => (Except.ok.inj h).symm
  | v :: vs, ws, h => by
    rw [getUpdatesList] at h
    cases hv : getUpdates annotated keys v with
    | error err => rw [hv] at h; cases h
    | ok us =>
      rw [hv] at h
      dsimp only at h
      cases hvs : getUpdatesList annotated keys vs with
      | error err => rw [hvs] at h; cases h
      | ok rest =>
        rw [hvs] at h
        rw [List.flatMap_cons, hv, ← getUpdatesList_eq hvs]
        exact (Except.ok.inj h).symm

/-- An element is a command, whose updates count unless it is for the enclosing graph, or plain. -/
theorem itemUpdates_eq (v : PyVal) :
    g.itemUpdates v = (((asCommand v).toList.filter fun c => !c.isParent).flatMap fun c =>
      (c.updateAsTuples g.annotated).filter g.accepts) ++ g.plainUpdates v := by
  cases hv : asCommand v with
  | none =>
    have hplain : isCommand v = false := by
      unfold isCommand
      rw [hv]
      rfl
    unfold itemUpdates plainUpdates rootUpdates
    rw [hplain, hv]
    simp
  | some c =>
    have hplain : g.plainUpdates v = [] := by
      unfold plainUpdates isCommand
      rw [hv]
      rfl
    rw [hplain, List.append_nil]
    obtain ⟨attrs, rfl⟩ := asCommand_eq_some hv
    have hget : getUpdates g.annotated g.outputKeys (.obj "Command" attrs) =
        .ok (commandUpdates g.annotated g.outputKeys c) := by
      rw [getUpdates, hv]
    unfold itemUpdates rootUpdates
    rw [hget, hv]
    unfold commandUpdates accepts
    cases hparent : c.isParent with
    | true => simp [hparent]
    | false =>
      by_cases hroot : g.outputKeys = ["__root__"]
      · simp [hroot, hparent]
      · have hbeq : (g.outputKeys == ["__root__"]) = false := beq_eq_false_iff_ne.mpr hroot
        simp [hroot, hparent, hbeq]

/-- The updates of a list with commands, element by element. -/
theorem perm_items (xs : List PyVal) :
    (xs.flatMap g.itemUpdates).Perm
      (((xs.filterMap asCommand).filter fun c => !c.isParent).flatMap
        (fun c => (c.updateAsTuples g.annotated).filter g.accepts) ++ xs.flatMap g.plainUpdates) := by
  induction xs with
  | nil => exact List.Perm.refl _
  | cons v xs ih =>
    rw [List.flatMap_cons, List.flatMap_cons, itemUpdates_eq]
    have hhead : ((v :: xs).filterMap asCommand).filter (fun c => !c.isParent) =
        ((asCommand v).toList.filter fun c => !c.isParent) ++
          (xs.filterMap asCommand).filter fun c => !c.isParent := by
      rw [← List.filter_append]
      congr 1
      cases hv : asCommand v with
      | none => rw [List.filterMap_cons_none hv]; rfl
      | some c => rw [List.filterMap_cons_some hv]; rfl
    rw [hhead, List.flatMap_append]
    refine (ih.append_left _).trans ?_
    simp only [List.append_assoc]
    refine List.Perm.append_left _ ?_
    rw [← List.append_assoc, ← List.append_assoc]
    exact List.perm_append_comm.append_right _

theorem filter_currents {cs : List Command} (h : cs.filter Command.isParent = []) :
    (cs.filter fun c => !c.isParent) = cs := by
  refine List.filter_eq_self.mpr fun c hc => ?_
  rw [Bool.not_eq_true', ← Bool.not_eq_true]
  exact List.filter_eq_nil_iff.mp h c hc

theorem perm_commandWrites (cs : List Command) (plain : List (String × PyVal)) :
    (cs.flatMap (fun c => (c.updateAsTuples g.annotated).filter g.accepts) ++ plain ++
      cs.flatMap Command.gotoWrites).Perm (cs.flatMap g.commandWrites ++ plain) := by
  rw [List.append_assoc]
  refine (List.perm_append_comm.append_left _).trans ?_
  rw [← List.append_assoc]
  exact (List.flatMap_append_perm cs _ _).append_right plain

theorem seqOf_spec {v : PyVal} {xs : List PyVal} (h : seqOf v = some xs) :
    commandsOf v = xs.filterMap asCommand ∧ controlBranch v = controlWrites (commandsOf v) := by
  cases v with
  | list ys => obtain rfl := Option.some.inj h; exact ⟨rfl, rfl⟩
  | tuple ys => obtain rfl := Option.some.inj h; exact ⟨rfl, rfl⟩
  | _ => cases h

theorem updates_seq {v : PyVal} {xs : List PyVal} {us : List (String × PyVal)} (h : seqOf v = some xs)
    (hany : xs.any isCommand = true) (hus : g.updates v = .ok us) : us = xs.flatMap g.itemUpdates := by
  unfold updates at hus
  by_cases hroot : g.outputKeys = ["__root__"]
  · have hget : getRoot g.annotated v = xs.flatMap (rootUpdates g.annotated) := by
      cases v with
      | list ys => obtain rfl := Option.some.inj h; exact if_pos hany
      | tuple ys => obtain rfl := Option.some.inj h; exact if_pos hany
      | _ => cases h
    rw [if_pos hroot, hget] at hus
    rw [← Except.ok.inj hus]
    unfold itemUpdates
    simp only [hroot, if_true]
  · have hget : getUpdates g.annotated g.outputKeys v = getUpdatesList g.annotated g.outputKeys xs := by
      cases v with
      | list ys => obtain rfl := Option.some.inj h; rw [getUpdates, if_pos hany]
      | tuple ys => obtain rfl := Option.some.inj h; rw [getUpdates, if_pos hany]
      | _ => cases h
    rw [if_neg hroot, hget] at hus
    rw [getUpdatesList_eq hus]
    unfold itemUpdates
    simp only [hroot, if_false]

theorem updates_command {v : PyVal} {c : Command} {us : List (String × PyVal)} (h : asCommand v = some c)
    (hus : g.updates v = .ok us) : us = g.itemUpdates v := by
  obtain ⟨attrs, rfl⟩ := asCommand_eq_some h
  unfold updates at hus
  unfold itemUpdates
  split
  · next hroot =>
    rw [if_pos hroot] at hus
    exact (Except.ok.inj hus).symm
  · next hroot =>
    rw [if_neg hroot] at hus
    rw [hus]

/-- What a node writes that returns no command for the enclosing graph. -/
theorem nodeWrites_eq_ok {v : PyVal} (hupdates : ∃ us, g.updates v = .ok us)
    (hgotos : ∀ c ∈ commandsOf v, ∃ targets, c.gotoTargets = .ok targets) (hnone : parentsOf v = []) :
    ∃ ws, g.nodeWrites v = .ok ws ∧
      ws.Perm ((commandsOf v).flatMap g.commandWrites ++ g.plainWrites v) := by
  obtain ⟨us, hus⟩ := hupdates
  have hloop : controlWrites (commandsOf v) = .ok ((commandsOf v).flatMap Command.gotoWrites) := by
    have hnil : (commandsOf v).filter Command.isParent = [] := hnone
    rw [controlWrites_eq hgotos, hnil]
  have hunfold : ∀ gs, controlBranch v = .ok gs → g.nodeWrites v = .ok (us ++ gs) := by
    intro gs hgs
    unfold nodeWrites
    rw [hus, hgs]
    rfl
  have hplain : g.updatesOrNone v = us := by
    unfold updatesOrNone
    rw [hus]
  cases hseq : seqOf v with
  | some xs =>
    obtain ⟨hcommands, hcontrol⟩ := seqOf_spec hseq
    refine ⟨_, hunfold _ (hcontrol.trans hloop), ?_⟩
    unfold plainWrites
    rw [hseq]
    dsimp only
    split
    · next hany =>
      have hitems : us = xs.flatMap g.itemUpdates := updates_seq hseq hany hus
      have hnil : (xs.filterMap asCommand).filter Command.isParent = [] := by
        rw [← hcommands]
        exact hnone
      rw [hitems, hcommands]
      refine ((perm_items xs).append_right _).trans ?_
      rw [filter_currents hnil]
      exact perm_commandWrites _ _
    · next hany =>
      have hempty : xs.filterMap asCommand = [] := by
        refine List.filterMap_eq_nil_iff.mpr fun x hx => ?_
        cases hc : asCommand x with
        | none => rfl
        | some c =>
          refine absurd (List.any_eq_true.mpr ⟨x, hx, ?_⟩) hany
          unfold isCommand
          rw [hc]
          rfl
      rw [hcommands, hempty, hplain]
      simp
  | none =>
    unfold plainWrites
    rw [hseq]
    cases hc : asCommand v with
    | some c =>
      have hcommands := commandsOf_of_command hc
      have hus' : us = g.itemUpdates v := updates_command hc hus
      have hcontrol : controlBranch v = controlWrites (commandsOf v) := by
        obtain ⟨attrs, rfl⟩ := asCommand_eq_some hc
        rfl
      have hcurrent : c.isParent = false := by
        have hnil : (commandsOf v).filter Command.isParent = [] := hnone
        rw [hcommands] at hnil
        simpa using List.filter_eq_nil_iff.mp hnil c (List.mem_singleton_self c)
      have hcommand : isCommand v = true := by
        unfold isCommand
        rw [hc]
        rfl
      refine ⟨_, hunfold _ (hcontrol.trans hloop), ?_⟩
      rw [hus', itemUpdates_eq, hc, hcommands, hcommand]
      simp [hcurrent, commandWrites, plainUpdates, hcommand]
    | none =>
      have hcommand : isCommand v = false := by
        unfold isCommand
        rw [hc]
        rfl
      have hcommands : commandsOf v = [] := by
        cases v <;> first | (cases hseq; done) | simp [commandsOf, hc]
      have hcontrol : controlBranch v = .ok (sendWrites v) := by
        cases v <;> first | (cases hseq; done) | rfl | simp [controlBranch, hcommands, controlWrites, sendWrites]
      refine ⟨_, hunfold _ hcontrol, ?_⟩
      rw [hcommands, hcommand, hplain]
      simp

/-- The first command for the enclosing graph is raised, and nothing is written. -/
theorem nodeWrites_eq_error {v : PyVal} (hupdates : ∃ us, g.updates v = .ok us)
    (hgotos : ∀ c ∈ commandsOf v, ∃ targets, c.gotoTargets = .ok targets) {c : Command} {rest : List Command}
    (hparents : parentsOf v = c :: rest) : g.nodeWrites v = .error (.parentCommand c) := by
  obtain ⟨us, hus⟩ := hupdates
  have hraise : controlWrites (commandsOf v) = .error (.parentCommand c) := by
    have hcons : (commandsOf v).filter Command.isParent = c :: rest := hparents
    rw [controlWrites_eq hgotos, hcons]
  have hcontrol : controlBranch v = controlWrites (commandsOf v) := by
    cases v <;> first | rfl | cases hparents
  unfold nodeWrites
  rw [hus, hcontrol, hraise]
  rfl

end GraphShape

/-! ## One superstep -/

/-- `_checkpoint_ns_for_parent_command` -/
def checkpointNsForParentCommand (ns : String) : String :=
  let isNumeric (part : List Char) : Bool := part != [] && part.all Char.isDigit
  let parts := ((ns.toList.splitOn '|').reverse.dropWhile isNumeric).tail.dropWhile isNumeric
  String.ofList (['|'].intercalate parts.reverse)

/-- The task of the enclosing graph that runs the subgraph. -/
structure Enclosing where
  graph : GraphShape
  ns : String
  name : String

/-- `cmd.graph in (ns, recast_checkpoint_ns(ns), task.name)` -/
def Enclosing.catches (e : Enclosing) (graph : String) : Bool :=
  [e.ns, recastCheckpointNs e.ns, e.name].contains graph

structure ReturnedTask where
  ns : String
  value : PyVal

/-- The tasks of a superstep, in their order, with what their nodes returned:
    commands, plain updates and lists of these. -/
structure Superstep where
  graph : GraphShape
  tasks : List ReturnedTask
  enclosing : Option Enclosing
  parentNs : String
  frames : ∀ t ∈ tasks, checkpointNsForParentCommand t.ns = parentNs
  updates_ok : ∀ t ∈ tasks, ∃ ws, graph.updates t.value = .ok ws
  gotos_ok : ∀ t ∈ tasks, ∀ c ∈ commandsOf t.value, ∃ targets, c.gotoTargets = .ok targets

inductive SuperstepOutcome where
  /-- The writes of the tasks that reach a channel. -/
  | applied (writes : List (List (String × PyVal)))
  /-- The writes of the task of the enclosing graph that reach a channel. -/
  | handed (writes : List (String × PyVal))
  | raised

namespace Superstep
variable (s : Superstep)

/-- The exception of the first task that raised, in the order in which they are popped. -/
def panicOrProceed : List ReturnedTask → Option (ReturnedTask × NodeErr)
  | [] => none
  | t :: rest =>
    match s.graph.nodeWrites t.value with
    | .error err => some (t, err)
    | .ok _ => panicOrProceed rest

/-- The writes of a task that reach a channel. -/
def reachingWrites (t : ReturnedTask) : Option (List (String × PyVal)) :=
  match s.graph.nodeWrites t.value with
  | .ok ws => some (ws.filter s.graph.reaches)
  | .error _ => none

/-- What becomes of the superstep if its futures are popped in the order. -/
def outcome (order : List ReturnedTask) : SuperstepOutcome :=
  match s.panicOrProceed order with
  | none => .applied (s.tasks.filterMap s.reachingWrites)
  | some (t, .parentCommand c) =>
    let graph := checkpointNsForParentCommand t.ns
    match s.enclosing with
    | none => .raised
    | some e =>
      if e.catches graph then
        match e.graph.nodeWrites { c with graph := some graph }.toValue with
        | .ok ws => .handed (ws.filter e.graph.reaches)
        | .error _ => .raised
      else .raised
  | some _ => .raised

/-- The task that handles the commands for the enclosing graph, if there is one. -/
def catcher : Option Enclosing :=
  s.enclosing.filter fun e => e.catches s.parentNs && s.parentNs != Const.PARENT

def askedHere : List (String × PyVal) :=
  s.tasks.flatMap fun t => ((commandsOf t.value).filter fun c => !c.isParent).flatMap s.graph.asked

def askedOf (e : Enclosing) : List (String × PyVal) :=
  s.tasks.flatMap fun t => (parentsOf t.value).flatMap e.graph.asked

def plainHere : List (String × PyVal) :=
  s.tasks.flatMap fun t => (s.graph.plainWrites t.value).filter s.graph.reaches

/-- Whatever the order: what the commands ask for is applied exactly once where they
    ask for it, unless the run raises, and the order does not matter. -/
def CommandsKept : Prop :=
  (∀ order, order.Perm s.tasks →
    match s.outcome order with
    | .applied writes =>
      writes.flatten.Perm (s.askedHere ++ s.plainHere) ∧ ∀ e, s.catcher = some e → s.askedOf e = []
    | .handed writes => s.askedHere = [] ∧ ∀ e, s.catcher = some e → writes.Perm (s.askedOf e)
    | .raised => True) ∧
  ∀ order order', order.Perm s.tasks → order'.Perm s.tasks → s.outcome order = s.outcome order'

/-- The commands for the enclosing graph ask for nothing, or one task returned them
    and only its first asks for something. -/
def ParentAlone (e : Enclosing) : Prop :=
  s.askedOf e = [] ∨
    ∃ t, (s.tasks.filter fun t => !(parentsOf t.value).isEmpty) = [t] ∧
      (parentsOf t.value).tail.flatMap e.graph.asked = []

/-! ## What is popped -/

variable {s}

theorem mem_parentsOf {v : PyVal} {c : Command} : c ∈ parentsOf v ↔ c ∈ commandsOf v ∧ c.isParent = true :=
  List.mem_filter

/-- The first task in the order that has commands for the enclosing graph raises its first. -/
theorem panicOrProceed_eq {order : List ReturnedTask} (h : ∀ t ∈ order, t ∈ s.tasks) :
    (s.panicOrProceed order = none ∧ ∀ t ∈ order, parentsOf t.value = []) ∨
      ∃ t ∈ order, ∃ c rest, parentsOf t.value = c :: rest ∧
        s.panicOrProceed order = some (t, .parentCommand c) := by
  induction order with
  | nil => exact Or.inl ⟨rfl, fun _ ht => nomatch ht⟩
  | cons t order ih =>
    rw [List.forall_mem_cons] at h
    have hupdates := s.updates_ok t h.1
    have hgotos := s.gotos_ok t h.1
    cases hp : parentsOf t.value with
    | cons c rest =>
      refine Or.inr ⟨t, List.mem_cons_self, c, rest, hp, ?_⟩
      unfold panicOrProceed
      rw [GraphShape.nodeWrites_eq_error hupdates hgotos hp]
    | nil =>
      obtain ⟨ws, hws, _⟩ := GraphShape.nodeWrites_eq_ok hupdates hgotos hp
      have hskip : s.panicOrProceed (t :: order) = s.panicOrProceed order := by
        rw [panicOrProceed, hws]
      rw [hskip]
      rcases ih h.2 with ⟨hnone, hall⟩ | ⟨t', ht', c, rest, hp', hsome⟩
      · exact Or.inl ⟨hnone, List.forall_mem_cons.mpr ⟨hp, hall⟩⟩
      · exact Or.inr ⟨t', List.mem_cons_of_mem _ ht', c, rest, hp', hsome⟩

theorem asCommand_toValue (c : Command) (graph : String) :
    asCommand { c with graph := some graph }.toValue = some { c with graph := some graph } := by
  simp [asCommand, Command.toValue, attrOf, List.lookup_cons]

theorem updates_of_command (g : GraphShape) {v : PyVal} {c : Command} (h : asCommand v = some c) :
    ∃ us, g.updates v = .ok us := by
  obtain ⟨attrs, rfl⟩ := asCommand_eq_some h
  unfold GraphShape.updates
  split
  · exact ⟨_, rfl⟩
  · rw [getUpdates, h]
    exact ⟨_, rfl⟩

theorem filter_flatMap_reaches {α : Type} {g : GraphShape} (f : α → List (String × PyVal)) (l : List α) :
    (l.flatMap f).filter g.reaches = l.flatMap fun a => (f a).filter g.reaches := by
  induction l with
  | nil => rfl
  | cons a l ih => rw [List.flatMap_cons, List.flatMap_cons, List.filter_append, ih]

/-- The task of the enclosing graph writes what the command asks for. -/
theorem handed_writes {e : Enclosing} {c : Command} {graph : String} (hgraph : graph ≠ Const.PARENT)
    (hgotos : ∃ targets, c.gotoTargets = .ok targets) :
    ∃ ws, e.graph.nodeWrites { c with graph := some graph }.toValue = .ok ws ∧
      (ws.filter e.graph.reaches).Perm (e.graph.asked c) := by
  have hcommand := asCommand_toValue c graph
  have hcommands := commandsOf_of_command hcommand
  have hcurrent : ({ c with graph := some graph } : Command).isParent = false := by
    simpa [Command.isParent] using hgraph
  obtain ⟨ws, hws, hperm⟩ := GraphShape.nodeWrites_eq_ok (g := e.graph)
    (updates_of_command _ hcommand) (by
      rw [hcommands]
      intro c' hc'
      rw [List.mem_singleton.mp hc']
      exact hgotos) (by
      unfold parentsOf
      rw [hcommands]
      simp [hcurrent])
  refine ⟨ws, hws, ?_⟩
  have hplain : e.graph.plainWrites { c with graph := some graph }.toValue = [] := by
    obtain ⟨attrs, hattrs⟩ := asCommand_eq_some hcommand
    unfold GraphShape.plainWrites isCommand
    rw [hcommand, hattrs]
    rfl
  rw [hcommands, hplain, List.append_nil, List.flatMap_singleton] at hperm
  exact hperm.filter _

/-- A command for the enclosing graph that no task handles. -/
theorem outcome_of_uncaught (h : s.catcher = none) {order : List ReturnedTask}
    (hmem : ∀ t ∈ order, t ∈ s.tasks) {t : ReturnedTask} (ht : t ∈ order) (hp : parentsOf t.value ≠ []) :
    s.outcome order = .raised := by
  rcases panicOrProceed_eq hmem with ⟨_, hall⟩ | ⟨t', ht', c, rest, hp', hsome⟩
  · exact absurd (hall t ht) hp
  · unfold outcome
    rw [hsome]
    dsimp only
    rw [s.frames t' (hmem t' ht')]
    unfold catcher at h
    cases he : s.enclosing with
    | none => rfl
    | some e =>
      rw [he] at h
      dsimp only
      split
      · next hcatches =>
        -- it is renamed to what is a command for the enclosing graph again
        have hparent : s.parentNs = Const.PARENT := by
          by_contra hne
          simp [Option.filter, hcatches, hne] at h
        have hcommand := asCommand_toValue c s.parentNs
        have hcommands := commandsOf_of_command hcommand
        have hgotos : ∀ c' ∈ commandsOf ({ c with graph := some s.parentNs } : Command).toValue,
            ∃ targets, c'.gotoTargets = .ok targets := by
          rw [hcommands]
          intro c' hc'
          rw [List.mem_singleton.mp hc']
          exact s.gotos_ok t' (hmem t' ht') c (mem_parentsOf.mp (by rw [hp']; exact List.mem_cons_self)).1
        have hparents : parentsOf ({ c with graph := some s.parentNs } : Command).toValue
            = [{ c with graph := some s.parentNs }] := by
          unfold parentsOf
          rw [hcommands]
          simp [Command.isParent, hparent]
        have herr := GraphShape.nodeWrites_eq_error (g := e.graph) (updates_of_command _ hcommand) hgotos hparents
        rw [herr]
      · rfl

/-- One that a task handles: the first of some task that has one. -/
theorem outcome_of_caught {e : Enclosing} (h : s.catcher = some e) {order : List ReturnedTask} {t : ReturnedTask} {c : Command} {rest : List Command}
    (hp : parentsOf t.value = c :: rest) (ht : t ∈ s.tasks)
    (hsome : s.panicOrProceed order = some (t, .parentCommand c)) :
    ∃ ws, s.outcome order = .handed ws ∧ ws.Perm (e.graph.asked c) := by
  unfold catcher at h
  obtain ⟨he, htest⟩ := Option.filter_eq_some_iff.mp h
  rw [Bool.and_eq_true, bne_iff_ne] at htest
  obtain ⟨hcatches, hne⟩ := htest
  have hc : c ∈ commandsOf t.value := (mem_parentsOf.mp (by rw [hp]; exact List.mem_cons_self)).1
  obtain ⟨ws, hws, hperm⟩ := handed_writes (e := e) hne (s.gotos_ok t ht c hc)
  refine ⟨ws.filter e.graph.reaches, ?_, hperm⟩
  unfold outcome
  rw [hsome]
  dsimp only
  rw [s.frames t ht, he]
  dsimp only
  rw [if_pos hcatches, hws]

/-- Without commands for the enclosing graph the writes of the tasks are applied. -/
theorem outcome_of_currents (hall : ∀ t ∈ s.tasks, parentsOf t.value = []) {order : List ReturnedTask}
    (hmem : ∀ t ∈ order, t ∈ s.tasks) :
    s.outcome order = .applied (s.tasks.filterMap s.reachingWrites) ∧
      (s.tasks.filterMap s.reachingWrites).flatten.Perm (s.askedHere ++ s.plainHere) := by
  have hnone : s.panicOrProceed order = none := by
    rcases panicOrProceed_eq hmem with ⟨hnone, _⟩ | ⟨t, ht, c, rest, hp, _⟩
    · exact hnone
    · rw [hall t (hmem t ht)] at hp
      cases hp
  refine ⟨?_, ?_⟩
  · unfold outcome
    rw [hnone]
  unfold askedHere plainHere
  have htasks : ∀ ts : List ReturnedTask, (∀ t ∈ ts, t ∈ s.tasks) →
      (ts.filterMap s.reachingWrites).flatten.Perm
        ((ts.flatMap fun t => ((commandsOf t.value).filter fun c => !c.isParent).flatMap s.graph.asked) ++
          ts.flatMap fun t => (s.graph.plainWrites t.value).filter s.graph.reaches) := by
    intro ts hts
    induction ts with
    | nil => exact List.Perm.refl _
    | cons t ts ih =>
      rw [List.forall_mem_cons] at hts
      obtain ⟨ws, hws, hperm⟩ := GraphShape.nodeWrites_eq_ok (s.updates_ok t hts.1) (s.gotos_ok t hts.1)
        (hall t hts.1)
      have hreach : s.reachingWrites t = some (ws.filter s.graph.reaches) := by
        unfold reachingWrites
        rw [hws]
      have hone := hperm.filter s.graph.reaches
      rw [List.filter_append, filter_flatMap_reaches] at hone
      rw [List.filterMap_cons_some hreach, List.flatten_cons, List.flatMap_cons, List.flatMap_cons,
        GraphShape.filter_currents (hall t hts.1)]
      refine (hone.append (ih hts.2)).trans ?_
      simp only [List.append_assoc]
      refine List.Perm.append_left _ ?_
      rw [← List.append_assoc, ← List.append_assoc]
      exact List.perm_append_comm.append_right _
  exact htasks s.tasks fun _ h => h

theorem askedOf_cons_parents {e : Enclosing} {t : ReturnedTask} {rest : List ReturnedTask}
    (h : (s.tasks.filter fun t => !(parentsOf t.value).isEmpty) = t :: rest) :
    s.askedOf e = (parentsOf t.value).flatMap e.graph.asked ++
      rest.flatMap fun t => (parentsOf t.value).flatMap e.graph.asked := by
  have hskip : ∀ ts : List ReturnedTask, (ts.flatMap fun t => (parentsOf t.value).flatMap e.graph.asked) =
      (ts.filter fun t => !(parentsOf t.value).isEmpty).flatMap fun t =>
        (parentsOf t.value).flatMap e.graph.asked := by
    intro ts
    induction ts with
    | nil => rfl
    | cons t ts ih =>
      rw [List.flatMap_cons, List.filter_cons, ih]
      cases hp : parentsOf t.value with
      | nil => simp
      | cons c cs => simp [hp]
  unfold askedOf
  rw [hskip, h, List.flatMap_cons]

/-- A command handled first decides the superstep. -/
theorem exists_order {t : ReturnedTask} (ht : t ∈ s.tasks) {c : Command} {rest : List Command}
    (hp : parentsOf t.value = c :: rest) :
    ∃ order, order.Perm s.tasks ∧ s.panicOrProceed order = some (t, .parentCommand c) := by
  obtain ⟨before, after, hsplit⟩ := List.append_of_mem ht
  refine ⟨t :: (before ++ after), ?_, ?_⟩
  · rw [hsplit]
    exact List.perm_middle.symm
  · unfold panicOrProceed
    rw [GraphShape.nodeWrites_eq_error (s.updates_ok t ht) (s.gotos_ok t ht) hp]

/-- Where every command is for this graph, the order does not matter and none is lost. -/
theorem commandsKept_of_currents (hall : ∀ t ∈ s.tasks, parentsOf t.value = []) :
    s.CommandsKept := by
  refine ⟨?_, ?_⟩
  · intro order horder
    obtain ⟨heq, hperm⟩ := outcome_of_currents hall fun t ht => horder.mem_iff.mp ht
    rw [heq]
    refine ⟨hperm, fun e _ => ?_⟩
    unfold askedOf
    refine List.flatMap_eq_nil_iff.mpr fun t ht => ?_
    rw [hall t ht]
    rfl
  · intro order order' horder horder'
    rw [(outcome_of_currents hall fun t ht => horder.mem_iff.mp ht).1,
      (outcome_of_currents hall fun t ht => horder'.mem_iff.mp ht).1]

/-- Where a task has a command for the enclosing graph, the first of one is popped. -/
theorem exists_popped (hsome : ¬∀ t ∈ s.tasks, parentsOf t.value = [])
    {order : List ReturnedTask} (horder : order.Perm s.tasks) :
    ∃ t ∈ s.tasks, ∃ c rest, parentsOf t.value = c :: rest ∧
      s.panicOrProceed order = some (t, .parentCommand c) := by
  cases panicOrProceed_eq (fun t ht => horder.mem_iff.mp ht) with
  | inl hnone => exact absurd (fun t ht => hnone.2 t (horder.mem_iff.mpr ht)) hsome
  | inr hpopped =>
    obtain ⟨t, ht, c, rest, hp, heq⟩ := hpopped
    exact ⟨t, horder.mem_iff.mp ht, c, rest, hp, heq⟩

/-- Each task with such a command may be popped first, and its first command then has
    to be all that is asked of the enclosing graph. -/
theorem CommandsKept.first (h : s.CommandsKept) {e : Enclosing} (he : s.catcher = some e)
    {t : ReturnedTask} (ht : t ∈ s.tasks) {c : Command} {rest : List Command}
    (hp : parentsOf t.value = c :: rest) :
    s.askedHere = [] ∧ (e.graph.asked c).length = (s.askedOf e).length := by
  obtain ⟨order, horder, hsome⟩ := exists_order ht hp
  obtain ⟨ws, hws, hperm⟩ := outcome_of_caught he hp ht hsome
  have hkept := h.1 order horder
  rw [hws] at hkept
  exact ⟨hkept.1, hperm.length_eq.symm.trans (hkept.2 e he).length_eq⟩

theorem mem_senders {t : ReturnedTask} :
    t ∈ s.tasks.filter (fun t => !(parentsOf t.value).isEmpty) ↔
      t ∈ s.tasks ∧ ∃ c rest, parentsOf t.value = c :: rest := by
  rw [List.mem_filter]
  cases parentsOf t.value with
  | nil => simp
  | cons c rest => simp

theorem CommandsKept.parentAlone (h : s.CommandsKept)
    (hsome : ¬∀ t ∈ s.tasks, parentsOf t.value = []) {e : Enclosing} (he : s.catcher = some e) :
    s.ParentAlone e := by
  match hf : s.tasks.filter fun t => !(parentsOf t.value).isEmpty with
  | [] =>
    obtain ⟨t, ht, c, rest, hp, -⟩ := exists_popped hsome (List.Perm.refl _)
    have hmem := mem_senders.mpr ⟨ht, c, rest, hp⟩
    rw [hf] at hmem
    cases hmem
  | [t] =>
    refine Or.inr ⟨t, hf, ?_⟩
    obtain ⟨ht, c, rest, hp⟩ := mem_senders.mp (by rw [hf]; exact List.mem_singleton_self t)
    have hlen := (h.first he ht hp).2
    rw [askedOf_cons_parents hf, hp, List.flatMap_cons, List.flatMap_nil, List.append_nil,
      List.length_append] at hlen
    rw [hp]
    exact List.length_eq_zero_iff.mp (by show (rest.flatMap e.graph.asked).length = 0; omega)
  | t :: t' :: more =>
    -- two commands cannot both be all that is asked for, unless that is nothing
    left
    obtain ⟨ht, c, rest, hp⟩ := mem_senders.mp (by rw [hf]; exact List.mem_cons_self)
    obtain ⟨ht', c', rest', hp'⟩ :=
      mem_senders.mp (by rw [hf]; exact List.mem_cons_of_mem _ List.mem_cons_self)
    have hlen := (h.first he ht hp).2
    have hlen' := (h.first he ht' hp').2
    have htotal := congrArg List.length (askedOf_cons_parents (e := e) hf)
    rw [List.flatMap_cons, hp, hp', List.flatMap_cons, List.flatMap_cons] at htotal
    simp only [List.length_append] at htotal
    exact List.length_eq_zero_iff.mp (by omega)

/-- Where no task handles the command, it is raised in every order. -/
theorem commandsKept_of_uncaught (hsome : ¬∀ t ∈ s.tasks, parentsOf t.value = [])
    (hcatcher : s.catcher = none) : s.CommandsKept := by
  have hraised : ∀ order, order.Perm s.tasks → s.outcome order = .raised := by
    intro order horder
    obtain ⟨t, ht, c, rest, hp, -⟩ := exists_popped hsome horder
    refine outcome_of_uncaught hcatcher (fun t ht => horder.mem_iff.mp ht) (horder.mem_iff.mpr ht) ?_
    rw [hp]
    exact List.cons_ne_nil _ _
  refine ⟨?_, ?_⟩
  · intro order horder
    rw [hraised order horder]
    trivial
  · intro order order' horder horder'
    rw [hraised order horder, hraised order' horder']

theorem commandsKept_of_nothing (hsome : ¬∀ t ∈ s.tasks, parentsOf t.value = [])
    {e : Enclosing} (he : s.catcher = some e) (hhere : s.askedHere = []) (hnothing : s.askedOf e = []) :
    s.CommandsKept := by
  have hempty : ∀ order, order.Perm s.tasks → s.outcome order = .handed [] := by
    intro order horder
    obtain ⟨t, ht, c, rest, hp, hpopped⟩ := exists_popped hsome horder
    obtain ⟨ws, hws, hperm⟩ := outcome_of_caught he hp ht hpopped
    have hasked : e.graph.asked c = [] :=
      List.flatMap_eq_nil_iff.mp (List.flatMap_eq_nil_iff.mp hnothing t ht) c
        (by rw [hp]; exact List.mem_cons_self)
    rw [hasked] at hperm
    rw [hws, hperm.eq_nil]
  refine ⟨?_, ?_⟩
  · intro order horder
    rw [hempty order horder]
    refine ⟨hhere, fun e' he' => ?_⟩
    obtain rfl := Option.some.inj (he.symm.trans he')
    rw [hnothing]
  · intro order order' horder horder'
    rw [hempty order horder, hempty order' horder']

/-- Where one task sends them all, the same command is popped in every order. -/
theorem commandsKept_of_one (hsome : ¬∀ t ∈ s.tasks, parentsOf t.value = [])
    {e : Enclosing} (he : s.catcher = some e) (hhere : s.askedHere = []) {t₀ : ReturnedTask}
    (hf : s.tasks.filter (fun t => !(parentsOf t.value).isEmpty) = [t₀])
    (htail : (parentsOf t₀.value).tail.flatMap e.graph.asked = []) : s.CommandsKept := by
  have hsame : ∀ order, order.Perm s.tasks → ∃ c rest, parentsOf t₀.value = c :: rest ∧
      s.panicOrProceed order = some (t₀, .parentCommand c) := by
    intro order horder
    obtain ⟨t, ht, c, rest, hp, hpopped⟩ := exists_popped hsome horder
    have hmem := mem_senders.mpr ⟨ht, c, rest, hp⟩
    rw [hf, List.mem_singleton] at hmem
    subst hmem
    exact ⟨c, rest, hp, hpopped⟩
  have ht₀ : t₀ ∈ s.tasks := (mem_senders.mp (by rw [hf]; exact List.mem_singleton_self t₀)).1
  refine ⟨?_, ?_⟩
  · intro order horder
    obtain ⟨c, rest, hp, hpopped⟩ := hsame order horder
    obtain ⟨ws, hws, hperm⟩ := outcome_of_caught he hp ht₀ hpopped
    rw [hws]
    refine ⟨hhere, fun e' he' => ?_⟩
    obtain rfl := Option.some.inj (he.symm.trans he')
    rw [hp] at htail
    have hrest : rest.flatMap e.graph.asked = [] := htail
    rw [askedOf_cons_parents hf, hp, List.flatMap_cons, hrest]
    simpa using hperm
  · intro order order' horder horder'
    obtain ⟨c, rest, hp, hpopped⟩ := hsame order horder
    obtain ⟨c', rest', hp', hpopped'⟩ := hsame order' horder'
    obtain ⟨rfl, _⟩ := List.cons.inj (hp.symm.trans hp')
    unfold outcome
    rw [hpopped, hpopped']

end Superstep

/-! Two nodes of a subgraph that each send an update to the enclosing graph. -/

def toParent (key : String) (n : Int) : Command := ⟨some Const.PARENT, .dict [(.str key, .int n)], .tuple []⟩

def outerTask : Enclosing := ⟨⟨fun _ => [], ["x", "y"], ["x", "y"]⟩, "node:1", "node"⟩

def twoParents : Superstep where
  graph := ⟨fun _ => [], ["z"], ["z", "branch:to:a", "branch:to:b"]⟩
  tasks := [⟨"node:1|a:2", (toParent "x" 1).toValue⟩, ⟨"node:1|b:3", (toParent "y" 2).toValue⟩]
  enclosing := some outerTask
  parentNs := "node:1"
  frames := by decide +kernel
  updates_ok := by
    intro t ht
    rcases List.mem_cons.mp ht with rfl | ht
    · exact ⟨[], by rfl⟩
    · rw [List.mem_singleton.mp ht]
      exact ⟨[], by rfl⟩
  gotos_ok := by
    intro t ht c hc
    rcases List.mem_cons.mp ht with rfl | ht
    · rw [List.mem_singleton.mp (show c ∈ [toParent "x" 1] from hc)]
      exact ⟨[], by rfl⟩
    · rw [List.mem_singleton.mp ht] at hc
      rw [List.mem_singleton.mp (show c ∈ [toParent "y" 2] from hc)]
      exact ⟨[], by rfl⟩

end LangGraph
