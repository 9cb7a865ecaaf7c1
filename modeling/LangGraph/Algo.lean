import Mathlib.Data.String.Basic
import Mathlib.Data.List.Dedup
import Mathlib.Order.BoundedOrder.Basic
import LangGraph.Lib.OrdDict
import LangGraph.Lib.SortBy
import LangGraph.Lib.KeyedFold
import LangGraph.Channels

/- The superstep algorithm of `pregel/_algo.py`.

   Correspondence (source ↔ Lean):
     `Checkpoint` (without `v` and `ts`)            ↔ `Checkpoint V`
     `task_path_str`                                ↔ `taskPathStr`
     `PregelTaskWrites` / `PregelExecutableTask`    ↔ `TaskWrites` / `Task`
     `apply_writes`                                 ↔ `applyWrites`
     `_triggers`, `_proc_input`                     ↔ `triggers`, `procInput`
     `prepare_single_task`, `prepare_next_tasks`    ↔ `prepareSingleTask`, `prepareNextTasks`
     `_xxhash_str`                                  ↔ `taskId`
   `V` is the type of channel versions, `⊥` is the null version `type(version)()`.
   `apply_writes` works on its arguments in place, so `applyWrites` returns the
   state it leaves behind also when a channel raises. -/
namespace LangGraph

structure Checkpoint (V : Type) where
  id : String
  channelValues : OrdDict String PyVal
  channelVersions : OrdDict String V
  versionsSeen : OrdDict String (OrdDict String V)
  updatedChannels : Option (List String)

/-- A component of a task path: a string, an int (a bool is one), or a tuple. -/
inductive PathPart where
  | str (s : String)
  | int (n : Int)
  | tuple (parts : List PathPart)

abbrev TaskPath := List PathPart

/-- The decimal digits of `n`, filled with zeros to the given width. -/
def zeroPad (width n : Nat) : List Char :=
  List.replicate (width - (Nat.toDigits 10 n).length) '0' ++ Nat.toDigits 10 n

/-- The format `:010d`, whose width counts the sign. -/
def format010d : Int → String
  | .ofNat n => String.ofList (zeroPad 10 n)
  | .negSucc n => "-" ++ String.ofList (zeroPad 9 (n + 1))

mutual
/-- `task_path_str` on one component. -/
def partStr : PathPart → String
  | .str s => s
  | .int n => format010d n
  | .tuple parts => "~" ++ joinParts parts

/-- `', '.join(task_path_str(x) for x in tup)` -/
def joinParts : List PathPart → String
  | [] => ""
  | [p] => partStr p
  | p :: q :: ps => partStr p ++ ", " ++ joinParts (q :: ps)
end

def taskPathStr (path : TaskPath) : String := partStr (.tuple path)

structure TaskWrites where
  path : TaskPath
  name : String
  writes : List (String × PyVal)
  triggers : List String

structure Task where
  name : String
  input : PyVal
  writes : List (String × PyVal)
  triggers : List String
  id : String
  path : TaskPath

def Task.toTaskWrites (t : Task) : TaskWrites := ⟨t.path, t.name, t.writes, t.triggers⟩

/-! ## apply_writes -/

section ApplyWrites
variable {V : Type} [LinearOrder V]

/-- The arguments that `apply_writes` mutates, and its `updated_channels`. -/
structure ApplyState (V : Type) where
  checkpoint : Checkpoint V
  channels : OrdDict String Channel
  updatedChannels : List String

abbrev GetNextVersion (V : Type) := Option V → V

/-- The write keys that `apply_writes` passes over. -/
def controlChannels : List String :=
  [Const.NO_WRITES, Const.PUSH, Const.RESUME, Const.INTERRUPT, Const.RETURN, Const.ERROR,
    Const.ERROR_SOURCE_NODE]

/-- `RESERVED` -/
def reserved : List String :=
  ["langsmith:hidden", Const.INPUT, Const.INTERRUPT, Const.RESUME, Const.ERROR,
    Const.ERROR_SOURCE_NODE, Const.NO_WRITES, "__pregel_send", "__pregel_read",
    "__pregel_checkpointer", "__pregel_stream", "checkpoint_map", "__pregel_resuming",
    "__pregel_replay_state", "__pregel_task_id", "checkpoint_id", "checkpoint_ns",
    "__pregel_timed_attempt_observer", "__pregel_resume_map", "__pregel_stream_messages_v2",
    Const.PUSH, Const.PULL, "|", ":", "configurable"]

def Checkpoint.setVersion (cp : Checkpoint V) (chan : String) (v : V) : Checkpoint V :=
  { cp with channelVersions := cp.channelVersions.set chan v }

/-- Record in `versions_seen` the versions of the task's triggers. -/
def markSeen (cp : Checkpoint V) (t : TaskWrites) : Checkpoint V :=
  let seen := (cp.versionsSeen.getD t.name ∅).setAll
    (t.triggers.filterMap fun chan => (cp.channelVersions.get? chan).map (chan, ·))
  { cp with versionsSeen := cp.versionsSeen.set t.name seen }

/-- The version every channel that changes in this call receives. -/
def nextVersion (getNextVersion : Option (GetNextVersion V)) (cp : Checkpoint V) : Option V :=
  getNextVersion.map fun g => g cp.channelVersions.values.max?

/-- The set of channels the tasks were triggered by. -/
def triggerChannels (tasks : List TaskWrites) (channels : OrdDict String Channel) : List String :=
  ((tasks.flatMap (·.triggers)).filter fun chan =>
    !reserved.contains chan && channels.contains chan).dedup

def consumeOne (nv : Option V) (s : ApplyState V) (chan : String) : ApplyState V :=
  match s.channels.get? chan with
  | none => s
  | some c =>
    let r := c.consume
    let s' := { s with channels := s.channels.set chan r.1 }
    match r.2, nv with
    | true, some v => { s' with checkpoint := s'.checkpoint.setVersion chan v }
    | _, _ => s'

/-- `pending_writes_by_channel`: the writes to known channels, in task order. -/
def groupWrites (tasks : List TaskWrites) (channels : OrdDict String Channel) :
    OrdDict String (List PyVal) :=
  (tasks.flatMap (·.writes)).foldl
    (fun d w =>
      if controlChannels.contains w.1 then d
      else if channels.contains w.1 then d.set w.1 (d.getD w.1 [] ++ [w.2])
      else d)
    ∅

/-- What follows a channel's `update` or `finish`: a channel that changed gets
    the new version, and counts as updated when it is available. -/
def recordUpdate (nv : Option V) (chan : String) (c : Channel) (changed : Bool)
    (s : ApplyState V) : ApplyState V :=
  let s' := { s with channels := s.channels.set chan c }
  match changed, nv with
  | true, some v =>
    { s' with
      checkpoint := s'.checkpoint.setVersion chan v
      -- unavailable channels can't trigger tasks, so don't add them
      updatedChannels := if c.isAvailable then s'.updatedChannels.insert chan
        else s'.updatedChannels }
  | _, _ => s'

def updateOne (nv : Option V) (s : ApplyState V) (chan : String) (vals : List PyVal) :
    ApplyState V × Except PyErr Unit :=
  match s.channels.get? chan with
  | none => (s, .ok ())
  | some c =>
    match c.update vals with
    | (c', .error e) => ({ s with channels := s.channels.set chan c' }, .error e)
    | (c', .ok changed) => (recordUpdate nv chan c' changed s, .ok ())

/-- The loop over `pending_writes_by_channel`. -/
def updateAll (nv : Option V) : ApplyState V → List (String × List PyVal) →
    ApplyState V × Except PyErr Unit :=
  KeyedFold.foldE fun s e => updateOne nv s e.1 e.2

def bumpOne (nv : Option V) (s : ApplyState V) (chan : String) : ApplyState V × Except PyErr Unit :=
  if (s.channels.get? chan).any (·.isAvailable) && !s.updatedChannels.contains chan then
    updateOne nv s chan []
  else (s, .ok ())

/-- Notify the channels that were not updated of a new step. -/
def bumpAll (nv : Option V) : ApplyState V → List String → ApplyState V × Except PyErr Unit :=
  KeyedFold.foldE (bumpOne nv)

def finishOne (nv : Option V) (s : ApplyState V) (chan : String) : ApplyState V :=
  match s.channels.get? chan with
  | none => s
  | some c => recordUpdate nv chan c.finish.1 c.finish.2 s

abbrev TriggerToNodes := OrdDict String (List String)

/-- The notification of the channels the step did not update, and the one of
    the end of the run when the step triggers nothing. -/
def endStep (nv : Option V) (bumpStep : Bool) (triggerToNodes : TriggerToNodes)
    (s : ApplyState V) : ApplyState V × Except PyErr Unit :=
  if bumpStep then
    match bumpAll nv s s.channels.keys with
    | (s', .error e) => (s', .error e)
    | (s', .ok ()) =>
      if s'.updatedChannels.all fun chan => !triggerToNodes.contains chan then
        (s'.channels.keys.foldl (finishOne nv) s', .ok ())
      else (s', .ok ())
  else (s, .ok ())

/-- `task_path_str(t.path[:3])` -/
def TaskWrites.sortKey (t : TaskWrites) : String := taskPathStr (t.path.take 3)

def applyWrites (checkpoint : Checkpoint V) (channels : OrdDict String Channel)
    (tasks : List TaskWrites) (getNextVersion : Option (GetNextVersion V))
    (triggerToNodes : TriggerToNodes) : ApplyState V × Except PyErr Unit :=
  let tasks := SortBy.sortBy TaskWrites.sortKey tasks
  let bumpStep := tasks.any fun t => !t.triggers.isEmpty
  let checkpoint := tasks.foldl markSeen checkpoint
  let nv := nextVersion getNextVersion checkpoint
  let s := (triggerChannels tasks channels).foldl (consumeOne nv) ⟨checkpoint, channels, []⟩
  match updateAll nv s (groupWrites tasks channels).entries with
  | (s, .error e) => (s, .error e)
  | (s, .ok ()) => endStep nv bumpStep triggerToNodes s

end ApplyWrites

/-! ## prepare_next_tasks -/

/-- `PregelNode.channels`: a list of channels, or the name of one. -/
inductive NodeInput where
  | list (channels : List String)
  | single (channel : String)

structure PregelNode where
  channels : NodeInput
  triggers : List String
  mapper : Option (PyVal → PyVal)
  /-- `proc.node is not None` -/
  hasNode : Bool
  errorHandlerNode : Option String

/-- What the preparation of tasks reads of the graph and of the config. `xxh3`
    maps the bytes of the checkpoint id and the joined parts to a task id;
    `managed` holds the value each managed channel has in the step. -/
structure TaskContext where
  processes : OrdDict String PregelNode
  managed : OrdDict String PyVal
  parentNs : String
  xxh3 : String → String → String

/-- `_xxhash_str`: the parts are joined without a separator. -/
def taskId (ctx : TaskContext) (checkpointId : String) (parts : List String) : String :=
  ctx.xxh3 checkpointId (String.join parts)

def TaskContext.checkpointNs (ctx : TaskContext) (name : String) : String :=
  if ctx.parentNs = "" then name else ctx.parentNs ++ "|" ++ name

section Prepare
variable {V : Type} [LinearOrder V] [OrderBot V]

/-- `_triggers` -/
def triggers (channels : OrdDict String Channel) (versions : OrdDict String V)
    (seen : Option (OrdDict String V)) (proc : PregelNode) : Bool :=
  proc.triggers.any fun chan =>
    (channels.get? chan).any (·.isAvailable) &&
      match seen with
      | none => true
      | some seen => decide (seen.getD chan ⊥ < versions.getD chan ⊥)

/-- `_proc_input`; `none` is `MISSING`. -/
def procInput (ctx : TaskContext) (proc : PregelNode) (channels : OrdDict String Channel)
    (forExecution : Bool) : Option PyVal :=
  let val := match proc.channels with
    | .list chans => some (.dict (chans.filterMap fun chan =>
        match channels.get? chan with
        | some c => c.get.map (.str chan, ·)
        | none => (ctx.managed.get? chan).map (.str chan, ·)))
    | .single chan => (channels.get? chan).bind Channel.get
  match forExecution, proc.mapper with
  | true, some mapper => val.map mapper
  | _, _ => val

/-- The pending sends in the `TASKS` channel. -/
def pendingSends (channels : OrdDict String Channel) : List PyVal :=
  match (channels.get? Const.TASKS).bind Channel.get with
  | some (.list sends) => sends
  | _ => []

/-- `prepare_push_task_send` -/
def preparePushTaskSend (ctx : TaskContext) (cp : Checkpoint V)
    (channels : OrdDict String Channel) (step : Int) (idx : Nat) : Option Task :=
  match (pendingSends channels)[idx]? with
  | some (.send node arg) =>
    match ctx.processes.get? node with
    | some proc =>
      if proc.hasNode then
        some {
          name := node, input := arg, writes := [], triggers := [Const.PUSH]
          id := taskId ctx cp.id
            [ctx.checkpointNs node, toString step, node, Const.PUSH, toString idx]
          path := [.str Const.PUSH, .int idx, .int 0] }
      else none
    | none => none
  | _ => none

/-- The `PULL` case of `prepare_single_task`. -/
def preparePullTask (ctx : TaskContext) (cp : Checkpoint V) (channels : OrdDict String Channel)
    (step : Int) (forExecution : Bool) (name : String) : Option Task :=
  match ctx.processes.get? name with
  | none => none
  | some proc =>
    -- `checkpoint_null_version` is None until a channel has a version
    if cp.channelVersions.entries.isEmpty then none
    else if triggers channels cp.channelVersions (cp.versionsSeen.get? name) proc then
      let trigs := SortBy.sortBy id proc.triggers
      match procInput ctx proc channels forExecution with
      | none => none
      | some val =>
        if forExecution && !proc.hasNode then none
        else some {
          name := name, input := val, writes := [], triggers := trigs
          id := taskId ctx cp.id
            ([ctx.checkpointNs name, toString step, name, Const.PULL] ++ trigs)
          path := [.str Const.PULL, .str name] }
    else none

/-- `prepare_single_task` for the paths that `prepare_next_tasks` builds. -/
def prepareSingleTask (ctx : TaskContext) (cp : Checkpoint V) (channels : OrdDict String Channel)
    (step : Int) (forExecution : Bool) : TaskPath → Option Task
  | [.str tag, .int idx] =>
    if tag = Const.PUSH ∧ 0 ≤ idx then preparePushTaskSend ctx cp channels step idx.toNat else none
  | [.str tag, .str name] =>
    if tag = Const.PULL then preparePullTask ctx cp channels step forExecution name else none
  | _ => none

/-- The nodes `prepare_next_tasks` looks at: those triggered by a channel that
    was updated when both hints are given, else all of them. -/
def candidateNodes (ctx : TaskContext) (cp : Checkpoint V)
    (triggerToNodes : Option TriggerToNodes) (updatedChannels : Option (List String)) :
    List String :=
  let updated := updatedChannels.getD []
  let byChannel := triggerToNodes.getD ∅
  if updated ≠ [] ∧ byChannel.entries ≠ [] then
    SortBy.sortBy id (updated.flatMap fun chan => byChannel.getD chan []).dedup
  else if cp.channelVersions.entries.isEmpty then []
  else ctx.processes.keys

/-- The paths `prepare_next_tasks` prepares, in order. -/
def nextTaskPaths (ctx : TaskContext) (cp : Checkpoint V) (channels : OrdDict String Channel)
    (triggerToNodes : Option TriggerToNodes) (updatedChannels : Option (List String)) :
    List TaskPath :=
  (List.range (pendingSends channels).length).map (fun i => [.str Const.PUSH, .int i]) ++
    (candidateNodes ctx cp triggerToNodes updatedChannels).map fun n => [.str Const.PULL, .str n]

/-- The list `tasks` of `prepare_next_tasks`. -/
def nextTaskList (ctx : TaskContext) (cp : Checkpoint V) (channels : OrdDict String Channel)
    (step : Int) (forExecution : Bool) (triggerToNodes : Option TriggerToNodes)
    (updatedChannels : Option (List String)) : List Task :=
  (nextTaskPaths ctx cp channels triggerToNodes updatedChannels).filterMap
    (prepareSingleTask ctx cp channels step forExecution)

/-- `{t.id: t for t in tasks}` -/
def tasksById (tasks : List Task) : OrdDict String Task :=
  OrdDict.ofList (tasks.map fun t => (t.id, t))

def prepareNextTasks (ctx : TaskContext) (cp : Checkpoint V) (channels : OrdDict String Channel)
    (step : Int) (forExecution : Bool) (triggerToNodes : Option TriggerToNodes)
    (updatedChannels : Option (List String)) : OrdDict String Task :=
  tasksById (nextTaskList ctx cp channels step forExecution triggerToNodes updatedChannels)

end Prepare

end LangGraph
