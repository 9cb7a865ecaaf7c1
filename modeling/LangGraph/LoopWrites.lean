import LangGraph.Checkpointing
import LangGraph.Savers.PendingWrites

/- The pending writes of a loop: the list in memory and the copy in the saver.

   Correspondence (source ↔ Lean):
     `PregelLoop`, as far as `put_writes` reads it  ↔ `PendingLoop`
     `put_writes` (pregel/_loop.py)                 ↔ `putWrites`; its three stages are
                                                       `dedupSpecial`, `remaining`, `writesToSave`
     `_put_pending_writes`                          ↔ `putPendingWrites`
     `__enter__` on a stored checkpoint             ↔ `reload`
   The saver is an `InMemorySaver` and `submit` runs at once. `ensure_message_ids`
   gives the messages in a write their ids before the write is stored; values are
   taken with the ids they have then. The loop of a graph without a checkpointer
   keeps its list and saves nothing, as `Durability.exit` does before its end. -/
namespace LangGraph

/-- `WRITES_IDX_MAP` has the channel. -/
def isSpecial (c : String) : Bool := (writesIdxMap c).isSome

inductive Durability where
  | sync
  | async
  | exit
  deriving DecidableEq

structure PendingLoop (V : Type) where
  specs : OrdDict String Channel
  channels : OrdDict String Channel
  durability : Durability
  checkpointId : String
  checkpointPendingWrites : List PendingWrite
  saver : InMemorySaver V

/-- Writes to special channels only are kept once a channel, the last one. -/
def dedupSpecial (writes : List (String × PyVal)) : List (String × PyVal) :=
  if writes.all fun w => isSpecial w.1 then (OrdDict.ofList writes).entries else writes

def pendingOf (taskId : String) (writes : List (String × PyVal)) : List PendingWrite :=
  writes.map fun w => ⟨taskId, w.1, w.2⟩

namespace PendingLoop
variable {V : Type}

/-- What stays of the list when the task puts writes: the null task accumulates
    its writes to ordinary channels, another task replaces all of its own. -/
def remaining (l : PendingLoop V) (taskId : String) : List PendingWrite :=
  if taskId = Const.NULL_TASK_ID then
    l.checkpointPendingWrites.filter fun w => w.taskId ≠ taskId || !isSpecial w.channel
  else l.checkpointPendingWrites.filter fun w => w.taskId ≠ taskId

/-- A write as it is saved: none of an `UntrackedValue`, and no value of one in a `Send`. -/
def saveable (l : PendingLoop V) (w : String × PyVal) : Option (String × PyVal) :=
  if l.channels.values.any Channel.isUntracked then
    if (l.specs.get? w.1).any Channel.isUntracked then none
    else if w.1 = Const.TASKS then some (w.1, sanitizeUntrackedValuesInSend l.channels w.2)
    else some w
  else some w

/-- The writes of the task after the call: of the null task all that it has accumulated. -/
def merged (l : PendingLoop V) (taskId : String) (writes : List (String × PyVal)) :
    List (String × PyVal) :=
  if taskId = Const.NULL_TASK_ID then
    ((l.remaining taskId).filter fun w => w.taskId = taskId).map (fun w => (w.channel, w.value)) ++
      writes
  else writes

/-- `writes_to_save` -/
def writesToSave (l : PendingLoop V) (taskId : String) (writes : List (String × PyVal)) :
    List (String × PyVal) :=
  (l.merged taskId writes).filterMap l.saveable

/-- `put_writes`; the path is the one of the task in `self.tasks`. -/
def putWrites (l : PendingLoop V) (taskId : String) (writes : List (String × PyVal))
    (taskPath : String) : PendingLoop V :=
  if writes.isEmpty then l
  else
    let writes := dedupSpecial writes
    { l with
      checkpointPendingWrites := l.remaining taskId ++ pendingOf taskId writes
      saver := if l.durability = .exit then l.saver
        else l.saver.putWrites l.checkpointId (l.writesToSave taskId writes) taskId taskPath }

/-- The tasks of the list, in order of their first write. -/
def pendingTasks (l : PendingLoop V) : List String :=
  OrdDict.addKeys [] (l.checkpointPendingWrites.map (·.taskId))

/-- `_put_pending_writes` -/
def putPendingWrites (l : PendingLoop V) (taskPaths : String → String) : PendingLoop V :=
  { l with
    saver := l.pendingTasks.foldl (fun s t =>
      s.putWrites l.checkpointId
        ((l.checkpointPendingWrites.filter fun w => w.taskId = t).map fun w => (w.channel, w.value))
        t (taskPaths t)) l.saver }

/-- The pending writes that the saver returns for the checkpoint. -/
def storedWrites (l : PendingLoop V) : List PendingWrite :=
  (l.saver.writesAt l.checkpointId).values.map InMemorySaver.StoredWrite.toPending

/-- The loop of a process that loads the checkpoint. -/
def reload (l : PendingLoop V) : PendingLoop V := { l with checkpointPendingWrites := l.storedWrites }

end PendingLoop

end LangGraph
