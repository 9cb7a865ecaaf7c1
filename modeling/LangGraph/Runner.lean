import LangGraph.LoopWrites

/- Running the tasks of a superstep, and running them again.

   Correspondence (source ↔ Lean):
     `run_with_retry` (pregel/_retry.py)            ↔ `runWithRetry`
     `PregelRunner.commit` (pregel/_runner.py)      ↔ `commitWrites`, `PendingLoop.commit`
     `_reapply_writes_to_succeeded_nodes`           ↔ `reapplyWrites`
     the part of `tick` that calls it               ↔ `PendingLoop.tick`
     `[t for t in loop.tasks.values() if not t.writes]` ↔ `PendingLoop.toRun`
   A task's code is known by what each attempt at it appends to `task.writes` and
   how it ends. -/
namespace LangGraph

/-- How an execution of a task ends, as `commit` tells exceptions apart. -/
inductive Outcome where
  | ok
  | cancelled (exception : PyVal)
  /-- `GraphInterrupt`, with its interrupts. -/
  | interrupt (interrupts : List PyVal)
  /-- Any other `GraphBubbleUp`. -/
  | bubbleUp
  | error (exception : PyVal)

/-- One attempt at a task: the writes it appends, and how it ends. -/
structure Attempt where
  appended : List (String × PyVal)
  outcome : Outcome

/-- `run_with_retry`: every attempt clears `task.writes` and appends its own. An
    exception is retried while `retries` says so (the policy that matches it, at
    that count of failures); `fuel` bounds the attempts. -/
def runWithRetry (retries : PyVal → Nat → Bool) (node : Nat → Attempt) : Nat → Nat → Attempt
  | 0, n => node n
  | fuel + 1, n =>
    match (node n).outcome with
    | .error e => if retries e (n + 1) then runWithRetry retries node fuel (n + 1) else node n
    | _ => node n

/-- The writes that `commit` puts for a task, if it puts any. `handler` is the
    name of the task when an error of it is routed to an error handler. -/
def commitWrites (handler : Option String) (a : Attempt) : Option (List (String × PyVal)) :=
  match a.outcome with
  | .cancelled e => some (a.appended ++ [(Const.ERROR, e)])
  | .interrupt interrupts =>
    if interrupts.isEmpty then none
    else some ((Const.INTERRUPT, .tuple interrupts) ::
      a.appended.filter fun w => w.1 = Const.RESUME)
  | .bubbleUp => none
  | .error e => some (a.appended ++ [(Const.ERROR, e)] ++
      (handler.map fun name => (Const.ERROR_SOURCE_NODE, PyVal.str name)).toList)
  | .ok => some (if a.appended.isEmpty then [(Const.NO_WRITES, .none)] else a.appended)

/-- The writes of a task that succeeds, as `commit` leaves them. -/
def finalWrites (writes : List (String × PyVal)) : List (String × PyVal) :=
  if writes.isEmpty then [(Const.NO_WRITES, .none)] else writes

theorem commitWrites_ok (writes : List (String × PyVal)) :
    commitWrites none ⟨writes, .ok⟩ = some (finalWrites writes) := rfl

/-- The channels that `_reapply_writes_to_succeeded_nodes` passes over. -/
def controlSignals : List String :=
  [Const.ERROR, Const.ERROR_SOURCE_NODE, Const.INTERRUPT, Const.RESUME]

/-- The writes of the list that a task gets back. -/
def reapplied (pending : List PendingWrite) (taskId : String) : List (String × PyVal) :=
  (pending.filter fun w => w.taskId = taskId ∧ w.channel ∉ controlSignals).map
    fun w => (w.channel, w.value)

def reapplyWrites (pending : List PendingWrite) (tasks : List Task) : List Task :=
  tasks.map fun t => { t with writes := t.writes ++ reapplied pending t.id }

namespace PendingLoop
variable {V : Type}

def commit (l : PendingLoop V) (taskId : String) (handler : Option String) (a : Attempt)
    (taskPath : String) : PendingLoop V :=
  match commitWrites handler a with
  | none => l
  | some writes => l.putWrites taskId writes taskPath

/-- The tasks of a tick before the runner starts. -/
def tick (l : PendingLoop V) (isReplaying : Bool) (tasks : List Task) : List Task :=
  if isReplaying then tasks else reapplyWrites l.checkpointPendingWrites tasks

/-- The tasks that the runner executes. -/
def toRun (l : PendingLoop V) (isReplaying : Bool) (tasks : List Task) : List Task :=
  (l.tick isReplaying tasks).filter fun t => t.writes.isEmpty

end PendingLoop

end LangGraph
