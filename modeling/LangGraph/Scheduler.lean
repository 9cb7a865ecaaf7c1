import LangGraph.Lib.Machine
import LangGraph.ApplySpec
import LangGraph.StateGraph
import LangGraph.Checkpointing

/- The steps of the loop of a compiled graph, over one thread, as far as they
   decide which nodes run.

   Correspondence (source ↔ Lean):
     `__enter__` (pregel/_loop.py)                  ↔ `Event.enter`
     the parts of `_first`                          ↔ `command`, `resume`, `input`
     `tick` and `after_tick`                        ↔ `superstep`
     `_put_checkpoint`                              ↔ `putCheckpoint`, `advance`
     `perform_superstep` (pregel/main.py)           ↔ `update`
   The events may come in any order, and their data are arbitrary: the writes of
   tasks, the order of the writers, the checkpoints that are loaded again. A stub
   of `update_state` is an empty checkpoint, as a thread without one has. A call
   that raises ends the run: there is no step. `unread` is no data of the source:
   it remembers for each node the channels written since a task they triggered. -/
namespace LangGraph

/-- A compiled graph and what a run of it uses. -/
structure Program (V : Type) where
  builder : StateGraph
  managedKeys : List String
  outputChannels : List String
  interruptNodes : List String
  parentNs : String
  xxh3 : String → String → String
  getNextVersion : GetNextVersion V
  valid : validateGraph builder.compile.nodes builder.compile.channels managedKeys outputChannels
    interruptNodes = none

namespace Program
variable {V : Type} (p : Program V)

def nodes : OrdDict String PregelNode := p.builder.compile.nodes

def specs : OrdDict String Channel := p.builder.compile.channels

def ctx (managed : OrdDict String PyVal) : TaskContext := ⟨p.nodes, managed, p.parentNs, p.xxh3⟩

def triggerToNodes : TriggerToNodes := LangGraph.triggerToNodes p.nodes

/-- `chan` is a trigger of the node. -/
def Triggers (node chan : String) : Prop :=
  ∃ proc, p.nodes.get? node = some proc ∧ chan ∈ proc.triggers

end Program

/-- The channels written since a task of the node that they triggered. -/
abbrev Unread := String → String → Bool

structure Loop (V : Type) where
  checkpoint : Checkpoint V
  channels : OrdDict String Channel
  updatedChannels : Option (List String)
  unread : Unread

structure Saved (V : Type) where
  checkpoint : Checkpoint V
  unread : Unread

structure World (V : Type) where
  saved : List (Saved V)
  loop : Option (Loop V)

/-- `saver.get_delta_channel_history` for the checkpoint to load. -/
abbrev History := List String → OrdDict String DeltaChannelHistory

/-- The step that tasks are prepared for, and the managed values in it. -/
structure StepInfo where
  step : Int
  managed : OrdDict String PyVal

/-- A task that a running one pushes: an error handler or a call. -/
structure Pushed where
  path : TaskPath
  name : String
  writes : List (String × PyVal)

/-- What `update_state` may ask for. -/
inductive Update where
  /-- The writes of the writers of each `as_node`. -/
  | asNodes (updates : List (String × List (String × PyVal)))
  | asInput (writes : List (String × PyVal))
  /-- Clear all tasks; the pending writes of the null task and of the tasks. -/
  | clear (info : StepInfo) (nullWrites : List (String × PyVal))
      (outputs : String → List (String × PyVal))
  | copy

inductive Event where
  | enter (source : Option Nat) (id : String) (history : History)
  | command (writes : List (String × PyVal))
  | resume
  | input (info : StepInfo) (writes : List (String × PyVal))
  | superstep (info : StepInfo) (outputs : String → List (String × PyVal)) (pushed : List Pushed)
  | putCheckpoint (id : String) (toSnapshot : List String) (hinted : Bool)
  /-- `_put_checkpoint` of a run that saves at its end only. -/
  | advance (id : String)
  | update (source : Option Nat) (id : String) (history : History) (change : Update)

section Steps
variable {V : Type} [LinearOrder V] [OrderBot V]

/-- The channel was written in the call: by a task, or by `finish`. -/
def written (tasks : List TaskWrites) (updatedChannels : List String) (chan : String) : Bool :=
  !(writesFor tasks chan).isEmpty || updatedChannels.contains chan

/-- The loop after a call of `apply_writes` that left `s`. -/
def Loop.after (l : Loop V) (tasks : List TaskWrites) (s : ApplyState V) : Loop V where
  checkpoint := s.checkpoint
  channels := s.channels
  updatedChannels := l.updatedChannels
  unread := fun node chan =>
    l.unread node chan && !(tasks.any fun t => t.name == node && t.triggers.contains chan) ||
      written tasks s.updatedChannels chan

/-- A call of `apply_writes`: the loop after it, and the channels it returns. -/
def Loop.apply (p : Program V) (l : Loop V) (tasks : List TaskWrites) :
    Option (Loop V × List String) :=
  match applyWrites l.checkpoint l.channels tasks (some p.getNextVersion) p.triggerToNodes with
  | (_, .error _) => none
  | (s, .ok ()) => some (l.after tasks s, s.updatedChannels)

/-- The writes of the null task, or of an input. -/
def nullTask (writes : List (String × PyVal)) : TaskWrites := ⟨[], Const.INPUT, writes, []⟩

/-- The tasks of a superstep, as `prepare_next_tasks` returns them, with what each wrote. -/
def taskWrites (tasks : List Task) (outputs : String → List (String × PyVal)) :
    List TaskWrites :=
  (tasksById tasks).values.map fun t => { t.toTaskWrites with writes := outputs t.id }

def Pushed.toTaskWrites (t : Pushed) : TaskWrites := ⟨t.path, t.name, t.writes, [Const.PUSH]⟩

/-- The tasks that `tick` prepares, with its hints. -/
def Loop.tasks (p : Program V) (l : Loop V) (info : StepInfo) (forExecution : Bool) : List Task :=
  nextTaskList (p.ctx info.managed) l.checkpoint l.channels info.step forExecution
    (some p.triggerToNodes) l.updatedChannels

/-- The tasks that are prepared without `trigger_to_nodes`, as by a new input or an update. -/
def Loop.allTasks (p : Program V) (l : Loop V) (info : StepInfo) (forExecution : Bool) :
    List Task :=
  nextTaskList (p.ctx info.managed) l.checkpoint l.channels info.step forExecution none
    l.updatedChannels

/-- The loop that `__enter__` builds on a checkpoint. -/
def Saved.load (p : Program V) (s : Saved V) (history : History) : Option (Loop V) :=
  match channelsFromCheckpoint p.specs s.checkpoint history with
  | .error _ => none
  | .ok channels => some {
      checkpoint := s.checkpoint, channels := channels, unread := s.unread
      updatedChannels := s.checkpoint.updatedChannels.filter (!·.isEmpty) }

/-- `saved.checkpoint`, or an empty one. -/
def World.source (w : World V) (source : Option Nat) (id : String) : Option (Saved V) :=
  match source with
  | some idx => w.saved[idx]?
  | none => some ⟨emptyCheckpoint id, fun _ _ => false⟩

/-- The new checkpoint of `_put_checkpoint`, saved. -/
def World.put (w : World V) (l : Loop V) (checkpoint : Checkpoint V) : World V :=
  { w with saved := w.saved ++ [⟨checkpoint, l.unread⟩] }

/-- A resumed run proceeds past the interrupts of all channels. -/
def Loop.seeInterrupts (l : Loop V) : Loop V :=
  let seen := (l.checkpoint.versionsSeen.getD Const.INTERRUPT ∅).setAll
    (l.channels.keys.filterMap fun k => (l.checkpoint.channelVersions.get? k).map (k, ·))
  { l with
    checkpoint := { l.checkpoint with
      versionsSeen := l.checkpoint.versionsSeen.set Const.INTERRUPT seen } }

def Loop.deltaChannels (l : Loop V) (names : List String) : List String :=
  names.filter fun k => (l.channels.get? k).any (·.asDelta.isSome)

/-- `perform_superstep` prepares tasks without hints. -/
def Loop.unhinted (l : Loop V) : Loop V := { l with updatedChannels := none }

/-- The state of `perform_superstep` before it makes the new checkpoint. -/
def Loop.change (p : Program V) (l : Loop V) : Update → Option (Loop V)
  | .asNodes updates =>
    (l.apply p (updates.map fun u => ⟨[], u.1, u.2, [Const.INTERRUPT]⟩)).map Prod.fst
  | .asInput writes => (l.apply p [nullTask writes]).map Prod.fst
  | .clear info nullWrites outputs =>
    let tasks := taskWrites (l.allTasks p info true) outputs
    if nullWrites = [] then (l.apply p tasks).map Prod.fst
    else (l.apply p [nullTask nullWrites]).bind fun r => (r.1.apply p tasks).map Prod.fst
  | .copy => some l

def Update.keepsChannels : Update → Bool
  | .copy => true
  | _ => false

def step (p : Program V) (w : World V) : Event → Option (World V)
  | .enter source id history =>
    (w.source source id).bind fun s => (s.load p history).map fun l => { w with loop := some l }
  | .update source id history change =>
    (w.source source id).bind fun s =>
      (s.load p history).bind fun l =>
        (l.unhinted.change p change).map fun l' =>
          w.put l' (createCheckpoint l'.checkpoint
            (if change.keepsChannels then none else some l'.channels) id none none [])
  | .command writes => w.loop.bind fun l =>
      (l.apply p [nullTask writes]).map fun r =>
        { w with
          loop := some { r.1 with updatedChannels := l.updatedChannels.map (· ∪ r.2) } }
  | .resume => w.loop.map fun l => { w with loop := some l.seeInterrupts }
  | .input info writes => w.loop.bind fun l =>
      (l.apply p (taskWrites (l.allTasks p info true) (fun _ => []) ++ [nullTask writes])).map
        fun r => { w with loop := some { r.1 with updatedChannels := some r.2 } }
  | .superstep info outputs pushed => w.loop.bind fun l =>
      let tasks := taskWrites (l.tasks p info true) outputs
      if tasks = [] then none
      else (l.apply p (tasks ++ pushed.map Pushed.toTaskWrites)).map fun r =>
        { w with loop := some { r.1 with updatedChannels := some r.2 } }
  | .putCheckpoint id toSnapshot hinted => w.loop.map fun l =>
      let cp := sanitizeTasks l.channels (createCheckpoint l.checkpoint (some l.channels) id
        (if hinted then l.updatedChannels else none) (some p.getNextVersion)
        (l.deltaChannels toSnapshot))
      { w.put l cp with loop := some { l with checkpoint := cp } }
  | .advance id => w.loop.map fun l =>
      { w with
        loop := some { l with
          checkpoint := sanitizeTasks l.channels
            (createCheckpoint l.checkpoint none id l.updatedChannels none []) } }

end Steps

end LangGraph
