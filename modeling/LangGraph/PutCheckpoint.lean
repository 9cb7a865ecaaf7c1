import LangGraph.LoopWrites
import LangGraph.Triggering

/- The checkpoints that a thread is left with: `_put_checkpoint` and its callers.

   Correspondence (source ↔ Lean):
     `DELTA_MAX_SUPERSTEPS_SINCE_SNAPSHOT`          ↔ `bound` (the environment sets it)
     `delta_channels_to_snapshot`                   ↔ `deltaChannelsDue bound`
     `self` of the loop                             ↔ `RunState`
     `counters_since_delta_snapshot`                ↔ `RunState.counters`, `ThreadRow.counters`
     `_put_checkpoint` with a new metadata          ↔ `putCheckpoint`
     `_put_checkpoint(self.checkpoint_metadata)`,
     `_put_exit_delta_writes`                       ↔ `putExitCheckpoint`
     `__enter__`, the parts of `_first`             ↔ `enter`, `nullWrites`, `resume`, `input`, `started`
     `tick` and `after_tick`                        ↔ `superstep`
     `_suppress_interrupt`                          ↔ `exit`
     `perform_superstep` (pregel/main.py)           ↔ `update`
   `Loop.apply` has no value when a channel raises; here such a superstep leaves
   what `apply_writes` had changed, and the run may only end. A run that raises
   before it ticks leaves nothing, and one that is stopped by force is replaced
   by the next `enter`. `written`, `steps` and `progress` are no data of the
   source: the channels that changed since the last superstep was counted, those
   of each superstep since the parent checkpoint, and whether a channel changed
   since a resume saw the versions. -/
namespace LangGraph

abbrev DeltaCounters := OrdDict String (Nat × Nat)

/-- `delta_channels_to_snapshot` under a bound on the supersteps. -/
def deltaChannelsDue (bound : Nat) (channels : OrdDict String Channel) (counters : DeltaCounters) :
    List String :=
  channels.entries.filterMap fun e =>
    match e.2.asDelta with
    | none => none
    | some ch =>
      let count := counters.getD e.1 (0, 0)
      if e.2.isAvailable && (ch.snapshotFrequency ≤ count.1 || bound ≤ count.2) then some e.1
      else none

theorem deltaChannelsDue_default :
    deltaChannelsDue deltaMaxSuperstepsSinceSnapshot = deltaChannelsToSnapshot := rfl

/-- Where a run is: in `_first`, past the part that maps its input, between its
    ticks, or past a superstep that raised. -/
inductive Phase where
  | first
  | mapped
  | ticking
  | failed
  deriving DecidableEq

structure RunState (V : Type) where
  /-- Its `updatedChannels` is the local `updated_channels` of `_first`. -/
  loop : Loop V
  updatedChannels : Option (List String)
  durability : Durability
  phase : Phase
  counters : DeltaCounters
  deltaChannelsWithOverwrite : List String
  /-- The channels of `_exit_delta_writes`. -/
  exitDeltaWrites : List String
  /-- The checkpoint that `checkpoint_config` names. -/
  parent : Option Nat
  checkpointIdSaved : String
  hasPersistedParent : Bool
  written : List String
  steps : List (List String)
  progress : Bool

/-- A checkpoint of the thread, as `put` receives it. -/
structure ThreadRow (V : Type) where
  saved : Saved V
  parent : Option Nat
  counters : DeltaCounters
  steps : List (List String)
  progress : Bool

structure ThreadState (V : Type) where
  rows : List (ThreadRow V)
  run : Option (RunState V)

inductive ThreadEvent where
  | enter (source : Option Nat) (id : String) (history : History) (durability : Durability)
  | nullWrites (writes : List (String × PyVal))
  /-- Proceed past the previous checkpoint; the id of the fork, when time-traveling. -/
  | resume (fork : Option String)
  | input (info : StepInfo) (writes : List (String × PyVal)) (id : String)
  | started
  /-- `pending` are `checkpoint_pending_writes` when the tasks have finished. -/
  | superstep (info : StepInfo) (outputs : String → List (String × PyVal)) (pushed : List Pushed)
      (pending : List (String × PyVal)) (id : String)
  | exit
  | update (source : Option Nat) (id : String) (history : History) (change : Update)

def isOverwrite (v : PyVal) : Bool := (getOverwrite v).isSome

section Thread
variable {V : Type}

/-- `isinstance(self.specs.get(c), DeltaChannel)` -/
def Program.isDelta (p : Program V) (chan : String) : Bool :=
  (p.specs.get? chan).any (·.asDelta.isSome)

def Program.deltaChannels (p : Program V) : List String := p.specs.keys.filter p.isDelta

/-- The channels that writes to a `DeltaChannel` overwrite. -/
def Program.overwritten (p : Program V) (writes : List (String × PyVal)) : List String :=
  (writes.filter fun w => p.isDelta w.1 && isOverwrite w.2).map Prod.fst

/-- The channels whose version a call changed. -/
def Loop.changed [DecidableEq V] (l l' : Loop V) : List String :=
  l'.checkpoint.channelVersions.keys.filter fun k =>
    decide (l.checkpoint.channelVersions.get? k ≠ l'.checkpoint.channelVersions.get? k)

namespace RunState

/-- The counters of the next superstep. -/
def countStep (r : RunState V) : DeltaCounters :=
  r.loop.channels.filterMap fun k ch =>
    if ch.asDelta.isSome then
      let count := r.counters.getD k (0, 0)
      some (if (r.updatedChannels.getD []).contains k then count.1 + 1 else count.1, count.2 + 1)
    else none

def channelsToSnapshot (bound : Nat) (r : RunState V) (counters : DeltaCounters) : List String :=
  deltaChannelsDue bound r.loop.channels counters ∪ r.deltaChannelsWithOverwrite

end RunState

/-- The counters that stay in the metadata. -/
def resetCounters (counters : DeltaCounters) (toSnapshot : List String) : DeltaCounters :=
  counters.filterMap fun k count =>
    if toSnapshot.contains k ∨ count = (0, 0) then none else some count

section Put
variable (bound : Nat) (p : Program V)

/-- `_put_checkpoint` when it does not save. -/
def RunState.advance (r : RunState V) (id : String) : RunState V :=
  { r with
    loop := { r.loop with
      checkpoint := sanitizeTasks r.loop.channels
        (createCheckpoint r.loop.checkpoint none id r.updatedChannels none []) }
    counters := resetCounters r.countStep []
    written := []
    steps := r.written :: r.steps }

/-- The checkpoint that is saved. -/
def RunState.newCheckpoint (r : RunState V) (id : String) (toSnapshot : List String) :
    Checkpoint V :=
  sanitizeTasks r.loop.channels (createCheckpoint r.loop.checkpoint (some r.loop.channels) id
    r.updatedChannels (some p.getNextVersion) toSnapshot)

/-- `_put_checkpoint`, once for each superstep. -/
def putCheckpoint (rows : List (ThreadRow V)) (r : RunState V) (id : String) : ThreadState V :=
  if r.durability = .exit then ⟨rows, some (r.advance id)⟩
  else
    let toSnapshot := r.channelsToSnapshot bound r.countStep
    let cp := r.newCheckpoint p id toSnapshot
    let counters := resetCounters r.countStep toSnapshot
    { rows := rows ++ [⟨⟨cp, r.loop.unread⟩, r.parent, counters, r.written :: r.steps, r.progress⟩]
      run := some { r with
        loop := { r.loop with checkpoint := cp }
        counters := counters
        deltaChannelsWithOverwrite :=
          r.deltaChannelsWithOverwrite.filter fun k => !toSnapshot.contains k
        parent := some rows.length
        written := []
        steps := [] } }

/-- The stub that `DeltaChannel` writes are anchored on when there is no parent. -/
def stubRow (id : String) : ThreadRow V := ⟨⟨emptyCheckpoint id, fun _ _ => false⟩, none, ∅, [], false⟩

/-- What `_put_exit_delta_writes` saves, and the parent of the checkpoint after it. -/
def RunState.putExitDeltaWrites (r : RunState V) (rows : List (ThreadRow V)) :
    List (ThreadRow V) × Option Nat :=
  let toSnapshot := r.channelsToSnapshot bound r.counters
  if (r.exitDeltaWrites.all fun k => toSnapshot.contains k) || r.hasPersistedParent then
    (rows, r.parent)
  else (rows ++ [stubRow r.checkpointIdSaved], some rows.length)

/-- The end of a run with durability `exit`. -/
def putExitCheckpoint (rows : List (ThreadRow V)) (r : RunState V) : List (ThreadRow V) :=
  let toSnapshot := r.channelsToSnapshot bound r.counters
  let (rows, parent) := r.putExitDeltaWrites bound rows
  -- a checkpoint that was loaded and not replaced is saved already
  if r.loop.checkpoint.id = r.checkpointIdSaved then rows
  else rows ++ [⟨⟨r.newCheckpoint p r.loop.checkpoint.id toSnapshot, r.loop.unread⟩, parent,
    resetCounters r.counters toSnapshot, r.steps, r.progress⟩]

end Put

section Step
variable [LinearOrder V]

/-- The run after a call of `apply_writes`. -/
def RunState.called (r : RunState V) (l : Loop V) : RunState V :=
  { r with
    loop := l
    written := r.written ∪ r.loop.changed l
    progress := r.progress || !(r.loop.changed l).isEmpty }

/-- The discarded tasks of an input, and the input. -/
def RunState.inputTasks [OrderBot V] (p : Program V) (r : RunState V) (info : StepInfo)
    (writes : List (String × PyVal)) : List TaskWrites :=
  taskWrites (r.loop.allTasks p info true) (fun _ => []) ++ [nullTask writes]

/-- What the tasks of a superstep write. -/
def RunState.superstepTasks [OrderBot V] (p : Program V) (r : RunState V) (info : StepInfo)
    (outputs : String → List (String × PyVal)) : List TaskWrites :=
  taskWrites (Loop.tasks p { r.loop with updatedChannels := r.updatedChannels } info true) outputs

/-- `after_tick` up to the return of `apply_writes`, with its result. -/
def RunState.afterTick (p : Program V) (r : RunState V) (tasks : List TaskWrites) :
    RunState V × Except PyErr Unit :=
  let r := { r with
    deltaChannelsWithOverwrite :=
      r.deltaChannelsWithOverwrite ∪ p.overwritten (tasks.flatMap TaskWrites.writes) }
  match applyWrites r.loop.checkpoint r.loop.channels tasks (some p.getNextVersion)
      p.triggerToNodes with
  | (s, .error e) => ({ r.called { r.loop with
      checkpoint := s.checkpoint, channels := s.channels } with phase := .failed }, .error e)
  | (s, .ok ()) => ({ r.called (r.loop.after tasks s) with
      updatedChannels := some s.updatedChannels }, .ok ())

/-- The delta writes that a run accumulates for its end. -/
def RunState.accumulate (p : Program V) (r : RunState V) (writes : List (String × PyVal)) :
    RunState V :=
  { r with
    exitDeltaWrites := if r.durability = .exit then
        r.exitDeltaWrites ++ (writes.map Prod.fst).filter p.isDelta
      else r.exitDeltaWrites }

/-- The run before the checkpoint of an input. -/
def RunState.afterInput [OrderBot V] (p : Program V) (r : RunState V) (info : StepInfo)
    (writes : List (String × PyVal)) : Option (RunState V) :=
  (r.loop.apply p (r.inputTasks p info writes)).map fun (l, us) =>
    { r.called { l with updatedChannels := some us } with
      deltaChannelsWithOverwrite := r.deltaChannelsWithOverwrite ∪ p.overwritten writes
      updatedChannels := some us
      phase := .mapped }.accumulate p writes

/-- The checkpoint that a source names, or an empty one. -/
def ThreadState.source (w : ThreadState V) (source : Option Nat) (id : String) :
    Option (ThreadRow V) :=
  match source with
  | some idx => w.rows[idx]?
  | none => some (stubRow id)

/-- The writes that `perform_superstep` applies as tasks. -/
def Update.writes : Update → List (String × PyVal)
  | .asNodes updates => updates.flatMap (·.2)
  | _ => []

/-- Where the checkpoint of `perform_superstep` goes: `DeltaChannel` writes of
    nodes need a parent, and a copy has the parent of its source. -/
def ThreadState.updateParent (p : Program V) (w : ThreadState V) (source : Option Nat) (id : String)
    (row : ThreadRow V) (change : Update) : List (ThreadRow V) × Option Nat :=
  match change with
  | .copy => (w.rows, row.parent)
  | _ =>
    if source = none ∧ (change.writes.any fun c => p.isDelta c.1) then
      (w.rows ++ [stubRow id], some w.rows.length)
    else (w.rows, source)

variable [OrderBot V]

/-- `perform_superstep`. The metadata it saves has no counters. -/
def performSuperstep (p : Program V) (w : ThreadState V) (source : Option Nat) (id : String)
    (history : History) (change : Update) : Option (ThreadState V) :=
  -- there is nothing to copy
  if source = none ∧ change.keepsChannels then none
  else (w.source source id).bind fun row =>
    (row.saved.load p history).bind fun l =>
      (l.unhinted.change p change).map fun l' =>
        let (rows, parent) := w.updateParent p source id row change
        let cp := createCheckpoint l'.checkpoint
          (if change.keepsChannels then none else some l'.channels) id none none []
        { w with
          rows := rows ++ [⟨⟨cp, l'.unread⟩, parent, ∅,
            if change.keepsChannels then row.steps else [l.changed l'],
            row.progress || !(l.changed l').isEmpty⟩] }

def enter (p : Program V) (w : ThreadState V) (source : Option Nat) (id : String)
    (history : History) (durability : Durability) : Option (ThreadState V) :=
  (w.source source id).bind fun row =>
    (row.saved.load p history).map fun l =>
      { w with run := some {
          loop := l, updatedChannels := none, durability := durability, phase := .first
          counters := row.counters, deltaChannelsWithOverwrite := [], exitDeltaWrites := []
          parent := source, checkpointIdSaved := l.checkpoint.id
          hasPersistedParent := source.isSome
          written := [], steps := [], progress := row.progress } }

/-- A step of a thread; a call that is not due has none. -/
def threadStep (bound : Nat) (p : Program V) (w : ThreadState V) : ThreadEvent →
    Option (ThreadState V)
  | .enter source id history durability => enter p w source id history durability
  | .update source id history change => performSuperstep p w source id history change
  | .nullWrites writes => w.run.bind fun r =>
      if r.phase = .first then
        (r.loop.apply p [nullTask writes]).map fun (l, us) =>
          { w with run := some (r.called
              { l with updatedChannels := r.loop.updatedChannels.map (· ∪ us) }) }
      else none
  | .resume fork => w.run.bind fun r =>
      if r.phase = .first ∧ r.loop.checkpoint.channelVersions.entries ≠ [] then
        let r := { r with loop := r.loop.seeInterrupts, phase := .mapped, progress := false }
        match fork with
        | none => some { w with run := some r }
        | some id => some (putCheckpoint bound p w.rows r id)
      else none
  | .input info writes id => w.run.bind fun r =>
      if r.phase = .first then
        (r.afterInput p info writes).map fun r => putCheckpoint bound p w.rows r id
      else none
  | .started => w.run.bind fun r =>
      if r.phase = .first ∨ r.phase = .mapped then
        some { w with run := some { r with
          updatedChannels := r.loop.updatedChannels, phase := .ticking } }
      else none
  | .superstep info outputs pushed pending id => w.run.bind fun r =>
      let tasks := r.superstepTasks p info outputs
      if r.phase = .ticking ∧ tasks ≠ [] then
        match r.afterTick p (tasks ++ pushed.map Pushed.toTaskWrites) with
        | (r, .error _) => some { w with run := some r }
        | (r, .ok ()) => some (putCheckpoint bound p w.rows (r.accumulate p pending) id)
      else none
  | .exit => w.run.bind fun r =>
      if r.phase = .ticking ∨ r.phase = .failed then
        some {
          rows := if r.durability = .exit then putExitCheckpoint bound p w.rows r else w.rows
          run := none }
      else none

end Step
end Thread
end LangGraph
