import LangGraph.DiscardedTasks
import LangGraph.NullResume
import Mathlib.Data.Fintype.EquivFin
import LangGraph.ExitWrites

/- What a new input leaves of the pending writes of an unfinished superstep.

   Correspondence (source ↔ Lean):
     the loop of an invocation, and the checkpoints
       of its thread                                 ↔ `NewRun`
     `__enter__`, and the filter of a replay         ↔ `enter`
     the input branch of `_first`                    ↔ `RunEvent.input`
     its `Command` branch, a value of a resume map   ↔ `RunEvent.command`, `.mapped`
     the tasks of a superstep                        ↔ `RunEvent.task`
     `after_tick`, `_put_checkpoint`                 ↔ `RunEvent.afterTick`, `putCheckpoint`
     `_suppress_interrupt` and the next invocation   ↔ `RunEvent.leave`
   A task that has finished, or has got its writes back, has the writes that the list holds
   for it. `applied`, `returned` and `given` are no data of the source: they remember the
   writes that supersteps have applied, the values that `interrupt()` has returned and those
   that the commands have given, all since the input.
   `newInput_discards_iff`: nothing of the old superstep reaches the new run, however it
   goes on, exactly when the null task has no resume value left in the list and the input
   checkpoint ends the ancestor walk for every `DeltaChannel` that an old task has written. -/
namespace LangGraph

structure NewRun (V : Type) where
  resumed : ResumedLoop V
  /-- The checkpoints that `put` has got; their writes are in the loop's saver. -/
  tuples : OrdDict String (CheckpointTuple V)
  /-- The `checkpoint_id` of `checkpoint_config`, and of `_initial_checkpoint_config`. -/
  configId : String
  initialId : String
  step : Int
  exitDeltaWrites : List (Int × PendingWrite)
  applied : List PendingWrite
  returned : List PyVal
  given : List PyVal

inductive RunEvent (V : Type) where
  /-- The writes of the input to `DeltaChannel`s, and the checkpoint of the input. -/
  | input (delta : List (String × PyVal)) (cp : CheckpointTuple V)
  | command (writes : List (String × PyVal))
  | mapped (taskId : String) (v : PyVal)
  | task (e : ResumeEvent)
  | afterTick (tasks : List String) (cp : CheckpointTuple V)
  /-- The end of the invocation, with the last checkpoint of durability "exit", and the
      start of the next one. -/
  | leave (cp : CheckpointTuple V) (taskPaths : String → String) (durability : Durability)

namespace NewRun
variable {V : Type}

def loop (s : NewRun V) : PendingLoop V := s.resumed.loop

def list (s : NewRun V) : List PendingWrite := s.loop.checkpointPendingWrites

def isDelta (s : NewRun V) (c : String) : Bool := (s.loop.specs.get? c).any (·.asDelta.isSome)

def withLoop (s : NewRun V) (l : PendingLoop V) : NewRun V :=
  { s with resumed := { s.resumed with loop := l } }

/-- The writes stored at a checkpoint. -/
def storedAt (s : NewRun V) (id : String) : List PendingWrite :=
  (s.loop.saver.writesAt id).values.map InMemorySaver.StoredWrite.toPending

/-- The loop of an invocation on a stored checkpoint; one that replays it without a resume
    value drops the stored answers. -/
def enter (s : NewRun V) (id : String) (durability : Durability) (replays : Bool) : NewRun V :=
  { s with
    resumed :=
      { loop :=
          { s.loop with
            checkpointId := id, durability := durability
            checkpointPendingWrites :=
              if replays then (s.storedAt id).filter fun w => w.channel ≠ Const.RESUME
              else s.storedAt id }
        retired := [], scratchpads := ∅, answers := [] }
    configId := id, initialId := id, exitDeltaWrites := [] }

/-- `_put_checkpoint` within an invocation. -/
def putCheckpoint (s : NewRun V) (cp : CheckpointTuple V) : NewRun V :=
  let moved := { s.withLoop { s.loop with checkpointId := cp.checkpoint.id } with step := s.step + 1 }
  if s.loop.durability = .exit then moved
  else
    { moved with
      tuples := s.tuples.set cp.checkpoint.id { cp with parentId := some s.configId }
      configId := cp.checkpoint.id }

/-- The entries of the accumulator for channels that get no value, by step and task. -/
def exitGroups (s : NewRun V) (cp : CheckpointTuple V) : OrdDict (Int × String) (List (String × PyVal)) :=
  (s.exitDeltaWrites.filter fun e => (cp.checkpoint.channelValues.get? e.2.channel).isNone).foldl
    (fun d e => d.set (e.1, e.2.taskId)
      (d.getD (e.1, e.2.taskId) [] ++ [(e.2.channel, e.2.value)])) ∅

/-- `_put_exit_delta_writes`, on a thread with a stored checkpoint. -/
def putExitDeltaWrites (s : NewRun V) (cp : CheckpointTuple V) : NewRun V :=
  s.withLoop
    { s.loop with
      saver := (s.exitGroups cp).entries.foldl (fun saver e =>
        saver.putWrites s.initialId e.2 (exitDeltaTaskId e.1.1 e.1.2) "") s.loop.saver }

/-- `_put_checkpoint(self.checkpoint_metadata)` -/
def putLastCheckpoint (s : NewRun V) (cp : CheckpointTuple V) : NewRun V :=
  if s.loop.checkpointId = s.initialId then s
  else
    { s with
      tuples := s.tuples.set s.loop.checkpointId
        { cp with
          checkpoint := { cp.checkpoint with id := s.loop.checkpointId }
          parentId := some s.configId }
      configId := s.loop.checkpointId }

/-- `_suppress_interrupt` -/
def exit (s : NewRun V) (cp : CheckpointTuple V) (taskPaths : String → String) : NewRun V :=
  if s.loop.durability = .exit then
    let s := (s.putExitDeltaWrites cp).putLastCheckpoint cp
    s.withLoop (s.loop.putPendingWrites taskPaths)
  else s

/-- The value that `interrupt()` returns in the task. -/
def answer (s : NewRun V) (taskId : String) : List PyVal :=
  match s.resumed.scratchpads.get? taskId with
  | none => []
  | some p =>
    match (s.resumed.interrupt taskId p).1 with
    | .own v | .global v => [v]
    | _ => []

/-- The input's writes to `DeltaChannel`s, which are no pending writes of a task. -/
def putInput (s : NewRun V) (delta : List (String × PyVal)) : NewRun V :=
  if s.loop.durability = .exit then
    { s with
      exitDeltaWrites := s.exitDeltaWrites ++
        delta.map fun w => (s.step, ⟨Const.NULL_TASK_ID, w.1, w.2⟩) }
  else { s with resumed := s.resumed.step (.putWrites Const.NULL_TASK_ID delta "") }

/-- `after_tick` up to the new checkpoint; the list is cleared in place. -/
def applyTasks (s : NewRun V) (tasks : List String) : NewRun V :=
  { s.withLoop { s.loop with checkpointPendingWrites := [] } with
    applied := s.applied ++ s.list.filter fun w => w.taskId ∈ tasks
    exitDeltaWrites :=
      if s.loop.durability = .exit then
        s.exitDeltaWrites ++ (s.list.filter fun w => s.isDelta w.channel).map (s.step, ·)
      else s.exitDeltaWrites }

def next (s : NewRun V) : RunEvent V → NewRun V
  | .input delta cp => (s.putInput delta).putCheckpoint cp
  | .command writes =>
    { s with
      resumed := s.resumed.step (.putWrites Const.NULL_TASK_ID writes "")
      given := s.given ++ valuesOf Const.RESUME writes }
  | .mapped t v =>
    match s.resumed.scratchpads.get? t with
    | none => s
    | some p =>
      { s with
        resumed := (s.resumed.appendResume t p v).setScratchpad t
          { p with resume := p.resume ++ [v] }
        given := s.given ++ [v] }
  | .task e =>
    { s with
      resumed := s.resumed.step e
      returned := match e with
        | .interrupt t => s.returned ++ s.answer t
        | _ => s.returned }
  | .afterTick tasks cp => (s.applyTasks tasks).putCheckpoint cp
  | .leave cp paths durability => (s.exit cp paths).enter (s.exit cp paths).configId durability false

def run (s : NewRun V) (events : List (RunEvent V)) : NewRun V := events.foldl next s

/-! ## What the new run rebuilds -/

def getTuple (s : NewRun V) (id : String) : Option (CheckpointTuple V) :=
  (s.tuples.get? id).map fun t => { t with pendingWrites := s.storedAt id }

/-- The writes that rebuild a `DeltaChannel` at a checkpoint: none where it has a value. -/
def rebuiltFrom (s : NewRun V) (id ch : String) : List PendingWrite :=
  match s.getTuple id with
  | none => []
  | some t =>
    if (t.checkpoint.channelValues.get? ch).isSome then []
    else ((defaultHistory s.getTuple (s.tuples.keys.length + 1) id [ch]).get? ch).elim []
      fun h => h.writes

end NewRun
/-! ## What the saver holds -/

namespace InMemorySaver
variable {V : Type} {P : String → String → String × PyVal → Prop} {s : InMemorySaver V}

/-- Every stored write is as `P` says of its checkpoint and its task. -/
def HoldsAt (P : String → String → String × PyVal → Prop) (s : InMemorySaver V) : Prop :=
  ∀ id, ∀ w ∈ (s.writesAt id).values, P id w.taskId (w.channel, w.value)

theorem HoldsAt.mono {Q : String → String → String × PyVal → Prop} (h : s.HoldsAt P)
    (hle : ∀ id t cv, P id t cv → Q id t cv) : s.HoldsAt Q :=
  fun id w hw => hle id w.taskId _ (h id w hw)

theorem writesAt_putWrites_of_ne {id id' : String} (h : id' ≠ id) (ws : List (String × PyVal))
    (t path : String) : (s.putWrites id ws t path).writesAt id' = s.writesAt id' := by
  rw [writesAt, putWrites, OrdDict.getD, OrdDict.get?_set_of_ne h]
  rfl

theorem HoldsAt.putWrites (h : s.HoldsAt P) {id t path : String} {ws : List (String × PyVal)}
    (hws : ∀ w ∈ ws, P id t w) : (s.putWrites id ws t path).HoldsAt P := by
  intro id' w hw
  by_cases hid : id' = id
  · subst hid
    rw [s.writesAt_putWrites id' ⟨t, ws, path⟩] at hw
    rcases OrdDict.mem_values_of_insertAll hw with hw | hw
    · exact h id' w hw
    · rw [List.map_map] at hw
      obtain ⟨e, he, rfl⟩ := List.mem_map.mp hw
      obtain ⟨ht, hcv, -⟩ := mem_keyedWrites he
      show P id' e.1.1 e.2
      rw [show e.1.1 = t from ht]
      exact hws e.2 hcv
  · rw [writesAt_putWrites_of_ne hid] at hw
    exact h id' w hw

end InMemorySaver

/-! ## What the new run keeps -/

namespace NewRun
variable {V : Type}

/-- A `RESUME` entry has values that the new run was given, or is worth nothing. -/
def Answers (Old : String → Prop) (given : List PyVal) (taskId : String) (w : String × PyVal) : Prop :=
  w.1 = Const.RESUME →
    (taskId = Const.NULL_TASK_ID → w.2 ∈ given ∨ w.2 = .none) ∧
    (taskId ≠ Const.NULL_TASK_ID → ¬Old taskId → ∃ values, w.2 = .list values ∧ values ⊆ given)

theorem Answers.mono {Old : String → Prop} {given given' : List PyVal} {t : String}
    {w : String × PyVal} (h : Answers Old given t w) (hle : given ⊆ given') :
    Answers Old given' t w := by
  intro hc
  obtain ⟨hnull, htask⟩ := h hc
  refine ⟨fun ht => (hnull ht).imp_left (@hle _), fun ht hold => ?_⟩
  obtain ⟨values, hv, hsub⟩ := htask ht hold
  exact ⟨values, hv, fun _ hx => hle (hsub hx)⟩

/-- The unfinished superstep: its tasks, the checkpoints up to it and the one it belongs to,
    and the `DeltaChannel`s that its tasks have written. -/
structure OldStep where
  Old : String → Prop
  before : List String
  checkpointId : String
  isDelta : String → Bool
  wrote : String → Prop

variable (o : OldStep)

/-- A stored write of the thread: after the old superstep the answers are new ones, and no
    old task has written a `DeltaChannel`. -/
def Stores (given : List PyVal) (id taskId : String) (w : String × PyVal) : Prop :=
  (id ∉ o.before → Answers o.Old given taskId w) ∧
    (o.Old taskId → o.isDelta w.1 = true → id ∈ o.before ∧ o.wrote w.1)

/-- What holds of the thread between the invocations. -/
structure Kept (s : NewRun V) : Prop where
  delta : ∀ c, s.isDelta c = o.isDelta c
  saved : s.loop.saver.HoldsAt (Stores o s.given)
  rows : ∀ id t, s.tuples.get? id = some t → id ∉ o.before → ∃ parent, t.parentId = some parent ∧
    (parent ∉ o.before ∨
      parent = o.checkpointId ∧ ∀ ch, o.wrote ch → (t.checkpoint.channelValues.get? ch).isSome)
  applied : ∀ w ∈ s.applied, ¬o.Old w.taskId
  returned : s.returned ⊆ s.given

/-- What holds of the loop of an invocation besides. -/
structure Running (s : NewRun V) : Prop extends Kept o s where
  listDelta : s.loop.durability = .exit → ∀ w ∈ s.list, o.Old w.taskId → o.isDelta w.channel = false
  atExit : s.loop.durability = .exit → s.configId = s.initialId
  atSync : s.loop.durability ≠ .exit → s.configId = s.loop.checkpointId
  pads : ∀ t p, s.resumed.scratchpads.get? t = some p → p.resume ⊆ s.given ∧
    ∀ i w, p.nullResume = some (i, w) → w.value ∈ s.given ∨ w.value = .none
  exitWrites : ∀ e ∈ s.exitDeltaWrites, ¬o.Old e.2.taskId ∧ o.isDelta e.2.channel = true

/-- The new run when nothing of the old superstep is left in it. -/
structure Clean (s : NewRun V) : Prop extends Running o s where
  list : ∀ w ∈ s.list, Answers o.Old s.given w.taskId (w.channel, w.value)
  id : s.loop.checkpointId ∉ o.before
  config : s.configId ∉ o.before ∨ s.configId = o.checkpointId ∧ ∀ ch, ¬o.wrote ch

/-- What the new run does: its tasks and checkpoints are new ones, the synthetic ids too, and
    the answers that a task puts are those of its scratchpad. -/
def Continues (s : NewRun V) : RunEvent V → Prop
  | .input delta cp => (∀ w ∈ delta, o.isDelta w.1 = true) ∧ cp.checkpoint.id ∉ o.before
  | .command _ => True
  | .mapped t _ => t ≠ Const.NULL_TASK_ID ∧ ¬o.Old t
  | .task e =>
    (∀ t ∈ e.taskId, t ≠ Const.NULL_TASK_ID ∧ ¬o.Old t) ∧
      match e with
      | .prepareNested _ _ resume => resume ⊆ s.given
      | .putWrites t writes _ => ∀ w ∈ writes, w.1 = Const.RESUME →
          ∃ p, s.resumed.scratchpads.get? t = some p ∧ w.2 = .list p.resume
      | .restart _ => False
      | _ => True
  | .afterTick tasks cp => (∀ t ∈ tasks, ¬o.Old t) ∧ cp.checkpoint.id ∉ o.before
  | .leave _ _ _ => ∀ e ∈ s.exitDeltaWrites, ¬o.Old (exitDeltaTaskId e.1 e.2.taskId)

/-- The null task is no task of the superstep, and `RESUME` is no `DeltaChannel`. -/
structure OldStep.Sound : Prop where
  null : ¬o.Old Const.NULL_TASK_ID
  resume : o.isDelta Const.RESUME = false

section Steps
variable {o} {s : NewRun V}

theorem stores_of_new {given : List PyVal} {id t : String} {w : String × PyVal}
    (hold : ¬o.Old t) (h : Answers o.Old given t w) : Stores o given id t w :=
  ⟨fun _ => h, fun ht => absurd ht hold⟩

/-- A write is saved as it is, but for the sends. -/
theorem eq_of_saveable {l : PendingLoop V} {w w' : String × PyVal} (h : l.saveable w = some w')
    (hw : w.1 ≠ Const.TASKS) : w' = w := by
  unfold PendingLoop.saveable at h
  split at h
  · split at h
    · cases h
    · exact (Option.some.inj h).symm
  · exact (Option.some.inj h).symm

theorem Answers.saveable {Old : String → Prop} {given : List PyVal} {l : PendingLoop V} {t : String}
    {w w' : String × PyVal} (h : Answers Old given t w) (hs : l.saveable w = some w') :
    Answers Old given t w' := by
  intro hc
  have hchan : w.1 = Const.RESUME := by
    rw [← PendingLoop.channel_of_saveable hs]
    exact hc
  have htasks : w.1 ≠ Const.TASKS := by
    rw [hchan]
    decide
  rw [eq_of_saveable hs htasks]
  exact h hchan

/-- The writes that a call saves come from the call, or from what it leaves in the list. -/
theorem mem_writesToSave {l : PendingLoop V} {t : String} {ws : List (String × PyVal)}
    {w' : String × PyVal} (h : w' ∈ l.writesToSave t (dedupSpecial ws)) :
    ∃ w, l.saveable w = some w' ∧ (w ∈ ws ∨ ⟨t, w.1, w.2⟩ ∈ l.remaining t) := by
  obtain ⟨w, hw, hs⟩ := List.mem_filterMap.mp h
  refine ⟨w, hs, ?_⟩
  unfold PendingLoop.merged at hw
  split at hw
  · rcases List.mem_append.mp hw with hw | hw
    · obtain ⟨w₀, hw₀, rfl⟩ := List.mem_map.mp hw
      obtain ⟨hw₀, htask⟩ := List.mem_filter.mp hw₀
      have htask : w₀.taskId = t := of_decide_eq_true htask
      refine Or.inr ?_
      rw [← htask] at hw₀ ⊢
      exact hw₀
    · exact Or.inl (PendingLoop.mem_of_mem_dedupSpecial hw)
  · exact Or.inl (PendingLoop.mem_of_mem_dedupSpecial hw)

theorem mem_of_mem_remaining {l : PendingLoop V} {t : String} {w : PendingWrite}
    (h : w ∈ l.remaining t) : w ∈ l.checkpointPendingWrites := by
  unfold PendingLoop.remaining at h
  split at h <;> exact List.mem_of_mem_filter h

/-- A call of a new task, or of the null task, with new answers. -/
theorem Running.putWrites (h : s.Running o) {t : String} {ws : List (String × PyVal)}
    {path : String} (hold : ¬o.Old t) (hnil : ws ≠ [])
    (hlist : ∀ w ∈ s.loop.remaining t, Answers o.Old s.given w.taskId (w.channel, w.value))
    (hws : ∀ w ∈ ws, Answers o.Old s.given t w) :
    Running o { s with resumed := s.resumed.step (.putWrites t ws path) } ∧
      ∀ w ∈ (s.resumed.step (.putWrites t ws path)).loop.checkpointPendingWrites,
        Answers o.Old s.given w.taskId (w.channel, w.value) := by
  have hstep : s.resumed.step (.putWrites t ws path) =
      { s.resumed with loop := s.loop.putWrites t ws path, retired := s.resumed.lists } := by
    rw [ResumedLoop.step, if_neg (by simpa using hnil)]
    rfl
  have hput := s.loop.putWrites_of_ne_nil t ws path hnil
  have hmem : ∀ w ∈ (s.loop.putWrites t ws path).checkpointPendingWrites,
      w ∈ s.loop.remaining t ∨ w.taskId = t ∧ (w.channel, w.value) ∈ ws := by
    rw [hput]
    intro w hw
    rcases List.mem_append.mp hw with hw | hw
    · exact Or.inl hw
    · right
      obtain ⟨cv, hcv, rfl⟩ := List.mem_map.mp hw
      exact ⟨rfl, PendingLoop.mem_of_mem_dedupSpecial hcv⟩
  have hsame : (s.loop.putWrites t ws path).specs = s.loop.specs ∧
      (s.loop.putWrites t ws path).checkpointId = s.loop.checkpointId ∧
      (s.loop.putWrites t ws path).durability = s.loop.durability := by
    rw [hput]
    exact ⟨rfl, rfl, rfl⟩
  have hsaved : (s.loop.putWrites t ws path).saver.HoldsAt (Stores o s.given) := by
    rw [hput]
    split
    · exact h.saved
    · refine h.saved.putWrites fun w' hw' => stores_of_new hold ?_
      obtain ⟨w, hs, hw | hw⟩ := mem_writesToSave hw'
      · exact (hws w hw).saveable hs
      · exact (hlist _ hw).saveable hs
  rw [hstep]
  refine ⟨⟨⟨?_, hsaved, h.rows, h.applied, h.returned⟩, ?_, ?_, ?_, h.pads, h.exitWrites⟩, ?_⟩
  · intro c
    show ((s.loop.putWrites t ws path).specs.get? c).any _ = _
    rw [hsame.1]
    exact h.delta c
  · intro hd w hw ht
    rcases hmem w hw with hw | ⟨he, -⟩
    · exact h.listDelta (hsame.2.2 ▸ hd) w (mem_of_mem_remaining hw) ht
    · rw [he] at ht
      exact absurd ht hold
  · exact fun hd => h.atExit (hsame.2.2 ▸ hd)
  · intro hd
    show s.configId = (s.loop.putWrites t ws path).checkpointId
    rw [hsame.2.1]
    exact h.atSync (hsame.2.2 ▸ hd)
  · intro w hw
    rcases hmem w hw with hw | ⟨ht, hw⟩
    · exact hlist w hw
    · rw [ht]
      exact hws _ hw

theorem Clean.putWrites (h : s.Clean o) {t : String} {ws : List (String × PyVal)}
    {path : String} (hold : ¬o.Old t) (hws : ∀ w ∈ ws, Answers o.Old s.given t w) :
    Clean o { s with resumed := s.resumed.step (.putWrites t ws path) } := by
  by_cases hnil : ws = []
  · have hsame : s.resumed.step (.putWrites t ws path) = s.resumed := by
      rw [hnil]
      rfl
    rw [hsame]
    exact h
  obtain ⟨hrun, hlist⟩ := Running.putWrites h.toRunning hold hnil
    (fun w hw => h.list w (mem_of_mem_remaining hw)) hws
  refine ⟨hrun, hlist, ?_, h.config⟩
  have hid : (s.resumed.step (.putWrites t ws path)).loop.checkpointId = s.loop.checkpointId := by
    rw [ResumedLoop.step, if_neg (by simpa using hnil)]
    show (s.loop.putWrites t ws path).checkpointId = _
    rw [s.loop.putWrites_of_ne_nil t ws path hnil]
  show (s.resumed.step (.putWrites t ws path)).loop.checkpointId ∉ o.before
  rw [hid]
  exact h.id

/-- A new checkpoint; the one that follows the old superstep ends the ancestor walk. -/
theorem Running.putCheckpoint (h : s.Running o) {cp : CheckpointTuple V}
    (hlist : ∀ w ∈ s.list, Answers o.Old s.given w.taskId (w.channel, w.value))
    (hid : cp.checkpoint.id ∉ o.before)
    (hconfig : s.configId ∉ o.before ∨ s.configId = o.checkpointId ∧ ∀ ch, o.wrote ch →
      s.loop.durability ≠ .exit ∧ (cp.checkpoint.channelValues.get? ch).isSome) :
    (s.putCheckpoint cp).Clean o := by
  unfold NewRun.putCheckpoint
  split
  · rename_i hd
    refine ⟨{ h with atSync := fun hne => absurd hd hne }, hlist, hid, ?_⟩
    exact hconfig.imp_right fun hc => ⟨hc.1, fun ch hw => (hc.2 ch hw).1 hd⟩
  · rename_i hd
    refine ⟨{ h with
      atExit := fun he => absurd he hd
      atSync := fun _ => rfl
      rows := ?_ }, hlist, hid, Or.inl hid⟩
    intro id t ht hnew
    rw [OrdDict.get?_set] at ht
    split at ht
    · cases ht
      exact ⟨s.configId, rfl, hconfig.imp_right fun hc => ⟨hc.1, fun ch hw => (hc.2 ch hw).2⟩⟩
    · exact h.rows id t ht hnew

theorem Clean.putCheckpoint (h : s.Clean o) {cp : CheckpointTuple V}
    (hid : cp.checkpoint.id ∉ o.before) : (s.putCheckpoint cp).Clean o :=
  h.toRunning.putCheckpoint h.list hid
    (h.config.imp_right fun hc => ⟨hc.1, fun ch hw => absurd hw (hc.2 ch)⟩)

/-- More values are given. -/
theorem Clean.give (h : s.Clean o) (values : List PyVal) :
    Clean o { s with given := s.given ++ values } := by
  have hsub : s.given ⊆ s.given ++ values := fun _ hv => List.mem_append_left _ hv
  exact { h with
    list := fun w hw => (h.list w hw).mono hsub
    saved := h.saved.mono fun id t cv hst => ⟨fun hid => (hst.1 hid).mono hsub, hst.2⟩
    pads := fun t p hp => ⟨fun _ hv => hsub ((h.pads t p hp).1 hv),
      fun i w hn => ((h.pads t p hp).2 i w hn).imp_left (@hsub _)⟩
    returned := fun _ hv => hsub (h.returned hv) }

theorem mem_valuesOf {c : String} {ws : List (String × PyVal)} {w : String × PyVal} (hw : w ∈ ws)
    (hc : w.1 = c) : w.2 ∈ valuesOf c ws :=
  List.mem_map_of_mem (List.mem_filter.mpr ⟨hw, decide_eq_true hc⟩)

theorem Clean.command (ho : o.Sound) (h : s.Clean o) (writes : List (String × PyVal)) :
    (s.next (.command writes)).Clean o := by
  refine (h.give (valuesOf Const.RESUME writes)).putWrites ho.null ?_
  intro w hw hc
  exact ⟨fun _ => Or.inl (List.mem_append_right _ (mem_valuesOf hw hc)), fun hne => absurd rfl hne⟩

/-- A task gets a scratchpad whose answers are new ones. -/
theorem Clean.setScratchpad (h : s.Clean o) {t : String} {p : Scratchpad}
    (hresume : p.resume ⊆ s.given)
    (hnull : ∀ i w, p.nullResume = some (i, w) → w.value ∈ s.given ∨ w.value = .none) :
    Clean o { s with resumed := s.resumed.setScratchpad t p } :=
  { h with
    pads := by
      intro t' p' hp'
      rw [ResumedLoop.setScratchpad, OrdDict.get?_set] at hp'
      split at hp'
      · cases hp'
        exact ⟨hresume, hnull⟩
      · exact h.pads t' p' hp' }

/-- The list changes in place, in the answers of new tasks. -/
theorem Clean.mapList (h : s.Clean o) {r : ResumedLoop V} {ws : List PendingWrite}
    (hloop : r.loop = { s.loop with checkpointPendingWrites := ws })
    (hpads : r.scratchpads = s.resumed.scratchpads)
    (hws : ∀ w ∈ ws, w ∈ s.list ∨ ¬o.Old w.taskId ∧
      Answers o.Old s.given w.taskId (w.channel, w.value)) :
    Clean o { s with resumed := r } where
  delta c := by
    rw [← h.delta c]
    show (r.loop.specs.get? c).any _ = _
    rw [hloop]
    rfl
  list w hw := by
    have hw' : w ∈ ws := by
      rw [show ws = r.loop.checkpointPendingWrites by rw [hloop]]
      exact hw
    exact (hws w hw').elim (h.list w) And.right
  listDelta hd w hw ht := by
    have hd' : s.loop.durability = .exit := by
      rw [show s.loop.durability = r.loop.durability by rw [hloop]]
      exact hd
    have hw' : w ∈ ws := by
      rw [show ws = r.loop.checkpointPendingWrites by rw [hloop]]
      exact hw
    exact (hws w hw').elim (fun hin => h.listDelta hd' w hin ht) fun hnew => absurd ht hnew.1
  saved := by
    show r.loop.saver.HoldsAt _
    rw [hloop]
    exact h.saved
  id := by
    show r.loop.checkpointId ∉ _
    rw [hloop]
    exact h.id
  config := h.config
  atExit hd := h.atExit (by rw [show s.loop.durability = r.loop.durability by rw [hloop]]; exact hd)
  atSync hd := by
    show s.configId = r.loop.checkpointId
    rw [hloop]
    exact h.atSync (by rw [show s.loop.durability = r.loop.durability by rw [hloop]]; exact hd)
  rows := h.rows
  pads := by
    show ∀ t p, r.scratchpads.get? t = some p → _
    rw [hpads]
    exact h.pads
  exitWrites := h.exitWrites
  applied := h.applied
  returned := h.returned

/-- An answer is appended to the entry of a new task. -/
theorem Clean.appendResume (h : s.Clean o) {t : String} (hnew : t ≠ Const.NULL_TASK_ID ∧ ¬o.Old t)
    {p : Scratchpad} {v : PyVal} (hresume : p.resume ⊆ s.given) (hv : v ∈ s.given) :
    Clean o { s with resumed := s.resumed.appendResume t p v } := by
  refine h.mapList (r := s.resumed.appendResume t p v) rfl rfl ?_
  intro w hw
  obtain ⟨w₀, hw₀, rfl⟩ := List.mem_map.mp hw
  split
  · rename_i hentry
    refine Or.inr ⟨hentry.1 ▸ hnew.2, fun _ => ⟨fun ht => absurd (hentry.1 ▸ ht) hnew.1, ?_⟩⟩
    refine fun _ _ => ⟨_, rfl, fun x hx => ?_⟩
    rcases List.mem_append.mp hx with hx | hx
    · exact hresume hx
    · rw [List.mem_singleton.mp hx]
      exact hv
  · exact Or.inl hw₀

theorem Clean.mapped (h : s.Clean o) {t : String} (hnew : t ≠ Const.NULL_TASK_ID ∧ ¬o.Old t)
    (v : PyVal) : (s.next (.mapped t v)).Clean o := by
  cases hp : s.resumed.scratchpads.get? t with
  | none =>
    have hsame : s.next (.mapped t v) = s := by
      rw [next, hp]
    rw [hsame]
    exact h
  | some p =>
    have hnext : s.next (.mapped t v) =
        { s with
          resumed := (s.resumed.appendResume t p v).setScratchpad t
            { p with resume := p.resume ++ [v] }
          given := s.given ++ [v] } := by
      rw [next, hp]
    rw [hnext]
    have hgive := h.give [v]
    obtain ⟨hresume, hnull⟩ := hgive.pads t p hp
    have hv : v ∈ s.given ++ [v] := List.mem_append_right _ (List.mem_singleton_self v)
    refine (hgive.appendResume hnew hresume hv).setScratchpad ?_ hnull
    intro x hx
    rcases List.mem_append.mp hx with hx | hx
    · exact hresume hx
    · rw [List.mem_singleton.mp hx]
      exact hv

theorem Clean.prepare (h : s.Clean o) {t : String} (hnew : t ≠ Const.NULL_TASK_ID ∧ ¬o.Old t)
    (parent : Option String) : (s.next (.task (.prepare t parent))).Clean o := by
  refine h.setScratchpad ?_ ?_
  · -- the answers stored for the task
    have hanswers : ∀ w ∈ s.list, w.taskId = t → w.channel = Const.RESUME →
        ∃ values, w.value = .list values ∧ values ⊆ s.given := by
      intro w hw ht hc
      refine (h.list w hw hc).2 ?_ ?_
      · rw [ht]
        exact hnew.1
      · rw [ht]
        exact hnew.2
    intro v hv
    unfold scratchpad at hv
    simp only at hv
    split at hv
    · rename_i tid c values hfind
      have hmem := List.mem_of_find?_eq_some hfind
      have hfound := List.find?_some hfind
      have hentry := of_decide_eq_true hfound
      obtain ⟨values', hval, hsub⟩ := hanswers _ hmem hentry.1 hentry.2
      cases hval
      exact hsub hv
    · rename_i w hne hfind
      have hmem := List.mem_of_find?_eq_some hfind
      have hfound := List.find?_some hfind
      have hentry := of_decide_eq_true hfound
      obtain ⟨values', hval, -⟩ := hanswers _ hmem hentry.1 hentry.2
      have hw : w = ⟨w.taskId, w.channel, .list values'⟩ := by
        rw [← hval]
      exact absurd hw (hne w.taskId w.channel values')
    · exact absurd hv List.not_mem_nil
  · intro i w hn
    unfold scratchpad at hn
    simp only at hn
    rcases Option.or_eq_some_iff.mp hn with hn | ⟨-, hn⟩
    · obtain ⟨w', hfind, he⟩ := Option.map_eq_some_iff.mp hn
      cases he
      obtain ⟨hnull, hmem⟩ := find?_isNullResume hfind
      obtain ⟨htask, hc⟩ := isNullResume_iff.mp hnull
      exact (h.list w hmem hc).1 htask
    · obtain ⟨p, hp, hn⟩ := Option.bind_eq_some_iff.mp hn
      obtain ⟨t', -, hp⟩ := Option.bind_eq_some_iff.mp hp
      exact (h.pads t' p hp).2 i w hn

theorem Clean.prepareNested (h : s.Clean o) {t parent : String} {resume : List PyVal}
    (hresume : resume ⊆ s.given) : (s.next (.task (.prepareNested t parent resume))).Clean o := by
  refine h.setScratchpad hresume ?_
  intro i w hn
  obtain ⟨p, hp, hn⟩ := Option.bind_eq_some_iff.mp hn
  exact (h.pads parent p hp).2 i w hn

/-- `get_null_resume` takes the null resume of the scratchpad out of the list, if at all. -/
theorem getNullResume_effect (r : ResumedLoop V) (p : Scratchpad) :
    (∃ ws ⊆ r.loop.checkpointPendingWrites,
      (r.getNullResume p).2.loop = { r.loop with checkpointPendingWrites := ws }) ∧
    (r.getNullResume p).2.scratchpads = r.scratchpads ∧
    ((r.getNullResume p).1 = .none ∨
      ∃ i w, p.nullResume = some (i, w) ∧ (r.getNullResume p).1 = w.value) := by
  unfold ResumedLoop.getNullResume
  split
  · exact ⟨⟨_, List.Subset.refl _, rfl⟩, rfl, Or.inl rfl⟩
  · rename_i i w hn
    split
    · refine ⟨⟨_, ?_, rfl⟩, rfl, Or.inr ⟨i, w, hn, rfl⟩⟩
      show (if r.retired.length = i then r.loop.checkpointPendingWrites.erase w
        else r.loop.checkpointPendingWrites) ⊆ _
      split
      · exact List.erase_subset
      · exact List.Subset.refl _
    · exact ⟨⟨_, List.Subset.refl _, rfl⟩, rfl, Or.inl rfl⟩

theorem Clean.getNullResume (h : s.Clean o) (p : Scratchpad) :
    Clean o { s with resumed := (s.resumed.getNullResume p).2 } := by
  obtain ⟨⟨ws, hws, hloop⟩, hpads, -⟩ := getNullResume_effect s.resumed p
  exact h.mapList hloop hpads fun w hw => Or.inl (hws hw)

/-- `interrupt()` returns values that the new run was given. -/
theorem Clean.returns {r : ResumedLoop V} (h : Clean o { s with resumed := r }) {vs : List PyVal}
    (hvs : vs ⊆ s.given) (answers : List (Nat × PyVal)) :
    Clean o { s with resumed := { r with answers := answers }, returned := s.returned ++ vs } :=
  { h with
    returned := fun _ hv => (List.mem_append.mp hv).elim (@h.returned _) (@hvs _) }

theorem Clean.interrupt (h : s.Clean o) {t : String} (hnew : t ≠ Const.NULL_TASK_ID ∧ ¬o.Old t) :
    (s.next (.task (.interrupt t))).Clean o := by
  cases hp : s.resumed.scratchpads.get? t with
  | none =>
    have hsame : s.next (.task (.interrupt t)) = s := by
      simp only [next, ResumedLoop.step, answer, hp, List.append_nil]
    rw [hsame]
    exact h
  | some p =>
    have hnext : s.next (.task (.interrupt t)) =
        { s with
          resumed :=
            { (s.resumed.interrupt t p).2 with
              answers := ResumedLoop.logged p s.resumed.answers (s.resumed.interrupt t p).1 }
          returned := s.returned ++ s.answer t } := by
      simp only [next, ResumedLoop.step, hp]
    have hanswer : s.answer t = match (s.resumed.interrupt t p).1 with
        | .own v | .global v => [v]
        | _ => [] := by
      rw [answer, hp]
    obtain ⟨hresume, hnull⟩ := h.pads t p hp
    have hreset := h.getNullResume p
    obtain ⟨-, -, hvalue⟩ := getNullResume_effect s.resumed p
    rw [hnext]
    suffices Clean o { s with resumed := (s.resumed.interrupt t p).2 } ∧ s.answer t ⊆ s.given from
      this.1.returns this.2 _
    rw [hanswer]
    unfold ResumedLoop.interrupt
    split
    · -- an answer that the task has
      rename_i v hget
      refine ⟨h.setScratchpad hresume hnull, fun x hx => ?_⟩
      rw [List.mem_singleton.mp hx]
      exact hresume (List.mem_of_getElem? hget)
    · simp only
      split
      · exact ⟨hreset.setScratchpad hresume hnull, List.nil_subset _⟩
      · rename_i hne
        split
        · -- the null resume
          have hv : (s.resumed.getNullResume p).1 ∈ s.given := by
            rcases hvalue with hv | ⟨i, w, hn, hv⟩
            · exact absurd hv hne
            · rw [hv] at hne ⊢
              exact (hnull i w hn).resolve_right hne
          have hone : [(s.resumed.getNullResume p).1] ⊆ s.given := by
            intro x hx
            rw [List.mem_singleton.mp hx]
            exact hv
          refine ⟨(hreset.appendResume hnew hresume hv).setScratchpad ?_ hnull, hone⟩
          intro x hx
          exact (List.mem_append.mp hx).elim (@hresume _) (@hone _)
        · exact ⟨hreset.setScratchpad hresume hnull, List.nil_subset _⟩

theorem Clean.task (h : s.Clean o) {e : ResumeEvent} (hc : Continues o s (.task e)) :
    (s.next (.task e)).Clean o := by
  obtain ⟨hnew, hc⟩ := hc
  cases e with
  | prepare t parent => exact h.prepare (hnew t rfl) parent
  | prepareNested t parent resume => exact h.prepareNested hc
  | interrupt t => exact h.interrupt (hnew t rfl)
  | putWrites t writes path =>
    refine h.putWrites (hnew t rfl).2 fun w hw hchan => ⟨fun ht => absurd ht (hnew t rfl).1, ?_⟩
    intro _ _
    obtain ⟨p, hp, hval⟩ := hc w hw hchan
    exact ⟨p.resume, hval, (h.pads t p hp).1⟩
  | restart paths => exact hc.elim

theorem Clean.applyTasks (h : s.Clean o) {tasks : List String} (hnew : ∀ t ∈ tasks, ¬o.Old t) :
    (s.applyTasks tasks).Clean o :=
  { h with
    list := fun w hw => absurd hw List.not_mem_nil
    listDelta := fun _ w hw => absurd hw List.not_mem_nil
    exitWrites := by
      intro e he
      unfold NewRun.applyTasks at he
      simp only at he
      split at he
      · rename_i hd
        rcases List.mem_append.mp he with he | he
        · exact h.exitWrites e he
        · obtain ⟨w, hw, rfl⟩ := List.mem_map.mp he
          obtain ⟨hw, hdelta⟩ := List.mem_filter.mp hw
          rw [h.delta] at hdelta
          refine ⟨fun hold => ?_, hdelta⟩
          rw [h.listDelta hd w hw hold] at hdelta
          exact Bool.false_ne_true hdelta
      · exact h.exitWrites e he
    applied := by
      intro w hw
      rcases List.mem_append.mp hw with hw | hw
      · exact h.applied w hw
      · exact hnew _ (of_decide_eq_true (List.mem_filter.mp hw).2) }

theorem putInput_same (delta : List (String × PyVal)) :
    (s.putInput delta).configId = s.configId ∧ (s.putInput delta).given = s.given ∧
      (s.putInput delta).loop.durability = s.loop.durability := by
  unfold NewRun.putInput
  split
  · exact ⟨rfl, rfl, rfl⟩
  · refine ⟨rfl, rfl, ?_⟩
    by_cases hnil : delta = []
    · rw [hnil]
      rfl
    · show (s.resumed.step (.putWrites Const.NULL_TASK_ID delta "")).loop.durability = _
      rw [ResumedLoop.step, if_neg (by simpa using hnil)]
      show (s.loop.putWrites Const.NULL_TASK_ID delta "").durability = _
      rw [s.loop.putWrites_of_ne_nil _ delta "" hnil]

/-- The input keeps the answers of the list, unless it has the null task write. -/
theorem Running.putInput (ho : o.Sound) (h : s.Running o) {delta : List (String × PyVal)}
    (hdelta : ∀ w ∈ delta, o.isDelta w.1 = true)
    (hlist : (∀ w ∈ s.list, Answers o.Old s.given w.taskId (w.channel, w.value)) ∨
      (s.loop.durability ≠ .exit ∧ delta ≠ []) ∧ ∀ w ∈ s.loop.remaining Const.NULL_TASK_ID,
        Answers o.Old s.given w.taskId (w.channel, w.value)) :
    (s.putInput delta).Running o ∧ ∀ w ∈ (s.putInput delta).list,
      Answers o.Old s.given w.taskId (w.channel, w.value) := by
  have hanswers : ∀ w ∈ delta, Answers o.Old s.given Const.NULL_TASK_ID w := by
    intro w hw hc
    have htrue := hdelta w hw
    rw [hc, ho.resume] at htrue
    exact absurd htrue Bool.false_ne_true
  unfold NewRun.putInput
  split
  · rename_i hd
    refine ⟨{ h with exitWrites := ?_ }, hlist.resolve_right fun hc => hc.1.1 hd⟩
    intro e he
    rcases List.mem_append.mp he with he | he
    · exact h.exitWrites e he
    · obtain ⟨w, hw, rfl⟩ := List.mem_map.mp he
      exact ⟨ho.null, hdelta w hw⟩
  · by_cases hnil : delta = []
    · rw [hnil]
      exact ⟨h, hlist.resolve_right fun hc => hc.1.2 hnil⟩
    · refine h.putWrites ho.null hnil ?_ hanswers
      exact hlist.elim (fun hl w hw => hl w (mem_of_mem_remaining hw)) And.right

theorem Running.input (ho : o.Sound) (h : s.Running o) {delta : List (String × PyVal)}
    {cp : CheckpointTuple V} (hdelta : ∀ w ∈ delta, o.isDelta w.1 = true)
    (hlist : (∀ w ∈ s.list, Answers o.Old s.given w.taskId (w.channel, w.value)) ∨
      (s.loop.durability ≠ .exit ∧ delta ≠ []) ∧ ∀ w ∈ s.loop.remaining Const.NULL_TASK_ID,
        Answers o.Old s.given w.taskId (w.channel, w.value))
    (hid : cp.checkpoint.id ∉ o.before)
    (hconfig : s.configId ∉ o.before ∨ s.configId = o.checkpointId ∧ ∀ ch, o.wrote ch →
      s.loop.durability ≠ .exit ∧ (cp.checkpoint.channelValues.get? ch).isSome) :
    (s.next (.input delta cp)).Clean o := by
  obtain ⟨hrun, hkept⟩ := h.putInput ho hdelta hlist
  obtain ⟨hcid, hgiven, hd⟩ := putInput_same (s := s) delta
  refine hrun.putCheckpoint ?_ hid ?_
  · rw [hgiven]
    exact hkept
  · rw [hcid, hd]
    exact hconfig

theorem Clean.input (ho : o.Sound) (h : s.Clean o) {delta : List (String × PyVal)}
    {cp : CheckpointTuple V} (hdelta : ∀ w ∈ delta, o.isDelta w.1 = true)
    (hid : cp.checkpoint.id ∉ o.before) : (s.next (.input delta cp)).Clean o :=
  h.toRunning.input ho hdelta (Or.inl h.list) hid
    (h.config.imp_right fun hc => ⟨hc.1, fun ch hw => absurd hw (hc.2 ch)⟩)

/-! ## The end of an invocation -/

/-- The accumulated writes by step and task are writes to `DeltaChannel`s. -/
theorem Clean.exitGroups (h : s.Clean o) (cp : CheckpointTuple V) :
    ∀ e ∈ (s.exitGroups cp).entries, (∃ e' ∈ s.exitDeltaWrites, e.1 = (e'.1, e'.2.taskId)) ∧
      ∀ w ∈ e.2, o.isDelta w.1 = true := by
  unfold NewRun.exitGroups
  refine List.foldlRecOn
    (motive := fun d : OrdDict (Int × String) (List (String × PyVal)) => ∀ e ∈ d.entries,
      (∃ e' ∈ s.exitDeltaWrites, e.1 = (e'.1, e'.2.taskId)) ∧ ∀ w ∈ e.2, o.isDelta w.1 = true)
    _ _ ?_ ?_
  · exact fun e he => absurd he List.not_mem_nil
  · intro d hd e he k hk
    have he := List.mem_of_mem_filter he
    have hdelta := (h.exitWrites e he).2
    have hget : ∀ w ∈ d.getD (e.1, e.2.taskId) [], o.isDelta w.1 = true := by
      intro w hw
      cases hsome : d.get? (e.1, e.2.taskId) with
      | none =>
        rw [OrdDict.getD, hsome] at hw
        exact absurd hw List.not_mem_nil
      | some ws =>
        rw [OrdDict.getD, hsome] at hw
        exact (hd _ (OrdDict.get?_eq_some_iff.mp hsome)).2 w hw
    have hk' := OrdDict.get?_eq_some_iff.mpr hk
    rw [OrdDict.get?_set] at hk'
    split at hk'
    · rename_i hkey
      rw [← Option.some.inj hk', hkey]
      refine ⟨⟨e, he, rfl⟩, fun w hw => ?_⟩
      rcases List.mem_append.mp hw with hw | hw
      · exact hget w hw
      · rw [List.mem_singleton.mp hw]
        exact hdelta
    · exact hd k (OrdDict.get?_eq_some_iff.mp hk')

theorem Clean.putExitDeltaWrites (ho : o.Sound) (h : s.Clean o) (cp : CheckpointTuple V)
    (hnew : ∀ e ∈ s.exitDeltaWrites, ¬o.Old (exitDeltaTaskId e.1 e.2.taskId)) :
    (s.putExitDeltaWrites cp).Clean o :=
  { h with
    saved := by
      refine List.foldlRecOn _ _ h.saved ?_
      intro saver hsaver e he
      obtain ⟨⟨e', he', hkey⟩, hdelta⟩ := h.exitGroups cp e he
      have hold : ¬o.Old (exitDeltaTaskId e.1.1 e.1.2) := by
        rw [hkey]
        exact hnew e' he'
      refine hsaver.putWrites fun w hw => stores_of_new hold fun hc => ?_
      have htrue := hdelta w hw
      rw [hc, ho.resume] at htrue
      exact absurd htrue Bool.false_ne_true }

/-- The writes of the list are saved under the checkpoint of the loop. -/
theorem Clean.putPendingWrites (h : s.Clean o) (hd : s.loop.durability = .exit)
    (taskPaths : String → String) :
    (s.loop.putPendingWrites taskPaths).saver.HoldsAt (Stores o s.given) := by
  refine List.foldlRecOn _ _ h.saved ?_
  intro saver hsaver t _
  refine hsaver.putWrites fun cv hcv => ?_
  obtain ⟨w, hw, rfl⟩ := List.mem_map.mp hcv
  obtain ⟨hw, ht⟩ := List.mem_filter.mp hw
  have ht : w.taskId = t := of_decide_eq_true ht
  rw [← ht]
  refine ⟨fun _ => h.list w hw, fun hold hdelta => ?_⟩
  rw [h.listDelta hd w hw hold] at hdelta
  exact absurd hdelta Bool.false_ne_true

theorem mem_enter_list {id : String} {durability : Durability} {replays : Bool} {w : PendingWrite}
    (h : w ∈ (s.enter id durability replays).list) : w ∈ s.storedAt id := by
  unfold NewRun.list NewRun.loop NewRun.enter at h
  simp only at h
  split at h
  · exact List.mem_of_mem_filter h
  · exact h

/-- A new invocation on a checkpoint that comes after the old superstep. -/
theorem Kept.enter (h : s.Kept o) {id : String} (hid : id ∉ o.before)
    (durability : Durability) (replays : Bool) : (s.enter id durability replays).Clean o := by
  have hstores : ∀ w ∈ (s.enter id durability replays).list,
      Stores o s.given id w.taskId (w.channel, w.value) := by
    intro w hw
    obtain ⟨w', hw', rfl⟩ := List.mem_map.mp (mem_enter_list hw)
    exact h.saved id w' hw'
  exact
    { h with
      list := fun w hw => (hstores w hw).1 hid
      listDelta := by
        intro _ w hw hold
        by_contra hdelta
        exact hid ((hstores w hw).2 hold (by simpa using hdelta)).1
      id := hid
      config := Or.inl hid
      atExit := fun _ => rfl
      atSync := fun _ => rfl
      pads := fun t p hp => absurd hp (by simp [NewRun.enter])
      exitWrites := fun e he => absurd he List.not_mem_nil }

/-- The last checkpoint of durability "exit" comes after the one that the invocation began
    with; the next invocation begins there. -/
theorem Clean.putLastCheckpoint (h : s.Clean o) (hd : s.loop.durability = .exit)
    (cp : CheckpointTuple V) :
    (s.putLastCheckpoint cp).Kept o ∧ (s.putLastCheckpoint cp).configId = s.loop.checkpointId := by
  unfold NewRun.putLastCheckpoint
  split
  · rename_i hsame
    exact ⟨h.toKept, (h.atExit hd).trans hsame.symm⟩
  · refine ⟨{ h.toKept with rows := ?_ }, rfl⟩
    intro id t ht hnew
    rw [OrdDict.get?_set] at ht
    split at ht
    · cases ht
      refine ⟨s.configId, rfl, ?_⟩
      rcases h.config with hc | ⟨hc, hnone⟩
      · exact Or.inl hc
      · exact Or.inr ⟨hc, fun ch hw => absurd hw (hnone ch)⟩
    · exact h.rows id t ht hnew

theorem Clean.exit (ho : o.Sound) (h : s.Clean o) (cp : CheckpointTuple V)
    (hnew : ∀ e ∈ s.exitDeltaWrites, ¬o.Old (exitDeltaTaskId e.1 e.2.taskId))
    (taskPaths : String → String) :
    (s.exit cp taskPaths).Kept o ∧ (s.exit cp taskPaths).configId = s.loop.checkpointId := by
  unfold NewRun.exit
  split
  · rename_i hd
    have hdelta := h.putExitDeltaWrites ho cp hnew
    obtain ⟨hlast, hid⟩ := hdelta.putLastCheckpoint hd cp
    have hloop : ((s.putExitDeltaWrites cp).putLastCheckpoint cp).loop =
          (s.putExitDeltaWrites cp).loop ∧
        ((s.putExitDeltaWrites cp).putLastCheckpoint cp).given = s.given := by
      unfold NewRun.putLastCheckpoint
      split <;> exact ⟨rfl, rfl⟩
    refine ⟨{ hlast with saved := ?_ }, hid⟩
    show (((s.putExitDeltaWrites cp).putLastCheckpoint cp).loop.putPendingWrites
      taskPaths).saver.HoldsAt (Stores o ((s.putExitDeltaWrites cp).putLastCheckpoint cp).given)
    rw [hloop.1, hloop.2]
    exact hdelta.putPendingWrites hd taskPaths
  · rename_i hd
    exact ⟨h.toKept, h.atSync hd⟩

theorem Clean.leave (ho : o.Sound) (h : s.Clean o) (cp : CheckpointTuple V)
    (hnew : ∀ e ∈ s.exitDeltaWrites, ¬o.Old (exitDeltaTaskId e.1 e.2.taskId))
    (taskPaths : String → String) (durability : Durability) :
    (s.next (.leave cp taskPaths durability)).Clean o := by
  obtain ⟨hkept, hid⟩ := h.exit ho cp hnew taskPaths
  refine hkept.enter ?_ durability false
  rw [hid]
  exact h.id

theorem Clean.next (ho : o.Sound) (h : s.Clean o) {e : RunEvent V} (hc : Continues o s e) :
    (s.next e).Clean o := by
  cases e with
  | input delta cp => exact h.input ho hc.1 hc.2
  | command writes => exact h.command ho writes
  | mapped t v => exact h.mapped hc v
  | task e => exact h.task hc
  | afterTick tasks cp => exact (h.applyTasks hc.1).putCheckpoint hc.2
  | leave cp paths durability => exact h.leave ho cp hc paths durability

theorem Clean.run (ho : o.Sound) (h : s.Clean o) {es : List (RunEvent V)}
    (hes : Machine.Along NewRun.next (Continues o) s es) : (s.run es).Clean o :=
  hes.invariant h fun _ _ hs hc => hs.next ho hc

/-! ## What is free of the old superstep -/

theorem mem_rebuiltFrom {id ch : String} {w : PendingWrite} (h : w ∈ s.rebuiltFrom id ch) :
    ∃ t, s.tuples.get? id = some t ∧ t.checkpoint.channelValues.get? ch = none ∧
      ∃ a ∈ Lineage.upto (tupleValue ch)
          (tupleWalk s.getTuple (s.tuples.keys.length + 1) t.parentId),
        w.channel = ch ∧ w ∈ s.storedAt a.1 := by
  unfold rebuiltFrom at h
  cases ht : s.tuples.get? id with
  | none =>
    rw [getTuple, ht] at h
    exact absurd h List.not_mem_nil
  | some t =>
    have hget : s.getTuple id = some { t with pendingWrites := s.storedAt id } := by
      rw [getTuple, ht]
      rfl
    rw [hget] at h
    simp only at h
    split at h
    · exact absurd h List.not_mem_nil
    · rename_i hnone
      rw [defaultHistory_spec, OrdDict.get?_tabulate, if_pos (List.mem_singleton_self ch), hget] at h
      obtain ⟨a, ha, hw⟩ := Lineage.exists_of_mem_collect h
      obtain ⟨hw, hc⟩ := List.mem_filter.mp hw
      have hrow := Lineage.lookup_of_mem_walk (Lineage.mem_of_mem_upto ha)
      obtain ⟨t', -, he⟩ := Option.map_eq_some_iff.mp hrow
      rw [← he] at hw
      exact ⟨t, rfl, by simpa using hnone, a, ha, of_decide_eq_true hc, hw⟩

end Steps

/-- Nothing of the old superstep has reached the run: no write of its tasks is applied,
    accumulated, or rebuilds a channel of a later checkpoint, and `interrupt()` has
    returned values that were given since. -/
structure FreeOf (s : NewRun V) : Prop where
  applied : ∀ w ∈ s.applied, ¬o.Old w.taskId
  exitWrites : ∀ e ∈ s.exitDeltaWrites, ¬o.Old e.2.taskId
  rebuilt : ∀ id, id ∉ o.before → ∀ ch, o.isDelta ch = true → ∀ w ∈ s.rebuiltFrom id ch, ¬o.Old w.taskId
  returned : s.returned ⊆ s.given

section Steps
variable {o} {s : NewRun V}

theorem Clean.freeOf (h : s.Clean o) : s.FreeOf o := by
  refine ⟨h.applied, fun e he => (h.exitWrites e he).1, ?_, h.returned⟩
  intro id hid ch hdelta w hw hold
  obtain ⟨t, ht, hnone, a, ha, hc, hw⟩ := mem_rebuiltFrom hw
  obtain ⟨w', hw', rfl⟩ := List.mem_map.mp hw
  have hstores := h.saved a.1 w' hw'
  have hdelta' : o.isDelta w'.channel = true := by
    rw [show w'.channel = ch from hc]
    exact hdelta
  obtain ⟨hin, hwrote⟩ := hstores.2 hold hdelta'
  -- the walk ends before it leaves the new checkpoints
  suffices a.1 ∉ o.before from this hin
  have hnext : ∀ id t, s.tuples.get? id = some t → id ∉ o.before →
      t.checkpoint.channelValues.get? ch = none → ∀ parent, t.parentId = some parent →
        parent ∉ o.before := by
    intro id t ht hid hnone parent hp
    obtain ⟨parent', hp', hcase⟩ := h.rows id t ht hid
    rw [hp] at hp'
    cases hp'
    rcases hcase with hcase | ⟨-, hvalue⟩
    · exact hcase
    · have hsome := hvalue ch ((show w'.channel = ch from hc) ▸ hwrote)
      rw [hnone] at hsome
      exact absurd hsome Bool.false_ne_true
  refine Lineage.upto_walk_closed (N := fun id => id ∉ o.before) ?_ _ _ (hnext id t ht hid hnone) a ha
  intro k r hk hr hv parent hp
  obtain ⟨t', ht', rfl⟩ := Option.map_eq_some_iff.mp hr
  exact hnext k t' ht' hk hv parent hp

end Steps

/-! ## The new input -/

/-- The unfinished superstep at the checkpoint that the loop has entered; its tasks are
    those that have writes there. -/
def oldStep (s : NewRun V) : OldStep where
  Old t := t ≠ Const.NULL_TASK_ID ∧ ∃ w ∈ s.storedAt s.configId, w.taskId = t
  before := s.tuples.keys
  checkpointId := s.configId
  isDelta := s.isDelta
  wrote ch := s.isDelta ch = true ∧ ∃ w ∈ s.list, w.taskId ≠ Const.NULL_TASK_ID ∧ w.channel = ch

/-- What the runs before have left of the thread at a checkpoint. Ids of tasks are hashes of
    the checkpoint's, so that what a task has written under another checkpoint, it or
    another task of the superstep has written there too. -/
structure Left (p : Program V) (s : NewRun V) (id : String) : Prop where
  specs : s.loop.specs = p.specs
  row : id ∈ s.tuples.keys
  byTask : s.loop.saver.KeyedByTask id
  wellKeyed : (s.loop.saver.slotsAt id).WellKeyed
  saved : s.loop.saver.HoldsAt fun id _ _ => id ∈ s.tuples.keys
  own : ∀ id', ∀ w ∈ s.storedAt id', s.isDelta w.channel = true → w.taskId ≠ Const.NULL_TASK_ID →
    (∃ w' ∈ s.storedAt id, w'.taskId = w.taskId) →
      ∃ w' ∈ s.storedAt id, w'.taskId ≠ Const.NULL_TASK_ID ∧ w'.channel = w.channel
  applied : s.applied = []
  returned : s.returned = []
  given : s.given = []

/-- However the new run goes on from the input, it is free of the old superstep. -/
def Discards (s : NewRun V) (delta : List (String × PyVal)) (cp : CheckpointTuple V) : Prop :=
  ∀ es, Machine.Along next (Continues s.oldStep) s (.input delta cp :: es) →
    (s.run (.input delta cp :: es)).FreeOf s.oldStep

/-- The null task has no answer left, or the input has it write; and the checkpoint of the
    input holds the `DeltaChannel`s that the old tasks have written. -/
structure NothingLeft (s : NewRun V) (delta : List (String × PyVal)) (cp : CheckpointTuple V) :
    Prop where
  answers : (∀ w ∈ s.list, isNullResume w = true → w.value = .none) ∨
    s.loop.durability ≠ .exit ∧ delta ≠ []
  writes : ∀ w ∈ s.list, w.taskId ≠ Const.NULL_TASK_ID → s.isDelta w.channel = true →
    s.loop.durability ≠ .exit ∧ (cp.checkpoint.channelValues.get? w.channel).isSome

section Input
variable {p : Program V} {base : NewRun V} {id : String} {durability : Durability} {replays : Bool}

theorem Left.sound (h : base.Left p id) : (base.enter id durability replays).oldStep.Sound where
  null hold := hold.1 rfl
  resume := by
    show (base.loop.specs.get? Const.RESUME).any _ = false
    rw [h.specs]
    rw [show p.specs.get? Const.RESUME = none from
      channel_not_reserved_of_validateGraph p.valid (by decide)]
    rfl

theorem mem_list_of_isDelta (h : base.Left p id) {w : PendingWrite} (hw : w ∈ base.storedAt id)
    (hdelta : base.isDelta w.channel = true) : w ∈ (base.enter id durability replays).list := by
  have hc : w.channel ≠ Const.RESUME := by
    intro hc
    have hsound : (base.enter id durability replays).oldStep.Sound := h.sound
    have hresume : base.isDelta Const.RESUME = false := hsound.resume
    rw [hc, hresume] at hdelta
    exact Bool.false_ne_true hdelta
  show w ∈ if replays = true then _ else _
  split
  · exact List.mem_filter.mpr ⟨hw, decide_eq_true hc⟩
  · exact hw

theorem Left.running (h : base.Left p id)
    (hwrites : ∀ w ∈ (base.enter id durability replays).list, w.taskId ≠ Const.NULL_TASK_ID →
      base.isDelta w.channel = true → durability ≠ .exit) :
    (base.enter id durability replays).Running (base.enter id durability replays).oldStep where
  delta _ := rfl
  saved id' w hw := by
    refine ⟨fun hid => absurd (h.saved id' w hw) hid, fun hold hdelta => ?_⟩
    obtain ⟨hne, hat⟩ := hold
    obtain ⟨w', hw', hne', hc⟩ := h.own id' _ (List.mem_map_of_mem hw) hdelta hne hat
    refine ⟨h.saved id' w hw, hdelta, w', mem_list_of_isDelta h hw' ?_, hne', hc⟩
    rw [hc]
    exact hdelta
  rows id' t ht hid := absurd (OrdDict.mem_keys_iff.mpr ⟨t, ht⟩) hid
  applied w hw := absurd (h.applied ▸ hw) List.not_mem_nil
  returned v hv := absurd (h.returned ▸ hv) List.not_mem_nil
  listDelta hd w hw hold := by
    by_contra hdelta
    exact hwrites w hw hold.1 (Bool.not_eq_false _ ▸ hdelta) hd
  atExit _ := rfl
  atSync _ := rfl
  pads t p hp := absurd hp (by simp [NewRun.enter])
  exitWrites e he := absurd he List.not_mem_nil

theorem Left.answers {w : PendingWrite}
    (hw : w ∈ (base.enter id durability replays).list)
    (hnull : isNullResume w = true → w.value = .none) :
    Answers (base.enter id durability replays).oldStep.Old base.given w.taskId (w.channel, w.value) := by
  intro hc
  refine ⟨fun ht => Or.inr (hnull (isNullResume_iff.mpr ⟨ht, hc⟩)), fun ht hnew => ?_⟩
  exact absurd ⟨ht, w, mem_enter_list hw, rfl⟩ hnew

/-- Where nothing is left, the new run is free of the old superstep. -/
theorem NothingLeft.discards (h : base.Left p id) {delta : List (String × PyVal)}
    {cp : CheckpointTuple V}
    (hleft : (base.enter id durability replays).NothingLeft delta cp) :
    (base.enter id durability replays).Discards delta cp := by
  intro es hes
  obtain ⟨⟨hdelta, hid⟩, hes⟩ := hes
  have hrun := h.running fun w hw ht hd => (hleft.writes w hw ht hd).1
  refine (((hrun.input h.sound hdelta ?_ hid (Or.inr ⟨rfl, ?_⟩)).run h.sound hes)).freeOf
  · refine hleft.answers.imp (fun hall w hw => Left.answers hw (hall w hw)) fun hd => ⟨hd, ?_⟩
    intro w hw
    refine Left.answers (mem_of_mem_remaining hw) fun hnull => ?_
    rw [PendingLoop.remaining, if_pos rfl] at hw
    obtain ⟨ht, hc⟩ := isNullResume_iff.mp hnull
    have hspecial := (List.mem_filter.mp hw).2
    rw [ht, hc] at hspecial
    exact absurd hspecial (by decide)
  · rintro ch ⟨hch, w, hw, ht, rfl⟩
    exact hleft.writes w hw ht hch

/-! ## What is left when something is -/

theorem putInput_of_exit {s : NewRun V} (hd : s.loop.durability = .exit)
    (delta : List (String × PyVal)) : (s.putInput delta).loop = s.loop := by
  rw [NewRun.putInput, if_pos hd]
  rfl

theorem putCheckpoint_same (s : NewRun V) (cp : CheckpointTuple V) :
    (s.putCheckpoint cp).loop = { s.loop with checkpointId := cp.checkpoint.id } ∧
      (s.putCheckpoint cp).given = s.given ∧
      (s.putCheckpoint cp).exitDeltaWrites = s.exitDeltaWrites := by
  unfold NewRun.putCheckpoint
  split <;> exact ⟨rfl, rfl, rfl⟩

/-- An input that does not have the null task write leaves the list as it is. -/
theorem list_input {s : NewRun V} {delta : List (String × PyVal)}
    (hkeeps : ¬(s.loop.durability ≠ .exit ∧ delta ≠ [])) (cp : CheckpointTuple V) :
    (s.next (.input delta cp)).list = s.list := by
  show ((s.putInput delta).putCheckpoint cp).loop.checkpointPendingWrites = _
  rw [(putCheckpoint_same _ cp).1]
  show (s.putInput delta).loop.checkpointPendingWrites = _
  by_cases he : s.loop.durability = .exit
  · rw [putInput_of_exit he]
    rfl
  · have hnil : delta = [] := by
      by_contra hne
      exact hkeeps ⟨he, hne⟩
    rw [NewRun.putInput, if_neg he, hnil]
    rfl

/-- The writes at a checkpoint rebuild the `DeltaChannel`s that the next one has no value of. -/
theorem mem_rebuiltFrom_of_parent {s : NewRun V} {id parent : String} {t t' : CheckpointTuple V}
    {w : PendingWrite} (ht : s.tuples.get? id = some t) (hp : t.parentId = some parent)
    (hnone : t.checkpoint.channelValues.get? w.channel = none)
    (ht' : s.tuples.get? parent = some t') (hw : w ∈ s.storedAt parent) :
    w ∈ s.rebuiltFrom id w.channel := by
  have hget : s.getTuple id = some { t with pendingWrites := s.storedAt id } := by
    rw [getTuple, ht]
    rfl
  have hget' : s.getTuple parent = some { t' with pendingWrites := s.storedAt parent } := by
    rw [getTuple, ht']
    rfl
  unfold rebuiltFrom
  rw [hget]
  simp only
  rw [if_neg (by simp [hnone]), defaultHistory_spec, OrdDict.get?_tabulate,
    if_pos (List.mem_singleton_self _), hget, Option.bind_some, hp, tupleWalk,
    Lineage.walk_succ_some hget']
  apply Lineage.mem_collect_head
  exact List.mem_filter.mpr ⟨hw, decide_eq_true rfl⟩

/-- In a new task without answers `interrupt()` returns the null resume of the list. -/
theorem answer_prepare {s : NewRun V} {t : String} {w : PendingWrite}
    (hfind : s.list.find? isNullResume = some w) (hv : w.value ≠ .none)
    (hnone : ∀ w' ∈ s.list, w'.taskId ≠ t) :
    (s.next (.task (.prepare t none))).answer t = [w.value] := by
  let pad : Scratchpad := ⟨[], 0, some (s.resumed.retired.length, w)⟩
  have hpad : scratchpad none s.resumed.retired.length s.list t = pad := by
    have hfree : (s.list.find? fun w' => w'.taskId = t ∧ w'.channel = Const.RESUME) = none := by
      rw [List.find?_eq_none]
      intro w' hw' hentry
      exact hnone w' hw' (of_decide_eq_true hentry).1
    unfold scratchpad
    rw [hfree, hfind]
    rfl
  have hget : (s.next (.task (.prepare t none))).resumed.scratchpads.get? t = some pad := by
    rw [← hpad]
    exact OrdDict.get?_set_self ..
  have hlist : w ∈ (s.next (.task (.prepare t none))).resumed.listAt s.resumed.retired.length := by
    show w ∈ s.resumed.listAt s.resumed.retired.length
    rw [ResumedLoop.listAt_current]
    exact List.mem_of_find?_eq_some hfind
  rw [answer, hget]
  simp only [ResumedLoop.interrupt, ResumedLoop.getNullResume, pad, List.getElem?_nil, if_pos hlist,
    if_neg hv, List.length_nil, if_true]

theorem tuples_input {s : NewRun V} (hd : s.loop.durability ≠ .exit)
    (delta : List (String × PyVal)) (cp : CheckpointTuple V) :
    (s.next (.input delta cp)).tuples =
        s.tuples.set cp.checkpoint.id { cp with parentId := some s.configId } ∧
      (s.next (.input delta cp)).loop.saver =
        (s.resumed.step (.putWrites Const.NULL_TASK_ID delta "")).loop.saver := by
  have hput : s.putInput delta =
      { s with resumed := s.resumed.step (.putWrites Const.NULL_TASK_ID delta "") } := by
    rw [NewRun.putInput, if_neg hd]
  have hd' : (s.putInput delta).loop.durability ≠ .exit := by
    rw [(putInput_same delta).2.2]
    exact hd
  constructor
  · show ((s.putInput delta).putCheckpoint cp).tuples = _
    rw [NewRun.putCheckpoint, if_neg hd', hput]
  · show ((s.putInput delta).putCheckpoint cp).loop.saver = _
    rw [(putCheckpoint_same _ cp).1, hput]
    rfl

/-- The write of a task stays stored when the null task writes. -/
theorem Left.mem_storedAt_input (h : base.Left p id) (hd : durability ≠ .exit) {w : PendingWrite}
    (hw : w ∈ base.storedAt id) (ht : w.taskId ≠ Const.NULL_TASK_ID)
    (delta : List (String × PyVal)) (cp : CheckpointTuple V) :
    w ∈ ((base.enter id durability replays).next (.input delta cp)).storedAt id := by
  unfold storedAt
  rw [(tuples_input (s := base.enter id durability replays) hd delta cp).2]
  by_cases hnil : delta = []
  · rw [hnil]
    exact hw
  · rw [ResumedLoop.step, if_neg (by simpa using hnil)]
    show w ∈ (((base.enter id durability replays).loop.putWrites Const.NULL_TASK_ID delta
      "").saver.writesAt id).values.map _
    rw [PendingLoop.putWrites_of_ne_nil _ _ delta "" hnil]
    simp only
    rw [if_neg (show (base.enter id durability replays).loop.durability ≠ .exit from hd)]
    show w ∈ ((base.loop.saver.putWrites id _ Const.NULL_TASK_ID "").writesAt id).values.map _
    rw [InMemorySaver.mem_pendingWrites_iff (h.byTask.putWrites ⟨Const.NULL_TASK_ID, _, ""⟩)]
    obtain ⟨i, hi⟩ := (InMemorySaver.mem_pendingWrites_iff h.byTask w).mp hw
    refine ⟨i, ?_⟩
    rw [InMemorySaver.slotsAt_putWrites_of_ne ht]
    exact hi

/-- The null task has one answer at most. -/
theorem Left.nullResume_unique (h : base.Left p id) {w w' : PendingWrite}
    (hw : w ∈ base.storedAt id) (hw' : w' ∈ base.storedAt id) (hn : isNullResume w = true)
    (hn' : isNullResume w' = true) : w = w' := by
  obtain ⟨i, hi⟩ := (InMemorySaver.mem_pendingWrites_iff h.byTask w).mp hw
  obtain ⟨i', hi'⟩ := (InMemorySaver.mem_pendingWrites_iff h.byTask w').mp hw'
  have hidx : ∀ {u : PendingWrite} {i : Int}, isNullResume u = true →
      base.loop.saver.slotsAt id (u.taskId, i) = some (u.channel, u.value) → i = -4 := by
    intro u i hu hs
    obtain ⟨n, hn⟩ := h.wellKeyed _ _ hs
    rw [show i = writeIdx u.channel n from hn]
    exact (writeIdx_eq_special_iff PendingLoop.writesIdxMap_resume n).mpr (isNullResume_iff.mp hu).2
  obtain ⟨ht, hc⟩ := isNullResume_iff.mp hn
  obtain ⟨ht', hc'⟩ := isNullResume_iff.mp hn'
  rw [hidx hn hi, ht] at hi
  rw [hidx hn' hi', ht', hi, Option.some.injEq, Prod.mk.injEq] at hi'
  cases w
  cases w'
  simp_all

/-- An answer of the null task that the input leaves is returned by a new task. -/
theorem Discards.answers (h : base.Left p id) {delta : List (String × PyVal)}
    {cp : CheckpointTuple V} (hdelta : ∀ w ∈ delta, base.isDelta w.1 = true)
    (hcp : cp.checkpoint.id ∉ base.tuples.keys)
    (hd : (base.enter id durability replays).Discards delta cp) :
    (∀ w ∈ (base.enter id durability replays).list, isNullResume w = true → w.value = .none) ∨
      durability ≠ .exit ∧ delta ≠ [] := by
  by_contra hleft
  rw [not_or] at hleft
  obtain ⟨hleft, hkeeps⟩ := hleft
  have hlist := list_input (s := base.enter id durability replays) hkeeps cp
  apply hleft
  intro w hw hn
  by_contra hv
  obtain ⟨w', hfind⟩ := Option.isSome_iff_exists.mp (List.find?_isSome.mpr ⟨w, hw, hn⟩)
  obtain ⟨hn', hw'⟩ := find?_isNullResume hfind
  have hsame := h.nullResume_unique (mem_enter_list hw) (mem_enter_list hw') hn hn'
  rw [← hsame, ← hlist] at hfind
  -- a new task asks for an answer
  obtain ⟨t, ht⟩ := Infinite.exists_notMem_finset
    (Const.NULL_TASK_ID :: (base.storedAt id).map (·.taskId)).toFinset
  rw [List.mem_toFinset, List.mem_cons, not_or] at ht
  have hnew : t ≠ Const.NULL_TASK_ID ∧ ¬(base.enter id durability replays).oldStep.Old t := by
    refine ⟨ht.1, ?_⟩
    rintro ⟨-, w₀, hw₀, rfl⟩
    exact ht.2 (List.mem_map_of_mem hw₀)
  have hnone : ∀ w₀ ∈ ((base.enter id durability replays).next (.input delta cp)).list,
      w₀.taskId ≠ t := by
    rintro w₀ hw₀ rfl
    rw [hlist] at hw₀
    exact ht.2 (List.mem_map_of_mem (mem_enter_list hw₀))
  have hfree := hd [.task (.prepare t none), .task (.interrupt t)]
    ⟨⟨hdelta, hcp⟩, ⟨fun _ he => by cases he; exact hnew, trivial⟩,
      ⟨fun _ he => by cases he; exact hnew, trivial⟩, trivial⟩
  have hreturned : w.value ∈ ((base.enter id durability replays).run
      [.input delta cp, .task (.prepare t none), .task (.interrupt t)]).returned := by
    refine List.mem_append_right _ ?_
    rw [answer_prepare hfind hv hnone]
    exact List.mem_singleton_self _
  have hgiven : w.value ∈ ((NewRun.putInput _ delta).putCheckpoint cp).given :=
    hfree.returned hreturned
  rw [(putCheckpoint_same _ cp).2.1, (putInput_same delta).2.1] at hgiven
  exact absurd (h.given ▸ hgiven) List.not_mem_nil

/-- What an old task has written is accumulated at exit, or rebuilds the channel from the
    checkpoint of the input. -/
theorem Discards.writes (h : base.Left p id) {delta : List (String × PyVal)}
    {cp : CheckpointTuple V} (hdelta : ∀ w ∈ delta, base.isDelta w.1 = true)
    (hcp : cp.checkpoint.id ∉ base.tuples.keys)
    (hd : (base.enter id durability replays).Discards delta cp) {w : PendingWrite}
    (hw : w ∈ (base.enter id durability replays).list) (ht' : w.taskId ≠ Const.NULL_TASK_ID)
    (hc : base.isDelta w.channel = true) :
    durability ≠ .exit ∧ (cp.checkpoint.channelValues.get? w.channel).isSome := by
  have hold : (base.enter id durability replays).oldStep.Old w.taskId :=
    ⟨ht', w, mem_enter_list hw, rfl⟩
  have hexit : durability ≠ .exit := by
    rintro rfl
    have hfree := hd [.afterTick [] cp]
      ⟨⟨hdelta, hcp⟩, ⟨fun t ht => absurd ht List.not_mem_nil, hcp⟩, trivial⟩
    have hloop : ((base.enter id .exit replays).next (.input delta cp)).loop =
        { (base.enter id .exit replays).loop with checkpointId := cp.checkpoint.id } := by
      show ((NewRun.putInput _ delta).putCheckpoint cp).loop = _
      rw [(putCheckpoint_same _ cp).1, putInput_of_exit rfl]
    refine hfree.exitWrites (((base.enter id .exit replays).next (.input delta cp)).step, w) ?_ hold
    show _ ∈ ((((base.enter id .exit replays).next (.input delta cp)).applyTasks []).putCheckpoint
      cp).exitDeltaWrites
    rw [(putCheckpoint_same _ cp).2.2, applyTasks]
    simp only [isDelta, list, hloop]
    exact List.mem_append_right _ (List.mem_map_of_mem (List.mem_filter.mpr ⟨hw, hc⟩))
  refine ⟨hexit, ?_⟩
  by_contra hnone
  have hfree := hd [] ⟨⟨hdelta, hcp⟩, trivial⟩
  refine hfree.rebuilt cp.checkpoint.id hcp w.channel hc w ?_ hold
  obtain ⟨t, ht⟩ := OrdDict.mem_keys_iff.mp h.row
  have hne : id ≠ cp.checkpoint.id := fun he => hcp (he ▸ h.row)
  have htuples := (tuples_input (s := base.enter id durability replays) hexit delta cp).1
  refine @mem_rebuiltFrom_of_parent _ _ _ id { cp with parentId := some id } t _ ?_ rfl (Option.not_isSome_iff_eq_none.mp hnone) ?_
    (h.mem_storedAt_input hexit (mem_enter_list hw) ht' delta cp)
  · show ((base.enter id durability replays).next (.input delta cp)).tuples.get? _ = _
    rw [htuples, OrdDict.get?_set_self]
    rfl
  · show ((base.enter id durability replays).next (.input delta cp)).tuples.get? _ = _
    rw [htuples, OrdDict.get?_set_of_ne hne]
    exact ht

end Input

end NewRun

/-- The new run is free of the old superstep, however it goes on, exactly when nothing of it
    is left that the input does not put an end to. -/
theorem newInput_discards_iff {V : Type} [LinearOrder V] [OrderBot V] {p : Program V}
    (hg : p.builder.WaitsForSome) (hinc : Increasing p.getNextVersion) {w : World V}
    (hr : Machine.Reachable (step p) (fun _ _ => True) ⟨[], none⟩ w) {info : StepInfo}
    (hid : ∀ l, w.loop = some l → ∀ t ∈ l.allTasks p info true, ∀ t' ∈ l.allTasks p info true,
      t.id = t'.id → t = t')
    {base : NewRun V} {id : String} (h : base.Left p id) (durability : Durability) (replays : Bool)
    (writes : List (String × PyVal)) {cp : CheckpointTuple V}
    (hcp : cp.checkpoint.id ∉ base.tuples.keys) :
    DiscardsTasks p w info writes ∧
        (base.enter id durability replays).Discards (writes.filter fun w => base.isDelta w.1) cp ↔
      (base.enter id durability replays).NothingLeft (writes.filter fun w => base.isDelta w.1) cp := by
  have hdelta : ∀ w ∈ writes.filter fun w => base.isDelta w.1, base.isDelta w.1 = true :=
    fun w hw => (List.mem_filter.mp hw).2
  constructor
  · rintro ⟨-, hd⟩
    exact ⟨hd.answers h hdelta hcp, fun w hw ht hc => hd.writes h hdelta hcp hw ht hc⟩
  · intro hleft
    exact ⟨discarded_not_scheduled hg hinc hr hid writes, hleft.discards h⟩

/-! ## A thread with one checkpoint -/

section Leftover

/-- `START → A`, with a `DeltaChannel`. -/
def logGraph : StateGraph where
  channels := .ofList [("x", .lastValue ⟨"x", none⟩),
    ("log", .deltaChannel ⟨"log", fun v _ => .ok v, .list [], 1000, by decide, none⟩)]
  nodes := .ofList [("A", ⟨["x"], none, false, none⟩)]
  edges := [(Const.START, "A")]
  waitingEdges := []
  waiting_ends := by decide

def logProgram : Program Nat where
  builder := logGraph
  managedKeys := []
  outputChannels := ["x"]
  interruptNodes := []
  parentNs := ""
  xxh3 := fun _ s => s
  getNextVersion := fun v => v.getD 0 + 1
  valid := by decide +kernel

theorem increasing_logProgram : Increasing logProgram.getNextVersion where
  first := by decide
  next := fun v => Nat.lt_succ_self v

def logTuple (id : String) : CheckpointTuple Nat :=
  ⟨⟨id, ∅, ∅, ∅, none⟩, ⟨"loop", 0, ∅⟩, none, []⟩

/-- The writes of the calls are stored at the checkpoint "1". -/
def leftover (calls : List PutWritesCall) : NewRun Nat where
  resumed := ⟨⟨logProgram.specs, logProgram.specs, .sync, "1", [],
    InMemorySaver.empty.putCalls "1" calls⟩, [], ∅, []⟩
  tuples := .ofList [("1", logTuple "1")]
  configId := "1"
  initialId := "1"
  step := 1
  exitDeltaWrites := []
  applied := []
  returned := []
  given := []

theorem left_leftover (calls : List PutWritesCall) : (leftover calls).Left logProgram "1" := by
  obtain ⟨hslots, -, hkeyed, -⟩ :=
    @InMemorySaver.putCalls_spec Nat InMemorySaver.empty "1" rfl calls
  have hone : (InMemorySaver.empty.putCalls (V := Nat) "1" calls).HoldsAt fun id _ _ => id = "1" := by
    refine List.foldlRecOn _ _ (fun id w hw => absurd hw List.not_mem_nil) ?_
    intro saver hsaver call _
    exact hsaver.putWrites fun w _ => rfl
  have hrow : "1" ∈ (leftover calls).tuples.keys := List.mem_singleton_self "1"
  exact
    { specs := rfl
      row := hrow
      byTask := hkeyed
      wellKeyed := by
        show Slots.WellKeyed ((InMemorySaver.empty.putCalls (V := Nat) "1" calls).slotsAt "1")
        rw [hslots]
        exact Slots.wellKeyed_runMemory calls
      saved := fun id w hw => by
        rw [hone id w hw]
        exact hrow
      own := by
        rintro id' w hw - ht -
        obtain ⟨w', hw', rfl⟩ := List.mem_map.mp hw
        rw [hone id' w' hw'] at hw
        exact ⟨_, hw, ht, rfl⟩
      applied := rfl
      returned := rfl
      given := rfl }

/-- A run that stopped after its first superstep, where the task of `A` has failed. -/
def failedRun : List Event :=
  [.enter none "0" noHistory, .input (unmanaged (-1)) [(Const.START, .int 5)],
    .putCheckpoint "1" [] true, .superstep (unmanaged 0) (fun _ => [(branchTo "A", .none)]) [],
    .putCheckpoint "1" [] true]

theorem failedRun_discards : ∃ w l, w.loop = some l ∧
    (l.allTasks logProgram (unmanaged 1) true).map (·.name) = ["A"] ∧
    DiscardsTasks logProgram w (unmanaged 1) [(Const.START, .int 6)] ∧
    ((leftover [⟨"A1", [("x", .int 1), (Const.ERROR, .str "e")], ""⟩]).enter "1" .exit false).Discards
      ([(Const.START, PyVal.int 6)].filter fun w => (leftover []).isDelta w.1) (logTuple "2") := by
  have hnames : (loopAfter logProgram failedRun).map (fun l =>
      (l.allTasks logProgram (unmanaged 1) true).map (·.name)) = some ["A"] := by
    decide +kernel
  obtain ⟨w, l, hl, hr, hone⟩ := exists_of_loopAfter (meets_true _ _ _) hnames
  refine ⟨w, l, hl, hone, ?_⟩
  obtain ⟨a, ha, -⟩ := List.map_eq_singleton_iff.mp hone
  refine (newInput_discards_iff (by decide) increasing_logProgram hr ?_
    (left_leftover _) .exit false _ (by decide)).mpr ⟨Or.inl ?_, ?_⟩
  · intro l' hl' t ht t' ht' _
    cases Option.some.inj (hl.symm.trans hl')
    rw [ha, List.mem_singleton] at ht ht'
    rw [ht, ht']
  · decide +kernel
  · decide +kernel

/-- What the earlier superstep was given, and what its task `t` has written to the log. -/
def answeredCalls : List PutWritesCall :=
  [⟨Const.NULL_TASK_ID, [(Const.RESUME, .str "yes")], ""⟩, ⟨"t", [("log", .str "a")], ""⟩]

/-- A new task gets the answer, and the write of `t` rebuilds the log. -/
theorem not_discards_answered :
    ¬((leftover answeredCalls).enter "1" .sync false).Discards [] (logTuple "2") ∧
      ((leftover answeredCalls).enter "1" .sync false |>.run [.input [] (logTuple "2")]).rebuiltFrom
        "2" "log" = [⟨"t", "log", .str "a"⟩] := by
  refine ⟨fun hd => ?_, by decide +kernel⟩
  have hnew : "n" ≠ Const.NULL_TASK_ID ∧
      ¬((leftover answeredCalls).enter "1" .sync false).oldStep.Old "n" := by
    show "n" ≠ Const.NULL_TASK_ID ∧ ¬("n" ≠ Const.NULL_TASK_ID ∧
      ∃ w ∈ ((leftover answeredCalls).enter "1" .sync false).storedAt "1", w.taskId = "n")
    decide +kernel
  have hfree := hd [.task (.prepare "n" none), .task (.interrupt "n")]
    ⟨⟨fun w hw => absurd hw List.not_mem_nil, by decide⟩,
      ⟨fun _ he => by cases he; exact hnew, trivial⟩,
      ⟨fun _ he => by cases he; exact hnew, trivial⟩, trivial⟩
  have hreturned : PyVal.str "yes" ∈ (((leftover answeredCalls).enter "1" .sync false).run
      [.input [] (logTuple "2"), .task (.prepare "n" none), .task (.interrupt "n")]).returned := by
    decide +kernel
  exact absurd (hfree.returned hreturned) List.not_mem_nil

end Leftover

end LangGraph
