import LangGraph.Recovery

/- The error handlers of a resumed run.

   Correspondence (source ↔ Lean):
     `prepare_node_error_handler_task` (pregel/_algo.py) ↔ `prepareNodeErrorHandlerTask`
     `_reapply_writes_to_succeeded_nodes`           ↔ `reapplyAll`
     `_resume_error_handlers_if_applicable`         ↔ `failedTasks`, `resumeErrorHandler`
     the part of `tick` that calls both             ↔ `PendingLoop.tickTasks`
     `loop.tasks` once the runner has run them      ↔ `afterRunner`
   A task that raises and whose node has a handler is committed with its `ERROR`
   and its `ERROR_SOURCE_NODE` entries; the process may die at any point after.
   `handledFailure_resumes_iff`: the next one does the right thing exactly when
   the task had saved no channel write and its handler has saved nothing yet. A
   handler node has a name that is not empty. -/
namespace LangGraph

/-- A task of the loop, with what its config holds under `CONFIG_KEY_NODE_ERROR`:
    the node that failed, and the error. -/
structure LoopTask where
  task : Task
  nodeError : Option (String × PyVal)

/-- The namespace that the config of a prepared task holds. -/
def TaskContext.taskCheckpointNs (ctx : TaskContext) (t : Task) : String :=
  ctx.checkpointNs t.name ++ ":" ++ t.id

/-- The id of the handler task of a failed one. -/
def errorHandlerTaskId (ctx : TaskContext) (checkpointId : String) (step : Int) (failed : Task)
    (handlerNode : String) : String :=
  taskId ctx checkpointId [ctx.taskCheckpointNs failed ++ "|" ++ handlerNode, toString step,
    handlerNode, Const.PUSH, "node_error_handler", failed.id]

/-- `prepare_node_error_handler_task`; its parent namespace is the one of the
    failed task. -/
def prepareNodeErrorHandlerTask (ctx : TaskContext) (checkpointId : String) (step : Int)
    (failed : Task) (handlerNode : String) (error : PyVal) : Option LoopTask :=
  match ctx.processes.get? handlerNode with
  | none => none
  | some proc =>
    if proc.hasNode then
      some {
        task := {
          name := handlerNode, input := failed.input, writes := [], triggers := [Const.PUSH]
          id := errorHandlerTaskId ctx checkpointId step failed handlerNode
          path := failed.path.take 3 ++ [.str "node_error_handler", .int 0] }
        nodeError := some (failed.name, error) }
    else none

/-- The first `ERROR` entry of the task, unless it is `None`. -/
def errorOf (pending : List PendingWrite) (taskId : String) : Option PyVal :=
  ((pending.find? fun w => decide (w.taskId = taskId ∧ w.channel = Const.ERROR)).map
    (·.value)).filter fun e => e ≠ .none

/-- The tasks that failed and were routed to a handler, with their errors. -/
def failedTasks (pending : List PendingWrite) : OrdDict String PyVal :=
  .ofList (pending.filterMap fun w =>
    if w.channel = Const.ERROR_SOURCE_NODE then (errorOf pending w.taskId).map (w.taskId, ·)
    else none)

def LoopTask.append (t : LoopTask) (w : String × PyVal) : LoopTask :=
  { t with task := { t.task with writes := t.task.writes ++ [w] } }

/-- A failed task is marked as done, and its handler task is added. -/
def resumeErrorHandler (ctx : TaskContext) (checkpointId : String) (step : Int)
    (tasks : OrdDict String LoopTask) (failed : String × PyVal) : OrdDict String LoopTask :=
  match tasks.get? failed.1 with
  | none => tasks
  | some t =>
    match (ctx.processes.get? t.task.name).bind (·.errorHandlerNode) with
    | none => tasks
    | some handlerNode =>
      let tasks := tasks.set failed.1 (t.append (Const.ERROR, failed.2))
      match prepareNodeErrorHandlerTask ctx checkpointId step t.task handlerNode failed.2 with
      | none => tasks
      | some handler => tasks.set handler.task.id handler

/-- The prepared tasks with the writes that the list has for them. -/
def reapplyAll (pending : List PendingWrite) (prepared : OrdDict String Task) :
    OrdDict String LoopTask :=
  prepared.filterMap fun id t => some ⟨{ t with writes := t.writes ++ reapplied pending id }, none⟩

/-- `loop.tasks` after the runner has executed those without writes. -/
def afterRunner (outputs : String → List (String × PyVal)) (tasks : OrdDict String LoopTask) :
    OrdDict String LoopTask :=
  tasks.filterMap fun id t =>
    some (if t.task.writes.isEmpty then { t with task := { t.task with writes := outputs id } }
      else t)

/-- A commit, with the name of the task if an error of it is routed to a handler. -/
structure RoutedCommit extends Commit where
  handler : Option String

namespace PendingLoop
variable {V : Type}

/-- The tasks of a tick before the runner starts. -/
def tickTasks (l : PendingLoop V) (ctx : TaskContext) (step : Int) (isReplaying : Bool)
    (prepared : OrdDict String Task) : OrdDict String LoopTask :=
  if isReplaying then prepared.filterMap fun _ t => some ⟨t, none⟩
  else
    (failedTasks l.checkpointPendingWrites).entries.foldl
      (resumeErrorHandler ctx l.checkpointId step)
      (reapplyAll l.checkpointPendingWrites prepared)

/-- What one process commits, handler tasks included. -/
def runProcess (l : PendingLoop V) (commits : List RoutedCommit) : PendingLoop V :=
  commits.foldl (fun l c => l.commit c.taskId c.handler c.attempt c.taskPath) l

/-- One process after another, each of which ends after some commits. -/
def runProcesses (l : PendingLoop V) (history : List (List RoutedCommit × (String → String))) :
    PendingLoop V :=
  history.foldl (fun l e => (l.runProcess e.1).restart e.2) l

/-- The writes of a commit, as they are saved. -/
def savedBy (l : PendingLoop V) (c : RoutedCommit) : List (String × PyVal) :=
  match commitWrites c.handler c.attempt with
  | none => []
  | some writes => if l.durability = .exit then writes else writes.filterMap l.saveable

end PendingLoop

/-! ## The tasks of the resumed tick -/

/-- Every handler node of the graph can be run and has no handler itself. -/
def HandlersRun (ctx : TaskContext) : Prop :=
  ∀ name proc h, ctx.processes.get? name = some proc → proc.errorHandlerNode = some h →
    ∃ handler, ctx.processes.get? h = some handler ∧ handler.hasNode = true ∧
      handler.errorHandlerNode = none

/-- The ids of the handler tasks differ from those of the prepared tasks, and from
    each other. -/
structure DistinctHandlers (ctx : TaskContext) (checkpointId : String) (n : Int)
    (prepared : OrdDict String Task) : Prop where
  fresh : ∀ k t h, prepared.get? k = some t →
    errorHandlerTaskId ctx checkpointId n t h ∉ prepared.keys
  inj : ∀ k t h k' t' h', prepared.get? k = some t → prepared.get? k' = some t' →
    errorHandlerTaskId ctx checkpointId n t h = errorHandlerTaskId ctx checkpointId n t' h' → k = k'

section Resume
variable {ctx : TaskContext} {checkpointId : String} {n : Int} {prepared : OrdDict String Task}
  {tasks : OrdDict String LoopTask}

/-- The prepared tasks are there, up to their writes, and every other task is one
    of a handler. -/
structure Resuming (ctx : TaskContext) (prepared : OrdDict String Task)
    (tasks : OrdDict String LoopTask) : Prop where
  kept : ∀ k t, prepared.get? k = some t →
    ∃ ws, tasks.get? k = some ⟨{ t with writes := ws }, none⟩
  others : ∀ k t, k ∉ prepared.keys → tasks.get? k = some t →
    (ctx.processes.get? t.task.name).bind (·.errorHandlerNode) = none

variable (checkpointId n) in
/-- The handler task of a prepared task whose node has a handler. -/
theorem prepareNodeErrorHandlerTask_of_run (hrun : HandlersRun ctx) {name h : String}
    {proc : PregelNode} (hproc : ctx.processes.get? name = some proc)
    (hh : proc.errorHandlerNode = some h) (failed : Task) (error : PyVal) :
    prepareNodeErrorHandlerTask ctx checkpointId n failed h error =
        some ⟨⟨h, failed.input, [], [Const.PUSH], errorHandlerTaskId ctx checkpointId n failed h,
          failed.path.take 3 ++ [.str "node_error_handler", .int 0]⟩, some (failed.name, error)⟩ ∧
      (ctx.processes.get? h).bind (·.errorHandlerNode) = none := by
  obtain ⟨handler, hget, hhas, hnone⟩ := hrun _ _ _ hproc hh
  rw [prepareNodeErrorHandlerTask, hget]
  simp [hhas, hnone]

/-- A step for an entry that is no prepared task, or whose node has no handler. -/
theorem resumeErrorHandler_skip (hr : Resuming ctx prepared tasks) {failed : String × PyVal}
    (h : ∀ t, prepared.get? failed.1 = some t →
      (ctx.processes.get? t.name).bind (·.errorHandlerNode) = none) :
    resumeErrorHandler ctx checkpointId n tasks failed = tasks := by
  unfold resumeErrorHandler
  cases ht : tasks.get? failed.1 with
  | none => rfl
  | some t =>
    have hnone : (ctx.processes.get? t.task.name).bind (·.errorHandlerNode) = none := by
      cases hp : prepared.get? failed.1 with
      | none => exact hr.others _ _ (OrdDict.get?_eq_none_iff.mp hp) ht
      | some t₀ =>
        obtain ⟨ws, hws⟩ := hr.kept _ _ hp
        cases hws.symm.trans ht
        exact h t₀ hp
    simp only [hnone]

variable (checkpointId n) in
/-- A step for a prepared task whose node has a handler. -/
theorem resumeErrorHandler_handled (hr : Resuming ctx prepared tasks) (hrun : HandlersRun ctx)
    (failed : String × PyVal) {t : Task} {proc : PregelNode} {h : String}
    (ht : prepared.get? failed.1 = some t) (hproc : ctx.processes.get? t.name = some proc)
    (hh : proc.errorHandlerNode = some h) :
    ∃ ws handler, tasks.get? failed.1 = some ⟨{ t with writes := ws }, none⟩ ∧
      handler.task.id = errorHandlerTaskId ctx checkpointId n t h ∧ handler.task.writes = [] ∧
      handler.nodeError = some (t.name, failed.2) ∧
      (ctx.processes.get? handler.task.name).bind (·.errorHandlerNode) = none ∧
      resumeErrorHandler ctx checkpointId n tasks failed =
        (tasks.set failed.1 ⟨{ t with writes := ws ++ [(Const.ERROR, failed.2)] }, none⟩).set
          handler.task.id handler := by
  obtain ⟨ws, hws⟩ := hr.kept _ _ ht
  obtain ⟨hprep, hnone⟩ := prepareNodeErrorHandlerTask_of_run checkpointId n
    hrun hproc hh { t with writes := ws } failed.2
  let handler : LoopTask := ⟨⟨h, t.input, [], [Const.PUSH],
    errorHandlerTaskId ctx checkpointId n t h,
    t.path.take 3 ++ [.str "node_error_handler", .int 0]⟩, some (t.name, failed.2)⟩
  refine ⟨ws, handler, hws, rfl, rfl, rfl, hnone, ?_⟩
  unfold resumeErrorHandler
  have hnode : (ctx.processes.get? t.name).bind (·.errorHandlerNode) = some h := by
    rw [hproc]
    exact hh
  simp only [hws, hnode, hprep]
  rfl

theorem Resuming.step (hr : Resuming ctx prepared tasks) (hrun : HandlersRun ctx)
    (hd : DistinctHandlers ctx checkpointId n prepared) (failed : String × PyVal) :
    Resuming ctx prepared (resumeErrorHandler ctx checkpointId n tasks failed) := by
  by_cases hskip : ∀ t, prepared.get? failed.1 = some t →
      (ctx.processes.get? t.name).bind (·.errorHandlerNode) = none
  · rw [resumeErrorHandler_skip hr hskip]
    exact hr
  simp only [not_forall] at hskip
  obtain ⟨t, ht, hnode⟩ := hskip
  obtain ⟨h, hnode⟩ := Option.ne_none_iff_exists'.mp hnode
  obtain ⟨proc, hproc, hh⟩ := Option.bind_eq_some_iff.mp hnode
  obtain ⟨ws, handler, hws, hid, -, -, hnone, heq⟩ := resumeErrorHandler_handled
    checkpointId n hr hrun failed ht hproc hh
  have hfresh : handler.task.id ∉ prepared.keys := hid ▸ hd.fresh _ _ _ ht
  rw [heq]
  refine ⟨?_, ?_⟩
  · intro k t' ht'
    have hk : k ≠ handler.task.id := fun e => hfresh (e ▸ OrdDict.mem_keys_iff.mpr ⟨t', ht'⟩)
    rw [OrdDict.get?_set_of_ne hk]
    by_cases he : k = failed.1
    · subst he
      cases ht.symm.trans ht'
      exact ⟨_, OrdDict.get?_set_self _ _ _⟩
    · rw [OrdDict.get?_set_of_ne he]
      exact hr.kept k t' ht'
  · intro k t' hk ht'
    have hne : k ≠ failed.1 := fun e => hk (e ▸ OrdDict.mem_keys_iff.mpr ⟨t, ht⟩)
    by_cases he : k = handler.task.id
    · subst he
      rw [OrdDict.get?_set_self] at ht'
      cases ht'
      exact hnone
    · rw [OrdDict.get?_set_of_ne he, OrdDict.get?_set_of_ne hne] at ht'
      exact hr.others k t' hk ht'

/-- A step leaves the entries of other failed tasks and of their handlers. -/
theorem get?_resumeErrorHandler_of_ne (hr : Resuming ctx prepared tasks) (hrun : HandlersRun ctx)
    {failed : String × PyVal} {x : String} (hx : x ≠ failed.1)
    (hhandler : ∀ t h, prepared.get? failed.1 = some t →
      errorHandlerTaskId ctx checkpointId n t h ≠ x) :
    (resumeErrorHandler ctx checkpointId n tasks failed).get? x = tasks.get? x := by
  by_cases hskip : ∀ t, prepared.get? failed.1 = some t →
      (ctx.processes.get? t.name).bind (·.errorHandlerNode) = none
  · rw [resumeErrorHandler_skip hr hskip]
  simp only [not_forall] at hskip
  obtain ⟨t, ht, hnode⟩ := hskip
  obtain ⟨h, hnode⟩ := Option.ne_none_iff_exists'.mp hnode
  obtain ⟨proc, hproc, hh⟩ := Option.bind_eq_some_iff.mp hnode
  obtain ⟨ws, handler, -, hid, -, -, -, heq⟩ := resumeErrorHandler_handled
    checkpointId n hr hrun failed ht hproc hh
  have hne : x ≠ handler.task.id := fun e => hhandler t h ht (hid.symm.trans e.symm)
  rw [heq, OrdDict.get?_set_of_ne hne, OrdDict.get?_set_of_ne hx]

/-- After the loop over the failed tasks: the task of one of them is done, and its
    handler task has no writes and the error. -/
theorem resumed_failed (hr : Resuming ctx prepared tasks) (hrun : HandlersRun ctx)
    (hd : DistinctHandlers ctx checkpointId n prepared) {failed : OrdDict String PyVal}
    {k : String} {e : PyVal} (hk : failed.get? k = some e) {t : Task} {ws : List (String × PyVal)}
    (ht : prepared.get? k = some t) (hws : tasks.get? k = some ⟨{ t with writes := ws }, none⟩)
    {proc : PregelNode} {h : String} (hproc : ctx.processes.get? t.name = some proc)
    (hh : proc.errorHandlerNode = some h) :
    let resumed := failed.entries.foldl (resumeErrorHandler ctx checkpointId n) tasks
    resumed.get? k = some ⟨{ t with writes := ws ++ [(Const.ERROR, e)] }, none⟩ ∧
      ∃ handler, resumed.get? (errorHandlerTaskId ctx checkpointId n t h) = some handler ∧
        handler.task.writes = [] ∧ handler.nodeError = some (t.name, e) := by
  have hframe : ∀ (es : List (String × PyVal)) (tasks : OrdDict String LoopTask),
      Resuming ctx prepared tasks → k ∉ es.map Prod.fst →
      Resuming ctx prepared (es.foldl (resumeErrorHandler ctx checkpointId n) tasks) ∧
      (es.foldl (resumeErrorHandler ctx checkpointId n) tasks).get? k = tasks.get? k ∧
      (es.foldl (resumeErrorHandler ctx checkpointId n) tasks).get?
        (errorHandlerTaskId ctx checkpointId n t h) =
          tasks.get? (errorHandlerTaskId ctx checkpointId n t h) := by
    intro es
    induction es with
    | nil => exact fun tasks hr _ => ⟨hr, rfl, rfl⟩
    | cons f es ih =>
      intro tasks hr hout
      rw [List.map_cons, List.mem_cons, not_or] at hout
      obtain ⟨hr', htask, hhandler⟩ := ih _ (hr.step hrun hd f) hout.2
      rw [List.foldl_cons]
      refine ⟨hr', htask.trans ?_, hhandler.trans ?_⟩
      · apply get?_resumeErrorHandler_of_ne hr hrun hout.1
        intro t' h' ht' he
        exact hd.fresh _ _ _ ht' (he ▸ OrdDict.mem_keys_iff.mpr ⟨t, ht⟩)
      · by_cases hmem : f.1 ∈ prepared.keys
        · obtain ⟨t', ht'⟩ := OrdDict.mem_keys_iff.mp hmem
          apply get?_resumeErrorHandler_of_ne hr hrun
          · exact fun he => hd.fresh _ _ _ ht (he ▸ hmem)
          · intro t'' h' ht'' he
            exact hout.1 (hd.inj _ _ _ _ _ _ ht'' ht he).symm
        · rw [resumeErrorHandler_skip hr]
          intro t' ht'
          exact absurd (OrdDict.mem_keys_iff.mpr ⟨t', ht'⟩) hmem
  obtain ⟨pre, post, hsplit⟩ := List.append_of_mem (OrdDict.get?_eq_some_iff.mp hk)
  have hn : (pre.map Prod.fst ++ k :: post.map Prod.fst).Nodup := by
    have := failed.keys_nodup
    rwa [OrdDict.keys, hsplit, List.map_append, List.map_cons] at this
  have hpre : k ∉ pre.map Prod.fst := fun hm =>
    (List.nodup_append.mp hn).2.2 k hm k (List.mem_cons_self ..) rfl
  have hpost : k ∉ post.map Prod.fst :=
    (List.nodup_cons.mp (List.nodup_append.mp hn).2.1).1
  obtain ⟨hr₁, htask₁, -⟩ := hframe pre tasks hr hpre
  obtain ⟨ws', handler, hws', hid, hnil, herror, -, heq⟩ := resumeErrorHandler_handled
    checkpointId n hr₁ hrun (k, e) ht hproc hh
  obtain ⟨-, htask₂, hhandler₂⟩ := hframe post _ (hr₁.step hrun hd (k, e)) hpost
  have hws' : some (⟨{ t with writes := ws }, none⟩ : LoopTask) = some ⟨{ t with writes := ws' }, none⟩ :=
    hws.symm.trans (htask₁.symm.trans hws')
  cases hws'
  have hne : k ≠ handler.task.id := fun he =>
    hd.fresh _ _ _ ht (hid ▸ he ▸ OrdDict.mem_keys_iff.mpr ⟨t, ht⟩)
  simp only [hsplit, List.foldl_append, List.foldl_cons]
  refine ⟨?_, handler, ?_, hnil, herror⟩
  · rw [htask₂, heq, OrdDict.get?_set_of_ne hne, OrdDict.get?_set_self]
  · rw [hhandler₂, heq, ← hid, OrdDict.get?_set_self]

end Resume

/-! ## What a process stores for one task -/

/-- The task has a write to the channel. -/
def Slots.Writes (s : Slots) (t c : String) : Prop := ∃ i v, s (t, i) = some (c, v)

/-- A special slot keeps its channel, another one its write. -/
theorem Slots.Writes.putMemory {s : Slots} {t c : String} (h : s.Writes t c) (hk : s.WellKeyed)
    (call : PutWritesCall) : (s.putMemory call).Writes t c := by
  obtain ⟨i, v, hi⟩ := h
  obtain ⟨m, hm⟩ := hk _ _ hi
  by_cases hneg : i < 0
  · have hsome : ((s.putMemory call) (t, i)).isSome :=
      Slots.isSome_put.mpr (Or.inl (by rw [hi]; rfl))
    obtain ⟨cv, hcv⟩ := Option.isSome_iff_exists.mp hsome
    obtain ⟨m', hm'⟩ := hk.put _ _ hcv
    have hc : writesIdxMap c = some i := writesIdxMap_of_writeIdx_neg hm hneg
    have hcv' : cv.1 = c := (writeIdx_eq_special_iff hc m').mp hm'.symm
    exact ⟨i, cv.2, by rw [hcv, ← hcv']⟩
  · refine ⟨i, v, ?_⟩
    simp only [Slots.putMemory, Slots.put, decide_eq_false hneg, Bool.false_eq_true, if_false, hi,
      Option.some_or]

/-- Where the slots of the task are all special, a call stores a write to every
    channel that it names. -/
theorem Slots.writes_putMemory {s : Slots} {t path : String} {ws : List (String × PyVal)}
    (hk : s.WellKeyed) (hs : ∀ i cv, s (t, i) = some cv → (writesIdxMap cv.1).isSome)
    {w : String × PyVal} (hw : w ∈ ws) : (s.putMemory ⟨t, ws, path⟩).Writes t w.1 := by
  rw [← map_snd_keyedWrites t 0 ws] at hw
  obtain ⟨e, he, rfl⟩ := List.mem_map.mp hw
  obtain ⟨het, -, m, hm⟩ := mem_keyedWrites he
  have hkey : e.1 ∈ (PutWritesCall.mk t ws path).keys := List.mem_map_of_mem he
  have hsome : ((s.putMemory ⟨t, ws, path⟩) e.1).isSome := Slots.isSome_put.mpr (Or.inr hkey)
  obtain ⟨cv, hcv⟩ := Option.isSome_iff_exists.mp hsome
  obtain ⟨m', hm'⟩ := hk.put _ _ hcv
  have hek : e.1 = (t, e.1.2) := Prod.ext het rfl
  refine ⟨e.1.2, cv.2, ?_⟩
  rw [← hek, hcv]
  by_cases hneg : e.1.2 < 0
  · have hc : writesIdxMap e.2.1 = some e.1.2 := writesIdxMap_of_writeIdx_neg hm hneg
    have hcv' : cv.1 = e.2.1 := (writeIdx_eq_special_iff hc m').mp hm'.symm
    rw [← hcv']
  · -- nothing was stored there, and one entry of the call has the key
    rcases Slots.eq_some_of_put hcv with hold | hmem
    · rw [hek] at hold
      have hspecial := (writeIdx_neg_iff (n := m')).mpr (hs _ _ hold)
      exact absurd (hm' ▸ hspecial) hneg
    · have hpos : decide (0 ≤ e.1.2) = true := decide_eq_true (Int.not_lt.mp hneg)
      have hsame := List.inj_on_of_nodup_map (nodup_ordinary_keyedWrites (t := t) 0 ws).1
        (List.mem_filter.mpr ⟨he, hpos⟩) (List.mem_filter.mpr ⟨hmem, hpos⟩) rfl
      rw [hsame]

namespace PendingLoop
variable {V : Type}

def slots (l : PendingLoop V) : Slots := l.saver.slotsAt l.checkpointId

/-- What the commits of other tasks leave. -/
structure SameAt (t : String) (l l' : PendingLoop V) : Prop where
  durability : l'.durability = l.durability
  saveable : l'.saveable = l.saveable
  list : l'.listOf t = l.listOf t
  slots : ∀ i, l'.slots (t, i) = l.slots (t, i)

theorem SameAt.refl (t : String) (l : PendingLoop V) : SameAt t l l := ⟨rfl, rfl, rfl, fun _ => rfl⟩

theorem SameAt.trans {t : String} {l l' l'' : PendingLoop V} (h : SameAt t l l')
    (h' : SameAt t l' l'') : SameAt t l l'' :=
  ⟨h'.durability.trans h.durability, h'.saveable.trans h.saveable, h'.list.trans h.list,
    fun i => (h'.slots i).trans (h.slots i)⟩

theorem checkpointId_commit (l : PendingLoop V) (t : String) (handler : Option String) (a : Attempt)
    (path : String) : (l.commit t handler a path).checkpointId = l.checkpointId := by
  unfold commit putWrites
  split
  · rfl
  · split <;> rfl

theorem sameAt_putWrites {l : PendingLoop V} {t t' path : String} {ws : List (String × PyVal)}
    (hnull : t' ≠ Const.NULL_TASK_ID) (ht : t ≠ t') : SameAt t l (l.putWrites t' ws path) := by
  by_cases hws : ws = []
  · rw [hws]
    exact .refl t l
  rw [putWrites_of_ne_nil l t' ws path hws]
  refine ⟨rfl, rfl, ?_, ?_⟩
  · rw [listOf, listOf, remaining, if_neg hnull, List.filter_append, List.filter_filter]
    have hnone : (pendingOf t' (dedupSpecial ws)).filter (fun w => w.taskId = t) = [] := by
      apply List.filter_eq_nil_iff.mpr
      intro w hw
      obtain ⟨cv, -, rfl⟩ := List.mem_map.mp hw
      simpa using ht.symm
    rw [hnone, List.append_nil]
    congr 1
    apply List.filter_congr
    intro w _
    by_cases hw : w.taskId = t
    · simp [hw, ht]
    · simp [hw]
  · intro i
    show InMemorySaver.slotsAt (if l.durability = .exit then _ else _) l.checkpointId (t, i) = _
    split
    · rfl
    · exact InMemorySaver.slotsAt_putWrites_of_ne ht _

theorem sameAt_runProcess {t : String} : ∀ {commits : List RoutedCommit} {l : PendingLoop V},
    (∀ c ∈ commits, c.taskId ≠ Const.NULL_TASK_ID) → (∀ c ∈ commits, c.taskId ≠ t) →
      SameAt t l (l.runProcess commits)
  | [], l, _, _ => .refl t l
  | c :: commits, l, hnull, hne => by
    have hc : SameAt t l (l.commit c.taskId c.handler c.attempt c.taskPath) := by
      unfold commit
      split
      · exact .refl t l
      · exact sameAt_putWrites (hnull c (List.mem_cons_self ..)) (hne c (List.mem_cons_self ..)).symm
    exact hc.trans (sameAt_runProcess (fun c' hc' => hnull c' (List.mem_cons_of_mem _ hc'))
      fun c' hc' => hne c' (List.mem_cons_of_mem _ hc'))

theorem slots_restart (l : PendingLoop V) (paths : String → String) (k : WriteKey) :
    (l.restart paths).slots k =
      if l.durability = .exit then l.slots.putMemory ⟨k.1, l.listOf k.1, paths k.1⟩ k
      else l.slots k := by
  unfold restart
  split
  · exact l.slotsAt_putPendingWrites paths k
  · rfl

theorem WellStored.runProcess {l : PendingLoop V} (h : l.WellStored) (commits : List RoutedCommit) :
    (l.runProcess commits).WellStored := by
  unfold PendingLoop.runProcess
  induction commits generalizing l with
  | nil => exact h
  | cons c commits ih => exact ih (h.commit c.taskId c.handler c.attempt c.taskPath)

theorem savedBy_congr {l l' : PendingLoop V} (hd : l'.durability = l.durability)
    (hs : l'.saveable = l.saveable) (c : RoutedCommit) : l'.savedBy c = l.savedBy c := by
  rw [savedBy, savedBy, hd, hs]

/-- A commit that also writes an ordinary channel is one call of the saver, at the
    commit or at the end of the process. -/
theorem slots_process {l : PendingLoop V} {pre post : List RoutedCommit} {c : RoutedCommit}
    {ws : List (String × PyVal)} (hids : ((pre ++ c :: post).map (·.taskId)).Nodup)
    (hnull : ∀ c' ∈ pre ++ c :: post, c'.taskId ≠ Const.NULL_TASK_ID)
    (hws : commitWrites c.handler c.attempt = some ws)
    (hord : ∃ w ∈ ws, isSpecial w.1 = false) (paths : String → String) (i : Int) :
    ((l.runProcess (pre ++ c :: post)).restart paths).slots (c.taskId, i) =
      l.slots.putMemory ⟨c.taskId, l.savedBy c, ""⟩ (c.taskId, i) := by
  rw [List.map_append, List.map_cons, List.nodup_append] at hids
  have hpre : ∀ c' ∈ pre, c'.taskId ≠ c.taskId := fun c' hc' =>
    hids.2.2 _ (List.mem_map_of_mem hc') _ (List.mem_cons_self ..)
  have hpost : ∀ c' ∈ post, c'.taskId ≠ c.taskId := fun c' hc' e =>
    (List.nodup_cons.mp hids.2.1).1 (List.mem_map.mpr ⟨c', hc', e⟩)
  have hc₀ : c.taskId ≠ Const.NULL_TASK_ID := hnull c (by simp)
  have hne : ws ≠ [] := by
    obtain ⟨w, hw, -⟩ := hord
    exact List.ne_nil_of_mem hw
  have hdedup : dedupSpecial ws = ws := by
    obtain ⟨w, hw, hsp⟩ := hord
    rw [dedupSpecial, if_neg]
    intro hall
    rw [List.all_eq_true.mp hall w hw] at hsp
    cases hsp
  have hbefore : SameAt c.taskId l (l.runProcess pre) :=
    sameAt_runProcess (fun c' hc' => hnull c' (by simp [hc'])) hpre
  let l₁ := l.runProcess pre
  let l₂ := l₁.commit c.taskId c.handler c.attempt c.taskPath
  have hl₂ : l₂ = l₁.putWrites c.taskId ws c.taskPath := by
    show l₁.commit _ _ _ _ = _
    rw [commit, hws]
  have hafter : SameAt c.taskId l₂ (l₂.runProcess post) :=
    sameAt_runProcess (fun c' hc' => hnull c' (by simp [hc'])) hpost
  have hrun : l.runProcess (pre ++ c :: post) = l₂.runProcess post := by
    simp only [runProcess, List.foldl_append, List.foldl_cons]
    rfl
  have hdur : l₂.durability = l.durability := (durability_commit ..).trans hbefore.durability
  rw [hrun, slots_restart, hafter.durability, hdur, hafter.list]
  have hsaved : l.savedBy c = if l.durability = .exit then ws else ws.filterMap l.saveable := by
    rw [savedBy, hws]
  by_cases hd : l.durability = .exit
  · rw [if_pos hd]
    have hlist : l₂.listOf c.taskId = ws := by
      rw [hl₂, putWrites_of_ne_nil _ _ _ _ hne, listOf, hdedup, remaining, if_neg hc₀,
        List.filter_append, List.filter_filter, filter_pendingOf, List.map_append]
      have hnone : (l₁.checkpointPendingWrites.filter fun w =>
          decide (w.taskId = c.taskId) && decide (w.taskId ≠ c.taskId)) = [] := by
        apply List.filter_eq_nil_iff.mpr
        intro w _
        by_cases hw : w.taskId = c.taskId <;> simp [hw]
      rw [hnone, pendingOf, List.map_map]
      exact List.map_id ws
    have hslots : ∀ i, l₂.slots (c.taskId, i) = l.slots (c.taskId, i) := by
      intro i
      rw [← hbefore.slots i, hl₂, putWrites_of_ne_nil _ _ _ _ hne]
      show InMemorySaver.slotsAt (if l₁.durability = .exit then _ else _) l₁.checkpointId
        (c.taskId, i) = _
      rw [if_pos (hbefore.durability.trans hd)]
      rfl
    rw [hlist, hsaved, if_pos hd]
    simp only [Slots.putMemory, Slots.put, hafter.slots, hslots]
    rfl
  · rw [if_neg hd, hafter.slots, hl₂, putWrites_of_ne_nil _ _ _ _ hne]
    show InMemorySaver.slotsAt (if l₁.durability = .exit then _ else _) l₁.checkpointId
      (c.taskId, i) = _
    rw [if_neg (fun e => hd (hbefore.durability.symm.trans e)), hdedup, writesToSave, merged,
      if_neg hc₀, hbefore.saveable, hsaved, if_neg hd,
      l₁.saver.slotsAt_putWrites l₁.checkpointId ⟨c.taskId, ws.filterMap l.saveable, c.taskPath⟩]
    have hslot := hbefore.slots i
    simp only [slots] at hslot
    simp only [Slots.putMemory, Slots.put, slots, l₁, hslot]
    rfl

/-- What the slots hold of a task that failed and was routed to its handler. -/
structure FailedSlots (s : Slots) (t : String) (error : PyVal) (saved : List (String × PyVal)) :
    Prop where
  written : ∀ w ∈ saved, s.Writes t w.1
  known : ∀ i cv, s (t, i) = some cv →
    cv.1 ∈ [Const.ERROR, Const.INTERRUPT, Const.RESUME] ∨ ∃ w ∈ saved, w.1 = cv.1
  error : ∀ i v, s (t, i) = some (Const.ERROR, v) → v = error

/-- Storing again what is stored adds nothing. -/
theorem FailedSlots.reput {s : Slots} {t path : String} {error : PyVal}
    {saved ws : List (String × PyVal)} (h : FailedSlots s t error saved) (hk : s.WellKeyed)
    (hws : ∀ w ∈ ws, s.Holds ⟨t, w.1, w.2⟩) :
    FailedSlots (s.putMemory ⟨t, ws, path⟩) t error saved := by
  have hheld : ∀ i cv, (s.putMemory ⟨t, ws, path⟩) (t, i) = some cv → ∃ j, s (t, j) = some cv := by
    intro i cv hi
    rcases Slots.eq_some_of_put hi with hold | hmem
    · exact ⟨i, hold⟩
    · exact hws cv (mem_keyedWrites hmem).2.1
  refine ⟨fun w hw => (h.written w hw).putMemory hk _, ?_, ?_⟩
  · intro i cv hi
    obtain ⟨j, hj⟩ := hheld i cv hi
    exact h.known j cv hj
  · intro i v hi
    obtain ⟨j, hj⟩ := hheld i _ hi
    exact h.error j v hj

theorem FailedSlots.congr {s s' : Slots} {t : String} {error : PyVal} {saved : List (String × PyVal)}
    (h : FailedSlots s t error saved) (hs : ∀ i, s' (t, i) = s (t, i)) :
    FailedSlots s' t error saved := by
  refine ⟨?_, ?_, ?_⟩
  · intro w hw
    obtain ⟨i, v, hi⟩ := h.written w hw
    exact ⟨i, v, (hs i).trans hi⟩
  · intro i cv hi
    exact h.known i cv ((hs i).symm.trans hi)
  · intro i v hi
    exact h.error i v ((hs i).symm.trans hi)

/-- A process that does not run the task again leaves what it failed with. -/
theorem FailedSlots.process {l : PendingLoop V} {t : String} {error : PyVal}
    {saved : List (String × PyVal)} (hw : l.WellStored)
    (hlist : l.checkpointPendingWrites = l.storedWrites) (h : FailedSlots l.slots t error saved)
    {commits : List RoutedCommit} (hnull : ∀ c ∈ commits, c.taskId ≠ Const.NULL_TASK_ID)
    (hne : ∀ c ∈ commits, c.taskId ≠ t) (paths : String → String) :
    FailedSlots ((l.runProcess commits).restart paths).slots t error saved := by
  have hsame := sameAt_runProcess (l := l) hnull hne
  by_cases hd : l.durability = .exit
  · have hput : FailedSlots (l.slots.putMemory ⟨t, l.listOf t, paths t⟩) t error saved := by
      apply h.reput hw.wellKeyed
      intro w hmem
      have hm := mem_listOf.mp hmem
      rw [hlist] at hm
      exact (mem_storedWrites_iff hw _).mp hm
    apply hput.congr
    intro i
    rw [slots_restart, if_pos (hsame.durability.trans hd), hsame.list]
    simp only [Slots.putMemory, Slots.put, hsame.slots]
  · apply h.congr
    intro i
    rw [slots_restart, if_neg (fun e => hd (hsame.durability.symm.trans e)), hsame.slots]

theorem saveable_of_not_untracked {l : PendingLoop V} {c : String} (hc : c ≠ Const.TASKS)
    (hspec : (l.specs.get? c).any Channel.isUntracked = false) (v : PyVal) :
    l.saveable (c, v) = some (c, v) := by
  unfold saveable
  split
  · simp only [hspec, Bool.false_eq_true, if_false]
  · rfl

/-- What the commit of a task saves that failed and is routed to its handler. -/
theorem savedBy_failed {l : PendingLoop V} {c : RoutedCommit} {name : String} {e : PyVal}
    (hhandler : c.handler = some name) (hout : c.attempt.outcome = .error e)
    (hres : ∀ chan ∈ [Const.ERROR, Const.ERROR_SOURCE_NODE],
      (l.specs.get? chan).any Channel.isUntracked = false) :
    ∃ ws, l.savedBy c =
      ws ++ [(Const.ERROR, e), (Const.ERROR_SOURCE_NODE, PyVal.str name)] := by
  have hws : commitWrites c.handler c.attempt = some (c.attempt.appended ++
      [(Const.ERROR, e), (Const.ERROR_SOURCE_NODE, PyVal.str name)]) := by
    rw [commitWrites, hout, hhandler]
    simp
  have herror := saveable_of_not_untracked (l := l) (c := Const.ERROR) (by decide)
    (hres _ (by simp)) e
  have hsource := saveable_of_not_untracked (l := l) (c := Const.ERROR_SOURCE_NODE) (by decide)
    (hres _ (by simp)) (.str name)
  rw [savedBy, hws]
  simp only
  split
  · exact ⟨_, rfl⟩
  · refine ⟨c.attempt.appended.filterMap l.saveable, ?_⟩
    rw [List.filterMap_append, List.filterMap_cons, herror, List.filterMap_cons, hsource]
    rfl

/-- The process in which the task fails stores its error and what it had written. -/
theorem failedSlots_process {l : PendingLoop V} (hw : l.WellStored) {pre post : List RoutedCommit}
    {c : RoutedCommit} {name : String} {e : PyVal} (hhandler : c.handler = some name)
    (hout : c.attempt.outcome = .error e)
    (hres : ∀ chan ∈ [Const.ERROR, Const.ERROR_SOURCE_NODE],
      (l.specs.get? chan).any Channel.isUntracked = false)
    (hids : ((pre ++ c :: post).map (·.taskId)).Nodup)
    (hnull : ∀ c' ∈ pre ++ c :: post, c'.taskId ≠ Const.NULL_TASK_ID)
    (hstart : ∀ i cv, l.slots (c.taskId, i) = some cv →
      cv.1 ∈ [Const.ERROR, Const.INTERRUPT, Const.RESUME]) (paths : String → String) :
    FailedSlots ((l.runProcess (pre ++ c :: post)).restart paths).slots c.taskId e (l.savedBy c) := by
  obtain ⟨ws, hsaved⟩ := savedBy_failed (l := l) hhandler hout hres
  have hcommit : ∃ ws, commitWrites c.handler c.attempt = some ws ∧
      ∃ w ∈ ws, isSpecial w.1 = false := by
    refine ⟨_, by rw [commitWrites, hout, hhandler], (Const.ERROR_SOURCE_NODE, .str name), ?_, rfl⟩
    simp
  obtain ⟨ws', hws', hord⟩ := hcommit
  have hput : FailedSlots (l.slots.putMemory ⟨c.taskId, l.savedBy c, ""⟩) c.taskId e (l.savedBy c) := by
    refine ⟨?_, ?_, ?_⟩
    · intro w hmem
      apply Slots.writes_putMemory hw.wellKeyed _ hmem
      intro i cv hi
      have hcv := hstart i cv hi
      simp only [List.mem_cons, List.not_mem_nil, or_false] at hcv
      rcases hcv with h | h | h <;> rw [h] <;> decide
    · intro i cv hi
      rcases Slots.eq_some_of_put hi with hold | hmem
      · exact Or.inl (hstart i cv hold)
      · exact Or.inr ⟨cv, (mem_keyedWrites hmem).2.1, rfl⟩
    · intro i v hi
      obtain ⟨m, hm⟩ := (hw.wellKeyed.put) _ _ hi
      have hspecial : writesIdxMap Const.ERROR = some (-1) := rfl
      have hidx : i = -1 := hm.trans (writeIdx_of_special hspecial m)
      have hlast : lastValue (l.savedBy c) Const.ERROR = some e := by
        have hne : Const.ERROR_SOURCE_NODE ≠ Const.ERROR := by decide
        simp [lastValue, hsaved, OrdDictEntries.get, hne]
      have hneg : decide (((c.taskId, -1) : WriteKey).2 < 0) = true := rfl
      rw [hidx, Slots.putMemory, Slots.put, if_pos hneg, PutWritesCall.entries,
        get_reverse_keyedWrites_special hspecial, hlast] at hi
      exact (congrArg Prod.snd (Option.some.inj hi)).symm
  apply hput.congr
  exact slots_process hids hnull hws' hord paths

/-- The pending writes of a process that resumes after the task has failed. -/
theorem failedSlots_processes {l : PendingLoop V} (hw : l.WellStored) {t : String} {error : PyVal}
    {saved : List (String × PyVal)} (hlist : l.checkpointPendingWrites = l.storedWrites)
    (h : FailedSlots l.slots t error saved) :
    ∀ {history : List (List RoutedCommit × (String → String))},
      (∀ p ∈ history, ∀ c ∈ p.1, c.taskId ≠ Const.NULL_TASK_ID) →
      (∀ p ∈ history, ∀ c ∈ p.1, c.taskId ≠ t) →
        (l.runProcesses history).WellStored ∧
          (l.runProcesses history).checkpointPendingWrites = (l.runProcesses history).storedWrites ∧
          FailedSlots (l.runProcesses history).slots t error saved := by
  intro history
  unfold runProcesses
  induction history generalizing l with
  | nil => exact fun _ _ => ⟨hw, hlist, h⟩
  | cons p history ih =>
    intro hnull hne
    have hp := h.process hw hlist (hnull p (List.mem_cons_self ..)) (hne p (List.mem_cons_self ..)) p.2
    exact ih ((hw.runProcess p.1).restart p.2) (checkpointPendingWrites_restart _ p.2) hp
      (fun p' hp' => hnull p' (List.mem_cons_of_mem _ hp'))
      fun p' hp' => hne p' (List.mem_cons_of_mem _ hp')

theorem checkpointId_runProcess (l : PendingLoop V) (commits : List RoutedCommit) :
    (l.runProcess commits).checkpointId = l.checkpointId := by
  unfold runProcess
  induction commits generalizing l with
  | nil => rfl
  | cons c commits ih => rw [List.foldl_cons, ih, checkpointId_commit]

theorem checkpointId_runProcesses (l : PendingLoop V)
    (history : List (List RoutedCommit × (String → String))) :
    (l.runProcesses history).checkpointId = l.checkpointId := by
  unfold runProcesses
  induction history generalizing l with
  | nil => rfl
  | cons p history ih =>
    have hrestart : ((l.runProcess p.1).restart p.2).checkpointId = l.checkpointId := by
      rw [← checkpointId_runProcess l p.1]
      unfold restart
      split <;> rfl
    rw [List.foldl_cons, ih, hrestart]

/-! ## The resumed tick -/

/-- What the list of the resumed process says about the task. -/
theorem failedTasks_of_slots {l : PendingLoop V} (hw : l.WellStored)
    (hlist : l.checkpointPendingWrites = l.storedWrites) {t : String} {e : PyVal}
    {saved : List (String × PyVal)} (h : FailedSlots l.slots t e saved) (he : e ≠ .none)
    (herror : ∃ w ∈ saved, w.1 = Const.ERROR) (hsource : ∃ w ∈ saved, w.1 = Const.ERROR_SOURCE_NODE) :
    (failedTasks l.checkpointPendingWrites).get? t = some e := by
  have hmem : ∀ w, w ∈ l.checkpointPendingWrites ↔ l.slots.Holds w := fun w => by
    rw [hlist]
    exact mem_storedWrites_iff hw w
  have hfind : errorOf l.checkpointPendingWrites t = some e := by
    obtain ⟨w, hws, hc⟩ := herror
    obtain ⟨i, v, hi⟩ := h.written w hws
    have hsome : (l.checkpointPendingWrites.find? fun w =>
        decide (w.taskId = t ∧ w.channel = Const.ERROR)).isSome := by
      rw [List.find?_isSome]
      exact ⟨⟨t, w.1, v⟩, (hmem _).mpr ⟨i, hi⟩, decide_eq_true ⟨rfl, hc⟩⟩
    obtain ⟨w', hw'⟩ := Option.isSome_iff_exists.mp hsome
    have hcond := List.find?_some hw'
    obtain ⟨ht', hc'⟩ : w'.taskId = t ∧ w'.channel = Const.ERROR := of_decide_eq_true hcond
    obtain ⟨j, hj⟩ := (hmem w').mp (List.mem_of_find?_eq_some hw')
    rw [ht', hc'] at hj
    have hv : w'.value = e := h.error j _ hj
    rw [errorOf, hw', Option.map_some, hv]
    simp [Option.filter, he]
  obtain ⟨w, hws, hc⟩ := hsource
  obtain ⟨i, v, hi⟩ := h.written w hws
  have hmarker : ⟨t, w.1, v⟩ ∈ l.checkpointPendingWrites := (hmem _).mpr ⟨i, hi⟩
  rw [failedTasks, OrdDict.get?_ofList_eq_some_iff]
  · exact List.mem_filterMap.mpr ⟨_, hmarker, by simp [hc, hfind]⟩
  · intro a ha b hb hab
    obtain ⟨wa, -, hwa⟩ := List.mem_filterMap.mp ha
    obtain ⟨wb, -, hwb⟩ := List.mem_filterMap.mp hb
    split at hwa
    · split at hwb
      · obtain ⟨ea, hea, rfl⟩ := Option.map_eq_some_iff.mp hwa
        obtain ⟨eb, heb, rfl⟩ := Option.map_eq_some_iff.mp hwb
        have hid : wa.taskId = wb.taskId := hab
        rw [hid, heb] at hea
        cases hea
        rw [hid]
      · cases hwb
    · cases hwa

/-- What the task gets back names the channels that it had saved. -/
theorem reapplied_channels {l : PendingLoop V} (hw : l.WellStored)
    (hlist : l.checkpointPendingWrites = l.storedWrites) {t : String} {e : PyVal}
    {saved : List (String × PyVal)} (h : FailedSlots l.slots t e saved) :
    (∀ w ∈ reapplied l.checkpointPendingWrites t, w.1 ∈ controlChannels) ↔
      ∀ w ∈ saved, w.1 ∈ controlChannels := by
  have hmem : ∀ w, w ∈ l.checkpointPendingWrites ↔ l.slots.Holds w := fun w => by
    rw [hlist]
    exact mem_storedWrites_iff hw w
  constructor
  · intro hback w hws
    by_cases hc : w.1 ∈ controlSignals
    · have hsub : ∀ c ∈ controlSignals, c ∈ controlChannels := by decide
      exact hsub _ hc
    · obtain ⟨i, v, hi⟩ := h.written w hws
      have hlisted : ⟨t, w.1, v⟩ ∈ l.checkpointPendingWrites := (hmem _).mpr ⟨i, hi⟩
      exact hback (w.1, v) (List.mem_map.mpr ⟨_, List.mem_filter.mpr
        ⟨hlisted, decide_eq_true ⟨rfl, hc⟩⟩, rfl⟩)
  · intro hsaved cv hcv
    obtain ⟨w, hwm, rfl⟩ := List.mem_map.mp hcv
    obtain ⟨hwm, hcond⟩ := List.mem_filter.mp hwm
    obtain ⟨ht, hctl⟩ := of_decide_eq_true hcond
    obtain ⟨i, hi⟩ := (hmem w).mp hwm
    rw [ht] at hi
    rcases h.known i _ hi with hsp | ⟨w', hw', hc⟩
    · have hsub : ∀ c ∈ [Const.ERROR, Const.INTERRUPT, Const.RESUME], c ∈ controlSignals := by decide
      exact absurd (hsub _ hsp) hctl
    · rw [← hc]
      exact hsaved w' hw'

end PendingLoop

/-- What a resumed tick makes of a task that failed and whose node has a handler:
    `persisted` says whether the handler's writes were saved, `saved` are those
    that the list has for it. -/
structure ResumesHandled (tasks : OrdDict String LoopTask) (failed : Task) (handlerId : String)
    (error : PyVal) (persisted : Prop) (saved : List (String × PyVal)) : Prop where
  done : ∃ t, tasks.get? failed.id = some t ∧ t.task.writes ≠ []
  runs : (∃ t, tasks.get? handlerId = some t ∧ t.task.writes = []) ↔ ¬persisted
  error : ∀ t, tasks.get? handlerId = some t → t.nodeError = some (failed.name, error)
  failedWrites : ∀ outputs t, (afterRunner outputs tasks).get? failed.id = some t →
    ∀ w ∈ t.task.writes, w.1 ∈ controlChannels
  handlerWrites : ∀ outputs, ∃ t, (afterRunner outputs tasks).get? handlerId = some t ∧
    (persisted → t.task.writes = saved) ∧ (¬persisted → t.task.writes = outputs handlerId)

namespace PendingLoop
variable {V : Type}

/-- A process has saved writes of the handler task, which had succeeded. -/
def HandlerSaved (l : PendingLoop V) (history : List (List RoutedCommit × (String → String)))
    (handlerId : String) : Prop :=
  ∃ p ∈ history, ∃ c ∈ p.1, c.taskId = handlerId ∧ c.attempt.outcome = .ok ∧ l.savedBy c ≠ []

/-- However the process ends in which the task fails, and however those after it:
    a resumed one treats the task and its handler rightly exactly when it replays
    no checkpoint, the task has saved no channel write, and no process has saved
    the handler's writes. -/
theorem handledFailure_resumes_iff {l : PendingLoop V} (hw : l.WellStored)
    {ctx : TaskContext} {n : Int} {prepared : OrdDict String Task} (hrun : HandlersRun ctx)
    (hd : DistinctHandlers ctx l.checkpointId n prepared)
    {t : Task} (ht : prepared.get? t.id = some t) (hnil : t.writes = []) {proc : PregelNode}
    {h : String} (hproc : ctx.processes.get? t.name = some proc) (hh : proc.errorHandlerNode = some h)
    {c : RoutedCommit} {name : String} {e : PyVal}
    (hc : c.taskId = t.id) (hhandler : c.handler = some name) (hout : c.attempt.outcome = .error e)
    (he : e ≠ .none) (pre post : List RoutedCommit) (paths : String → String)
    (later : List (List RoutedCommit × (String → String)))
    (hstart : ∀ i cv, l.slots (t.id, i) = some cv →
      cv.1 ∈ [Const.ERROR, Const.INTERRUPT, Const.RESUME])
    (hids : ((pre ++ c :: post).map (·.taskId)).Nodup)
    (hnull : ∀ p ∈ (pre ++ c :: post, paths) :: later, ∀ c' ∈ p.1,
      c'.taskId ≠ Const.NULL_TASK_ID)
    (hlater : ∀ p ∈ later, ∀ c' ∈ p.1, c'.taskId ≠ t.id)
    (hres : ∀ chan ∈ [Const.ERROR, Const.ERROR_SOURCE_NODE],
      (l.specs.get? chan).any Channel.isUntracked = false) (isReplaying : Bool) :
    let history := (pre ++ c :: post, paths) :: later
    let resumed := l.runProcesses history
    let handlerId := errorHandlerTaskId ctx l.checkpointId n t h
    ResumesHandled (resumed.tickTasks ctx n isReplaying prepared) t handlerId e
        (l.HandlerSaved history handlerId) (reapplied resumed.checkpointPendingWrites handlerId) ↔
      isReplaying = false ∧ (∀ w ∈ l.savedBy c, w.1 ∈ controlChannels) ∧
        ¬l.HandlerSaved history handlerId := by
  intro history resumed handlerId
  have hfailed := failedSlots_process hw hhandler hout hres hids
    (hnull _ (List.mem_cons_self ..)) (fun i cv hi => hstart i cv (hc ▸ hi)) paths
  rw [hc] at hfailed
  obtain ⟨hwell, hlist, hslots⟩ := failedSlots_processes
    ((hw.runProcess _).restart paths) (checkpointPendingWrites_restart _ paths) hfailed
    (fun p hp => hnull p (List.mem_cons_of_mem _ hp)) hlater
  obtain ⟨ws, hsaved⟩ := savedBy_failed (l := l) hhandler hout hres
  have hget : (failedTasks resumed.checkpointPendingWrites).get? t.id = some e :=
    failedTasks_of_slots hwell hlist hslots he ⟨(Const.ERROR, e), by simp [hsaved], rfl⟩
      ⟨(Const.ERROR_SOURCE_NODE, .str name), by simp [hsaved], rfl⟩
  cases isReplaying with
  | true =>
    constructor
    · intro hgood
      obtain ⟨t', ht', hne⟩ := hgood.done
      have hsame : (resumed.tickTasks ctx n true prepared).get? t.id = some ⟨t, none⟩ := by
        rw [tickTasks, if_pos rfl, OrdDict.get?_filterMap, ht]
        rfl
      cases hsame.symm.trans ht'
      exact absurd hnil hne
    · exact fun hcond => absurd hcond.1 (by decide)
  | false =>
    rw [and_iff_right rfl]
    have hre : ∀ k t', prepared.get? k = some t' →
        (reapplyAll resumed.checkpointPendingWrites prepared).get? k =
          some ⟨{ t' with writes := t'.writes ++ reapplied resumed.checkpointPendingWrites k }, none⟩ := by
      intro k t' ht'
      rw [reapplyAll, OrdDict.get?_filterMap, ht']
      rfl
    have hresuming : Resuming ctx prepared (reapplyAll resumed.checkpointPendingWrites prepared) := by
      refine ⟨fun k t' ht' => ⟨_, hre k t' ht'⟩, fun k t' hk ht' => ?_⟩
      rw [reapplyAll, OrdDict.get?_filterMap, OrdDict.get?_eq_none_iff.mpr hk] at ht'
      cases ht'
    have hcheckpoint : resumed.checkpointId = l.checkpointId := checkpointId_runProcesses l history
    obtain ⟨htask, handler, hhandlerTask, hempty, herror⟩ :=
      resumed_failed hresuming hrun hd hget ht (hre _ _ ht)
        hproc hh
    have htick : resumed.tickTasks ctx n false prepared =
        (failedTasks resumed.checkpointPendingWrites).entries.foldl
          (resumeErrorHandler ctx l.checkpointId n)
          (reapplyAll resumed.checkpointPendingWrites prepared) := by
      rw [tickTasks, if_neg (by decide), hcheckpoint]
    rw [← htick] at htask hhandlerTask
    have hruns : ∃ t, (resumed.tickTasks ctx n false prepared).get? handlerId = some t ∧
        t.task.writes = [] := ⟨handler, hhandlerTask, hempty⟩
    have hdone : t.writes ++ reapplied resumed.checkpointPendingWrites t.id ++
        [(Const.ERROR, e)] ≠ [] := by simp
    -- what `apply_writes` gets from the failed task and from its handler
    have hfailedTask : ∀ outputs, (afterRunner outputs
        (resumed.tickTasks ctx n false prepared)).get? t.id =
          some ⟨{ t with writes := t.writes ++ reapplied resumed.checkpointPendingWrites t.id ++
            [(Const.ERROR, e)] }, none⟩ := by
      intro outputs
      rw [afterRunner, OrdDict.get?_filterMap, htask, Option.bind_some,
        if_neg (by simp)]
    have hhandlerWrites : ∀ outputs, (afterRunner outputs
        (resumed.tickTasks ctx n false prepared)).get? handlerId =
          some { handler with task := { handler.task with writes := outputs handlerId } } := by
      intro outputs
      rw [afterRunner, OrdDict.get?_filterMap, hhandlerTask, Option.bind_some,
        if_pos (by rw [hempty]; rfl)]
    have hchannels := reapplied_channels hwell hlist hslots
    constructor
    · intro hgood
      refine ⟨?_, hgood.runs.mp hruns⟩
      apply hchannels.mp
      intro w hwback
      refine hgood.failedWrites (fun _ => []) _ (hfailedTask _) w ?_
      simp only [List.mem_append]
      exact Or.inl (Or.inr hwback)
    · intro hcond
      obtain ⟨hcontrol, hnot⟩ := hcond
      refine ⟨⟨_, htask, hdone⟩, ⟨fun _ => hnot, fun _ => hruns⟩, ?_, ?_, ?_⟩
      · intro t' ht'
        cases hhandlerTask.symm.trans ht'
        exact herror
      · intro outputs t' ht' w hwt
        cases (hfailedTask outputs).symm.trans ht'
        simp only [hnil, List.nil_append, List.mem_append, List.mem_singleton] at hwt
        rcases hwt with hback | hmark
        · exact hchannels.mpr hcontrol w hback
        · have hctl : Const.ERROR ∈ controlChannels := by decide
          rw [hmark]
          exact hctl
      · intro outputs
        exact ⟨_, hhandlerWrites outputs, fun hp => absurd hp hnot, fun _ => rfl⟩

end PendingLoop

/-! ## Runs -/

/-- A node and its error handler. -/
def guardedContext : TaskContext where
  processes := .ofList
    [("node", ⟨.list [], [], none, true, some "__error_handler__node"⟩),
      ("__error_handler__node", ⟨.list [], [], none, true, none⟩)]
  managed := ∅
  parentNs := ""
  xxh3 _ _ := "0f8a6c9d2e4b71035d6a9c1e7b384f20"

theorem handlersRun_guarded : HandlersRun guardedContext := by
  intro name proc h hproc hh
  have hmem := OrdDict.get?_eq_some_iff.mp hproc
  have hentries : guardedContext.processes.entries =
      [("node", ⟨.list [], [], none, true, some "__error_handler__node"⟩),
        ("__error_handler__node", ⟨.list [], [], none, true, none⟩)] := rfl
  rw [hentries] at hmem
  simp only [List.mem_cons, Prod.mk.injEq, List.not_mem_nil, or_false] at hmem
  rcases hmem with ⟨-, rfl⟩ | ⟨-, rfl⟩
  · cases hh
    exact ⟨_, rfl, rfl, rfl⟩
  · cases hh

def guardedTasks : OrdDict String Task := .ofList [("fails", failedTask)]

theorem distinctHandlers_guarded (checkpointId : String) (n : Int) :
    DistinctHandlers guardedContext checkpointId n guardedTasks := by
  have hkeys : guardedTasks.keys = ["fails"] := rfl
  refine ⟨?_, ?_⟩
  · intro k t h _
    rw [hkeys]
    show ¬"0f8a6c9d2e4b71035d6a9c1e7b384f20" ∈ ["fails"]
    decide
  · intro k t h k' t' h' hk hk' _
    have hmem := OrdDict.mem_keys_iff.mpr ⟨t, hk⟩
    have hmem' := OrdDict.mem_keys_iff.mpr ⟨t', hk'⟩
    rw [hkeys, List.mem_singleton] at hmem hmem'
    rw [hmem, hmem']

/-- The node fails, with or without writes before. -/
def guardedCommit (appended : List (String × PyVal)) : RoutedCommit :=
  { plainCommit "fails" appended (.error (.str "boom")) with handler := some "node" }

theorem handledFailure_guarded :
    ResumesHandled
      ((freshLoop.runProcesses [([guardedCommit []], fun _ => "")]).tickTasks guardedContext 1 false
        guardedTasks) failedTask
      (errorHandlerTaskId guardedContext freshLoop.checkpointId 1 failedTask "__error_handler__node")
      (.str "boom")
      (freshLoop.HandlerSaved [([guardedCommit []], fun _ => "")]
        (errorHandlerTaskId guardedContext freshLoop.checkpointId 1 failedTask
          "__error_handler__node"))
      (reapplied (freshLoop.runProcesses [([guardedCommit []], fun _ => "")]).checkpointPendingWrites
        (errorHandlerTaskId guardedContext freshLoop.checkpointId 1 failedTask
          "__error_handler__node")) := by
  have hsaved : ¬freshLoop.HandlerSaved [([guardedCommit []], fun _ => "")]
      (errorHandlerTaskId guardedContext freshLoop.checkpointId 1 failedTask
        "__error_handler__node") := by
    intro ⟨p, hp, c, hc, hid, _⟩
    rw [List.mem_singleton.mp hp] at hc
    rw [List.mem_singleton.mp hc] at hid
    revert hid
    decide
  have hwell : freshLoop.WellStored := PendingLoop.wellStored_of_writesAt rfl
  have hproc : guardedContext.processes.get? failedTask.name =
      some ⟨.list [], [], none, true, some "__error_handler__node"⟩ := rfl
  have hhandler : (guardedCommit []).handler = some "node" := rfl
  have hout : (guardedCommit []).attempt.outcome = .error (.str "boom") := rfl
  have hstart : ∀ i cv, freshLoop.slots (failedTask.id, i) = some cv →
      cv.1 ∈ [Const.ERROR, Const.INTERRUPT, Const.RESUME] := by
    intro i cv hi
    cases hi
  exact (PendingLoop.handledFailure_resumes_iff hwell handlersRun_guarded
    (distinctHandlers_guarded _ 1) (t := failedTask) rfl rfl hproc rfl rfl hhandler hout
    (fun e => by cases e) [] [] (fun _ => "") [] hstart (by decide) (by decide +kernel) (by simp) (by decide +kernel)
    false).mpr ⟨rfl, by decide +kernel, hsaved⟩

/-- The state update that the node had made before it failed is applied. -/
theorem handledFailure_partial :
    ¬ResumesHandled
      ((freshLoop.runProcesses [([guardedCommit [("log", .str "a")]], fun _ => "")]).tickTasks
        guardedContext 1 false guardedTasks) failedTask
      (errorHandlerTaskId guardedContext freshLoop.checkpointId 1 failedTask "__error_handler__node")
      (.str "boom")
      (freshLoop.HandlerSaved [([guardedCommit [("log", .str "a")]], fun _ => "")]
        (errorHandlerTaskId guardedContext freshLoop.checkpointId 1 failedTask
          "__error_handler__node"))
      (reapplied (freshLoop.runProcesses [([guardedCommit [("log", .str "a")]],
        fun _ => "")]).checkpointPendingWrites
        (errorHandlerTaskId guardedContext freshLoop.checkpointId 1 failedTask
          "__error_handler__node")) := by
  intro h
  have hwritten : ((afterRunner (fun _ => []) ((freshLoop.runProcesses
      [([guardedCommit [("log", .str "a")]], fun _ => "")]).tickTasks guardedContext 1 false
        guardedTasks)).get? "fails").any (fun t => t.task.writes.contains ("log", .str "a")) = true := by
    decide +kernel
  cases ht : (afterRunner (fun _ => []) ((freshLoop.runProcesses
      [([guardedCommit [("log", .str "a")]], fun _ => "")]).tickTasks guardedContext 1 false
        guardedTasks)).get? "fails" with
  | none =>
    rw [ht] at hwritten
    cases hwritten
  | some t =>
    rw [ht] at hwritten
    have hlog : ("log", .str "a") ∈ t.task.writes := List.contains_iff_mem.mp hwritten
    have hcontrol := h.failedWrites (fun _ => []) t ht _ hlog
    revert hcontrol
    decide

end LangGraph
