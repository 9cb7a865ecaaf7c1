import LangGraph.Algo

/- When `prepare_next_tasks` prepares a task.

   Correspondence (source ↔ Lean):
     `_proc_input` is not `MISSING`                 ↔ `hasInput`
     a node is among the prepared `PULL` tasks      ↔ `Pulls`
   `hasInput` depends neither on the config nor on `for_execution`; with it the
   conditions of `prepare_single_task` become one equivalence
   (`preparePullTask_isSome_iff`). -/
namespace LangGraph

/-- The node finds its input: a node that reads several channels always does. -/
def hasInput (proc : PregelNode) (channels : OrdDict String Channel) : Bool :=
  match proc.channels with
  | .list _ => true
  | .single chan => (channels.get? chan).any (·.isAvailable)

theorem isSome_procInput (ctx : TaskContext) (proc : PregelNode)
    (channels : OrdDict String Channel) (forExecution : Bool) :
    (procInput ctx proc channels forExecution).isSome = hasInput proc channels := by
  unfold procInput hasInput
  cases proc.channels with
  | list chans => cases forExecution <;> cases proc.mapper <;> rfl
  | single chan =>
    cases hch : channels.get? chan with
    | none => cases forExecution <;> cases proc.mapper <;> simp [hch]
    | some c =>
      have hc := c.isAvailable_eq_isSome_get
      cases forExecution <;> cases proc.mapper <;> simp [hch, hc]

section Prepare
variable {V : Type} [LinearOrder V] [OrderBot V]
variable {ctx : TaskContext} {cp : Checkpoint V} {channels : OrdDict String Channel} {n : Int}
  {forExecution : Bool}

theorem preparePullTask_eq_some {name : String} {t : Task}
    (h : preparePullTask ctx cp channels n forExecution name = some t) :
    ∃ proc, ctx.processes.get? name = some proc ∧
      triggers channels cp.channelVersions (cp.versionsSeen.get? name) proc = true ∧
      hasInput proc channels = true ∧ t.name = name ∧ t.path = [.str Const.PULL, .str name] ∧
      t.triggers = SortBy.sortBy id proc.triggers := by
  unfold preparePullTask at h
  split at h
  · cases h
  · rename_i proc hproc
    split at h
    · cases h
    · split at h
      · rename_i htr
        simp only at h
        split at h
        · cases h
        · rename_i val hval
          split at h
          · cases h
          · cases h
            refine ⟨proc, hproc, htr, ?_, rfl, rfl, rfl⟩
            rw [← isSome_procInput ctx proc channels forExecution, hval]
            rfl
      · cases h

/-- A node is prepared when a trigger of it counts and it finds its input. -/
theorem preparePullTask_isSome_iff {name : String} (hver : cp.channelVersions.entries ≠ [])
    {proc : PregelNode} (hp : ctx.processes.get? name = some proc) (hn : proc.hasNode = true) :
    (∃ t, preparePullTask ctx cp channels n forExecution name = some t) ↔
      triggers channels cp.channelVersions (cp.versionsSeen.get? name) proc = true ∧
        hasInput proc channels = true := by
  constructor
  · rintro ⟨t, ht⟩
    obtain ⟨proc', hp', htr, hin, -⟩ := preparePullTask_eq_some ht
    cases Option.some.inj (hp'.symm.trans hp)
    exact ⟨htr, hin⟩
  · rintro ⟨htr, hin⟩
    rw [← isSome_procInput ctx proc channels forExecution, Option.isSome_iff_exists] at hin
    obtain ⟨val, hval⟩ := hin
    rw [← Option.isSome_iff_exists, preparePullTask, hp]
    simp only [List.isEmpty_iff, hver, if_false, htr, if_true, hval, hn, Bool.not_true,
      Bool.and_false, Bool.false_eq_true, Option.isSome_some]

/-- The tasks of `prepare_next_tasks`: the pending sends, then the candidate nodes. -/
theorem mem_nextTaskList {ttn : Option TriggerToNodes} {updated : Option (List String)} {t : Task} :
    t ∈ nextTaskList ctx cp channels n forExecution ttn updated ↔
      (∃ i < (pendingSends channels).length, preparePushTaskSend ctx cp channels n i = some t) ∨
        ∃ name ∈ candidateNodes ctx cp ttn updated,
          preparePullTask ctx cp channels n forExecution name = some t := by
  have hpush : ∀ i : Nat, prepareSingleTask ctx cp channels n forExecution
      [.str Const.PUSH, .int i] = preparePushTaskSend ctx cp channels n i := by
    intro i
    rw [prepareSingleTask, if_pos ⟨rfl, Int.natCast_nonneg i⟩, Int.toNat_natCast]
  have hpull : ∀ name, prepareSingleTask ctx cp channels n forExecution
      [.str Const.PULL, .str name] = preparePullTask ctx cp channels n forExecution name := by
    intro name
    rw [prepareSingleTask, if_pos rfl]
  simp only [nextTaskList, nextTaskPaths, List.filterMap_append, List.mem_append,
    List.mem_filterMap, List.mem_map, List.mem_range, exists_exists_and_eq_and, hpush, hpull]

omit [LinearOrder V] [OrderBot V] in
theorem preparePushTaskSend_path {i : Nat} {t : Task}
    (h : preparePushTaskSend ctx cp channels n i = some t) :
    t.path = [.str Const.PUSH, .int i, .int 0] ∧ t.triggers = [Const.PUSH] := by
  unfold preparePushTaskSend at h
  split at h
  · split at h
    · split at h
      · cases h
        exact ⟨rfl, rfl⟩
      · cases h
    · cases h
  · cases h

omit [LinearOrder V] [OrderBot V] in
theorem preparePushTaskSend_eq_some_iff {ctx : TaskContext} {cp : Checkpoint V}
    {channels : OrdDict String Channel} {step : Int} {idx : Nat} {t : Task} :
    preparePushTaskSend ctx cp channels step idx = some t ↔
      ∃ node arg proc, (pendingSends channels)[idx]? = some (.send node arg) ∧
        ctx.processes.get? node = some proc ∧ proc.hasNode = true ∧
        t = ⟨node, arg, [], [Const.PUSH], taskId ctx cp.id
          [ctx.checkpointNs node, toString step, node, Const.PUSH, toString idx],
          [.str Const.PUSH, .int idx, .int 0]⟩ := by
  unfold preparePushTaskSend
  constructor
  · intro h
    split at h
    · rename_i node arg hsend
      split at h
      · rename_i proc hproc
        split at h
        · rename_i hnode
          cases h
          exact ⟨node, arg, proc, hsend, hproc, hnode, rfl⟩
        · cases h
      · cases h
    · cases h
  · rintro ⟨node, arg, proc, hsend, hproc, hnode, rfl⟩
    simp only [hsend, hproc, hnode, if_true]

theorem preparePullTask_id {ctx : TaskContext} {cp : Checkpoint V}
    {channels : OrdDict String Channel} {step : Int} {forExecution : Bool} {name : String} {t : Task}
    (h : preparePullTask ctx cp channels step forExecution name = some t) :
    cp.channelVersions.entries ≠ [] ∧ t.writes = [] ∧
      ∀ proc, ctx.processes.get? name = some proc → t.id = taskId ctx cp.id
        ([ctx.checkpointNs name, toString step, name, Const.PULL] ++
          SortBy.sortBy id proc.triggers) := by
  unfold preparePullTask at h
  split at h
  · cases h
  · rename_i proc hproc
    split at h
    · cases h
    · rename_i hver
      split at h
      · simp only at h
        split at h
        · cases h
        · split at h
          · cases h
          · cases h
            refine ⟨by simpa using hver, rfl, fun proc' hp' => ?_⟩
            cases Option.some.inj (hproc.symm.trans hp')
            rfl
      · cases h

/-- A prepared task is not triggered by nothing. -/
theorem triggers_ne_nil_of_mem {ttn : Option TriggerToNodes} {updated : Option (List String)}
    {t : Task} (h : t ∈ nextTaskList ctx cp channels n forExecution ttn updated) :
    t.triggers ≠ [] := by
  rcases mem_nextTaskList.mp h with ⟨i, -, hi⟩ | ⟨name, -, hname⟩
  · rw [(preparePushTaskSend_path hi).2]
    exact List.cons_ne_nil _ _
  · obtain ⟨proc, -, htr, -, -, -, ht⟩ := preparePullTask_eq_some hname
    obtain ⟨chan, hchan, -⟩ := List.any_eq_true.mp htr
    rw [ht]
    exact List.ne_nil_of_mem (SortBy.mem_sortBy.mpr hchan)

end Prepare

/-! ## The dictionary of the tasks -/

/-- Tasks with distinct ids are all in the dictionary. -/
theorem get?_tasksById {tasks : List Task}
    (hid : ∀ t ∈ tasks, ∀ t' ∈ tasks, t.id = t'.id → t = t') {id : String} {t : Task} :
    (tasksById tasks).get? id = some t ↔ t ∈ tasks ∧ t.id = id := by
  have hfun : ∀ e ∈ tasks.map (fun t => (t.id, t)), ∀ e' ∈ tasks.map (fun t => (t.id, t)),
      e.1 = e'.1 → e = e' := by
    intro e he e' he' h
    obtain ⟨t, ht, rfl⟩ := List.mem_map.mp he
    obtain ⟨t', ht', rfl⟩ := List.mem_map.mp he'
    rw [hid t ht t' ht' h]
  rw [tasksById, OrdDict.get?_ofList_eq_some_iff hfun, List.mem_map]
  constructor
  · rintro ⟨t', ht', he⟩
    cases he
    exact ⟨ht', rfl⟩
  · rintro ⟨ht, rfl⟩
    exact ⟨t, ht, rfl⟩

theorem mem_values_tasksById {tasks : List Task}
    (hid : ∀ t ∈ tasks, ∀ t' ∈ tasks, t.id = t'.id → t = t') {t : Task} :
    t ∈ (tasksById tasks).values ↔ t ∈ tasks := by
  constructor
  · intro h
    obtain ⟨e, he, rfl⟩ := List.mem_map.mp h
    exact ((get?_tasksById hid).mp (OrdDict.get?_eq_some_iff.mpr he)).1
  · intro h
    have hget := (get?_tasksById hid).mpr ⟨h, rfl⟩
    exact List.mem_map.mpr ⟨_, OrdDict.get?_eq_some_iff.mp hget, rfl⟩

end LangGraph
