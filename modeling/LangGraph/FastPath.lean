import Mathlib.Order.Nat
import LangGraph.TaskPreparation
import LangGraph.LoopInvariants

/- When the hints of `prepare_next_tasks` leave out no task.

   With `updated_channels` and `trigger_to_nodes` only the nodes are looked at
   that a channel of the last step triggers. That is all of them as long as no
   trigger that fires is older (`Loop.Hinted`). A step keeps this unless it drops
   a node that fires but does not find its input: its trigger stays, and the next
   hint does not name it. `FastPathOk` is the condition that no step does so. -/
namespace LangGraph

section FastPath
variable {V : Type} [LinearOrder V] [OrderBot V]

/-- Every trigger that fires was updated in the last step. -/
def Loop.Hinted (p : Program V) (l : Loop V) : Prop :=
  ∀ us, l.updatedChannels = some us → ∀ node chan, p.Triggers node chan →
    l.fires node chan = true → chan ∈ us

/-- Every node that a trigger fires for finds its input. -/
def Loop.InputsPresent (p : Program V) (l : Loop V) : Prop :=
  ∀ e ∈ p.nodes.entries, ∀ chan ∈ e.2.triggers, l.fires e.1 chan = true →
    hasInput e.2 l.channels = true

/-- So does every node but those whose trigger the end of the step clears. -/
def Loop.DropsOnlyEphemeral (p : Program V) (l : Loop V) : Prop :=
  ∀ e ∈ p.nodes.entries, ∀ chan ∈ e.2.triggers, l.fires e.1 chan = true →
    hasInput e.2 l.channels = true ∨ (l.channels.get? chan).any (·.isEphemeral) = true

def DistinctIds (tasks : List Task) : Prop := (tasks.map (·.id)).Nodup

/-- No step drops a node that a trigger fires for, unless it clears the trigger. -/
def FastPathOk (p : Program V) (w : World V) : Event → Prop
  | .superstep info _ _ => ∀ l ∈ w.loop,
      l.DropsOnlyEphemeral p ∧ DistinctIds (l.tasks p info true)
  | .input info _ => ∀ l ∈ w.loop,
      (l.InputsPresent p ∨ l.DropsOnlyEphemeral p ∧ l.allTasks p info true ≠ []) ∧
        DistinctIds (l.allTasks p info true)
  | _ => True

instance (p : Program V) (l : Loop V) : Decidable (l.InputsPresent p) :=
  inferInstanceAs (Decidable (∀ e ∈ p.nodes.entries, ∀ chan ∈ e.2.triggers,
    l.fires e.1 chan = true → hasInput e.2 l.channels = true))

instance (p : Program V) (l : Loop V) : Decidable (l.DropsOnlyEphemeral p) :=
  inferInstanceAs (Decidable (∀ e ∈ p.nodes.entries, ∀ chan ∈ e.2.triggers,
    l.fires e.1 chan = true →
      hasInput e.2 l.channels = true ∨ (l.channels.get? chan).any (·.isEphemeral) = true))

instance (tasks : List Task) : Decidable (DistinctIds tasks) :=
  inferInstanceAs (Decidable (tasks.map (·.id)).Nodup)

instance (p : Program V) (w : World V) : ∀ e, Decidable (FastPathOk p w e)
  | .superstep info _ _ => inferInstanceAs (Decidable (∀ l ∈ w.loop,
      l.DropsOnlyEphemeral p ∧ DistinctIds (l.tasks p info true)))
  | .input info _ => inferInstanceAs (Decidable (∀ l ∈ w.loop,
      (l.InputsPresent p ∨ l.DropsOnlyEphemeral p ∧ l.allTasks p info true ≠ []) ∧
        DistinctIds (l.allTasks p info true)))
  | .enter .. | .command .. | .resume | .putCheckpoint .. | .advance .. | .update .. =>
    isTrue trivial

theorem DistinctIds.inj {tasks : List Task} (h : DistinctIds tasks) :
    ∀ t ∈ tasks, ∀ t' ∈ tasks, t.id = t'.id → t = t' :=
  fun _ ht _ ht' he => List.inj_on_of_nodup_map h ht ht' he

/-! ## The nodes that are looked at -/

section Candidates
variable {p : Program V} {l : Loop V} {info : StepInfo} {forExecution : Bool}

/-- A loop in which a trigger is available has a version. -/
theorem Loop.Wired.versions_ne_nil (hw : l.Wired p) {node chan : String}
    (ht : p.Triggers node chan) (hf : l.fires node chan = true) :
    l.checkpoint.channelVersions.entries ≠ [] := by
  obtain ⟨⟨ch, hch, ha⟩, -⟩ := Loop.fires_iff.mp hf
  obtain ⟨ch', -, hch', -, -, -, hver⟩ := hw node chan ht
  cases Option.some.inj (hch'.symm.trans hch)
  obtain ⟨v, hv⟩ := Option.isSome_iff_exists.mp (hver ha)
  exact List.ne_nil_of_mem (OrdDict.get?_eq_some_iff.mp hv)

omit [LinearOrder V] [OrderBot V] in
/-- Without the mapping all nodes are looked at. -/
theorem candidateNodes_none {ctx : TaskContext} {cp : Checkpoint V}
    (h : cp.channelVersions.entries ≠ []) (updated : Option (List String)) :
    candidateNodes ctx cp none updated = ctx.processes.keys := by
  rw [candidateNodes, if_neg (fun h => h.2 rfl), if_neg (by simpa using h)]

/-- Without the mapping, a node that a trigger fires for and that finds its
    input is among the tasks. -/
theorem Loop.exists_mem_allTasks (hw : l.Wired p) (hc : p.builder.compile.Wired) (info : StepInfo)
    (forExecution : Bool) {node : String}
    {proc : PregelNode} (hp : p.nodes.get? node = some proc) {chan : String}
    (hchan : chan ∈ proc.triggers) (hf : l.fires node chan = true)
    (hin : hasInput proc l.channels = true) :
    ∃ t ∈ l.allTasks p info forExecution, t.name = node ∧ chan ∈ t.triggers := by
  have hne := hw.versions_ne_nil ⟨proc, hp, hchan⟩ hf
  have htr : triggers l.channels l.checkpoint.channelVersions
      (l.checkpoint.versionsSeen.get? node) proc = true := by
    rw [Loop.triggers_eq_any_fires, List.any_eq_true]
    exact ⟨chan, hchan, hf⟩
  have hproc : (p.ctx info.managed).processes.get? node = some proc := hp
  obtain ⟨t, ht⟩ := (preparePullTask_isSome_iff hne hproc (hc node proc hp).1).mpr ⟨htr, hin⟩
  obtain ⟨proc', hp', -, -, hname, -, htt⟩ := preparePullTask_eq_some ht
  cases Option.some.inj (hp'.symm.trans hproc)
  refine ⟨t, mem_nextTaskList.mpr (Or.inr ⟨node, ?_, ht⟩), hname, ?_⟩
  · rw [candidateNodes_none hne]
    exact OrdDict.mem_keys_iff.mpr ⟨proc, hp⟩
  · rw [htt]
    exact SortBy.mem_sortBy.mpr hchan

/-- The hints add no task. -/
theorem Loop.Wired.mem_of_mem_tasks (hw : l.Wired p) {updated : Option (List String)} {t : Task}
    (h : t ∈ l.tasks p info forExecution) :
    t ∈ nextTaskList (p.ctx info.managed) l.checkpoint l.channels info.step forExecution none
      updated := by
  rcases mem_nextTaskList.mp h with hpush | ⟨node, -, ht⟩
  · exact mem_nextTaskList.mpr (Or.inl hpush)
  · obtain ⟨proc, hp, htr, -⟩ := preparePullTask_eq_some ht
    obtain ⟨chan, hchan, hf⟩ := List.any_eq_true.mp htr
    refine mem_nextTaskList.mpr (Or.inr ⟨node, ?_, ht⟩)
    rw [candidateNodes_none (hw.versions_ne_nil ⟨proc, hp, hchan⟩ hf)]
    exact OrdDict.mem_keys_iff.mpr ⟨proc, hp⟩

/-- The tasks of a loop whose hint misses no trigger are those it has without hints. -/
theorem Loop.Hinted.mem_tasks_iff (hh : l.Hinted p) (hw : l.Wired p) {updated : Option (List String)}
    {t : Task} : t ∈ l.tasks p info forExecution ↔
      t ∈ nextTaskList (p.ctx info.managed) l.checkpoint l.channels info.step forExecution none
        updated := by
  refine ⟨hw.mem_of_mem_tasks, fun h => ?_⟩
  rcases mem_nextTaskList.mp h with hpush | ⟨node, -, ht⟩
  · exact mem_nextTaskList.mpr (Or.inl hpush)
  · obtain ⟨proc, hp, htr, -⟩ := preparePullTask_eq_some ht
    obtain ⟨chan, hchan, hf⟩ := List.any_eq_true.mp htr
    have htrig : p.Triggers node chan := ⟨proc, hp, hchan⟩
    refine mem_nextTaskList.mpr (Or.inr ⟨node, ?_, ht⟩)
    unfold candidateNodes
    dsimp only
    split
    · rename_i hhint
      rw [SortBy.mem_sortBy, List.mem_dedup, List.mem_flatMap]
      cases hu : l.updatedChannels with
      | none => exact absurd (by simp [hu]) hhint.1
      | some us =>
        exact ⟨chan, hh us hu node chan htrig hf, mem_triggerToNodes.mpr ⟨proc, hp, hchan⟩⟩
    · rw [if_neg (by simpa using hw.versions_ne_nil htrig hf)]
      exact OrdDict.mem_keys_iff.mpr ⟨proc, hp⟩

end Candidates

/-! ## The hint over a run -/

theorem mem_taskWrites {tasks : List Task} (hd : DistinctIds tasks)
    {outputs : String → List (String × PyVal)} {t : Task} (ht : t ∈ tasks) :
    { t.toTaskWrites with writes := outputs t.id } ∈ taskWrites tasks outputs :=
  List.mem_map.mpr ⟨t, (mem_values_tasksById hd.inj).mpr ht, rfl⟩

/-- What the call of a step needs to keep the hint complete. -/
theorem Loop.Hinted.apply {p : Program V} {l l' : Loop V} {tasks : List TaskWrites}
    {us : List String} (hw : l.Wired p) (hc : p.builder.compile.Wired)
    (h : l.apply p tasks = some (l', us))
    (hkeep : ∀ node proc chan, p.nodes.get? node = some proc → chan ∈ proc.triggers →
      l.fires node chan = true → (∃ t ∈ tasks, chan ∈ t.triggers) ∨
        ((∃ t ∈ tasks, t.triggers ≠ []) ∧ (l.channels.get? chan).any (·.isEphemeral) = true)) :
    Loop.Hinted p { l' with updatedChannels := some us } := by
  intro us' hus' node chan ht hf
  cases hus'
  have hf' : l'.fires node chan = true := hf
  rcases Loop.apply_fires hw hc h ht hf' with hu | ⟨hfires, huntouched, heph⟩
  · exact hu
  · exfalso
    have ht' := ht
    obtain ⟨proc, hp, hchan⟩ := ht'
    rcases hkeep node proc chan hp hchan hfires with ⟨t, htm, hmem⟩ | ⟨hex, he⟩
    · exact huntouched t htm hmem
    · obtain ⟨ch, -, hch, -⟩ := hw node chan ht
      rw [hch, Option.any_some, heph hex ch hch] at he
      cases he

theorem hinted_loopInvariant (p : Program V) (hc : p.builder.compile.Wired) :
    LoopInvariant p (FastPathOk p) fun l => l.Wired p ∧ l.Hinted p where
  wired := fun _ h => h.1
  fresh := fun l hw hu _ _ => ⟨hw, fun us hus => by rw [hu] at hus; cases hus⟩
  again := by
    intro l l₂ ⟨_, hh⟩ hw₂ hs hus
    refine ⟨hw₂, fun us₂ h₂ node chan ht hf => ?_⟩
    obtain ⟨us, hu, hmem⟩ := hus us₂ h₂
    rw [hs.fires ht] at hf
    exact (hmem chan).mpr (hh us hu node chan ht hf)
  call := by
    intro l l' tasks us ⟨hw, _⟩ hn h
    refine ⟨hw.apply hc h, fun us' hus' => ?_⟩
    obtain ⟨s, f, -, he, -⟩ := Loop.apply_eq_some h
    rw [he] at hus'
    exact absurd (hn.symm.trans hus') (by simp)
  command := by
    intro l l' writes us ⟨hw, hh⟩ h
    have hw' : l'.Wired p := hw.apply hc h
    refine ⟨hw', fun us' hus' node chan ht hf => ?_⟩
    obtain ⟨us₀, hu, rfl⟩ := Option.map_eq_some_iff.mp hus'
    have hf' : l'.fires node chan = true := hf
    rcases Loop.apply_fires hw hc h ht hf' with hmem | ⟨hfires, -⟩
    · exact List.mem_union_iff.mpr (Or.inr hmem)
    · exact List.mem_union_iff.mpr (Or.inl (hh us₀ hu node chan ht hfires))
  input := by
    intro w l l' info writes us hl hok ⟨hw, _⟩ h
    obtain ⟨hinputs, hd⟩ := hok l hl
    have hw' : l'.Wired p := hw.apply hc h
    refine ⟨hw', Loop.Hinted.apply hw hc h ?_⟩
    intro node proc chan hp hchan hfires
    have hentry := OrdDict.get?_eq_some_iff.mp hp
    have hdiscard : hasInput proc l.channels = true → ∃ t ∈ taskWrites (l.allTasks p info true)
        (fun _ => []) ++ [nullTask writes], chan ∈ t.triggers := by
      intro hin
      obtain ⟨t, ht, -, hmem⟩ :=
        Loop.exists_mem_allTasks hw hc info true hp hchan hfires hin
      exact ⟨_, List.mem_append_left _ (mem_taskWrites hd ht), hmem⟩
    rcases hinputs with hpresent | ⟨hdrops, hne⟩
    · exact Or.inl (hdiscard (hpresent _ hentry chan hchan hfires))
    · rcases hdrops _ hentry chan hchan hfires with hin | he
      · exact Or.inl (hdiscard hin)
      · obtain ⟨t, ht⟩ := List.exists_mem_of_ne_nil _ hne
        exact Or.inr ⟨⟨_, List.mem_append_left _ (mem_taskWrites hd ht),
          triggers_ne_nil_of_mem ht⟩, he⟩
  superstep := by
    intro w l l' info outputs pushed us hl hok ⟨hw, hh⟩ hne h
    obtain ⟨hdrops, hd⟩ := hok l hl
    have hw' : l'.Wired p := hw.apply hc h
    refine ⟨hw', Loop.Hinted.apply hw hc h ?_⟩
    intro node proc chan hp hchan hfires
    rcases hdrops _ (OrdDict.get?_eq_some_iff.mp hp) chan hchan hfires with hin | he
    · obtain ⟨t, ht, -, hmem⟩ :=
        Loop.exists_mem_allTasks hw hc info true hp hchan hfires hin
      have ht' : t ∈ l.tasks p info true := (hh.mem_tasks_iff hw).mpr ht
      exact Or.inl ⟨_, List.mem_append_left _ (mem_taskWrites hd ht'), hmem⟩
    · obtain ⟨t, ht⟩ := List.exists_mem_of_ne_nil _ hne
      obtain ⟨t₀, ht₀, rfl⟩ := List.mem_map.mp ht
      have hmem₀ := (mem_values_tasksById hd.inj).mp ht₀
      exact Or.inr ⟨⟨_, List.mem_append_left _ ht, triggers_ne_nil_of_mem hmem₀⟩, he⟩

/-- In a run whose steps drop no node that a trigger fires for, the hints leave
    out no task. -/
theorem prepareNextTasks_hints (p : Program V) (hg : p.builder.WaitsForSome) {w : World V}
    (h : Machine.Reachable (step p) (FastPathOk p) ⟨[], none⟩ w) {l : Loop V}
    (hl : w.loop = some l) (info : StepInfo) (forExecution : Bool) :
    let all := nextTaskList (p.ctx info.managed) l.checkpoint l.channels info.step forExecution
      none none
    (∀ t, t ∈ l.tasks p info forExecution ↔ t ∈ all) ∧
      (DistinctIds all → ∀ id,
        (prepareNextTasks (p.ctx info.managed) l.checkpoint l.channels info.step forExecution
            (some p.triggerToNodes) l.updatedChannels).get? id =
          (prepareNextTasks (p.ctx info.managed) l.checkpoint l.channels info.step forExecution
            none none).get? id) := by
  intro all
  have hc := p.builder.compile_wired hg
  obtain ⟨hw, hh⟩ := ((hinted_loopInvariant p hc).reachable hc h).loop l hl
  have hmem : ∀ t, t ∈ l.tasks p info forExecution ↔ t ∈ all := fun t => hh.mem_tasks_iff hw
  refine ⟨hmem, fun hd id => ?_⟩
  have hinj : ∀ t ∈ l.tasks p info forExecution, ∀ t' ∈ l.tasks p info forExecution,
      t.id = t'.id → t = t' :=
    fun t ht t' ht' => hd.inj t ((hmem t).mp ht) t' ((hmem t').mp ht')
  apply Option.ext
  intro t
  show (tasksById (l.tasks p info forExecution)).get? id = some t ↔
    (tasksById all).get? id = some t
  rw [get?_tasksById hinj, get?_tasksById hd.inj, hmem]

end FastPath

/-! ## A dropped barrier -/

section DroppedBarrier

/-- `START → A`, `START → B`, `[A, B] → C`, where `C` reads the state that is one value. -/
def joinGraph : StateGraph where
  channels := .ofList [("__root__", .lastValue ⟨"__root__", none⟩), ("x", .lastValue ⟨"x", none⟩)]
  nodes := .ofList [("A", ⟨["x"], none, false, none⟩), ("B", ⟨["x"], none, false, none⟩),
    ("C", ⟨["__root__"], none, false, none⟩)]
  edges := [(Const.START, "A"), (Const.START, "B")]
  waitingEdges := [(["A", "B"], "C")]
  waiting_ends := by decide

def joinProgram : Program Nat where
  builder := joinGraph
  managedKeys := []
  outputChannels := ["__root__"]
  interruptNodes := []
  parentNs := ""
  xxh3 := fun _ s => s
  getNextVersion := fun v => v.getD 0 + 1
  valid := by decide +kernel

def unmanaged (step : Int) : StepInfo := ⟨step, ∅⟩

def noHistory : History := fun _ => ∅

/-- What `goto=["A", "B"]` writes. -/
def gotoAB : List (String × PyVal) :=
  [(branchTo "A", .str Const.START), (branchTo "B", .str Const.START)]

/-- `A` and `B` write their names to the barrier. -/
def joinWrites (id : String) : List (String × PyVal) :=
  if id = "A1A__pregel_pullbranch:to:A" then [("join:A+B:C", .str "A")]
  else [("join:A+B:C", .str "B")]

/-- A new thread is invoked with a value. -/
def valueRun : List Event :=
  [.enter none "1" noHistory,
    .input (unmanaged (-1)) [(Const.START, .int 5)], .putCheckpoint "2" [] true,
    .superstep (unmanaged 0) (fun _ => ("__root__", .int 5) :: gotoAB) [],
    .putCheckpoint "3" [] true]

/-- A new thread is invoked with a `Command` that only goes to `A` and `B`, so that
    `C` is triggered while there is no state; then it is invoked with a value. -/
def commandRun : List Event :=
  [.enter none "1" noHistory, .command gotoAB,
    .input (unmanaged (-1)) [(Const.START, .obj "Command" [])], .putCheckpoint "2" [] true,
    .superstep (unmanaged 0) (fun _ => gotoAB) [], .putCheckpoint "3" [] true,
    .superstep (unmanaged 1) joinWrites [], .putCheckpoint "4" [] true,
    .enter (some 2) "" noHistory,
    .input (unmanaged 2) [(Const.START, .int 5)], .putCheckpoint "5" [] true,
    .superstep (unmanaged 3) (fun _ => ("__root__", .int 5) :: gotoAB) []]

/-- The names of the tasks of the next step. -/
def Loop.taskNames (p : Program Nat) (l : Loop Nat) (ttn : Option TriggerToNodes)
    (updated : Option (List String)) : List String :=
  (prepareNextTasks (p.ctx ∅) l.checkpoint l.channels 4 true ttn updated).values.map (·.name)

/-- The names of the tasks of a loop: with the hints, and without. -/
def Loop.bothNames (p : Program Nat) (l : Loop Nat) : List String × List String :=
  (l.taskNames p (some p.triggerToNodes) l.updatedChannels, l.taskNames p none none)

/-- The loop at the end of a run. -/
def loopAfter (p : Program Nat) (events : List Event) : Option (Loop Nat) :=
  (Machine.run (step p) ⟨[], none⟩ events).bind World.loop

/-- A run whose steps meet `ok` reaches its last loop. -/
theorem exists_of_loopAfter {p : Program Nat} {ok : World Nat → Event → Prop} {events : List Event}
    {α : Type} {f : Loop Nat → α} {a : α} (hok : Machine.Meets (step p) ok ⟨[], none⟩ events)
    (h : (loopAfter p events).map f = some a) : ∃ w l,
      w.loop = some l ∧ Machine.Reachable (step p) ok ⟨[], none⟩ w ∧ f l = a := by
  obtain ⟨l, hl, hf⟩ := Option.map_eq_some_iff.mp h
  obtain ⟨w, hw, hloop⟩ := Option.bind_eq_some_iff.mp hl
  exact ⟨w, l, hloop, Machine.Reachable.of_run hok hw, hf⟩

theorem valueRun_hints : ∃ w l, w.loop = some l ∧
    Machine.Reachable (step joinProgram) (FastPathOk joinProgram) ⟨[], none⟩ w ∧
    l.bothNames joinProgram = (["A", "B"], ["A", "B"]) ∧
    ∀ t, t ∈ l.tasks joinProgram (unmanaged 4) true ↔
      t ∈ nextTaskList (joinProgram.ctx ∅) l.checkpoint l.channels 4 true none none := by
  have hok : Machine.Meets (step joinProgram) (FastPathOk joinProgram) ⟨[], none⟩ valueRun := by
    decide +kernel
  have hnames : (loopAfter joinProgram valueRun).map (·.bothNames joinProgram) =
      some (["A", "B"], ["A", "B"]) := by decide +kernel
  obtain ⟨w, l, hl, hr, hboth⟩ := exists_of_loopAfter hok hnames
  exact ⟨w, l, hl, hr, hboth,
    (prepareNextTasks_hints joinProgram (by decide) hr hl (unmanaged 4) true).1⟩

theorem meets_true (p : Program Nat) (events : List Event) (w : World Nat) :
    Machine.Meets (step p) (fun _ _ => True) w events :=
  Machine.Meets.of_forall (fun _ _ => trivial) w events

/-- The stale trigger of `C` is in no hint. -/
theorem commandRun_hints : ∃ w l, w.loop = some l ∧
    Machine.Reachable (step joinProgram) (fun _ _ => True) ⟨[], none⟩ w ∧
    l.bothNames joinProgram = (["A", "B"], ["A", "B", "C"]) := by
  have hnames : (loopAfter joinProgram commandRun).map (·.bothNames joinProgram) =
      some (["A", "B"], ["A", "B", "C"]) := by decide +kernel
  exact exists_of_loopAfter (meets_true _ _ _) hnames

end DroppedBarrier
end LangGraph
