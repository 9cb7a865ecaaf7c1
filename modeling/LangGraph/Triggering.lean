import LangGraph.FastPath

/- No lost and no repeated trigger.

   `unread` says for a node which channels were written since its last task that
   they triggered; the source only compares versions. `Loop.Current` relates the
   two: an available trigger is unread, and its version is above the one the node
   has seen. It is kept by every call because the one version that the changed
   channels of a call receive is above all versions (`Increasing`), and because a
   call leaves a trigger channel that triggered a task unavailable unless it
   wrote it. -/
namespace LangGraph

section Triggering
variable {V : Type} [LinearOrder V] [OrderBot V]

/-- Versions go up. -/
structure Increasing (getNextVersion : GetNextVersion V) : Prop where
  first : ⊥ < getNextVersion none
  next : ∀ v, v < getNextVersion (some v)

theorem Increasing.lt_next {g : GetNextVersion V} (hg : Increasing g) {cp : Checkpoint V}
    {chan : String} {v : V} (h : cp.channelVersions.get? chan = some v) : v < cp.next g := by
  have hmem : v ∈ cp.channelVersions.values :=
    List.mem_map.mpr ⟨_, OrdDict.get?_eq_some_iff.mp h, rfl⟩
  unfold Checkpoint.next
  cases hm : cp.channelVersions.values.max? with
  | none =>
    rw [List.max?_eq_none_iff] at hm
    rw [hm] at hmem
    cases hmem
  | some m => exact lt_of_le_of_lt ((List.max?_eq_some_iff.mp hm).2 v hmem) (hg.next m)

theorem Increasing.bot_lt_next {g : GetNextVersion V} (hg : Increasing g) (cp : Checkpoint V) :
    ⊥ < cp.next g := by
  unfold Checkpoint.next
  cases cp.channelVersions.values.max? with
  | none => exact hg.first
  | some m => exact lt_of_le_of_lt bot_le (hg.next m)

/-- The version a node has seen of a trigger is no later one than the channel has. -/
def Loop.SeenBelow (p : Program V) (l : Loop V) : Prop :=
  ∀ node chan, p.Triggers node chan → ∀ v, l.checkpoint.seenVersion node chan = some v →
    ∃ y, l.checkpoint.channelVersions.get? chan = some y ∧ v ≤ y

/-- An available trigger was written since the node's last task that it
    triggered, and has a version that the node has not seen. -/
def Loop.Current (p : Program V) (l : Loop V) : Prop :=
  ∀ node chan, p.Triggers node chan → (l.channels.get? chan).any (·.isAvailable) = true →
    l.unread node chan = true ∧
      (l.checkpoint.seenVersion node chan).getD ⊥ <
        (l.checkpoint.channelVersions.get? chan).getD ⊥

section Apply
variable {p : Program V} {l l' : Loop V} {tasks : List TaskWrites} {us : List String}

theorem Loop.SeenBelow.apply (hs : l.SeenBelow p) (hw : l.Wired p) (hg : Increasing p.getNextVersion)
    (h : l.apply p tasks = some (l', us)) : l'.SeenBelow p := by
  intro node chan ht v hv
  obtain ⟨ch, -, hch, -⟩ := hw node chan ht
  have hbelow : ∃ y, l.checkpoint.channelVersions.get? chan = some y ∧ v ≤ y := by
    rcases Loop.apply_seenVersion h node chan with he | he
    · exact hs node chan ht v (he ▸ hv)
    · exact ⟨v, he ▸ hv, le_refl v⟩
  obtain ⟨y, hy, hle⟩ := hbelow
  rcases Loop.apply_version h hch with he | he
  · exact ⟨y, he.trans hy, hle⟩
  · exact ⟨_, he, hle.trans (hg.lt_next hy).le⟩

theorem Loop.Current.apply (hk : l.Current p) (hs : l.SeenBelow p) (hw : l.Wired p)
    (hc : p.builder.compile.Wired) (hg : Increasing p.getNextVersion)
    (h : l.apply p tasks = some (l', us)) : l'.Current p := by
  intro node chan ht ha
  obtain ⟨ch, -, hch, -, htr, -⟩ := hw node chan ht
  obtain ⟨ch', hch', -, -, hleft⟩ := Loop.apply_trigger hc h ht hch htr
  rw [hch', Option.any_some] at ha
  rcases hleft ha with ⟨hu, hver⟩ | hkept
  · refine ⟨?_, ?_⟩
    · obtain ⟨s, finished, -, rfl, rfl⟩ := Loop.apply_eq_some h
      simp [Loop.after, written, hu]
    · rw [hver, Option.getD_some]
      -- all versions seen so far are below the new one
      cases hv : l'.checkpoint.seenVersion node chan with
      | none => exact hg.bot_lt_next _
      | some v =>
        rcases Loop.apply_seenVersion h node chan with he | he
        · obtain ⟨y, hy, hle⟩ := hs node chan ht v (he ▸ hv)
          exact lt_of_le_of_lt hle (hg.lt_next hy)
        · exact hg.lt_next (he ▸ hv)
  · have heq : ch' = ch := Option.some.inj (hch'.symm.trans hkept.channel)
    obtain ⟨hunread, hlt⟩ := hk node chan ht (by rw [hch, Option.any_some, ← heq]; exact ha)
    obtain ⟨hsv, -⟩ := Loop.apply_seen h node hkept.untouched
    refine ⟨?_, by rw [hsv, hkept.version]; exact hlt⟩
    obtain ⟨s, finished, -, rfl, rfl⟩ := Loop.apply_eq_some h
    have hnone : (tasks.any fun t => t.name == node && t.triggers.contains chan) = false := by
      rw [List.any_eq_false]
      intro t htm hmark
      rw [Bool.and_eq_true, List.contains_iff_mem] at hmark
      exact hkept.untouched t htm hmark.2
    show (l.unread node chan && !(tasks.any fun t => t.name == node && t.triggers.contains chan) ||
      written tasks s.updatedChannels chan) = true
    rw [hunread, hnone]
    rfl

end Apply

theorem current_loopInvariant (p : Program V) (hc : p.builder.compile.Wired)
    (hg : Increasing p.getNextVersion) :
    LoopInvariant p (fun _ _ => True) fun l => l.Wired p ∧ l.SeenBelow p ∧ l.Current p := by
  have hcall : ∀ (l l' : Loop V) (tasks : List TaskWrites) (us : List String),
      (l.Wired p ∧ l.SeenBelow p ∧ l.Current p) → l.apply p tasks = some (l', us) →
        l'.Wired p ∧ l'.SeenBelow p ∧ l'.Current p :=
    fun l l' tasks us ⟨hw, hs, hk⟩ h =>
      ⟨hw.apply hc h, hs.apply hw hg h, hk.apply hs hw hc hg h⟩
  exact {
    wired := fun _ h => h.1
    fresh := by
      intro l hw _ hseen hver
      refine ⟨hw, ?_, ?_⟩
      · intro node chan _ v hv
        rw [Checkpoint.seenVersion, hseen] at hv
        cases hv
      · intro node chan ht ha
        obtain ⟨ch, -, hch, -, -, -, hsome⟩ := hw node chan ht
        rw [hch, Option.any_some] at ha
        have hv := hsome ha
        rw [hver] at hv
        cases hv
    again := by
      intro l l₂ ⟨_, hs, hk⟩ hw₂ hsame _
      have hseen : ∀ node chan, p.Triggers node chan →
          l₂.checkpoint.seenVersion node chan = l.checkpoint.seenVersion node chan := by
        intro node chan ht
        rw [Checkpoint.seenVersion, hsame.versionsSeen node chan ht, Checkpoint.seenVersion]
      refine ⟨hw₂, ?_, ?_⟩
      · intro node chan ht v hv
        rw [hseen node chan ht] at hv
        rw [hsame.version node chan ht]
        exact hs node chan ht v hv
      · intro node chan ht ha
        rw [hsame.available node chan ht] at ha
        rw [hsame.unread, hseen node chan ht, hsame.version node chan ht]
        exact hk node chan ht ha
    call := fun l l' tasks us hl _ h => hcall l l' tasks us hl h
    command := fun l l' writes us hl h => hcall l l' _ us hl h
    input := fun _ l l' _ _ us _ _ hl h => hcall l l' _ us hl h
    superstep := fun _ l l' _ _ _ us _ _ hl _ h => hcall l l' _ us hl h }

/-- The node is among the tasks as triggered by its channels. -/
def Pulls (tasks : List Task) (node : String) : Prop :=
  ∃ t ∈ tasks, t.name = node ∧ t.path = [.str Const.PULL, .str node]

/-- Some trigger of the node is available and was written since it ran. -/
def Loop.Due (l : Loop V) (node : String) (proc : PregelNode) : Prop :=
  ∃ chan ∈ proc.triggers, (l.channels.get? chan).any (·.isAvailable) = true ∧
    l.unread node chan = true

instance (l : Loop V) (node : String) (proc : PregelNode) : Decidable (l.Due node proc) :=
  inferInstanceAs (Decidable (∃ chan ∈ proc.triggers,
    (l.channels.get? chan).any (·.isAvailable) = true ∧ l.unread node chan = true))

theorem Loop.due_iff_fires {p : Program V} {l : Loop V} (hk : l.Current p) {node : String}
    {proc : PregelNode} (hp : p.nodes.get? node = some proc) :
    l.Due node proc ↔ ∃ chan ∈ proc.triggers, l.fires node chan = true := by
  constructor
  · rintro ⟨chan, hchan, ha, -⟩
    obtain ⟨-, hlt⟩ := hk node chan ⟨proc, hp, hchan⟩ ha
    exact ⟨chan, hchan, Loop.fires_iff.mpr ⟨(Option.any_eq_true _ _).mp ha, Or.inr hlt⟩⟩
  · rintro ⟨chan, hchan, hf⟩
    have ha := (Option.any_eq_true _ _).mpr (Loop.fires_iff.mp hf).1
    exact ⟨chan, hchan, ha, (hk node chan ⟨proc, hp, hchan⟩ ha).1⟩

/-- A node is prepared without hints when it is due and finds its input. -/
theorem Loop.pulls_iff {p : Program V} {l : Loop V} (hw : l.Wired p) (hk : l.Current p)
    (hc : p.builder.compile.Wired) {node : String} {proc : PregelNode}
    (hp : p.nodes.get? node = some proc) (info : StepInfo) (forExecution : Bool)
    (updated : Option (List String)) :
    Pulls (nextTaskList (p.ctx info.managed) l.checkpoint l.channels info.step forExecution none
        updated) node ↔
      l.Due node proc ∧ hasInput proc l.channels = true := by
  rw [Loop.due_iff_fires hk hp]
  constructor
  · rintro ⟨t, ht, hname, hpath⟩
    rcases mem_nextTaskList.mp ht with ⟨i, -, hi⟩ | ⟨node', -, ht'⟩
    · rw [(preparePushTaskSend_path hi).1] at hpath
      exact absurd (congrArg List.length hpath) (by simp)
    · obtain ⟨proc', hp', htr, hin, hname', -⟩ := preparePullTask_eq_some ht'
      have hnode : node' = node := hname'.symm.trans hname
      subst hnode
      cases Option.some.inj (hp'.symm.trans hp)
      exact ⟨List.any_eq_true.mp htr, hin⟩
  · rintro ⟨⟨chan, hchan, hf⟩, hin⟩
    have hne := hw.versions_ne_nil ⟨proc, hp, hchan⟩ hf
    have htr : triggers l.channels l.checkpoint.channelVersions
        (l.checkpoint.versionsSeen.get? node) proc = true := by
      rw [Loop.triggers_eq_any_fires, List.any_eq_true]
      exact ⟨chan, hchan, hf⟩
    have hproc : (p.ctx info.managed).processes.get? node = some proc := hp
    obtain ⟨t, ht⟩ := (preparePullTask_isSome_iff hne hproc (hc node proc hp).1).mpr ⟨htr, hin⟩
    obtain ⟨-, -, -, -, hname, hpath, -⟩ := preparePullTask_eq_some ht
    refine ⟨t, mem_nextTaskList.mpr (Or.inr ⟨node, ?_, ht⟩), hname, hpath⟩
    rw [candidateNodes_none hne]
    exact OrdDict.mem_keys_iff.mpr ⟨proc, hp⟩

/-- In every loop of a run, a node is prepared without hints exactly when a
    trigger of it is available and was written since it ran, and it finds its
    input. With the hints no other is prepared, and the same ones are when the
    hint names every trigger that fires. A trigger that is available has a version
    above the one the node has seen. -/
theorem pulls_iff_due (p : Program V) (hg : p.builder.WaitsForSome)
    (hinc : Increasing p.getNextVersion) {w : World V}
    (h : Machine.Reachable (step p) (fun _ _ => True) ⟨[], none⟩ w) {l : Loop V}
    (hl : w.loop = some l) {node : String} {proc : PregelNode}
    (hp : p.nodes.get? node = some proc) (info : StepInfo) (forExecution : Bool) :
    (Pulls (nextTaskList (p.ctx info.managed) l.checkpoint l.channels info.step forExecution none
        none) node ↔ l.Due node proc ∧ hasInput proc l.channels = true) ∧
      (Pulls (l.tasks p info forExecution) node →
        l.Due node proc ∧ hasInput proc l.channels = true) ∧
      (l.Hinted p → (Pulls (l.tasks p info forExecution) node ↔
        l.Due node proc ∧ hasInput proc l.channels = true)) ∧
      ∀ chan ∈ proc.triggers, (l.channels.get? chan).any (·.isAvailable) = true →
        (l.checkpoint.seenVersion node chan).getD ⊥ <
          (l.checkpoint.channelVersions.get? chan).getD ⊥ := by
  have hc := p.builder.compile_wired hg
  obtain ⟨hw, -, hk⟩ := ((current_loopInvariant p hc hinc).reachable hc h).loop l hl
  have hall := Loop.pulls_iff hw hk hc hp info forExecution none
  refine ⟨hall, ?_, ?_, ?_⟩
  · rintro ⟨t, ht, hname, hpath⟩
    exact hall.mp ⟨t, hw.mem_of_mem_tasks ht, hname, hpath⟩
  · intro hh
    rw [← hall]
    exact ⟨fun ⟨t, ht, hn⟩ => ⟨t, (hh.mem_tasks_iff hw).mp ht, hn⟩,
      fun ⟨t, ht, hn⟩ => ⟨t, (hh.mem_tasks_iff hw).mpr ht, hn⟩⟩
  · intro chan hchan ha
    exact (hk node chan ⟨proc, hp, hchan⟩ ha).2

end Triggering

/-! ## What is due and does not run, and what runs and is not due -/

section NotDue

theorem increasing_joinProgram : Increasing joinProgram.getNextVersion where
  first := by decide
  next := fun v => Nat.lt_succ_self v

theorem valueRun_due : ∃ w l proc, w.loop = some l ∧
    Machine.Reachable (step joinProgram) (fun _ _ => True) ⟨[], none⟩ w ∧
    joinProgram.nodes.get? "A" = some proc ∧ l.Due "A" proc ∧
    Pulls (nextTaskList (joinProgram.ctx ∅) l.checkpoint l.channels 4 true none none) "A" := by
  have hdue : (loopAfter joinProgram valueRun).map (fun l =>
      decide (∃ proc ∈ joinProgram.nodes.get? "A",
        l.Due "A" proc ∧ hasInput proc l.channels = true)) = some true := by decide +kernel
  obtain ⟨w, l, hl, hr, hd⟩ := exists_of_loopAfter (meets_true _ _ _) hdue
  obtain ⟨proc, hp, hd, hin⟩ := of_decide_eq_true hd
  refine ⟨w, l, proc, hl, hr, hp, hd, ?_⟩
  exact (pulls_iff_due joinProgram (by decide) increasing_joinProgram hr hl hp (unmanaged 4)
    true).1.mpr ⟨hd, hin⟩

/-- `START → A`, and an edge with no starts to `B`. -/
def startlessGraph : StateGraph where
  channels := .ofList [("x", .lastValue ⟨"x", none⟩)]
  nodes := .ofList [("A", ⟨["x"], none, false, none⟩), ("B", ⟨["x"], none, false, none⟩)]
  edges := [(Const.START, "A")]
  waitingEdges := [([], "B")]
  waiting_ends := by decide

def startlessProgram : Program Nat where
  builder := startlessGraph
  managedKeys := []
  outputChannels := ["x"]
  interruptNodes := []
  parentNs := ""
  xxh3 := fun _ s => s
  getNextVersion := fun v => v.getD 0 + 1
  valid := by decide +kernel

/-- `C` has no state to read when its barrier is complete: it is due and no task
    is prepared. The barrier that waits for nobody triggers `B`, which is not due. -/
theorem due_iff_pulls_fails :
    (∃ w l, w.loop = some l ∧
      Machine.Reachable (step joinProgram) (fun _ _ => True) ⟨[], none⟩ w ∧
      (∃ proc ∈ joinProgram.nodes.get? "C", l.Due "C" proc) ∧ l.bothNames joinProgram = ([], [])) ∧
    ∃ w l, w.loop = some l ∧
      Machine.Reachable (step startlessProgram) (fun _ _ => True) ⟨[], none⟩ w ∧
      (∃ proc ∈ startlessProgram.nodes.get? "B", ¬ l.Due "B" proc) ∧
      l.taskNames startlessProgram none none = [Const.START, "B"] := by
  have hjoin : (loopAfter joinProgram (commandRun.take 8)).map (fun l =>
      (decide (∃ proc ∈ joinProgram.nodes.get? "C", l.Due "C" proc), l.bothNames joinProgram)) =
      some (true, [], []) := by decide +kernel
  have hstartless : (loopAfter startlessProgram (valueRun.take 3)).map (fun l =>
      (decide (∃ proc ∈ startlessProgram.nodes.get? "B", ¬ l.Due "B" proc),
        l.taskNames startlessProgram none none)) = some (true, [Const.START, "B"]) := by
    decide +kernel
  obtain ⟨w, l, hl, hr, h⟩ := exists_of_loopAfter (meets_true _ _ _) hjoin
  obtain ⟨w', l', hl', hr', h'⟩ := exists_of_loopAfter (meets_true _ _ _) hstartless
  obtain ⟨hdue, hnames⟩ := Prod.mk.inj h
  obtain ⟨hdue', hnames'⟩ := Prod.mk.inj h'
  exact ⟨⟨w, l, hl, hr, of_decide_eq_true hdue, hnames⟩,
    ⟨w', l', hl', hr', of_decide_eq_true hdue', hnames'⟩⟩

end NotDue
end LangGraph
