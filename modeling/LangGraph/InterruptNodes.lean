import LangGraph.DeltaCounters

/- When `interrupt_before` and `interrupt_after` stop a run.

   Correspondence (source ↔ Lean):
     `should_interrupt`                             ↔ `shouldInterrupt`
     `any_updates_since_prev_interrupt`             ↔ `updatedSinceInterrupt`
     `interrupt_nodes`                              ↔ `InterruptNodes`
     `TAG_HIDDEN` in the tags of a task             ↔ the argument `hidden`
   The versions are compared with those that the last resume has seen, and
   `progress` tells whether a call of `apply_writes` changed one since. A call
   gives the channels it changes a version above all others (`Loop.Grown`), so the
   two agree (`InterruptSeen`) unless a checkpoint takes a snapshot of a channel
   that its step did not update, since that changes the version too. -/
namespace LangGraph

inductive InterruptNodes where
  | all
  | names (nodes : List String)

def InterruptNodes.matches (hidden : Task → Bool) : InterruptNodes → Task → Bool
  | .all, t => !hidden t
  | .names nodes, t => nodes.contains t.name

section Interrupts
variable {V : Type} [LinearOrder V] [OrderBot V]

def updatedSinceInterrupt (cp : Checkpoint V) : Bool :=
  let seen := cp.versionsSeen.getD Const.INTERRUPT ∅
  cp.channelVersions.entries.any fun e => decide (seen.getD e.1 ⊥ < e.2)

def shouldInterrupt (cp : Checkpoint V) (interruptNodes : InterruptNodes) (hidden : Task → Bool)
    (tasks : List Task) : List Task :=
  if updatedSinceInterrupt cp then tasks.filter (interruptNodes.matches hidden) else []

/-! ## What a call does to the versions -/

/-- The channels that changed have a version above the one they had. -/
structure Loop.Grown (l l' : Loop V) : Prop where
  seen : ∀ chan, l'.checkpoint.seenVersion Const.INTERRUPT chan =
    l.checkpoint.seenVersion Const.INTERRUPT chan
  keys : l'.channels.keys = l.channels.keys
  version : ∀ c, l'.checkpoint.channelVersions.get? c = l.checkpoint.channelVersions.get? c ∨
    ∃ y', l'.checkpoint.channelVersions.get? c = some y' ∧ c ∈ l.channels.keys ∧ ⊥ < y' ∧
      ∀ y, l.checkpoint.channelVersions.get? c = some y → y < y'

/-- No task marks what the interrupts have seen. -/
def Unmarking (tasks : List TaskWrites) : Prop :=
  ∀ t ∈ tasks, t.name = Const.INTERRUPT → ∀ c ∈ t.triggers, c ∈ reserved

/-- Only channels of the graph have a version. -/
def Loop.Known (p : Program V) (l : Loop V) : Prop :=
  l.channels.keys = p.specs.keys ∧
    ∀ c, l.checkpoint.channelVersions.contains c = true → c ∈ p.specs.keys

variable {p : Program V} {l l' l'' : Loop V} {tasks : List TaskWrites} {us : List String}

theorem Loop.Grown.rfl' : l.Grown l := ⟨fun _ => rfl, rfl, fun _ => Or.inl rfl⟩

theorem Loop.Grown.trans (h : l.Grown l') (h' : l'.Grown l'') : l.Grown l'' := by
  refine ⟨fun chan => (h'.seen chan).trans (h.seen chan), h'.keys.trans h.keys, fun c => ?_⟩
  rcases h'.version c with he | ⟨y'', hy'', hc, hbot, hlt⟩
  · rw [he]
    exact h.version c
  · refine Or.inr ⟨y'', hy'', h.keys ▸ hc, hbot, fun y hy => ?_⟩
    rcases h.version c with he | ⟨y', hy', -, -, hlt'⟩
    · exact hlt y (he.trans hy)
    · exact lt_trans (hlt' y hy) (hlt y' hy')

omit [LinearOrder V] [OrderBot V] in
theorem Program.specs_not_reserved (p : Program V) {c : String} (h : c ∈ p.specs.keys) :
    c ∉ reserved := by
  intro hres
  have hnone : p.specs.get? c = none := channel_not_reserved_of_validateGraph p.valid hres
  exact absurd h (OrdDict.get?_eq_none_iff.mp hnone)

/-- A call, whether it raises or not. -/
theorem Loop.grown_of_applyWrites (hinc : Increasing p.getNextVersion) (hk : l.Known p)
    (hu : Unmarking tasks) {s : ApplyState V} {res : Except PyErr Unit}
    (h : applyWrites l.checkpoint l.channels tasks (some p.getNextVersion) p.triggerToNodes =
      (s, res)) (hcp : l'.checkpoint = s.checkpoint) (hch : l'.channels = s.channels) :
    l.Grown l' := by
  have hinv := applyWrites_invariant
    (P := fun cp channels =>
      cp.versionsSeen =
        ((SortBy.sortBy TaskWrites.sortKey tasks).foldl markSeen l.checkpoint).versionsSeen ∧
      channels.keys = l.channels.keys ∧
      ∀ c, cp.channelVersions.get? c = l.checkpoint.channelVersions.get? c ∨
        cp.channelVersions.get? c = some (l.checkpoint.next p.getNextVersion) ∧ c ∈ l.channels.keys)
    (by
      intro cp channels chan c c' ⟨hseen, hkeys, hver⟩ hc _
      exact ⟨hseen, (keys_set_of_get? hc c').trans hkeys, hver⟩)
    (by
      intro cp channels chan ⟨hseen, hkeys, hver⟩ hmem
      refine ⟨hseen, hkeys, fun c => ?_⟩
      by_cases hc : c = chan
      · subst hc
        exact Or.inr ⟨OrdDict.get?_set_self _ _ _, hkeys ▸ hmem⟩
      · rw [Checkpoint.setVersion, OrdDict.get?_set_of_ne hc]
        exact hver c)
    l.checkpoint l.channels tasks p.getNextVersion p.triggerToNodes rfl
    ⟨rfl, rfl, fun c => Or.inl (by rw [channelVersions_foldl_markSeen])⟩
  rw [h] at hinv
  obtain ⟨hseen, hkeys, hver⟩ := hinv
  refine ⟨fun chan => ?_, by rw [hch, hkeys], fun c => ?_⟩
  · rw [hcp, Checkpoint.seenVersion, hseen]
    show Checkpoint.seenVersion _ Const.INTERRUPT chan = _
    rw [seenVersion_foldl_markSeen, if_neg]
    rintro ⟨⟨t, ht, hname, hc⟩, hsome⟩
    have hres := hu t (SortBy.mem_sortBy.mp ht) hname chan hc
    exact p.specs_not_reserved (hk.2 chan hsome) hres
  · rw [hcp]
    rcases hver c with he | ⟨he, hc⟩
    · exact Or.inl he
    · exact Or.inr ⟨_, he, hc, hinc.bot_lt_next _, fun y hy => hinc.lt_next hy⟩

theorem Loop.Known.grown (hk : l.Known p) (h : l.Grown l') : l'.Known p := by
  refine ⟨h.keys.trans hk.1, fun c hc => ?_⟩
  rcases h.version c with he | ⟨y', -, hc', -⟩
  · exact hk.2 c (by rw [OrdDict.contains, ← he]; exact hc)
  · rw [← hk.1]
    exact hc'

theorem Loop.grown_of_apply (hinc : Increasing p.getNextVersion) (hk : l.Known p)
    (hu : Unmarking tasks) (h : l.apply p tasks = some (l', us)) : l.Grown l' := by
  unfold Loop.apply at h
  match ha : applyWrites l.checkpoint l.channels tasks (some p.getNextVersion) p.triggerToNodes with
  | (s, .error e) =>
    rw [ha] at h
    cases h
  | (s, .ok ()) =>
    rw [ha] at h
    cases h
    exact Loop.grown_of_applyWrites hinc hk hu ha rfl rfl

/-! ## The tasks of the loop mark nothing -/

omit [LinearOrder V] [OrderBot V] in
theorem Unmarking.append {tasks' : List TaskWrites} (h : Unmarking tasks) (h' : Unmarking tasks') :
    Unmarking (tasks ++ tasks') := by
  intro t ht
  rcases List.mem_append.mp ht with ht | ht
  · exact h t ht
  · exact h' t ht

theorem unmarking_nullTask (writes : List (String × PyVal)) : Unmarking [nullTask writes] := by
  intro t ht _ c hc
  rw [List.mem_singleton.mp ht] at hc
  exact absurd hc List.not_mem_nil

theorem unmarking_pushed (pushed : List Pushed) : Unmarking (pushed.map Pushed.toTaskWrites) := by
  intro t ht _ c hc
  obtain ⟨q, -, rfl⟩ := List.mem_map.mp ht
  rw [show c = Const.PUSH from List.mem_singleton.mp hc]
  decide

omit [LinearOrder V] [OrderBot V] in
theorem of_mem_taskWrites {tasks : List Task} {outputs : String → List (String × PyVal)}
    {t : TaskWrites} (h : t ∈ taskWrites tasks outputs) :
    ∃ t₀ ∈ tasks, t = { t₀.toTaskWrites with writes := outputs t₀.id } := by
  obtain ⟨t₀, ht₀, rfl⟩ := List.mem_map.mp h
  obtain ⟨e, he, rfl⟩ := List.mem_map.mp ht₀
  have hget : (tasksById tasks).get? e.1 = some e.2 := OrdDict.get?_eq_some_iff.mpr he
  obtain ⟨t', ht', heq⟩ := List.mem_map.mp (OrdDict.mem_of_get?_ofList hget)
  rw [show t' = e.2 from congrArg Prod.snd heq] at ht'
  exact ⟨e.2, ht', rfl⟩

/-- A prepared task is a node's, or it was sent. -/
theorem unmarking_taskWrites (l : Loop V) (info : StepInfo) (forExecution : Bool)
    (ttn : Option TriggerToNodes) (outputs : String → List (String × PyVal)) :
    Unmarking (taskWrites (nextTaskList (p.ctx info.managed) l.checkpoint l.channels info.step
      forExecution ttn l.updatedChannels) outputs) := by
  intro t ht hname c hc
  obtain ⟨t₀, ht₀, rfl⟩ := of_mem_taskWrites ht
  rcases mem_nextTaskList.mp ht₀ with ⟨i, -, hi⟩ | ⟨node, -, hpull⟩
  · have htrig : t₀.triggers = [Const.PUSH] := (preparePushTaskSend_path hi).2
    have hc' : c ∈ t₀.triggers := hc
    rw [htrig, List.mem_singleton] at hc'
    rw [hc']
    decide
  · obtain ⟨proc, hproc, -, -, hnode, -⟩ := preparePullTask_eq_some hpull
    have hint : node = Const.INTERRUPT := hnode.symm.trans hname
    exact absurd (by rw [hint]; decide) (not_reserved_of_validateGraph p.valid hproc)

theorem unmarking_asNodes (updates : List (String × List (String × PyVal))) :
    Unmarking (updates.map fun u => ⟨[], u.1, u.2, [Const.INTERRUPT]⟩) := by
  intro t ht _ c hc
  obtain ⟨u, -, rfl⟩ := List.mem_map.mp ht
  rw [show c = Const.INTERRUPT from List.mem_singleton.mp hc]
  decide

theorem Loop.grown_of_change (hinc : Increasing p.getNextVersion) (hk : l.Known p) {change : Update}
    (h : l.change p change = some l') : l.Grown l' := by
  have hcall : ∀ {l l' : Loop V} {tasks : List TaskWrites}, l.Known p → Unmarking tasks →
      (l.apply p tasks).map Prod.fst = some l' → l.Grown l' := by
    intro l l' tasks hk hu h
    obtain ⟨⟨l₁, us⟩, ha, rfl⟩ := Option.map_eq_some_iff.mp h
    exact Loop.grown_of_apply hinc hk hu ha
  cases change with
  | asNodes updates => exact hcall hk (unmarking_asNodes updates) h
  | asInput writes => exact hcall hk (unmarking_nullTask writes) h
  | clear info nullWrites outputs =>
    simp only [Loop.change] at h
    split at h
    · exact hcall hk (unmarking_taskWrites l info true none outputs) h
    · obtain ⟨⟨l₁, us⟩, h₁, h⟩ := Option.bind_eq_some_iff.mp h
      have hg := Loop.grown_of_apply hinc hk (unmarking_nullTask nullWrites) h₁
      exact hg.trans (hcall (hk.grown hg) (unmarking_taskWrites l info true none outputs) h)
  | copy =>
    cases h
    exact Loop.Grown.rfl'

/-! ## What the interrupts have seen -/

/-- The interrupts have seen no version above the one of its channel, and exactly
    those of all channels unless one changed since. -/
structure InterruptSeen (p : Program V) (cp : Checkpoint V) (progress : Bool) : Prop where
  known : ∀ c, cp.channelVersions.contains c = true → c ∈ p.specs.keys
  below : ∀ c v, cp.seenVersion Const.INTERRUPT c = some v →
    ∃ y, cp.channelVersions.get? c = some y ∧ v ≤ y
  current : progress = true ↔ ∃ c y, cp.channelVersions.get? c = some y ∧
    (cp.seenVersion Const.INTERRUPT c).getD ⊥ < y

theorem updatedSinceInterrupt_iff (cp : Checkpoint V) : updatedSinceInterrupt cp = true ↔
    ∃ c y, cp.channelVersions.get? c = some y ∧ (cp.seenVersion Const.INTERRUPT c).getD ⊥ < y := by
  have hseen : ∀ c, (cp.versionsSeen.getD Const.INTERRUPT ∅).getD c ⊥ =
      (cp.seenVersion Const.INTERRUPT c).getD ⊥ := by
    intro c
    unfold OrdDict.getD Checkpoint.seenVersion
    cases cp.versionsSeen.get? Const.INTERRUPT <;> rfl
  unfold updatedSinceInterrupt
  rw [List.any_eq_true]
  constructor
  · rintro ⟨⟨c, y⟩, he, hlt⟩
    refine ⟨c, y, OrdDict.get?_eq_some_iff.mpr he, ?_⟩
    rw [← hseen]
    exact of_decide_eq_true hlt
  · rintro ⟨c, y, hy, hlt⟩
    refine ⟨(c, y), OrdDict.get?_eq_some_iff.mp hy, decide_eq_true ?_⟩
    rw [hseen]
    exact hlt

/-- A call that changes a version is progress. -/
theorem InterruptSeen.grown {progress : Bool} (h : InterruptSeen p l.checkpoint progress)
    (hkeys : l.channels.keys = p.specs.keys) (hg : l.Grown l') :
    InterruptSeen p l'.checkpoint (progress || !(l.changed l').isEmpty) := by
  refine ⟨(Loop.Known.grown ⟨hkeys, h.known⟩ hg).2, ?_, ?_⟩
  · intro c v hv
    rw [hg.seen] at hv
    obtain ⟨y, hy, hle⟩ := h.below c v hv
    rcases hg.version c with he | ⟨y', hy', -, -, hlt⟩
    · exact ⟨y, he.trans hy, hle⟩
    · exact ⟨y', hy', hle.trans (hlt y hy).le⟩
  · rw [Bool.or_eq_true, h.current, Bool.not_eq_true', List.isEmpty_eq_false_iff_exists_mem]
    constructor
    · rintro (⟨c, y, hy, hlt⟩ | ⟨c, hc⟩)
      · refine ⟨c, ?_⟩
        rw [hg.seen]
        rcases hg.version c with he | ⟨y', hy', -, -, hlt'⟩
        · exact ⟨y, he.trans hy, hlt⟩
        · exact ⟨y', hy', lt_trans hlt (hlt' y hy)⟩
      · rcases hg.version c with he | ⟨y', hy', -, hbot, hlt⟩
        · exact absurd he.symm (Loop.mem_changed.mp hc).2
        · refine ⟨c, y', hy', ?_⟩
          rw [hg.seen]
          cases hv : l.checkpoint.seenVersion Const.INTERRUPT c with
          | none => exact hbot
          | some v =>
            obtain ⟨y, hy, hle⟩ := h.below c v hv
            exact lt_of_le_of_lt hle (hlt y hy)
    · rintro ⟨c, y', hy', hlt⟩
      rw [hg.seen] at hlt
      by_cases he : l.checkpoint.channelVersions.get? c = l'.checkpoint.channelVersions.get? c
      · exact Or.inl ⟨c, y', he.trans hy', hlt⟩
      · exact Or.inr ⟨c, Loop.mem_changed.mpr ⟨by rw [OrdDict.contains, hy']; rfl, he⟩⟩

/-- A resume sees all versions. -/
theorem InterruptSeen.resume {progress : Bool} (h : InterruptSeen p l.checkpoint progress)
    (hkeys : l.channels.keys = p.specs.keys) :
    InterruptSeen p l.seeInterrupts.checkpoint false := by
  have hseen : ∀ c y, l.checkpoint.channelVersions.get? c = some y →
      l.seeInterrupts.checkpoint.seenVersion Const.INTERRUPT c = some y := by
    intro c y hy
    have hmem : c ∈ l.channels.keys := hkeys ▸ h.known c (by rw [OrdDict.contains, hy]; rfl)
    show ((l.checkpoint.versionsSeen.set Const.INTERRUPT _).get? Const.INTERRUPT).bind _ = _
    rw [OrdDict.get?_set_self, Option.bind_some, get?_setAll_seen, if_pos ⟨hmem, by rw [hy]; rfl⟩, hy]
  have hold : ∀ c, l.checkpoint.channelVersions.get? c = none →
      l.seeInterrupts.checkpoint.seenVersion Const.INTERRUPT c =
        l.checkpoint.seenVersion Const.INTERRUPT c := by
    intro c hc
    show ((l.checkpoint.versionsSeen.set Const.INTERRUPT _).get? Const.INTERRUPT).bind _ = _
    rw [OrdDict.get?_set_self, Option.bind_some, get?_setAll_seen, if_neg (by simp [hc])]
    unfold OrdDict.getD Checkpoint.seenVersion
    cases l.checkpoint.versionsSeen.get? Const.INTERRUPT <;> rfl
  refine ⟨h.known, ?_, ?_⟩
  · intro c v hv
    cases hc : l.checkpoint.channelVersions.get? c with
    | none =>
      rw [hold c hc] at hv
      obtain ⟨y, hy, -⟩ := h.below c v hv
      rw [hc] at hy
      cases hy
    | some y =>
      rw [hseen c y hc, Option.some.injEq] at hv
      exact ⟨y, hc, hv ▸ le_refl y⟩
  · refine iff_of_false Bool.false_ne_true ?_
    rintro ⟨c, y, hy, hlt⟩
    have hy' : l.checkpoint.channelVersions.get? c = some y := hy
    rw [hseen c y hy', Option.getD_some] at hlt
    exact absurd hlt (lt_irrefl y)

/-! ## Runs -/

/-- A checkpoint with these snapshots changes no version, unless one changed since
    the last resume anyway. -/
def RunState.Steady (r : RunState V) (toSnapshot : List String) : Prop :=
  r.progress = true ∨ ∀ k ∈ toSnapshot, r.loop.checkpoint.channelVersions.contains k = true →
    k ∈ r.updatedChannels.getD []

instance (r : RunState V) (toSnapshot : List String) : Decidable (r.Steady toSnapshot) :=
  inferInstanceAs (Decidable (_ ∨ ∀ k ∈ toSnapshot, _ → _))

/-- No `_put_checkpoint` takes a snapshot of a channel that its step did not update
    while nothing was updated since the last resume. -/
def Steady (bound : Nat) (p : Program V) (w : ThreadState V) : ThreadEvent → Prop
  | .resume (some _) => ∀ r ∈ w.run, r.durability ≠ .exit →
      RunState.Steady { r with progress := false } (r.channelsToSnapshot bound r.countStep)
  | .input info writes _ => ∀ r ∈ w.run, ∀ r' ∈ r.afterInput p info writes, r'.durability ≠ .exit →
      r'.Steady (r'.channelsToSnapshot bound r'.countStep)
  | .superstep info outputs pushed _ _ => ∀ r ∈ w.run,
      let r' := (r.afterTick p
        (r.superstepTasks p info outputs ++ pushed.map Pushed.toTaskWrites)).1
      r'.phase ≠ .failed → r'.durability ≠ .exit →
        r'.Steady (r'.channelsToSnapshot bound r'.countStep)
  | .exit => ∀ r ∈ w.run, r.durability = .exit → r.loop.checkpoint.id ≠ r.checkpointIdSaved →
      r.Steady (r.channelsToSnapshot bound r.counters)
  | _ => True

instance Steady.instDecidable (bound : Nat) (p : Program V) (w : ThreadState V) :
    ∀ e : ThreadEvent, Decidable (Steady bound p w e)
  | .resume (some _) => inferInstanceAs (Decidable (∀ r ∈ w.run, _ → RunState.Steady _ _))
  | .input info writes _ => inferInstanceAs (Decidable (∀ r ∈ w.run,
      ∀ r' ∈ r.afterInput p info writes, _ → r'.Steady _))
  | .superstep info outputs pushed _ _ => inferInstanceAs (Decidable (∀ r ∈ w.run,
      (r.afterTick p (r.superstepTasks p info outputs ++ pushed.map Pushed.toTaskWrites)).1.phase ≠
        .failed → _ → RunState.Steady _ _))
  | .exit => inferInstanceAs (Decidable (∀ r ∈ w.run, _ → _ ≠ _ → r.Steady _))
  | .enter .. => inferInstanceAs (Decidable True)
  | .nullWrites _ => inferInstanceAs (Decidable True)
  | .resume none => inferInstanceAs (Decidable True)
  | .started => inferInstanceAs (Decidable True)
  | .update .. => inferInstanceAs (Decidable True)

structure RunSeen (p : Program V) (r : RunState V) : Prop where
  keys : r.loop.channels.keys = p.specs.keys
  seen : InterruptSeen p r.loop.checkpoint r.progress

structure ThreadSeen (p : Program V) (w : ThreadState V) : Prop where
  rows : ∀ row ∈ w.rows, InterruptSeen p row.saved.checkpoint row.progress
  run : ∀ r, w.run = some r → RunSeen p r

variable {bound : Nat} {w w' : ThreadState V} {rows : List (ThreadRow V)} {r : RunState V}

theorem InterruptSeen.newCheckpoint (hinc : Increasing p.getNextVersion)
    (h : InterruptSeen p r.loop.checkpoint r.progress) {toSnapshot : List String}
    (hs : r.Steady toSnapshot) (id : String) :
    InterruptSeen p (r.newCheckpoint p id toSnapshot) r.progress := by
  have hseen : ∀ c, (r.newCheckpoint p id toSnapshot).seenVersion Const.INTERRUPT c =
      r.loop.checkpoint.seenVersion Const.INTERRUPT c := by
    intro c
    rw [Checkpoint.seenVersion, RunState.newCheckpoint, versionsSeen_sanitizeTasks]
    rfl
  have hver : ∀ c y, r.loop.checkpoint.channelVersions.get? c = some y →
      ∃ y', (r.newCheckpoint p id toSnapshot).channelVersions.get? c = some y' ∧ y ≤ y' ∧
        (r.progress = false → y' = y) := by
    intro c y hy
    rw [RunState.newCheckpoint, channelVersions_sanitizeTasks, get?_channelVersions_create, hy]
    refine ⟨_, rfl, ?_⟩
    split
    · unfold snapshotVersion
      split
      · rename_i hsnap
        refine ⟨(hinc.next y).le, fun hp => ?_⟩
        -- the snapshot of a channel that was not updated
        rcases hs with hp' | hout
        · rw [hp] at hp'
          cases hp'
        · have hin := hout c hsnap.1 (by rw [OrdDict.contains, hy]; rfl)
          have hnot := hsnap.2
          cases hu : r.updatedChannels with
          | none =>
            rw [hu] at hin
            cases hin
          | some us =>
            rw [hu, Option.getD_some] at hin
            rw [hu, Option.all_some, Bool.not_eq_true', List.contains_eq_mem,
              decide_eq_false_iff_not] at hnot
            exact absurd hin hnot
      · exact ⟨le_refl y, fun _ => rfl⟩
    · exact ⟨le_refl y, fun _ => rfl⟩
  have hnone : ∀ c y', (r.newCheckpoint p id toSnapshot).channelVersions.get? c = some y' →
      ∃ y, r.loop.checkpoint.channelVersions.get? c = some y := by
    intro c y' hy'
    have hcontains := contains_newCheckpoint (r := r) p id toSnapshot c
    rw [OrdDict.contains, hy'] at hcontains
    exact Option.isSome_iff_exists.mp hcontains.symm
  refine ⟨fun c hc => h.known c (contains_newCheckpoint (r := r) p id toSnapshot c ▸ hc), ?_, ?_⟩
  · intro c v hv
    rw [hseen] at hv
    obtain ⟨y, hy, hle⟩ := h.below c v hv
    obtain ⟨y', hy', hle', -⟩ := hver c y hy
    exact ⟨y', hy', hle.trans hle'⟩
  · rw [h.current]
    constructor
    · rintro ⟨c, y, hy, hlt⟩
      obtain ⟨y', hy', hle, -⟩ := hver c y hy
      exact ⟨c, y', hy', by rw [hseen]; exact lt_of_lt_of_le hlt hle⟩
    · rintro ⟨c, y', hy', hlt⟩
      cases hp : r.progress with
      | true => exact h.current.mp hp
      | false =>
        obtain ⟨y, hy⟩ := hnone c y' hy'
        obtain ⟨y₂, hy₂, -, heq⟩ := hver c y hy
        rw [hy₂, Option.some.injEq] at hy'
        rw [hseen, ← hy', heq hp] at hlt
        exact ⟨c, y, hy, hlt⟩

/-- The versions, and what the interrupts have seen of them, are the same. -/
theorem InterruptSeen.congr {cp cp' : Checkpoint V} {progress : Bool}
    (h : InterruptSeen p cp progress)
    (hver : ∀ c, cp'.channelVersions.get? c = cp.channelVersions.get? c)
    (hseen : cp'.versionsSeen = cp.versionsSeen) : InterruptSeen p cp' progress := by
  have hs : ∀ c, cp'.seenVersion Const.INTERRUPT c = cp.seenVersion Const.INTERRUPT c := by
    intro c
    rw [Checkpoint.seenVersion, hseen]
    rfl
  refine ⟨fun c hc => h.known c (by rw [OrdDict.contains, ← hver]; exact hc), ?_, ?_⟩
  · intro c v hv
    rw [hver]
    exact h.below c v (hs c ▸ hv)
  · simp only [hver, hs]
    exact h.current

/-- A checkpoint that takes no snapshot changes no version. -/
theorem InterruptSeen.created {cp : Checkpoint V} {progress : Bool}
    (h : InterruptSeen p cp progress) (channels : Option (OrdDict String Channel)) (id : String)
    (updated : Option (List String)) (g : Option (GetNextVersion V)) :
    InterruptSeen p (createCheckpoint cp channels id updated g []) progress := by
  apply h.congr
  · intro c
    cases channels with
    | none => rfl
    | some channels =>
      rw [get?_channelVersions_create]
      cases cp.channelVersions.get? c with
      | none => rfl
      | some v => simp [snapshotVersion]
  · rfl

theorem interruptSeen_stub (id : String) :
    InterruptSeen p (stubRow (V := V) id).saved.checkpoint false := by
  refine ⟨fun c hc => ?_, fun c v hv => ?_, iff_of_false Bool.false_ne_true ?_⟩
  · cases hc
  · cases hv
  · rintro ⟨c, y, hy, -⟩
    cases hy

theorem rowsSeen_append (hrows : ∀ row ∈ rows, InterruptSeen p row.saved.checkpoint row.progress)
    {row : ThreadRow V} (hrow : InterruptSeen p row.saved.checkpoint row.progress) :
    ∀ row' ∈ rows ++ [row], InterruptSeen p row'.saved.checkpoint row'.progress := by
  intro row' hmem
  rcases List.mem_append.mp hmem with hmem | hmem
  · exact hrows row' hmem
  · rw [List.mem_singleton.mp hmem]
    exact hrow

theorem putCheckpoint_seen (hinc : Increasing p.getNextVersion)
    (hrows : ∀ row ∈ rows, InterruptSeen p row.saved.checkpoint row.progress) (hr : RunSeen p r)
    (hs : r.durability ≠ .exit → r.Steady (r.channelsToSnapshot bound r.countStep)) (id : String) :
    ThreadSeen p (putCheckpoint bound p rows r id) := by
  unfold putCheckpoint
  split
  · refine ⟨hrows, fun r' hr' => ?_⟩
    cases hr'
    refine ⟨hr.keys, (hr.seen.created none id r.updatedChannels none).congr (fun c => ?_) ?_⟩
    · rw [RunState.advance, channelVersions_sanitizeTasks]
    · rw [RunState.advance, versionsSeen_sanitizeTasks]
  · rename_i hsaves
    have hnew := hr.seen.newCheckpoint hinc (hs hsaves) id
    refine ⟨rowsSeen_append hrows hnew, fun r' hr' => ?_⟩
    cases hr'
    exact ⟨hr.keys, hnew⟩

theorem putExitCheckpoint_seen (hinc : Increasing p.getNextVersion)
    (hrows : ∀ row ∈ rows, InterruptSeen p row.saved.checkpoint row.progress) (hr : RunSeen p r)
    (hs : r.loop.checkpoint.id ≠ r.checkpointIdSaved →
      r.Steady (r.channelsToSnapshot bound r.counters)) :
    ∀ row ∈ putExitCheckpoint bound p rows r, InterruptSeen p row.saved.checkpoint row.progress := by
  have hstub : ∀ row ∈ (r.putExitDeltaWrites bound rows).1,
      InterruptSeen p row.saved.checkpoint row.progress := by
    unfold RunState.putExitDeltaWrites
    simp only
    split
    · exact hrows
    · exact rowsSeen_append hrows (interruptSeen_stub _)
  unfold putExitCheckpoint
  simp only
  split
  · exact hstub
  · rename_i hid
    exact rowsSeen_append hstub (hr.seen.newCheckpoint hinc (hs hid) _)

/-! ## The steps of a thread -/

theorem ThreadSeen.source (hw : ThreadSeen p w) {source : Option Nat} {id : String}
    {row : ThreadRow V} (h : w.source source id = some row) :
    InterruptSeen p row.saved.checkpoint row.progress := by
  cases source with
  | none =>
    cases h
    exact interruptSeen_stub id
  | some i => exact hw.rows row (List.mem_of_getElem? h)

omit [LinearOrder V] [OrderBot V] in
theorem Loop.keys_of_load {s : Saved V} {history : History} (h : s.load p history = some l) :
    l.channels.keys = p.specs.keys :=
  channelsFromCheckpoint_keys (Saved.load_eq_some h).1

theorem RunSeen.called (hr : RunSeen p r) (hg : r.loop.Grown l) : RunSeen p (r.called l) :=
  ⟨hg.keys.trans hr.keys, hr.seen.grown hr.keys hg⟩

theorem RunSeen.known (hr : RunSeen p r) : r.loop.Known p := ⟨hr.keys, hr.seen.known⟩

theorem ThreadSeen.enter (hw : ThreadSeen p w) {source : Option Nat} {id : String}
    {history : History} {durability : Durability}
    (h : LangGraph.enter p w source id history durability = some w') : ThreadSeen p w' := by
  obtain ⟨row, hrow, h⟩ := Option.bind_eq_some_iff.mp h
  obtain ⟨l, hl, rfl⟩ := Option.map_eq_some_iff.mp h
  refine ⟨hw.rows, fun r hr => ?_⟩
  cases hr
  refine ⟨Loop.keys_of_load hl, ?_⟩
  show InterruptSeen p l.checkpoint row.progress
  rw [(Saved.load_eq_some hl).2.1]
  exact hw.source hrow

theorem ThreadSeen.update (hinc : Increasing p.getNextVersion) (hw : ThreadSeen p w)
    {source : Option Nat} {id : String} {history : History} {change : Update}
    (h : performSuperstep p w source id history change = some w') : ThreadSeen p w' := by
  unfold performSuperstep at h
  split at h
  · cases h
  · obtain ⟨row, hrow, h⟩ := Option.bind_eq_some_iff.mp h
    obtain ⟨l, hl, h⟩ := Option.bind_eq_some_iff.mp h
    obtain ⟨l', hl', rfl⟩ := Option.map_eq_some_iff.mp h
    have hseen : InterruptSeen p l.checkpoint row.progress := by
      rw [(Saved.load_eq_some hl).2.1]
      exact hw.source hrow
    have hkeys : l.channels.keys = p.specs.keys := Loop.keys_of_load hl
    have hg : l.unhinted.Grown l' := Loop.grown_of_change hinc ⟨hkeys, hseen.known⟩ hl'
    have hnew : InterruptSeen p l'.checkpoint (row.progress || !(l.changed l').isEmpty) :=
      InterruptSeen.grown (l := l.unhinted) hseen hkeys hg
    refine ⟨rowsSeen_append ?_ (hnew.created _ id none none), hw.run⟩
    unfold ThreadState.updateParent
    split
    · exact hw.rows
    · split
      · exact rowsSeen_append hw.rows (interruptSeen_stub id)
      · exact hw.rows

theorem RunSeen.afterInput (hinc : Increasing p.getNextVersion) (hr : RunSeen p r)
    {info : StepInfo} {writes : List (String × PyVal)} {r' : RunState V}
    (h : r.afterInput p info writes = some r') : RunSeen p r' := by
  obtain ⟨⟨l, us⟩, ha, rfl⟩ := Option.map_eq_some_iff.mp h
  have hmark : Unmarking (r.inputTasks p info writes) :=
    (unmarking_taskWrites r.loop info true _ _).append (unmarking_nullTask writes)
  have hg := Loop.grown_of_apply hinc hr.known hmark ha
  have hcalled := hr.called (l := { l with updatedChannels := some us })
    ⟨hg.seen, hg.keys, hg.version⟩
  exact ⟨hcalled.keys, hcalled.seen⟩

/-- A superstep, whether it raises or not. -/
theorem RunSeen.afterTick (hinc : Increasing p.getNextVersion) (hr : RunSeen p r)
    (hmark : Unmarking tasks) {r' : RunState V} {res : Except PyErr Unit}
    (h : r.afterTick p tasks = (r', res)) :
    RunSeen p r' ∧ (res = .ok () → r'.phase = r.phase) := by
  unfold RunState.afterTick at h
  simp only at h
  match ha : applyWrites r.loop.checkpoint r.loop.channels tasks (some p.getNextVersion)
      p.triggerToNodes with
  | (s, .error e) =>
    rw [ha] at h
    cases h
    have hg : r.loop.Grown { r.loop with checkpoint := s.checkpoint, channels := s.channels } :=
      Loop.grown_of_applyWrites hinc hr.known hmark ha rfl rfl
    have hcalled := hr.called hg
    exact ⟨⟨hcalled.keys, hcalled.seen⟩, nofun⟩
  | (s, .ok ()) =>
    rw [ha] at h
    cases h
    have hg : r.loop.Grown (r.loop.after tasks s) :=
      Loop.grown_of_applyWrites hinc hr.known hmark ha rfl rfl
    have hcalled := hr.called hg
    exact ⟨⟨hcalled.keys, hcalled.seen⟩, fun _ => rfl⟩

theorem ThreadSeen.superstep (hinc : Increasing p.getNextVersion) (hw : ThreadSeen p w)
    {info : StepInfo} {outputs : String → List (String × PyVal)} {pushed : List Pushed}
    {pending : List (String × PyVal)} {id : String}
    (hok : Steady bound p w (.superstep info outputs pushed pending id))
    (h : threadStep bound p w (.superstep info outputs pushed pending id) = some w') :
    ThreadSeen p w' := by
  obtain ⟨r, hr, h⟩ := Option.bind_eq_some_iff.mp h
  simp only at h
  split at h
  · rename_i hticking
    have hsteady := hok r hr
    simp only at hsteady
    have hmark : Unmarking (r.superstepTasks p info outputs ++ pushed.map Pushed.toTaskWrites) :=
      (unmarking_taskWrites { r.loop with updatedChannels := r.updatedChannels } info true _
        outputs).append (unmarking_pushed pushed)
    generalize r.superstepTasks p info outputs ++ pushed.map Pushed.toTaskWrites = tasks
      at h hsteady hmark
    match ha : r.afterTick p tasks with
    | (r', .error e) =>
      rw [ha] at h
      cases h
      refine ⟨hw.rows, fun r₁ hr₁ => ?_⟩
      cases hr₁
      exact ((hw.run r hr).afterTick hinc hmark ha).1
    | (r', .ok ()) =>
      rw [ha] at h hsteady
      cases h
      obtain ⟨hrun, hphase⟩ := (hw.run r hr).afterTick hinc hmark ha
      have hrunning : r'.phase ≠ .failed := by
        rw [hphase rfl, hticking.1]
        decide
      have hacc : RunSeen p (r'.accumulate p pending) := ⟨hrun.keys, hrun.seen⟩
      exact putCheckpoint_seen hinc hw.rows hacc (hsteady hrunning) id
  · cases h

/-- A step that meets the condition keeps what the interrupts have seen. -/
theorem ThreadSeen.step (hinc : Increasing p.getNextVersion) (hw : ThreadSeen p w)
    {e : ThreadEvent} (hok : Steady bound p w e) (h : threadStep bound p w e = some w') :
    ThreadSeen p w' := by
  cases e with
  | enter source id history durability => exact hw.enter h
  | update source id history change => exact hw.update hinc h
  | superstep info outputs pushed pending id => exact hw.superstep hinc hok h
  | nullWrites writes =>
    obtain ⟨r, hr, h⟩ := Option.bind_eq_some_iff.mp h
    split at h
    · obtain ⟨⟨l, us⟩, ha, rfl⟩ := Option.map_eq_some_iff.mp h
      have hrun := hw.run r hr
      have hg := Loop.grown_of_apply hinc hrun.known (unmarking_nullTask writes) ha
      refine ⟨hw.rows, fun r' hr' => ?_⟩
      cases hr'
      exact hrun.called ⟨hg.seen, hg.keys, hg.version⟩
    · cases h
  | resume fork =>
    obtain ⟨r, hr, h⟩ := Option.bind_eq_some_iff.mp h
    split at h
    · have hrun := hw.run r hr
      have hseen : RunSeen p
          { r with loop := r.loop.seeInterrupts, phase := .mapped, progress := false } :=
        ⟨hrun.keys, hrun.seen.resume hrun.keys⟩
      cases fork with
      | none =>
        cases h
        refine ⟨hw.rows, fun r' hr' => ?_⟩
        cases hr'
        exact hseen
      | some id =>
        cases h
        exact putCheckpoint_seen hinc hw.rows hseen (hok r hr) id
    · cases h
  | input info writes id =>
    obtain ⟨r, hr, h⟩ := Option.bind_eq_some_iff.mp h
    split at h
    · obtain ⟨r', hr', rfl⟩ := Option.map_eq_some_iff.mp h
      exact putCheckpoint_seen hinc hw.rows ((hw.run r hr).afterInput hinc hr') (hok r hr r' hr') id
    · cases h
  | started =>
    obtain ⟨r, hr, h⟩ := Option.bind_eq_some_iff.mp h
    split at h
    · cases h
      refine ⟨hw.rows, fun r' hr' => ?_⟩
      cases hr'
      exact ⟨(hw.run r hr).keys, (hw.run r hr).seen⟩
    · cases h
  | exit =>
    obtain ⟨r, hr, h⟩ := Option.bind_eq_some_iff.mp h
    split at h
    · cases h
      refine ⟨?_, fun r' hr' => absurd hr'.symm (Option.some_ne_none r')⟩
      show ∀ row ∈ (if r.durability = .exit then putExitCheckpoint bound p w.rows r else w.rows),
        InterruptSeen p row.saved.checkpoint row.progress
      split
      · rename_i hexit
        exact putExitCheckpoint_seen hinc hw.rows (hw.run r hr) (hok r hr hexit)
      · exact hw.rows
    · cases h

theorem shouldInterrupt_ne_nil_iff (cp : Checkpoint V) (interruptNodes : InterruptNodes)
    (hidden : Task → Bool) (tasks : List Task) :
    shouldInterrupt cp interruptNodes hidden tasks ≠ [] ↔
      updatedSinceInterrupt cp = true ∧ ∃ t ∈ tasks, interruptNodes.matches hidden t = true := by
  unfold shouldInterrupt
  split
  · rename_i hupdated
    rw [and_iff_right hupdated, ← List.isEmpty_eq_false_iff, List.isEmpty_eq_false_iff_exists_mem]
    simp only [List.mem_filter]
  · rename_i hupdated
    exact iff_of_false (fun h => h rfl) fun h => hupdated h.1

/-- In every run of a thread whose steps meet the condition, `should_interrupt` fires
    exactly when a channel was updated since the last resume and a task matches. -/
theorem shouldInterrupt_iff_progress (bound : Nat) (p : Program V)
    (hinc : Increasing p.getNextVersion) {w : ThreadState V}
    (h : Machine.Reachable (threadStep bound p) (Steady bound p) ⟨[], none⟩ w) {r : RunState V}
    (hr : w.run = some r) (interruptNodes : InterruptNodes) (hidden : Task → Bool)
    (tasks : List Task) :
    shouldInterrupt r.loop.checkpoint interruptNodes hidden tasks ≠ [] ↔
      r.progress = true ∧ ∃ t ∈ tasks, interruptNodes.matches hidden t = true := by
  have hw : ThreadSeen p w := by
    refine Machine.Reachable.invariant (P := ThreadSeen p) ?_ ?_ h
    · exact ⟨fun row hrow => absurd hrow List.not_mem_nil,
        fun r' hr' => absurd hr'.symm (Option.some_ne_none r')⟩
    · exact fun w e w' hw hok hstep => hw.step hinc hok hstep
  rw [shouldInterrupt_ne_nil_iff, updatedSinceInterrupt_iff, (hw.run r hr).seen.current]

end Interrupts

/-- A thread stops before `A` with a log that `START` has written, and is resumed as
    a fork. -/
def forkedRun : List ThreadEvent :=
  [.enter none "0" noHistory .sync, .input (unmanaged (-1)) [(Const.START, .int 5)] "1", .started,
    .superstep (unmanaged 0) (fun _ => [(branchTo "A", .none), ("x", .int 5), ("log", .int 0)])
      [] [] "2", .exit,
    .enter (some 1) "" (loggedBy 1) .sync, .resume (some "fork"), .started]

theorem forkedRun_interrupt : ∃ (w : ThreadState Nat) (r : RunState Nat), w.run = some r ∧
    r.progress = false ∧ ∀ interruptNodes hidden tasks,
      shouldInterrupt r.loop.checkpoint interruptNodes hidden tasks = [] := by
  have hok : Machine.Meets (threadStep deltaMaxSuperstepsSinceSnapshot growingProgram)
      (Steady deltaMaxSuperstepsSinceSnapshot growingProgram) ⟨[], none⟩ forkedRun := by
    decide +kernel
  have hrun : (Machine.run (threadStep deltaMaxSuperstepsSinceSnapshot growingProgram) ⟨[], none⟩
      forkedRun).map (fun w => w.run.map RunState.progress) = some (some false) := by
    decide +kernel
  obtain ⟨w, hw, hf⟩ := Machine.exists_of_run hok hrun
  obtain ⟨r, hr, hprogress⟩ := Option.map_eq_some_iff.mp hf
  refine ⟨w, r, hr, hprogress, fun interruptNodes hidden tasks => ?_⟩
  have hiff := shouldInterrupt_iff_progress deltaMaxSuperstepsSinceSnapshot growingProgram
    increasing_growingProgram hw hr interruptNodes hidden tasks
  by_contra hne
  rw [(hiff.mp hne).1] at hprogress
  cases hprogress

/-- The fork takes a snapshot of the log, so that it stops before `A` again with
    nothing updated in between. -/
theorem shouldInterrupt_iff_progress_fails : ∃ (w : ThreadState Nat) (r : RunState Nat),
    Machine.run (threadStep 3 growingProgram) ⟨[], none⟩ forkedRun = some w ∧ w.run = some r ∧
    r.progress = false ∧
    (shouldInterrupt r.loop.checkpoint (.names ["A"]) (fun _ => false)
      (r.loop.tasks growingProgram (unmanaged 1) true)).map Task.name = ["A"] := by
  have hrun : (Machine.run (threadStep 3 growingProgram) ⟨[], none⟩ forkedRun).map (fun w =>
      w.run.map fun r => (r.progress, (shouldInterrupt r.loop.checkpoint (.names ["A"])
        (fun _ => false) (r.loop.tasks growingProgram (unmanaged 1) true)).map Task.name)) =
      some (some (false, ["A"])) := by decide +kernel
  obtain ⟨w, hw, hf⟩ := Option.map_eq_some_iff.mp hrun
  obtain ⟨r, hr, hf⟩ := Option.map_eq_some_iff.mp hf
  exact ⟨w, r, hw, hr, (Prod.mk.inj hf).1, (Prod.mk.inj hf).2⟩

end LangGraph
