import LangGraph.DiscardedTasks
import LangGraph.InterruptNodes

/- What a superstep leaves behind when `apply_writes` raises in it.

   Correspondence (source ↔ Lean):
     the loop over `pending_writes_by_channel`,
     up to the channel that raises                  ↔ `groupsKept`
     what the thread is left with                   ↔ the last row after `.superstep` and `.exit`
   The call works in place, so the loop keeps what it changed before it raised:
   the triggers that it marked as seen, the channels that it consumed or updated
   and their versions. With durability `exit` the end of the run saves that. The
   last checkpoint is then the one that the run would have saved without the
   superstep only when nothing was changed yet (`rejected_sameRow_iff`). -/
namespace LangGraph

/-! ## A call that raises -/

section Raises
variable {V : Type}

/-- The groups leave nothing behind: none is updated before the one that raises, and
    that one is stored as it was. -/
def groupsKept (versions : OrdDict String V) (channels : OrdDict String Channel) :
    List (String × List PyVal) → Bool
  | [] => true
  | (chan, vals) :: rest =>
    match channels.get? chan with
    | none => groupsKept versions channels rest
    | some c =>
      match c.update vals with
      | (c', .error _) => !versions.contains chan || decide (c'.checkpoint = c.checkpoint)
      | (_, .ok changed) => !changed && groupsKept versions channels rest

/-- A channel got the new version before another one raised, or nothing changed but
    the channel that raised. -/
theorem updateAll_raised {v : V} {s s' : ApplyState V} {e : PyErr} :
    ∀ {entries : List (String × List PyVal)}, updateAll (some v) s entries = (s', .error e) →
      (groupsKept s.checkpoint.channelVersions s.channels entries = false ∧
        ∃ chan, s'.checkpoint.channelVersions.get? chan = some v ∧ chan ∈ s.channels.keys) ∨
      ∃ chan c c' vals, s.channels.get? chan = some c ∧ c.update vals = (c', .error e) ∧
        s' = { s with channels := s.channels.set chan c' } ∧
        groupsKept s.checkpoint.channelVersions s.channels entries =
          (!s.checkpoint.channelVersions.contains chan || decide (c'.checkpoint = c.checkpoint))
  | [], h => by cases h
  | (chan, vals) :: rest, h => by
    rw [updateAll, KeyedFold.foldE] at h
    simp only at h
    cases hc : s.channels.get? chan with
    | none =>
      have hone : updateOne (some v) s chan vals = (s, .ok ()) := by rw [updateOne, hc]
      rw [hone] at h
      rw [groupsKept, hc]
      exact updateAll_raised h
    | some c =>
      rcases hu : c.update vals with ⟨c', e' | changed⟩
      · have hone : updateOne (some v) s chan vals =
            ({ s with channels := s.channels.set chan c' }, .error e') := by
          rw [updateOne, hc]
          simp only [hu]
        rw [hone] at h
        cases h
        refine Or.inr ⟨chan, c, c', vals, hc, hu, rfl, ?_⟩
        rw [groupsKept, hc]
        simp only [hu]
      · have hone : updateOne (some v) s chan vals =
            (recordUpdate (some v) chan c' changed s, .ok ()) := by
          rw [updateOne, hc]
          simp only [hu]
        have hkept : groupsKept s.checkpoint.channelVersions s.channels ((chan, vals) :: rest) =
            (!changed && groupsKept s.checkpoint.channelVersions s.channels rest) := by
          rw [groupsKept, hc]
          simp only [hu]
        rw [hone] at h
        rw [hkept]
        cases changed with
        | false =>
          -- an update that reports nothing changed nothing
          have hsame : recordUpdate (some v) chan c' false s = s := by
            rw [Channel.update_false hu]
            simp [recordUpdate, OrdDict.set_get? hc]
          rw [hsame] at h
          exact updateAll_raised h
        | true =>
          have hver := KeyedFold.foldE_invariant
            (f := fun s (e : String × List PyVal) => updateOne (some v) s e.1 e.2)
            (P := fun t : ApplyState V => t.checkpoint.channelVersions.get? chan = some v)
            (fun t e ht => updateOne_invariant
              (P := fun cp _ => cp.channelVersions.get? chan = some v)
              (fun _ _ _ _ _ hcp _ _ => hcp)
              (fun cp _ c hcp _ => by
                by_cases hk : chan = c
                · rw [hk, Checkpoint.setVersion, OrdDict.get?_set_self]
                · rw [Checkpoint.setVersion, OrdDict.get?_set_of_ne hk, hcp])
              t e.1 e.2 ht)
            rest (recordUpdate (some v) chan c' true s) (OrdDict.get?_set_self _ _ _)
          simp only at h
          rw [h] at hver
          exact Or.inl ⟨rfl, chan, hver, OrdDict.mem_keys_iff.mpr ⟨c, hc⟩⟩

end Raises

section Call
variable {V : Type} [LinearOrder V]

omit [LinearOrder V] in
/-- The notification of a step and its end do not raise. -/
theorem endStep_returns (nv : Option V) (bump : Bool) (ttn : TriggerToNodes) (s : ApplyState V) :
    (endStep nv bump ttn s).2 = .ok () := by
  have hall : ∀ (chans : List String) (s : ApplyState V), (bumpAll nv s chans).2 = .ok () := by
    intro chans
    induction chans with
    | nil => exact fun _ => rfl
    | cons chan chans ih =>
      intro s
      have hone : ∃ s₁, bumpOne nv s chan = (s₁, .ok ()) := by
        unfold bumpOne updateOne
        split
        · cases s.channels.get? chan with
          | none => exact ⟨s, rfl⟩
          | some c =>
            obtain ⟨c', changed, hu⟩ := c.update_nil
            simp only [hu]
            exact ⟨_, rfl⟩
        · exact ⟨s, rfl⟩
      obtain ⟨s₁, hs₁⟩ := hone
      rw [bumpAll, KeyedFold.foldE, hs₁]
      exact ih s₁
  unfold endStep
  split
  · have hb := hall s.channels.keys s
    rcases hs : bumpAll nv s s.channels.keys with ⟨s', e | ⟨⟩⟩
    · rw [hs] at hb
      cases hb
    · simp only
      split <;> rfl
  · rfl

/-- What no phase changes of the checkpoint, whether the call raises or not. -/
theorem applyWrites_frame (cp : Checkpoint V) (channels : OrdDict String Channel)
    (tasks : List TaskWrites) (g : GetNextVersion V) (ttn : TriggerToNodes) :
    (applyWrites cp channels tasks (some g) ttn).1.checkpoint.id = cp.id ∧
      (applyWrites cp channels tasks (some g) ttn).1.checkpoint.versionsSeen =
        ((SortBy.sortBy TaskWrites.sortKey tasks).foldl markSeen cp).versionsSeen :=
  applyWrites_invariant
    (P := fun cp' _ => cp'.id = cp.id ∧ cp'.versionsSeen =
      ((SortBy.sortBy TaskWrites.sortKey tasks).foldl markSeen cp).versionsSeen)
    (fun _ _ _ _ _ h _ _ => h) (fun _ _ _ h _ => h) cp channels tasks g ttn rfl
    ⟨id_foldl_markSeen _ _, rfl⟩

/-- A superstep of sends consumes nothing, so it raises in the loop over the groups. -/
theorem applyWrites_raised {cp : Checkpoint V} {channels : OrdDict String Channel}
    {tasks : List TaskWrites} {g : GetNextVersion V} {ttn : TriggerToNodes} {s : ApplyState V}
    {e : PyErr} (hpush : ∀ t ∈ tasks, t.triggers = [Const.PUSH])
    (h : applyWrites cp channels tasks (some g) ttn = (s, .error e)) :
    updateAll (some (cp.next g))
      ⟨(SortBy.sortBy TaskWrites.sortKey tasks).foldl markSeen cp, channels, []⟩
      (groupWrites (SortBy.sortBy TaskWrites.sortKey tasks) channels).entries = (s, .error e) := by
  unfold applyWrites at h
  have hmem : ∀ t ∈ SortBy.sortBy TaskWrites.sortKey tasks, t.triggers = [Const.PUSH] :=
    fun t ht => hpush t (SortBy.mem_sortBy.mp ht)
  generalize SortBy.sortBy TaskWrites.sortKey tasks = sorted at h hmem ⊢
  have hnv : nextVersion (some g) (sorted.foldl markSeen cp) = some (cp.next g) := by
    rw [nextVersion, channelVersions_foldl_markSeen]
    rfl
  have hnone : triggerChannels sorted channels = [] := by
    rw [List.eq_nil_iff_forall_not_mem]
    intro chan hchan
    obtain ⟨⟨t, ht, hc⟩, hres, -⟩ := mem_triggerChannels.mp hchan
    rw [hmem t ht, List.mem_singleton] at hc
    rw [hc] at hres
    exact hres (by decide)
  simp only [hnv, hnone, List.foldl_nil] at h
  rcases hu : updateAll (some (cp.next g)) ⟨sorted.foldl markSeen cp, channels, []⟩
      (groupWrites sorted channels).entries with ⟨s₁, e₁ | ⟨⟩⟩
  · rw [hu] at h
    exact h
  · rw [hu] at h
    have hend : endStep (some (cp.next g)) (sorted.any fun t => !t.triggers.isEmpty) ttn s₁ =
        (s, .error e) := h
    have hret := endStep_returns (some (cp.next g)) (sorted.any fun t => !t.triggers.isEmpty) ttn s₁
    rw [hend] at hret
    cases hret

end Call

/-! ## The channels of a loop -/

section Hydrated
variable {V : Type} [LinearOrder V]

/-- The loop has the channels of the graph, each `DeltaChannel` with a value, and
    versions of no others. -/
structure Loop.Hydrated (p : Program V) (l : Loop V) : Prop where
  keys : l.channels.keys = p.specs.keys
  known : ∀ c, l.checkpoint.channelVersions.contains c = true → c ∈ p.specs.keys
  topic : ∀ c, l.channels.get? Const.TASKS = some c → c.SameSpec taskTopic
  delta : ∀ k c, p.isDelta k = true → l.channels.get? k = some c →
    ∃ d, c = .deltaChannel d ∧ d.value.isSome = true

variable {p : Program V} {l l' : Loop V} {tasks : List TaskWrites} {us : List String} {k : String}

omit [LinearOrder V] in
theorem Program.isDelta_iff (p : Program V) {k : String} : p.isDelta k = true ↔
    ∃ delta, p.specs.get? k = some (.deltaChannel delta) := by
  rw [Program.isDelta, Option.any_eq_true]
  constructor
  · rintro ⟨spec, hs, hdelta⟩
    cases spec with
    | deltaChannel delta => exact ⟨delta, hs⟩
    | _ => cases hdelta
  · rintro ⟨delta, hs⟩
    exact ⟨_, hs, rfl⟩

theorem Channel.Touched.sameSpec {c c' : Channel} (h : c.Touched c') : c'.SameSpec c := by
  cases h with
  | consume => exact c.sameSpec_consume
  | update vals => exact c.sameSpec_update vals
  | finish => exact c.sameSpec_finish

/-- A call keeps the channels, whether it raises or not. -/
theorem Loop.Hydrated.call (h : l.Hydrated p) {s : ApplyState V} {res : Except PyErr Unit}
    (ha : applyWrites l.checkpoint l.channels tasks (some p.getNextVersion) p.triggerToNodes =
      (s, res)) (hcp : l'.checkpoint = s.checkpoint) (hch : l'.channels = s.channels) :
    l'.Hydrated p := by
  have hinv := applyWrites_invariant
    (P := fun cp channels => Loop.Hydrated p ⟨cp, channels, none, fun _ _ => false⟩)
    (by
      intro cp channels chan c c' hl hc ht
      have hcases : ∀ k c₁, (channels.set chan c').get? k = some c₁ →
          channels.get? k = some c₁ ∨ k = chan ∧ c₁ = c' := by
        intro k c₁ hk
        by_cases he : k = chan
        · rw [he, OrdDict.get?_set_self, Option.some.injEq] at hk
          exact Or.inr ⟨he, hk.symm⟩
        · rw [OrdDict.get?_set_of_ne he] at hk
          exact Or.inl hk
      refine ⟨(keys_set_of_get? hc c').trans hl.keys, hl.known, fun c₁ hk => ?_,
        fun k c₁ hdelta hk => ?_⟩
      · rcases hcases _ c₁ hk with hk | ⟨rfl, rfl⟩
        · exact hl.topic c₁ hk
        · exact ht.sameSpec.trans (hl.topic c hc)
      · rcases hcases k c₁ hk with hk | ⟨rfl, rfl⟩
        · exact hl.delta k c₁ hdelta hk
        · obtain ⟨d, rfl, hval⟩ := hl.delta k c hdelta hc
          obtain ⟨d', rfl, -, hval'⟩ := DeltaChannel.touched hval ht
          exact ⟨d', rfl, hval'⟩)
    (by
      intro cp channels chan hl hmem
      refine ⟨hl.keys, fun c hc => ?_, hl.topic, hl.delta⟩
      have hc' : c ∈ (cp.channelVersions.set chan (l.checkpoint.next p.getNextVersion)).keys :=
        OrdDict.contains_iff.mp hc
      rcases OrdDict.mem_keys_set.mp hc' with rfl | hc'
      · exact hl.keys ▸ hmem
      · exact hl.known c (OrdDict.contains_iff.mpr hc'))
    l.checkpoint l.channels tasks p.getNextVersion p.triggerToNodes rfl
    ⟨h.keys, fun c hc => h.known c (by rwa [channelVersions_foldl_markSeen] at hc), h.topic, h.delta⟩
  rw [ha] at hinv
  exact ⟨hch ▸ hinv.keys, fun c hc => hinv.known c (hcp ▸ hc), fun c hc => hinv.topic c (hch ▸ hc),
    fun k c hk hc => hinv.delta k c hk (hch ▸ hc)⟩

theorem Loop.Hydrated.apply (h : l.Hydrated p) (ha : l.apply p tasks = some (l', us)) :
    l'.Hydrated p := by
  unfold Loop.apply at ha
  match hs : applyWrites l.checkpoint l.channels tasks (some p.getNextVersion) p.triggerToNodes with
  | (s, .error e) =>
    rw [hs] at ha
    cases ha
  | (s, .ok ()) =>
    rw [hs] at ha
    cases ha
    exact h.call hs rfl rfl

theorem Loop.Hydrated.change [OrderBot V] (h : l.Hydrated p) {change : Update}
    (hc : l.change p change = some l') : l'.Hydrated p := by
  have hcall : ∀ {l l' : Loop V} {tasks : List TaskWrites}, l.Hydrated p →
      (l.apply p tasks).map Prod.fst = some l' → l'.Hydrated p := by
    intro l l' tasks h ha
    obtain ⟨⟨l₁, us⟩, happly, rfl⟩ := Option.map_eq_some_iff.mp ha
    exact h.apply happly
  cases change with
  | asNodes updates => exact hcall h hc
  | asInput writes => exact hcall h hc
  | clear info nullWrites outputs =>
    simp only [Loop.change] at hc
    split at hc
    · exact hcall h hc
    · obtain ⟨⟨l₁, us⟩, h₁, hc⟩ := Option.bind_eq_some_iff.mp hc
      exact hcall (h.apply h₁) hc
  | copy =>
    cases hc
    exact h

omit [LinearOrder V] in
theorem Loop.hydrated_of_load {s : Saved V} {history : History} (h : s.load p history = some l)
    (hknown : ∀ c, s.checkpoint.channelVersions.contains c = true → c ∈ p.specs.keys) :
    l.Hydrated p := by
  obtain ⟨hload, hcp, -⟩ := Saved.load_eq_some h
  refine ⟨Loop.keys_of_load h, fun c hc => hknown c (hcp ▸ hc), fun c hc => ?_, fun k c hk hc => ?_⟩
  · have hget := channelsFromCheckpoint_get? hload p.specs_tasks rfl
    rw [hc, Option.some.injEq] at hget
    subst hget
    exact taskTopic.sameSpec_fromCheckpoint _
  · obtain ⟨delta, hs⟩ := p.isDelta_iff.mp hk
    obtain ⟨d, hch, -, hval⟩ := Loop.tracks_of_load hs h
    cases hc.symm.trans hch
    exact ⟨d, rfl, hval⟩

end Hydrated

/-! ## Runs -/

section Runs
variable {V : Type} [LinearOrder V] [OrderBot V]

/-- The id that `uuid6` makes for a checkpoint of the run is new. -/
def ThreadState.NewId (w : ThreadState V) : ThreadEvent → Prop
  | .resume (some id) | .input _ _ id | .superstep _ _ _ _ id =>
    ∀ r ∈ w.run, id ≠ r.checkpointIdSaved
  | _ => True

instance ThreadState.NewId.instDecidable (w : ThreadState V) :
    ∀ e : ThreadEvent, Decidable (w.NewId e)
  | .resume (some _) | .input .. | .superstep .. => inferInstanceAs (Decidable (∀ r ∈ w.run, _ ≠ _))
  | .resume none | .enter .. | .nullWrites _ | .started | .exit | .update .. =>
    inferInstanceAs (Decidable True)

structure RunState.Kept (p : Program V) (r : RunState V) : Prop where
  loop : r.loop.Hydrated p
  overwritten : ∀ k ∈ r.deltaChannelsWithOverwrite, p.isDelta k = true
  /-- A run that has made no checkpoint has no delta writes to save. -/
  unsaved : r.loop.checkpoint.id = r.checkpointIdSaved → r.exitDeltaWrites = []

structure ThreadState.Kept (p : Program V) (w : ThreadState V) : Prop where
  rows : ∀ row ∈ w.rows, ∀ c, row.saved.checkpoint.channelVersions.contains c = true →
    c ∈ p.specs.keys
  run : ∀ r, w.run = some r → r.Kept p

variable {bound : Nat} {p : Program V} {w w' : ThreadState V} {rows : List (ThreadRow V)}
  {r r' : RunState V} {tasks : List TaskWrites}

omit [LinearOrder V] [OrderBot V] in
@[simp] theorem id_sanitizeTasks (channels : OrdDict String Channel) (cp : Checkpoint V) :
    (sanitizeTasks channels cp).id = cp.id := by
  unfold sanitizeTasks
  split
  · split <;> rfl
  · rfl

omit [LinearOrder V] [OrderBot V] in
theorem mem_overwritten {writes : List (String × PyVal)} {k : String}
    (h : k ∈ p.overwritten writes) : p.isDelta k = true := by
  obtain ⟨c, hc, rfl⟩ := List.mem_map.mp h
  exact (Bool.and_eq_true_iff.mp (List.mem_filter.mp hc).2).1

omit [LinearOrder V] [OrderBot V] in
theorem rowsKept_append {row : ThreadRow V}
    (h : ∀ row ∈ rows, ∀ c, row.saved.checkpoint.channelVersions.contains c = true →
      c ∈ p.specs.keys)
    (hrow : ∀ c, row.saved.checkpoint.channelVersions.contains c = true → c ∈ p.specs.keys) :
    ∀ row' ∈ rows ++ [row], ∀ c, row'.saved.checkpoint.channelVersions.contains c = true →
      c ∈ p.specs.keys := by
  intro row' hmem
  rcases List.mem_append.mp hmem with hmem | hmem
  · exact h row' hmem
  · rw [List.mem_singleton.mp hmem]
    exact hrow

omit [LinearOrder V] [OrderBot V] in
theorem putCheckpoint_kept
    (hrows : ∀ row ∈ rows, ∀ c, row.saved.checkpoint.channelVersions.contains c = true →
      c ∈ p.specs.keys)
    (hloop : r.loop.Hydrated p) (hover : ∀ k ∈ r.deltaChannelsWithOverwrite, p.isDelta k = true)
    {id : String} (hid : id ≠ r.checkpointIdSaved) :
    (putCheckpoint bound p rows r id).Kept p := by
  unfold putCheckpoint
  split
  · refine ⟨hrows, fun r' hr' => ?_⟩
    cases hr'
    refine ⟨⟨hloop.keys, fun c hc => ?_, hloop.topic, hloop.delta⟩, hover, fun h => ?_⟩
    · rw [RunState.advance, channelVersions_sanitizeTasks] at hc
      exact hloop.known c hc
    · rw [RunState.advance, id_sanitizeTasks] at h
      exact absurd h hid
  · have hknown : ∀ c, (r.newCheckpoint p id (r.channelsToSnapshot bound
        r.countStep)).channelVersions.contains c = true → c ∈ p.specs.keys :=
      fun c hc => hloop.known c (contains_newCheckpoint (r := r) p _ _ c ▸ hc)
    refine ⟨rowsKept_append hrows hknown, fun r' hr' => ?_⟩
    cases hr'
    refine ⟨⟨hloop.keys, hknown, hloop.topic, hloop.delta⟩,
      fun k hk => hover k (List.mem_filter.mp hk).1, fun h => ?_⟩
    rw [RunState.newCheckpoint, id_sanitizeTasks] at h
    exact absurd h hid

omit [LinearOrder V] [OrderBot V] in
theorem putExitCheckpoint_kept
    (hrows : ∀ row ∈ rows, ∀ c, row.saved.checkpoint.channelVersions.contains c = true →
      c ∈ p.specs.keys) (hloop : r.loop.Hydrated p) :
    ∀ row ∈ putExitCheckpoint bound p rows r, ∀ c,
      row.saved.checkpoint.channelVersions.contains c = true → c ∈ p.specs.keys := by
  have hstub : ∀ row ∈ (r.putExitDeltaWrites bound rows).1, ∀ c,
      row.saved.checkpoint.channelVersions.contains c = true → c ∈ p.specs.keys := by
    unfold RunState.putExitDeltaWrites
    simp only
    split
    · exact hrows
    · exact rowsKept_append hrows fun c hc => by cases hc
  unfold putExitCheckpoint
  simp only
  split
  · exact hstub
  · exact rowsKept_append hstub fun c hc =>
      hloop.known c (contains_newCheckpoint (r := r) p _ _ c ▸ hc)

/-- What `after_tick` leaves of a run when `apply_writes` raises. -/
structure RunState.Rejected (p : Program V) (r : RunState V) (tasks : List TaskWrites) (e : PyErr)
    (s : ApplyState V) (r' : RunState V) : Prop where
  raised : applyWrites r.loop.checkpoint r.loop.channels tasks (some p.getNextVersion)
    p.triggerToNodes = (s, .error e)
  checkpoint : r'.loop.checkpoint = s.checkpoint
  channels : r'.loop.channels = s.channels
  updatedChannels : r'.updatedChannels = r.updatedChannels
  durability : r'.durability = r.durability
  counters : r'.counters = r.counters
  overwritten : r'.deltaChannelsWithOverwrite =
    r.deltaChannelsWithOverwrite ∪ p.overwritten (tasks.flatMap TaskWrites.writes)
  exitDeltaWrites : r'.exitDeltaWrites = r.exitDeltaWrites
  saved : r'.checkpointIdSaved = r.checkpointIdSaved

omit [OrderBot V] in
theorem RunState.afterTick_error {e : PyErr} (h : r.afterTick p tasks = (r', .error e)) :
    ∃ s, r.Rejected p tasks e s r' := by
  unfold RunState.afterTick at h
  simp only at h
  match ha : applyWrites r.loop.checkpoint r.loop.channels tasks (some p.getNextVersion)
      p.triggerToNodes with
  | (s, .error e') =>
    rw [ha] at h
    cases h
    exact ⟨s, ha, rfl, rfl, rfl, rfl, rfl, rfl, rfl, rfl⟩
  | (s, .ok ()) =>
    rw [ha] at h
    cases h

omit [OrderBot V] in
theorem RunState.Rejected.id {e : PyErr} {s : ApplyState V} (h : r.Rejected p tasks e s r') :
    r'.loop.checkpoint.id = r.loop.checkpoint.id := by
  have hframe := (applyWrites_frame r.loop.checkpoint r.loop.channels tasks p.getNextVersion
    p.triggerToNodes).1
  rw [h.raised] at hframe
  rw [h.checkpoint, hframe]

omit [OrderBot V] in
theorem RunState.Rejected.kept {e : PyErr} {s : ApplyState V} (h : r.Rejected p tasks e s r')
    (hr : r.Kept p) : r'.Kept p := by
  refine ⟨hr.loop.call h.raised h.checkpoint h.channels, fun k hk => ?_, fun hsaved => ?_⟩
  · rw [h.overwritten] at hk
    rcases List.mem_union_iff.mp hk with hk | hk
    · exact hr.overwritten k hk
    · exact mem_overwritten hk
  · rw [h.exitDeltaWrites]
    exact hr.unsaved (h.id.symm.trans (hsaved.trans h.saved))

theorem ThreadState.Kept.superstep (hw : w.Kept p) {info : StepInfo}
    {outputs : String → List (String × PyVal)} {pushed : List Pushed}
    {pending : List (String × PyVal)} {id : String}
    (hid : w.NewId (.superstep info outputs pushed pending id))
    (h : threadStep bound p w (.superstep info outputs pushed pending id) = some w') :
    w'.Kept p := by
  obtain ⟨r, hr, h⟩ := Option.bind_eq_some_iff.mp h
  simp only at h
  split at h
  · generalize r.superstepTasks p info outputs ++ pushed.map Pushed.toTaskWrites = tasks at h
    have hrun := hw.run r hr
    match ha : r.afterTick p tasks with
    | (r', .error e) =>
      rw [ha] at h
      cases h
      obtain ⟨s, hrejected⟩ := RunState.afterTick_error ha
      refine ⟨hw.rows, fun r₁ hr₁ => ?_⟩
      cases hr₁
      exact hrejected.kept hrun
    | (r', .ok ()) =>
      rw [ha] at h
      cases h
      unfold RunState.afterTick at ha
      simp only at ha
      match happly : applyWrites r.loop.checkpoint r.loop.channels tasks (some p.getNextVersion)
          p.triggerToNodes with
      | (s, .error e) =>
        rw [happly] at ha
        cases ha
      | (s, .ok ()) =>
        rw [happly] at ha
        cases ha
        have hloop : (r.loop.after tasks s).Hydrated p := hrun.loop.call happly rfl rfl
        refine putCheckpoint_kept hw.rows hloop (fun k hk => ?_) (hid r hr)
        rcases List.mem_union_iff.mp hk with hk | hk
        · exact hrun.overwritten k hk
        · exact mem_overwritten hk
  · cases h

omit [LinearOrder V] [OrderBot V] in
theorem ThreadState.Kept.source (hw : w.Kept p) {source : Option Nat} {id : String}
    {row : ThreadRow V} (h : w.source source id = some row) :
    ∀ c, row.saved.checkpoint.channelVersions.contains c = true → c ∈ p.specs.keys := by
  cases source with
  | none =>
    cases h
    exact fun c hc => nomatch hc
  | some i => exact hw.rows row (List.mem_of_getElem? h)

theorem ThreadState.Kept.update (hw : w.Kept p) {source : Option Nat} {id : String}
    {history : History} {change : Update}
    (h : performSuperstep p w source id history change = some w') : w'.Kept p := by
  unfold performSuperstep at h
  split at h
  · cases h
  · obtain ⟨row, hrow, h⟩ := Option.bind_eq_some_iff.mp h
    obtain ⟨l, hl, h⟩ := Option.bind_eq_some_iff.mp h
    obtain ⟨l', hl', rfl⟩ := Option.map_eq_some_iff.mp h
    have hload := Loop.hydrated_of_load hl (hw.source hrow)
    have hunhinted : l.unhinted.Hydrated p := ⟨hload.keys, hload.known, hload.topic, hload.delta⟩
    have hknown := (hunhinted.change hl').known
    refine ⟨rowsKept_append ?_ fun c hc => hknown c ?_, hw.run⟩
    · unfold ThreadState.updateParent
      split
      · exact hw.rows
      · split
        · exact rowsKept_append hw.rows fun c hc => by cases hc
        · exact hw.rows
    · simp only at hc
      split at hc
      · exact hc
      · rw [OrdDict.contains, get?_channelVersions_create, Option.isSome_map] at hc
        exact hc

/-- A step keeps the channels of the thread. -/
theorem ThreadState.Kept.step (hw : w.Kept p) {e : ThreadEvent} (hid : w.NewId e)
    (h : threadStep bound p w e = some w') : w'.Kept p := by
  cases e with
  | update source id history change => exact hw.update h
  | superstep info outputs pushed pending id => exact hw.superstep hid h
  | enter source id history durability =>
    obtain ⟨row, hrow, h⟩ := Option.bind_eq_some_iff.mp h
    obtain ⟨l, hl, rfl⟩ := Option.map_eq_some_iff.mp h
    refine ⟨hw.rows, fun r hr => ?_⟩
    cases hr
    exact ⟨Loop.hydrated_of_load hl (hw.source hrow), fun k hk => absurd hk List.not_mem_nil,
      fun _ => rfl⟩
  | nullWrites writes =>
    obtain ⟨r, hr, h⟩ := Option.bind_eq_some_iff.mp h
    split at h
    · obtain ⟨⟨l, us⟩, ha, rfl⟩ := Option.map_eq_some_iff.mp h
      have hrun := hw.run r hr
      have hl := hrun.loop.apply ha
      refine ⟨hw.rows, fun r' hr' => ?_⟩
      cases hr'
      exact ⟨⟨hl.keys, hl.known, hl.topic, hl.delta⟩, hrun.overwritten,
        fun hsaved => hrun.unsaved ((Loop.apply_id ha).symm.trans hsaved)⟩
    · cases h
  | resume fork =>
    obtain ⟨r, hr, h⟩ := Option.bind_eq_some_iff.mp h
    split at h
    · have hrun := hw.run r hr
      have hseen : r.loop.seeInterrupts.Hydrated p :=
        ⟨hrun.loop.keys, hrun.loop.known, hrun.loop.topic, hrun.loop.delta⟩
      cases fork with
      | none =>
        cases h
        refine ⟨hw.rows, fun r' hr' => ?_⟩
        cases hr'
        exact ⟨hseen, hrun.overwritten, hrun.unsaved⟩
      | some id =>
        cases h
        exact putCheckpoint_kept
          (r := { r with loop := r.loop.seeInterrupts, phase := .mapped, progress := false })
          hw.rows hseen hrun.overwritten (hid r hr)
    · cases h
  | input info writes id =>
    obtain ⟨r, hr, h⟩ := Option.bind_eq_some_iff.mp h
    split at h
    · obtain ⟨r', hr', rfl⟩ := Option.map_eq_some_iff.mp h
      obtain ⟨⟨l, us⟩, ha, rfl⟩ := Option.map_eq_some_iff.mp hr'
      have hrun := hw.run r hr
      have hl := hrun.loop.apply ha
      refine putCheckpoint_kept hw.rows ⟨hl.keys, hl.known, hl.topic, hl.delta⟩ (fun k hk => ?_)
        (hid r hr)
      rcases List.mem_union_iff.mp hk with hk | hk
      · exact hrun.overwritten k hk
      · exact mem_overwritten hk
    · cases h
  | started =>
    obtain ⟨r, hr, h⟩ := Option.bind_eq_some_iff.mp h
    split at h
    · cases h
      have hrun := hw.run r hr
      refine ⟨hw.rows, fun r' hr' => ?_⟩
      cases hr'
      exact ⟨hrun.loop, hrun.overwritten, hrun.unsaved⟩
    · cases h
  | exit =>
    obtain ⟨r, hr, h⟩ := Option.bind_eq_some_iff.mp h
    split at h
    · cases h
      refine ⟨?_, fun r' hr' => absurd hr'.symm (Option.some_ne_none r')⟩
      show ∀ row ∈ (if r.durability = .exit then putExitCheckpoint bound p w.rows r else w.rows),
        ∀ c, row.saved.checkpoint.channelVersions.contains c = true → c ∈ p.specs.keys
      split
      · exact putExitCheckpoint_kept hw.rows (hw.run r hr).loop
      · exact hw.rows
    · cases h

theorem kept_of_reachable
    (h : Machine.Reachable (threadStep bound p) ThreadState.NewId ⟨[], none⟩ w) : w.Kept p := by
  refine Machine.Reachable.invariant (P := ThreadState.Kept p) ?_ ?_ h
  · exact ⟨fun row hrow => absurd hrow List.not_mem_nil,
      fun r' hr' => absurd hr'.symm (Option.some_ne_none r')⟩
  · exact fun w e w' hw hok hstep => hw.step hok hstep

/-! ## What a rejected superstep leaves -/

/-- A version made from one that was made before is above those made from older ones. -/
def Ascending (g : GetNextVersion V) : Prop := ∀ v w, v ≤ w → g (some v) < g (some (g (some w)))

/-- The values, versions and versions seen of two checkpoints are equal as dicts. -/
structure Checkpoint.SameState (cp cp' : Checkpoint V) : Prop where
  values : ∀ k, cp'.channelValues.get? k = cp.channelValues.get? k
  versions : ∀ k, cp'.channelVersions.get? k = cp.channelVersions.get? k
  nodes : ∀ node, cp'.versionsSeen.contains node = cp.versionsSeen.contains node
  seen : ∀ node chan, cp'.seenVersion node chan = cp.seenVersion node chan

/-- A run starts from the rows in the same state and with the same tasks. -/
structure ThreadRow.SameStart (p : Program V) (row row' : ThreadRow V) : Prop where
  state : row.saved.checkpoint.SameState row'.saved.checkpoint
  tasks : ∀ history info, (row'.saved.load p history).map (fun l => l.tasks p info true) =
    (row.saved.load p history).map fun l => l.tasks p info true

/-- The run saves nothing at its end, or the superstep changes nothing of what it
    saves: all tasks were sent to nodes that have run before, no channel is updated
    before the one that raises, and no `DeltaChannel` is overwritten that is not due
    for a snapshot anyway. -/
def RunState.LeavesNothing (bound : Nat) (p : Program V) (r : RunState V)
    (tasks : List TaskWrites) : Prop :=
  r.durability ≠ .exit ∨ r.loop.checkpoint.id = r.checkpointIdSaved ∨
    (∀ t ∈ tasks, t.triggers = [Const.PUSH] ∧
      r.loop.checkpoint.versionsSeen.contains t.name = true) ∧
    groupsKept r.loop.checkpoint.channelVersions r.loop.channels
      (groupWrites (SortBy.sortBy TaskWrites.sortKey tasks) r.loop.channels).entries = true ∧
    ∀ k ∈ p.overwritten (tasks.flatMap TaskWrites.writes),
      r.loop.checkpoint.channelVersions.contains k = true → k ∈ r.channelsToSnapshot bound r.counters

instance (bound : Nat) (p : Program V) (r : RunState V) (tasks : List TaskWrites) :
    Decidable (r.LeavesNothing bound p tasks) :=
  inferInstanceAs (Decidable (_ ∨ _ ∨ _ ∧ _ ∧ ∀ k ∈ p.overwritten _, _ → _ ∈ _))

omit [LinearOrder V] [OrderBot V] in
theorem markSeen_pushed {cp : Checkpoint V} (hpush : cp.channelVersions.get? Const.PUSH = none) :
    ∀ {tasks : List TaskWrites}, (∀ t ∈ tasks, t.triggers = [Const.PUSH] ∧
      cp.versionsSeen.contains t.name = true) → tasks.foldl markSeen cp = cp
  | [], _ => rfl
  | t :: tasks, h => by
    obtain ⟨htr, hname⟩ := h t List.mem_cons_self
    obtain ⟨seen, hseen⟩ := Option.isSome_iff_exists.mp hname
    have hsame : markSeen cp t = cp := by
      have hset : cp.versionsSeen.set t.name (cp.versionsSeen.getD t.name ∅) = cp.versionsSeen := by
        rw [OrdDict.getD, hseen]
        exact OrdDict.set_get? hseen
      rw [markSeen, htr]
      simp only [List.filterMap_cons, hpush, Option.map_none, List.filterMap_nil,
        OrdDict.setAll_nil, hset]
    rw [List.foldl_cons, hsame]
    exact markSeen_pushed hpush fun t' ht' => h t' (List.mem_cons_of_mem _ ht')

omit [LinearOrder V] [OrderBot V] in
/-- A channel that raises is neither a topic nor a `DeltaChannel` that changed. -/
theorem Channel.update_raised {c c' : Channel} {vals : List PyVal} {e : PyErr}
    (hu : c.update vals = (c', .error e)) :
    c'.isUntracked = c.isUntracked ∧ c'.asDelta = c.asDelta ∧
      (c.asDelta.isSome = true → c' = c) ∧ ∀ t, c ≠ .topic t := by
  cases c with
  | deltaChannel d =>
    have hd : (d.update vals).1 = d := by
      simp only [update, Prod.map, id, Prod.mk.injEq] at hu
      have herr := hu.2
      unfold DeltaChannel.update at herr ⊢
      split at herr
      · cases herr
      · split at herr
        · simp [*]
        · cases herr
        · split at herr
          · cases herr
          · simp [*]
    have hc : c' = .deltaChannel d := by
      have := congrArg Prod.fst hu
      simp only [update, Prod.map_fst, hd] at this
      exact this.symm
    subst hc
    refine ⟨rfl, rfl, fun _ => rfl, fun t ht => ?_⟩
    cases ht
  | topic t => cases congrArg Prod.snd hu
  | _ =>
    have := congrArg Prod.fst hu
    subst this
    refine ⟨rfl, rfl, fun hd => ?_, fun t ht => ?_⟩
    · cases hd
    · cases ht

omit [LinearOrder V] [OrderBot V] in
/-- A channel that is stored as it was, and is no other kind of channel, changes
    nothing of the checkpoint. -/
theorem newCheckpoint_set {chan : String} {c c' : Channel} {id : String}
    {toSnapshot toSnapshot' : List String} (hc : r.loop.channels.get? chan = some c)
    (huntracked : c'.isUntracked = c.isUntracked)
    (hstored : r.loop.checkpoint.channelVersions.contains chan = true →
      snapshotValue toSnapshot chan c' = snapshotValue toSnapshot chan c)
    (hsnap : ∀ k, r.loop.checkpoint.channelVersions.contains k = true →
      (k ∈ toSnapshot' ↔ k ∈ toSnapshot))
    (hcp : r'.loop.checkpoint = r.loop.checkpoint)
    (hch : r'.loop.channels = r.loop.channels.set chan c')
    (hupdated : r'.updatedChannels = r.updatedChannels) :
    r'.newCheckpoint p id toSnapshot' = r.newCheckpoint p id toSnapshot := by
  have hkeys : (r.loop.channels.set chan c').keys = r.loop.channels.keys := keys_set_of_get? hc c'
  have hany : ∀ k, ((r.loop.channels.set chan c').get? k).any Channel.isUntracked =
      (r.loop.channels.get? k).any Channel.isUntracked := by
    intro k
    by_cases hk : k = chan
    · rw [hk, OrdDict.get?_set_self, hc, Option.any_some, Option.any_some, huntracked]
    · rw [OrdDict.get?_set_of_ne hk]
  have hvalues : (r.loop.channels.set chan c').values.any Channel.isUntracked =
      r.loop.channels.values.any Channel.isUntracked := by
    have hfilter : (r.loop.channels.set chan c').entries.filterMap (fun e : String × Channel =>
        if e.2.isUntracked then some () else none) = r.loop.channels.entries.filterMap fun e =>
        if e.2.isUntracked then some () else none :=
      OrdDict.filterMap_entries_set hc (by simp only [huntracked])
    have hlist : ∀ entries : List (String × Channel),
        (entries.map Prod.snd).any Channel.isUntracked = !(entries.filterMap fun e =>
          if e.2.isUntracked then some () else none).isEmpty := by
      intro entries
      induction entries with
      | nil => rfl
      | cons e entries ih =>
        rw [List.map_cons, List.any_cons, ih, List.filterMap_cons]
        cases e.2.isUntracked <;> simp
    rw [OrdDict.values, OrdDict.values, hlist, hlist, hfilter]
  have hsanitize : ∀ cp : Checkpoint V, sanitizeTasks (r.loop.channels.set chan c') cp =
      sanitizeTasks r.loop.channels cp := by
    have hsend : sanitizeUntrackedValuesInSend (r.loop.channels.set chan c') =
        sanitizeUntrackedValuesInSend r.loop.channels := by
      funext v
      unfold sanitizeUntrackedValuesInSend
      simp only [hany]
    intro cp
    unfold sanitizeTasks
    rw [hvalues, hsend]
  have hcreate : createCheckpoint r.loop.checkpoint (some (r.loop.channels.set chan c')) id
      r.updatedChannels (some p.getNextVersion) toSnapshot' =
      createCheckpoint r.loop.checkpoint (some r.loop.channels) id r.updatedChannels
        (some p.getNextVersion) toSnapshot := by
    unfold createCheckpoint
    simp only [Checkpoint.mk.injEq, true_and, and_true]
    refine ⟨?_, ?_⟩
    · have hfun : (fun k ch => if r.loop.checkpoint.channelVersions.contains k then
            snapshotValue toSnapshot' k ch else none) =
          fun k ch => if r.loop.checkpoint.channelVersions.contains k then
            snapshotValue toSnapshot k ch else none := by
        funext k ch
        by_cases hk : r.loop.checkpoint.channelVersions.contains k = true
        · rw [if_pos hk, if_pos hk, snapshotValue, snapshotValue]
          simp only [hsnap k hk]
        · rw [if_neg hk, if_neg hk]
      rw [hfun]
      apply OrdDict.ext
      refine OrdDict.filterMap_entries_set hc ?_
      refine congrArg (Option.map (chan, ·)) ?_
      show (if r.loop.checkpoint.channelVersions.contains chan then
          snapshotValue toSnapshot chan c' else none) =
        if r.loop.checkpoint.channelVersions.contains chan then
          snapshotValue toSnapshot chan c else none
      split
      · exact hstored ‹_›
      · rfl
    · apply OrdDict.ext
      refine List.filterMap_congr fun e he => ?_
      have hk : r.loop.checkpoint.channelVersions.contains e.1 = true :=
        OrdDict.contains_iff.mpr (List.mem_map_of_mem he)
      have hcontains : (r.loop.channels.set chan c').contains e.1 = r.loop.channels.contains e.1 := by
        rw [Bool.eq_iff_iff, OrdDict.contains_iff, OrdDict.contains_iff, hkeys]
      simp only [hcontains, snapshotVersion, hsnap e.1 hk]
  unfold RunState.newCheckpoint
  rw [hcp, hch, hupdated, hsanitize, hcreate]

omit [LinearOrder V] [OrderBot V] in
/-- The snapshots are of `DeltaChannel`s. -/
theorem RunState.Kept.asDelta_of_mem (hr : r.Kept p) {chan : String} {c : Channel}
    (hc : r.loop.channels.get? chan = some c)
    (h : chan ∈ r.channelsToSnapshot bound r.counters) : c.asDelta.isSome = true := by
  rcases List.mem_union_iff.mp h with h | h
  · obtain ⟨⟨k, c₁⟩, hmem, hdue⟩ := List.mem_filterMap.mp h
    have hget := OrdDict.get?_eq_some_iff.mpr hmem
    simp only at hdue
    split at hdue
    · cases hdue
    · rename_i d hd
      split at hdue
      · cases hdue
        cases hc.symm.trans hget
        rw [hd]
        rfl
      · cases hdue
  · obtain ⟨d, rfl, -⟩ := hr.loop.delta chan c (hr.overwritten chan h) hc
    rfl

omit [LinearOrder V] [OrderBot V] in
theorem RunState.Kept.nopush (hr : r.Kept p) :
    r.loop.checkpoint.channelVersions.get? Const.PUSH = none := by
  cases hv : r.loop.checkpoint.channelVersions.get? Const.PUSH with
  | none => rfl
  | some v =>
    have hmem := hr.loop.known Const.PUSH (by rw [OrdDict.contains, hv]; rfl)
    exact absurd (by decide) (p.specs_not_reserved hmem)

omit [OrderBot V] in
/-- A superstep that meets the condition leaves the checkpoint that would be saved as it was. -/
theorem RunState.Rejected.newCheckpoint {e : PyErr} {s : ApplyState V}
    (h : r.Rejected p tasks e s r') (hr : r.Kept p)
    (hpush : ∀ t ∈ tasks, t.triggers = [Const.PUSH] ∧
      r.loop.checkpoint.versionsSeen.contains t.name = true)
    (hkept : groupsKept r.loop.checkpoint.channelVersions r.loop.channels
      (groupWrites (SortBy.sortBy TaskWrites.sortKey tasks) r.loop.channels).entries = true)
    (hover : ∀ k ∈ p.overwritten (tasks.flatMap TaskWrites.writes),
      r.loop.checkpoint.channelVersions.contains k = true →
        k ∈ r.channelsToSnapshot bound r.counters) (id : String) :
    r'.newCheckpoint p id (r'.channelsToSnapshot bound r'.counters) =
      r.newCheckpoint p id (r.channelsToSnapshot bound r.counters) := by
  have hraised := applyWrites_raised (fun t ht => (hpush t ht).1) h.raised
  rw [markSeen_pushed hr.nopush fun t ht => hpush t (SortBy.mem_sortBy.mp ht)] at hraised
  rcases updateAll_raised hraised with ⟨hfalse, -⟩ | ⟨chan, c, c', vals, hc, hu, hs, hstored⟩
  · rw [hkept] at hfalse
    cases hfalse
  · rw [hkept] at hstored
    have hcp : r'.loop.checkpoint = r.loop.checkpoint := by rw [h.checkpoint, hs]
    have hch : r'.loop.channels = r.loop.channels.set chan c' := by rw [h.channels, hs]
    obtain ⟨huntracked, hdelta, hsame, -⟩ := Channel.update_raised hu
    have hdue : deltaChannelsDue bound r'.loop.channels r'.counters =
        deltaChannelsDue bound r.loop.channels r.counters := by
      rw [hch, h.counters]
      refine OrdDict.filterMap_entries_set hc ?_
      simp only [hdelta]
      cases hd : c.asDelta with
      | none => rfl
      | some d => rw [hsame (by rw [hd]; rfl)]
    apply newCheckpoint_set hc huntracked (fun hver => ?_) (fun k hver => ?_) hcp hch
      h.updatedChannels
    · unfold snapshotValue
      cases hd : c.asDelta with
      | some d => rw [hsame (by rw [hd]; rfl)]
      | none =>
        have hout : chan ∉ r.channelsToSnapshot bound r.counters := by
          intro hin
          have hsome := hr.asDelta_of_mem hc hin
          rw [hd] at hsome
          cases hsome
        rw [if_neg hout, if_neg hout]
        have hor : (!r.loop.checkpoint.channelVersions.contains chan ||
          decide (c'.checkpoint = c.checkpoint)) = true := hstored.symm
        rw [hver, Bool.not_true, Bool.false_or, decide_eq_true_eq] at hor
        exact hor
    · unfold RunState.channelsToSnapshot at hover ⊢
      simp only [hdue, h.overwritten, List.mem_union_iff] at hover ⊢
      constructor
      · rintro (hk | hk | hk)
        · exact Or.inl hk
        · exact Or.inr hk
        · exact hover k hk hver
      · rintro (hk | hk)
        · exact Or.inl hk
        · exact Or.inr (Or.inl hk)

omit [LinearOrder V] [OrderBot V] in
theorem seenVersion_newCheckpoint (id : String) (toSnapshot : List String) (node chan : String) :
    (r.newCheckpoint p id toSnapshot).seenVersion node chan =
      r.loop.checkpoint.seenVersion node chan := by
  rw [Checkpoint.seenVersion, RunState.newCheckpoint, versionsSeen_sanitizeTasks]
  rfl

omit [LinearOrder V] [OrderBot V] in
theorem versionsSeen_newCheckpoint (id : String) (toSnapshot : List String) :
    (r.newCheckpoint p id toSnapshot).versionsSeen = r.loop.checkpoint.versionsSeen := by
  rw [RunState.newCheckpoint, versionsSeen_sanitizeTasks]
  rfl

/-- A task that was triggered marks a version that its node has not seen. -/
theorem RunState.Rejected.pushed {e : PyErr} {s : ApplyState V} {info : StepInfo}
    {outputs : String → List (String × PyVal)} {pushed : List Pushed}
    (h : r.Rejected p (r.superstepTasks p info outputs ++ pushed.map Pushed.toTaskWrites) e s r')
    (hnodes : ∀ node, r'.loop.checkpoint.versionsSeen.contains node =
      r.loop.checkpoint.versionsSeen.contains node)
    (hseen : ∀ node chan, r'.loop.checkpoint.seenVersion node chan =
      r.loop.checkpoint.seenVersion node chan) :
    ∀ t ∈ r.superstepTasks p info outputs ++ pushed.map Pushed.toTaskWrites,
      t.triggers = [Const.PUSH] ∧ r.loop.checkpoint.versionsSeen.contains t.name = true := by
  have hframe := (applyWrites_frame r.loop.checkpoint r.loop.channels
    (r.superstepTasks p info outputs ++ pushed.map Pushed.toTaskWrites) p.getNextVersion
    p.triggerToNodes).2
  rw [h.raised, ← h.checkpoint] at hframe
  have hname : ∀ t ∈ r.superstepTasks p info outputs ++ pushed.map Pushed.toTaskWrites,
      r.loop.checkpoint.versionsSeen.contains t.name = true := by
    intro t ht
    rw [← hnodes, OrdDict.contains, hframe, isSome_versionsSeen_foldl_markSeen]
    exact Or.inr ⟨t, SortBy.mem_sortBy.mpr ht, rfl⟩
  refine fun t ht => ⟨?_, hname t ht⟩
  rcases List.mem_append.mp ht with htask | hpushed
  · obtain ⟨t₀, ht₀, rfl⟩ := of_mem_taskWrites htask
    rcases mem_nextTaskList.mp ht₀ with ⟨i, -, hi⟩ | ⟨node, -, hpull⟩
    · exact (preparePushTaskSend_path hi).2
    · obtain ⟨proc, -, htrig, -, hnode, -, htriggers⟩ := preparePullTask_eq_some hpull
      obtain ⟨seen, hsome⟩ := Option.isSome_iff_exists.mp (hname _ ht)
      have hsome' : r.loop.checkpoint.versionsSeen.get? node = some seen := hnode ▸ hsome
      obtain ⟨chan, hchan, hcond⟩ := List.any_eq_true.mp htrig
      have hlt : seen.getD chan ⊥ < r.loop.checkpoint.channelVersions.getD chan ⊥ := by
        simp only [hsome', Bool.and_eq_true, decide_eq_true_eq] at hcond
        exact hcond.2
      -- the trigger has a version, and after the call the node has seen it
      cases hv : r.loop.checkpoint.channelVersions.get? chan with
      | none =>
        rw [OrdDict.getD, OrdDict.getD, hv] at hlt
        exact absurd hlt not_lt_bot
      | some v =>
        have hmarks : Marks (SortBy.sortBy TaskWrites.sortKey
            (r.superstepTasks p info outputs ++ pushed.map Pushed.toTaskWrites)) node chan := by
          refine ⟨_, SortBy.mem_sortBy.mpr ht, hnode, ?_⟩
          show chan ∈ t₀.triggers
          rw [htriggers]
          exact SortBy.mem_sortBy.mpr hchan
        have hafter : r'.loop.checkpoint.seenVersion node chan = some v := by
          rw [Checkpoint.seenVersion, hframe]
          show Checkpoint.seenVersion _ node chan = _
          rw [seenVersion_foldl_markSeen, hv, if_pos ⟨hmarks, rfl⟩]
        have hbefore : r.loop.checkpoint.seenVersion node chan = seen.get? chan := by
          rw [Checkpoint.seenVersion, hsome', Option.bind_some]
        rw [hseen, hbefore] at hafter
        rw [OrdDict.getD, OrdDict.getD, hv, hafter] at hlt
        exact absurd hlt (lt_irrefl v)
  · obtain ⟨q, -, rfl⟩ := List.mem_map.mp hpushed
    rfl

omit [OrderBot V] in
/-- What was due for a snapshot still is. -/
theorem RunState.Rejected.snapshot {e : PyErr} {s : ApplyState V} (h : r.Rejected p tasks e s r')
    {chan : String} (hin : chan ∈ r.channelsToSnapshot bound r.counters) :
    chan ∈ r'.channelsToSnapshot bound r'.counters := by
  rw [RunState.channelsToSnapshot, h.counters, h.overwritten]
  rcases List.mem_union_iff.mp hin with hdue | hover
  · obtain ⟨⟨k, ch⟩, hmem, hsome⟩ := List.mem_filterMap.mp hdue
    have hget : r.loop.channels.get? k = some ch := OrdDict.get?_eq_some_iff.mpr hmem
    have htracks : ∃ frequency, r.loop.Tracks chan frequency := by
      cases ch with
      | deltaChannel d =>
        simp only [Channel.asDelta] at hsome
        split at hsome
        · rename_i hcond
          cases hsome
          exact ⟨_, d, hget, rfl, (Bool.and_eq_true_iff.mp hcond).1⟩
        · cases hsome
      | _ => cases hsome
    obtain ⟨frequency, ht⟩ := htracks
    obtain ⟨d, hd, hrest⟩ := (ht.raised h.raised).1
    have ht' : r'.loop.Tracks chan frequency := ⟨d, h.channels ▸ hd, hrest⟩
    refine List.mem_union_iff.mpr (Or.inl ((mem_deltaChannelsDue ht' r.counters).mpr ?_))
    exact (mem_deltaChannelsDue ht r.counters).mp hdue
  · exact List.mem_union_iff.mpr (Or.inr (List.mem_union_iff.mpr (Or.inl hover)))

/-- A channel that got the new version has another one in the checkpoint. -/
theorem RunState.Rejected.version_ne {e : PyErr} {s : ApplyState V}
    (h : r.Rejected p tasks e s r') (hr : r.Kept p) (hinc : Increasing p.getNextVersion)
    (hasc : Ascending p.getNextVersion) {chan : String}
    (hver : s.checkpoint.channelVersions.get? chan = some (r.loop.checkpoint.next p.getNextVersion))
    (id : String) :
    (r'.newCheckpoint p id (r'.channelsToSnapshot bound r'.counters)).channelVersions.get? chan ≠
      (r.newCheckpoint p id (r.channelsToSnapshot bound r.counters)).channelVersions.get? chan := by
  have hkeys : r'.loop.channels.contains chan = r.loop.channels.contains chan := by
    rw [Bool.eq_iff_iff, OrdDict.contains_iff, OrdDict.contains_iff, (h.kept hr).loop.keys,
      hr.loop.keys]
  intro heq
  rw [RunState.newCheckpoint, RunState.newCheckpoint, channelVersions_sanitizeTasks,
    channelVersions_sanitizeTasks, get?_channelVersions_create, get?_channelVersions_create,
    h.checkpoint, hver, hkeys, h.updatedChannels, Option.map_some] at heq
  cases hv : r.loop.checkpoint.channelVersions.get? chan with
  | none =>
    rw [hv] at heq
    cases heq
  | some v =>
    rw [hv, Option.map_some, Option.some.injEq] at heq
    have hlt := hinc.lt_next hv
    split at heq
    · unfold snapshotVersion at heq
      by_cases hsnap : chan ∈ r.channelsToSnapshot bound r.counters ∧
          (r.updatedChannels.all fun updated => !updated.contains chan) = true
      · rw [if_pos hsnap, if_pos ⟨h.snapshot hsnap.1, hsnap.2⟩] at heq
        -- both are snapshots, of versions that are as far apart
        have hmem : v ∈ r.loop.checkpoint.channelVersions.values :=
          OrdDict.mem_values_iff.mpr ⟨chan, hv⟩
        cases hm : r.loop.checkpoint.channelVersions.values.max? with
        | none =>
          rw [List.max?_eq_none_iff.mp hm] at hmem
          cases hmem
        | some m =>
          have hle := (List.max?_eq_some_iff.mp hm).2 v hmem
          rw [Checkpoint.next, hm] at heq
          exact absurd heq (hasc v m hle).ne'
      · rw [if_neg hsnap] at heq
        split at heq
        · exact absurd heq (lt_trans hlt (hinc.next _)).ne'
        · exact absurd heq hlt.ne'
    · exact absurd heq hlt.ne'

/-- What the run would save at its end tells whether the superstep has changed it. -/
theorem RunState.Rejected.leaves {e : PyErr} {s : ApplyState V} {info : StepInfo}
    {outputs : String → List (String × PyVal)} {pushed : List Pushed} {id : String}
    (h : r.Rejected p (r.superstepTasks p info outputs ++ pushed.map Pushed.toTaskWrites) e s r')
    (hr : r.Kept p) (hinc : Increasing p.getNextVersion) (hasc : Ascending p.getNextVersion)
    (hsame : (r.newCheckpoint p id (r.channelsToSnapshot bound r.counters)).SameState
      (r'.newCheckpoint p id (r'.channelsToSnapshot bound r'.counters))) :
    r.LeavesNothing bound p (r.superstepTasks p info outputs ++ pushed.map Pushed.toTaskWrites) := by
  have hpush := h.pushed
    (by
      intro node
      have := hsame.nodes node
      rwa [versionsSeen_newCheckpoint, versionsSeen_newCheckpoint] at this)
    (by
      intro node chan
      have := hsame.seen node chan
      rwa [seenVersion_newCheckpoint, seenVersion_newCheckpoint] at this)
  generalize r.superstepTasks p info outputs ++ pushed.map Pushed.toTaskWrites = tasks at h hpush ⊢
  have hnotasks : ∀ {k : String}, p.isDelta k = true → k ≠ Const.TASKS := by
    intro k hk he
    rw [he, Program.isDelta, p.specs_tasks] at hk
    cases hk
  have hraised := applyWrites_raised (fun t ht => (hpush t ht).1) h.raised
  rw [markSeen_pushed hr.nopush fun t ht => hpush t (SortBy.mem_sortBy.mp ht)] at hraised
  rcases updateAll_raised hraised with ⟨-, chan, hver, -⟩ | ⟨chan, c, c', vals, hc, hu, hs, hstored⟩
  · exact absurd (hsame.versions chan) (h.version_ne hr hinc hasc hver id)
  · have hcp : r'.loop.checkpoint = r.loop.checkpoint := by rw [h.checkpoint, hs]
    have hch : r'.loop.channels = r.loop.channels.set chan c' := by rw [h.channels, hs]
    have hvalue : ∀ {r : RunState V} {toSnapshot : List String} {k : String} {ch : Channel},
        k ≠ Const.TASKS → r.loop.checkpoint.channelVersions.contains k = true →
        r.loop.channels.get? k = some ch →
        (r.newCheckpoint p id toSnapshot).channelValues.get? k = snapshotValue toSnapshot k ch := by
      intro r toSnapshot k ch hk hver hget
      rw [RunState.newCheckpoint, get?_channelValues_sanitizeTasks _ _ hk, get?_channelValues_create,
        if_pos hver, hget, Option.bind_some]
    refine Or.inr (Or.inr ⟨hpush, ?_, fun k hk hver => ?_⟩)
    · by_contra hnot
      rw [hstored, Bool.or_eq_true, not_or, Bool.not_eq_true, Bool.not_eq_false',
        decide_eq_true_eq] at hnot
      obtain ⟨hver, hne⟩ := hnot
      obtain ⟨-, hdelta, hunchanged, htopic⟩ := Channel.update_raised hu
      have hnone : c.asDelta.isSome ≠ true := fun hd => hne (by rw [hunchanged hd])
      have hchan : chan ≠ Const.TASKS := by
        rintro rfl
        obtain ⟨sends, hsends⟩ := eq_topic_of_sameSpec (hr.loop.topic c hc)
        exact htopic _ hsends
      have hc' : r'.loop.channels.get? chan = some c' := by rw [hch, OrdDict.get?_set_self]
      have hv := hsame.values chan
      rw [hvalue hchan hver hc, hvalue hchan (hcp ▸ hver) hc', snapshotValue, snapshotValue,
        if_neg fun hin => hnone (hr.asDelta_of_mem hc hin),
        if_neg fun hin => hnone (hdelta ▸ (h.kept hr).asDelta_of_mem hc' hin)] at hv
      exact hne hv
    · by_contra hout
      have hdelta := mem_overwritten hk
      have hkeys := hr.loop.known k hver
      obtain ⟨ch, hget⟩ := OrdDict.mem_keys_iff.mp (hr.loop.keys ▸ hkeys)
      obtain ⟨ch', hget'⟩ := OrdDict.mem_keys_iff.mp ((h.kept hr).loop.keys ▸ hkeys)
      obtain ⟨d, rfl, -⟩ := hr.loop.delta k ch hdelta hget
      obtain ⟨d', rfl, hval⟩ := (h.kept hr).loop.delta k ch' hdelta hget'
      obtain ⟨v, hv'⟩ := Option.isSome_iff_exists.mp hval
      have hin : k ∈ r'.channelsToSnapshot bound r'.counters := by
        rw [RunState.channelsToSnapshot, h.overwritten]
        exact List.mem_union_iff.mpr (Or.inr (List.mem_union_iff.mpr (Or.inr hk)))
      have hv := hsame.values k
      rw [hvalue (hnotasks hdelta) hver hget, hvalue (hnotasks hdelta) (hcp ▸ hver) hget',
        snapshotValue, snapshotValue, if_neg hout, if_pos hin] at hv
      simp [Channel.get, Channel.checkpoint, hv'] at hv

theorem ThreadRow.sameStart_of_checkpoint {row row' : ThreadRow V}
    (h : row'.saved.checkpoint = row.saved.checkpoint) : row.SameStart p row' := by
  refine ⟨⟨fun _ => by rw [h], fun _ => by rw [h], fun _ => by rw [h], fun _ _ => by rw [h]⟩, ?_⟩
  intro history info
  unfold Saved.load
  rw [h]
  cases channelsFromCheckpoint p.specs row.saved.checkpoint history <;> rfl

omit [LinearOrder V] [OrderBot V] in
theorem getLast?_putExitCheckpoint (bound : Nat) (p : Program V) (rows : List (ThreadRow V))
    (hid : r.loop.checkpoint.id ≠ r.checkpointIdSaved) :
    ∃ row, (putExitCheckpoint bound p rows r).getLast? = some row ∧ row.saved.checkpoint =
      r.newCheckpoint p r.loop.checkpoint.id (r.channelsToSnapshot bound r.counters) := by
  unfold putExitCheckpoint
  simp only [if_neg hid, List.getLast?_append, List.getLast?_singleton]
  exact ⟨_, rfl, rfl⟩

omit [LinearOrder V] [OrderBot V] in
/-- A run that has made no checkpoint saves nothing. -/
theorem RunState.Kept.putExitCheckpoint (hr : r.Kept p) (rows : List (ThreadRow V))
    (hid : r.loop.checkpoint.id = r.checkpointIdSaved) :
    LangGraph.putExitCheckpoint bound p rows r = rows := by
  unfold LangGraph.putExitCheckpoint RunState.putExitDeltaWrites
  simp only [hr.unsaved hid, List.all_nil, Bool.true_or, if_true, if_pos hid]

theorem rows_of_exit {w : ThreadState V} (hr : w.run = some r)
    (h : threadStep bound p w .exit = some w') : w'.rows =
      if r.durability = .exit then putExitCheckpoint bound p w.rows r else w.rows := by
  obtain ⟨r₀, hr₀, h⟩ := Option.bind_eq_some_iff.mp h
  cases hr.symm.trans hr₀
  split at h
  · cases h
    rfl
  · cases h

/-- In every run of a thread, the last checkpoint after a superstep that raises is
    the one that the run would have left without it if and only if the superstep
    meets the condition. -/
theorem rejected_sameStart_iff (bound : Nat) (p : Program V) (hinc : Increasing p.getNextVersion)
    (hasc : Ascending p.getNextVersion) {w : ThreadState V}
    (h : Machine.Reachable (threadStep bound p) ThreadState.NewId ⟨[], none⟩ w) {r : RunState V}
    (hr : w.run = some r) {info : StepInfo} {outputs : String → List (String × PyVal)}
    {pushed : List Pushed} {pending : List (String × PyVal)} {id : String}
    (hraise : (r.afterTick p
      (r.superstepTasks p info outputs ++ pushed.map Pushed.toTaskWrites)).2.isOk = false)
    {w₀ w₁ : ThreadState V} (h₀ : threadStep bound p w .exit = some w₀)
    (h₁ : Machine.run (threadStep bound p) w [.superstep info outputs pushed pending id, .exit] =
      some w₁) :
    Option.Rel (ThreadRow.SameStart p) w₀.rows.getLast? w₁.rows.getLast? ↔
      r.LeavesNothing bound p
        (r.superstepTasks p info outputs ++ pushed.map Pushed.toTaskWrites) := by
  have hkept := (kept_of_reachable h).run r hr
  generalize hafter : r.afterTick p
    (r.superstepTasks p info outputs ++ pushed.map Pushed.toTaskWrites) = after at hraise
  obtain ⟨r', res⟩ := after
  cases res with
  | ok => cases hraise
  | error e =>
  obtain ⟨s, hrejected⟩ := RunState.afterTick_error hafter
  have hrows₀ := rows_of_exit hr h₀
  have hrows₁ : w₁.rows =
      if r.durability = .exit then putExitCheckpoint bound p w.rows r' else w.rows := by
    simp only [Machine.run, Option.bind_eq_some_iff, Option.some.injEq] at h₁
    obtain ⟨wm, hm, w₂, h₂, rfl⟩ := h₁
    obtain ⟨r₀, hr₀, hm⟩ := Option.bind_eq_some_iff.mp hm
    cases hr.symm.trans hr₀
    simp only [hafter] at hm
    split at hm
    · cases hm
      rw [rows_of_exit (r := r') rfl h₂, hrejected.durability]
    · cases hm
  have hrefl : Option.Rel (ThreadRow.SameStart p) w.rows.getLast? w.rows.getLast? := by
    cases w.rows.getLast? with
    | none => exact Option.Rel.none
    | some row => exact Option.Rel.some (ThreadRow.sameStart_of_checkpoint rfl)
  rw [hrows₀, hrows₁]
  by_cases hexit : r.durability = .exit
  · rw [if_pos hexit, if_pos hexit]
    by_cases hid : r.loop.checkpoint.id = r.checkpointIdSaved
    · have hid' : r'.loop.checkpoint.id = r'.checkpointIdSaved :=
        hrejected.id.trans (hid.trans hrejected.saved.symm)
      rw [hkept.putExitCheckpoint w.rows hid, (hrejected.kept hkept).putExitCheckpoint w.rows hid']
      exact iff_of_true hrefl (Or.inr (Or.inl hid))
    · have hid' : r'.loop.checkpoint.id ≠ r'.checkpointIdSaved := by
        rw [hrejected.id, hrejected.saved]
        exact hid
      obtain ⟨row, hrow, hcp⟩ := getLast?_putExitCheckpoint bound p w.rows hid
      obtain ⟨row', hrow', hcp'⟩ := getLast?_putExitCheckpoint bound p w.rows hid'
      rw [hrejected.id] at hcp'
      rw [hrow, hrow']
      constructor
      · intro hrel
        cases hrel with
        | some hsame =>
          have hstate := hsame.state
          rw [hcp, hcp'] at hstate
          exact hrejected.leaves hkept hinc hasc hstate
      · rintro (hsaves | hsaved | ⟨hpush, hgroups, hover⟩)
        · exact absurd hexit hsaves
        · exact absurd hsaved hid
        · refine Option.Rel.some (ThreadRow.sameStart_of_checkpoint ?_)
          rw [hcp, hcp', hrejected.newCheckpoint hkept hpush hgroups hover]
  · rw [if_neg hexit, if_neg hexit]
    exact iff_of_true hrefl (Or.inl hexit)

end Runs

/-- A thread is invoked with durability `exit`, up to the first task of `A`. -/
def unsavedRun : List ThreadEvent :=
  [.enter none "0" noHistory .exit, .input (unmanaged (-1)) [(Const.START, .int 5)] "1", .started,
    .superstep (unmanaged 0) (fun _ => [(branchTo "A", .none), ("x", .int 5)]) [] [] "2"]

theorem ascending_growingProgram : Ascending growingProgram.getNextVersion := by
  intro v w h
  show v + 1 < w + 1 + 1
  exact Nat.lt_succ_of_le (Nat.succ_le_succ h)

/-- `A` sends itself a task. -/
def sentRun : List ThreadEvent :=
  unsavedRun ++ [.superstep (unmanaged 1) (fun _ => [(Const.TASKS, .send "A" (.int 6))]) [] [] "3"]

/-- Two values for a channel that takes one. -/
def twice : String → List (String × PyVal) := fun _ => [("x", .int 1), ("x", .int 2)]

theorem sentRun_rejected : ∃ w w₀ w₁ : ThreadState Nat,
    Machine.run (threadStep deltaMaxSuperstepsSinceSnapshot growingProgram) ⟨[], none⟩ sentRun =
      some w ∧
    threadStep deltaMaxSuperstepsSinceSnapshot growingProgram w .exit = some w₀ ∧
    Machine.run (threadStep deltaMaxSuperstepsSinceSnapshot growingProgram) w
      [.superstep (unmanaged 2) twice [] [] "4", .exit] = some w₁ ∧
    Option.Rel (ThreadRow.SameStart growingProgram) w₀.rows.getLast? w₁.rows.getLast? := by
  have hok : Machine.Meets (threadStep deltaMaxSuperstepsSinceSnapshot growingProgram)
      ThreadState.NewId ⟨[], none⟩ sentRun := by decide +kernel
  have hrun : (Machine.run (threadStep deltaMaxSuperstepsSinceSnapshot growingProgram) ⟨[], none⟩
      sentRun).map (fun w => (w.run.map fun r =>
        ((r.afterTick growingProgram (r.superstepTasks growingProgram (unmanaged 2) twice ++
            [].map Pushed.toTaskWrites)).2.isOk,
          decide (r.LeavesNothing deltaMaxSuperstepsSinceSnapshot growingProgram
            (r.superstepTasks growingProgram (unmanaged 2) twice ++ [].map Pushed.toTaskWrites))),
        (threadStep deltaMaxSuperstepsSinceSnapshot growingProgram w .exit).isSome,
        (Machine.run (threadStep deltaMaxSuperstepsSinceSnapshot growingProgram) w
          [.superstep (unmanaged 2) twice [] [] "4", .exit]).isSome)) =
      some (some (false, true), true, true) := by decide +kernel
  obtain ⟨w, hw, hf⟩ := Option.map_eq_some_iff.mp hrun
  simp only [Prod.mk.injEq, Option.map_eq_some_iff] at hf
  obtain ⟨⟨r, hr, hraise, hleaves⟩, h₀, h₁⟩ := hf
  obtain ⟨w₀, hw₀⟩ := Option.isSome_iff_exists.mp h₀
  obtain ⟨w₁, hw₁⟩ := Option.isSome_iff_exists.mp h₁
  exact ⟨w, w₀, w₁, hw, hw₀, hw₁, (rejected_sameStart_iff _ growingProgram increasing_growingProgram
    ascending_growingProgram (Machine.Reachable.of_run hok hw) hr hraise hw₀ hw₁).mpr
    (of_decide_eq_true hleaves)⟩

/-- The version that `A` has seen of its trigger, and the tasks that the thread goes on with. -/
def ThreadState.goesOn (w : ThreadState Nat) : Option (Option Nat × List String) :=
  w.rows.getLast?.bind fun row => (row.saved.load growingProgram noHistory).map fun l =>
    (l.checkpoint.seenVersion "A" (branchTo "A"),
      (l.tasks growingProgram (unmanaged 1) true).map Task.name)

/-- With durability `exit` the task of `A` that was rejected is lost: the checkpoint
    has seen its trigger. -/
theorem rejected_sameStart_fails : ∃ w w₀ w₁ : ThreadState Nat,
    Machine.run (threadStep deltaMaxSuperstepsSinceSnapshot growingProgram) ⟨[], none⟩ unsavedRun =
      some w ∧
    threadStep deltaMaxSuperstepsSinceSnapshot growingProgram w .exit = some w₀ ∧
    Machine.run (threadStep deltaMaxSuperstepsSinceSnapshot growingProgram) w
      [.superstep (unmanaged 1) twice [] [] "4", .exit] = some w₁ ∧
    (w.run.map fun r => (r.afterTick growingProgram
      (r.superstepTasks growingProgram (unmanaged 1) twice)).2.isOk) = some false ∧
    w₀.goesOn = some (none, ["A"]) ∧ w₁.goesOn = some (some 2, []) := by
  have hraise : (Machine.run (threadStep deltaMaxSuperstepsSinceSnapshot growingProgram) ⟨[], none⟩
      unsavedRun).map (fun w => w.run.map fun r => (r.afterTick growingProgram
        (r.superstepTasks growingProgram (unmanaged 1) twice)).2.isOk) = some (some false) := by
    decide +kernel
  have h₀ : (Machine.run (threadStep deltaMaxSuperstepsSinceSnapshot growingProgram) ⟨[], none⟩
      unsavedRun).map (fun w => (threadStep deltaMaxSuperstepsSinceSnapshot growingProgram w
        .exit).map ThreadState.goesOn) = some (some (some (none, ["A"]))) := by decide +kernel
  have h₁ : (Machine.run (threadStep deltaMaxSuperstepsSinceSnapshot growingProgram) ⟨[], none⟩
      unsavedRun).map (fun w => (Machine.run
        (threadStep deltaMaxSuperstepsSinceSnapshot growingProgram) w
        [.superstep (unmanaged 1) twice [] [] "4", .exit]).map ThreadState.goesOn) =
      some (some (some (some 2, []))) := by decide +kernel
  obtain ⟨w, hw, hraise⟩ := Option.map_eq_some_iff.mp hraise
  rw [hw, Option.map_some, Option.some.injEq] at h₀ h₁
  obtain ⟨w₀, hw₀, hnext₀⟩ := Option.map_eq_some_iff.mp h₀
  obtain ⟨w₁, hw₁, hnext₁⟩ := Option.map_eq_some_iff.mp h₁
  exact ⟨w, w₀, w₁, hw, hw₀, hw₁, hraise, hnext₀, hnext₁⟩

end LangGraph
