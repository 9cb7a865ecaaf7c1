import LangGraph.Runner
import LangGraph.RejectedSteps

/- What `get_state` says will run next, and what runs when the thread is resumed.

   Correspondence (source ↔ Lean):
     `_prepare_state_snapshot` (pregel/main.py),
     the tasks that `next` names                    ↔ `prepareStateSnapshot`
     `_first` for the input `None`                  ↔ `Loop.proceed`
     `tick`, and the tasks without writes           ↔ `Loop.tasksToRun`
     `null_writes`                                  ↔ `nullWrites`
   The snapshot prepares its tasks without hints and before it applies the writes
   of the null task, and gives a task all of its writes but `ERROR` and
   `INTERRUPT`; a resumed loop applies the null task first, prepares with the hints
   and also passes over `RESUME`. `getState_next_iff` says when the two agree. A
   resumed run has seen every version, so `interrupt_before` does not stop its
   first tick (`InterruptSeen.resume`). -/
namespace LangGraph

/-! ## Calls that return -/

section Returns
variable {V : Type}

/-- The channel takes the values. -/
def Channel.Accepts (c : Channel) (vals : List PyVal) : Prop := ∃ b, (c.update vals).2 = .ok b

instance (c : Channel) (vals : List PyVal) : Decidable (c.Accepts vals) :=
  match h : (c.update vals).2 with
  | .ok b => isTrue ⟨b, h⟩
  | .error _ => isFalse fun ⟨_, hb⟩ => nomatch h.symm.trans hb

/-- Whether a barrier raises depends on its names only. -/
theorem barrierUpdate_returns {key : String} {names : List PyVal} :
    ∀ {vals seen : List PyVal} {b : Bool} (seen' : List PyVal) (b' : Bool),
      (∃ u, (barrierUpdate key names seen vals b).2 = .ok u) →
        ∃ u, (barrierUpdate key names seen' vals b').2 = .ok u
  | [], _, _, _, b', _ => ⟨b', rfl⟩
  | v :: vals, seen, b, seen', b', h => by
    simp only [barrierUpdate] at h ⊢
    by_cases hv : names.contains v = true
    · rw [if_pos hv] at h ⊢
      split at h <;> split <;> exact barrierUpdate_returns _ _ h
    · rw [if_neg hv] at h
      obtain ⟨u, hu⟩ := h
      cases hu

/-- What a channel takes does not depend on whether it was consumed. -/
theorem Channel.accepts_consume (c : Channel) (vals : List PyVal) :
    c.consume.1.Accepts vals ↔ c.Accepts vals := by
  cases c with
  | lastValueAfterFinish c =>
    have hany : ∀ c : LastValueAfterFinish, ∃ b, (c.update vals).2 = .ok b := by
      intro c
      unfold LastValueAfterFinish.update
      cases vals.getLast? with
      | none => exact ⟨false, rfl⟩
      | some v => exact ⟨true, rfl⟩
    exact iff_of_true (hany _) (hany c)
  | namedBarrierValue c =>
    have hset : c.consume.1 = c ∨ c.consume.1 = { c with seen := [] } := by
      unfold NamedBarrierValue.consume
      split
      · exact Or.inr rfl
      · exact Or.inl rfl
    show (Channel.namedBarrierValue c.consume.1).Accepts vals ↔ _
    rcases hset with h | h
    · rw [h]
    · rw [h]
      exact ⟨barrierUpdate_returns _ _, barrierUpdate_returns _ _⟩
  | namedBarrierValueAfterFinish c =>
    have hset : c.consume.1 = c ∨ c.consume.1 = { c with finished := false, seen := [] } := by
      unfold NamedBarrierValueAfterFinish.consume
      split
      · exact Or.inr rfl
      · exact Or.inl rfl
    show (Channel.namedBarrierValueAfterFinish c.consume.1).Accepts vals ↔ _
    rcases hset with h | h
    · rw [h]
    · rw [h]
      exact ⟨barrierUpdate_returns _ _, barrierUpdate_returns _ _⟩
  | _ => exact Iff.rfl

/-- The channels take the values that `vals` has for them. -/
def Takes (vals : String → List PyVal) (channels : OrdDict String Channel) : Prop :=
  ∀ chan c, channels.get? chan = some c → c.Accepts (vals chan)

theorem takes_set {vals : String → List PyVal} {channels : OrdDict String Channel} {chan : String}
    {c c' : Channel} (hc : channels.get? chan = some c)
    (hiff : c'.Accepts (vals chan) ↔ c.Accepts (vals chan)) :
    Takes vals (channels.set chan c') ↔ Takes vals channels := by
  constructor
  · intro h k ck hk
    by_cases he : k = chan
    · subst he
      cases Option.some.inj (hk.symm.trans hc)
      exact hiff.mp (h k c' (OrdDict.get?_set_self _ _ _))
    · exact h k ck ((OrdDict.get?_set_of_ne he _ _).trans hk)
  · intro h k ck hk
    by_cases he : k = chan
    · subst he
      rw [OrdDict.get?_set_self, Option.some.injEq] at hk
      exact hk ▸ hiff.mpr (h k c hc)
    · rw [OrdDict.get?_set_of_ne he] at hk
      exact h k ck hk

/-- The consumption of the triggers changes nothing of what the channels take. -/
theorem takes_consumeAll (vals : String → List PyVal) (nv : Option V) :
    ∀ (chans : List String) (s : ApplyState V),
      (chans.foldl (consumeOne nv) s).channels.keys = s.channels.keys ∧
        (Takes vals (chans.foldl (consumeOne nv) s).channels ↔ Takes vals s.channels)
  | [], _ => ⟨rfl, Iff.rfl⟩
  | chan :: chans, s => by
    have hone : (consumeOne nv s chan).channels.keys = s.channels.keys ∧
        (Takes vals (consumeOne nv s chan).channels ↔ Takes vals s.channels) := by
      unfold consumeOne
      cases hc : s.channels.get? chan with
      | none => exact ⟨rfl, Iff.rfl⟩
      | some c =>
        simp only
        split <;> exact ⟨keys_set_of_get? hc _, takes_set hc (c.accepts_consume _)⟩
    obtain ⟨hkeys, htakes⟩ := takes_consumeAll vals nv chans (consumeOne nv s chan)
    exact ⟨hkeys.trans hone.1, htakes.trans hone.2⟩

/-- The loop over the groups returns when each channel takes its group. -/
theorem updateAll_returns {nv : Option V} :
    ∀ {entries : List (String × List PyVal)} {s : ApplyState V}, (entries.map Prod.fst).Nodup →
      ((updateAll nv s entries).2 = .ok () ↔
        ∀ e ∈ entries, ∀ c, s.channels.get? e.1 = some c → c.Accepts e.2)
  | [], _, _ => iff_of_true rfl fun e he => absurd he List.not_mem_nil
  | (chan, vals) :: rest, s, hn => by
    obtain ⟨hchan, hn⟩ := List.nodup_cons.mp hn
    have hrest : ∀ s₁ : ApplyState V, (∀ k, k ≠ chan → s₁.channels.get? k = s.channels.get? k) →
        ((updateAll nv s₁ rest).2 = .ok () ↔
          ∀ e ∈ rest, ∀ c, s.channels.get? e.1 = some c → c.Accepts e.2) := by
      intro s₁ hs₁
      rw [updateAll_returns hn]
      refine forall₂_congr fun e he => ?_
      have hne : e.1 ≠ chan := fun hk => hchan (hk ▸ List.mem_map.mpr ⟨e, he, rfl⟩)
      rw [hs₁ e.1 hne]
    rw [updateAll, KeyedFold.foldE, List.forall_mem_cons]
    simp only
    cases hc : s.channels.get? chan with
    | none =>
      have hone : updateOne nv s chan vals = (s, .ok ()) := by rw [updateOne, hc]
      have hnone : ∀ c, (none : Option Channel) = some c → c.Accepts vals := fun c h => by cases h
      rw [hone, and_iff_right hnone]
      exact hrest s fun _ _ => rfl
    | some c =>
      rcases hu : c.update vals with ⟨c', e | changed⟩
      · have hone : updateOne nv s chan vals =
            ({ s with channels := s.channels.set chan c' }, .error e) := by
          rw [updateOne, hc]
          simp only [hu]
        rw [hone]
        refine iff_of_false (by simp) fun h => ?_
        obtain ⟨b, hb⟩ := h.1 c rfl
        rw [hu] at hb
        cases hb
      · have hone : updateOne nv s chan vals = (recordUpdate nv chan c' changed s, .ok ()) := by
          rw [updateOne, hc]
          simp only [hu]
        have haccepts : ∀ c₁, some c = some c₁ → c₁.Accepts vals := by
          intro c₁ hc₁
          cases hc₁
          exact ⟨changed, by rw [hu]⟩
        rw [hone, and_iff_right haccepts]
        refine hrest _ fun k hk => ?_
        unfold recordUpdate
        simp only
        split <;> exact OrdDict.get?_set_of_ne hk _ _

variable [LinearOrder V]

/-- A call raises only when a channel does not take the writes to it. -/
theorem applyWrites_returns (cp : Checkpoint V) (channels : OrdDict String Channel)
    (tasks : List TaskWrites) (g : Option (GetNextVersion V)) (ttn : TriggerToNodes) :
    (applyWrites cp channels tasks g ttn).2 = .ok () ↔
      Takes (writesFor (SortBy.sortBy TaskWrites.sortKey tasks)) channels := by
  unfold applyWrites
  generalize SortBy.sortBy TaskWrites.sortKey tasks = sorted
  dsimp only
  generalize nextVersion g (sorted.foldl markSeen cp) = nv
  obtain ⟨hkeys, htakes⟩ := takes_consumeAll (writesFor sorted) nv (triggerChannels sorted channels)
    ⟨sorted.foldl markSeen cp, channels, []⟩
  dsimp only at hkeys htakes
  rw [← htakes]
  generalize (triggerChannels sorted channels).foldl (consumeOne nv)
    ⟨sorted.foldl markSeen cp, channels, []⟩ = s at hkeys ⊢
  have hiff : (updateAll nv s (groupWrites sorted channels).entries).2 = .ok () ↔
      Takes (writesFor sorted) s.channels := by
    rw [updateAll_returns (groupWrites sorted channels).nodup]
    constructor
    · intro h chan c hc
      by_cases hnil : writesFor sorted chan = []
      · obtain ⟨c', b, hu⟩ := c.update_nil
        exact ⟨b, by rw [hnil, hu]⟩
      · have hmem : channels.contains chan = true :=
          OrdDict.contains_iff.mpr (hkeys ▸ OrdDict.mem_keys_iff.mpr ⟨c, hc⟩)
        have hgroup := get?_groupWrites sorted channels chan
        rw [if_neg (by simp [hmem, hnil])] at hgroup
        exact h _ (OrdDict.get?_eq_some_iff.mp hgroup) c hc
    · intro h e he c hc
      have hgroup := get?_groupWrites sorted channels e.1
      rw [OrdDict.get?_eq_some_iff.mpr he] at hgroup
      split at hgroup
      · cases hgroup
      · rw [Option.some.inj hgroup]
        exact h e.1 c hc
  rcases hu : updateAll nv s (groupWrites sorted channels).entries with ⟨s₁, e | ⟨⟩⟩
  · rw [hu] at hiff
    exact hiff
  · rw [hu] at hiff
    exact iff_of_true (endStep_returns _ _ _ _) (hiff.mp rfl)

end Returns

/-! ## The writes of the null task -/

section NullTask
variable {V : Type} [LinearOrder V]

/-- A channel after the writes of the null task. -/
def Channel.afterNull (writes : List (String × PyVal)) (chan : String) (c : Channel) : Channel :=
  if writesFor [nullTask writes] chan = [] then c else (c.update (writesFor [nullTask writes] chan)).1

/-- The writes of the null task update the channel, and leave it available. -/
def Channel.nullUpdates (writes : List (String × PyVal)) (chan : String) (c : Channel) : Bool :=
  match writesFor [nullTask writes] chan, (c.update (writesFor [nullTask writes] chan)).2 with
  | _ :: _, .ok true => (c.afterNull writes chan).isAvailable
  | _, _ => false

/-- The null task triggers nothing, so a call with it only updates channels. -/
theorem applyWrites_nullTask (cp : Checkpoint V) (channels : OrdDict String Channel)
    (writes : List (String × PyVal)) (g : Option (GetNextVersion V)) (ttn : TriggerToNodes) :
    applyWrites cp channels [nullTask writes] g ttn =
      updateAll (nextVersion g (markSeen cp (nullTask writes)))
        ⟨markSeen cp (nullTask writes), channels, []⟩
        (groupWrites [nullTask writes] channels).entries := by
  have hsort : SortBy.sortBy TaskWrites.sortKey [nullTask writes] = [nullTask writes] := rfl
  have htrig : triggerChannels [nullTask writes] channels = [] := by
    simp [triggerChannels, nullTask]
  unfold applyWrites
  rw [hsort]
  simp only [htrig, List.foldl_cons, List.foldl_nil]
  generalize updateAll (nextVersion g (markSeen cp (nullTask writes))) _
    (groupWrites [nullTask writes] channels).entries = r
  rcases r with ⟨s, e | ⟨⟩⟩
  · rfl
  · rfl

omit [LinearOrder V] in
/-- What the groups do to the channels does not depend on the versions. -/
theorem updateAll_channels {nv : Option V} {s s' : ApplyState V}
    {entries : List (String × List PyVal)} (hn : (entries.map Prod.fst).Nodup)
    (h : updateAll nv s entries = (s', .ok ())) :
    (∀ chan, chan ∉ entries.map Prod.fst → s'.channels.get? chan = s.channels.get? chan) ∧
      ∀ e ∈ entries, s'.channels.get? e.1 = (s.channels.get? e.1).map fun c => (c.update e.2).1 := by
  have hstep : ∀ (s : ApplyState V) (e : String × List PyVal) (s' : ApplyState V),
      updateOne nv s e.1 e.2 = (s', .ok ()) → ∀ k, s'.channels.get? k =
        (s.channels.get? k).map fun c => if k = e.1 then (c.update e.2).1 else c := by
    intro s e s' hs k
    unfold updateOne at hs
    cases hc : s.channels.get? e.1 with
    | none =>
      rw [hc] at hs
      cases hs
      by_cases hk : k = e.1
      · rw [hk, hc]
        rfl
      · simp [hk]
    | some c =>
      rw [hc] at hs
      match hu : c.update e.2 with
      | (c', .error err) => simp [hu] at hs
      | (c', .ok changed) =>
        simp only [hu, Prod.mk.injEq, and_true] at hs
        subst hs
        have hset : (recordUpdate nv e.1 c' changed s).channels = s.channels.set e.1 c' := by
          unfold recordUpdate
          simp only
          split <;> rfl
        rw [hset]
        by_cases hk : k = e.1
        · rw [hk, OrdDict.get?_set_self, hc]
          simp [hu]
        · rw [OrdDict.get?_set_of_ne hk]
          simp [hk]
  have hself : ∀ (s : ApplyState V) (e : String × List PyVal) (s' : ApplyState V),
      updateOne nv s e.1 e.2 = (s', .ok ()) →
        s'.channels.get? e.1 = (s.channels.get? e.1).map fun c => (c.update e.2).1 := by
    intro s e s' hs
    rw [hstep s e s' hs]
    simp
  have hother : ∀ (s : ApplyState V) (e : String × List PyVal) (s' : ApplyState V) (k : String),
      updateOne nv s e.1 e.2 = (s', .ok ()) → k ≠ e.1 →
        s'.channels.get? k = s.channels.get? k := by
    intro s e s' k hs hk
    rw [hstep s e s' hs]
    simp [hk]
  exact @KeyedFold.view_foldE _ _ _ _ _ (fun k s => s.channels.get? k) _ Prod.fst
    (fun e w w' => w' = w.map fun c => (c.update e.2).1) hself hother _ _ _ hn h

/-- The channels after a call with the null task, whatever it does to the versions. -/
theorem applyWrites_nullTask_channels {cp : Checkpoint V} {channels : OrdDict String Channel}
    {writes : List (String × PyVal)} {g : Option (GetNextVersion V)} {ttn : TriggerToNodes}
    {s : ApplyState V} (h : applyWrites cp channels [nullTask writes] g ttn = (s, .ok ()))
    (chan : String) : s.channels.get? chan =
      (channels.get? chan).map (Channel.afterNull writes chan) := by
  rw [applyWrites_nullTask] at h
  obtain ⟨hout, hin⟩ := updateAll_channels (groupWrites [nullTask writes] channels).nodup h
  have hgroup := get?_groupWrites [nullTask writes] channels chan
  by_cases hskip : channels.contains chan = false ∨ writesFor [nullTask writes] chan = []
  · rw [if_pos hskip] at hgroup
    rw [hout chan (OrdDict.get?_eq_none_iff.mp hgroup)]
    rcases hskip with hskip | hskip
    · have hnone : channels.get? chan = none := by
        rw [OrdDict.contains] at hskip
        exact Option.not_isSome_iff_eq_none.mp (by simp [hskip])
      rw [hnone]
      rfl
    · cases channels.get? chan <;> simp [Channel.afterNull, hskip]
  · rw [if_neg hskip] at hgroup
    rw [hin _ (OrdDict.get?_eq_some_iff.mp hgroup)]
    rw [not_or] at hskip
    cases channels.get? chan <;> simp [Channel.afterNull, hskip.2]

/-- The channels that a call with the null task returns. -/
theorem mem_updatedChannels_nullTask {cp : Checkpoint V} {channels : OrdDict String Channel}
    {writes : List (String × PyVal)} {g : GetNextVersion V} {ttn : TriggerToNodes}
    {s : ApplyState V} (h : applyWrites cp channels [nullTask writes] (some g) ttn = (s, .ok ()))
    {chan : String} {c : Channel} (hc : channels.get? chan = some c) :
    chan ∈ s.updatedChannels ↔ c.nullUpdates writes chan = true := by
  have hnv : nextVersion (some g) (markSeen cp (nullTask writes)) =
      some (g (markSeen cp (nullTask writes)).channelVersions.values.max?) := rfl
  rw [applyWrites_nullTask, hnv] at h
  obtain ⟨-, hview⟩ := updateAll_groupWrites rfl h
  have hrel := hview chan
  generalize hv : s.view chan = view at hrel
  rw [ApplyState.view, hc, Option.map_some] at hrel
  cases hrel with
  | @some _ w' hw =>
    rw [ApplyState.view, Option.map_eq_some_iff] at hv
    obtain ⟨c', -, rfl⟩ := hv
    unfold Channel.nullUpdates Channel.afterNull
    cases hvals : writesFor [nullTask writes] chan with
    | nil =>
      rw [if_pos hvals, ChannelView.mk.injEq] at hw
      simpa using hw.2.2
    | cons v vals =>
      rw [if_neg (by rw [hvals]; exact List.cons_ne_nil v vals), hvals] at hw
      obtain ⟨changed, hu, hw⟩ := hw
      have hupdated := congrArg ChannelView.updated hw
      simp only [ChannelView.record, List.not_mem_nil, decide_false, Bool.false_or] at hupdated
      rw [← decide_eq_true_iff (p := chan ∈ s.updatedChannels), hupdated, if_neg (by simp)]
      simp only [hu]
      cases changed <;> simp

end NullTask

/-! ## The snapshot and the resumed loop -/

def nullWrites (pending : List PendingWrite) : List (String × PyVal) :=
  (pending.filter fun w => w.taskId = Const.NULL_TASK_ID).map fun w => (w.channel, w.value)

/-- The tasks of the call for the null task, if there is one. -/
def nullTasks (writes : List (String × PyVal)) : List TaskWrites :=
  if writes.isEmpty then [] else [nullTask writes]

/-- The writes of a task that the snapshot gives it. -/
def snapshotWrites (pending : List PendingWrite) (taskId : String) : List (String × PyVal) :=
  (pending.filter fun w => w.taskId = taskId ∧ w.channel ∉ [Const.ERROR, Const.INTERRUPT]).map
    fun w => (w.channel, w.value)

section Snapshot
variable {V : Type} [LinearOrder V] [OrderBot V] (p : Program V) (l : Loop V)

/-- The tasks of the snapshot, with the writes they are given. -/
def Loop.snapshotTasks (info : StepInfo) (pending : List PendingWrite) : List Task :=
  (prepareNextTasks (p.ctx info.managed) l.checkpoint l.channels info.step true none none).values.map
    fun t => { t with writes := t.writes ++ snapshotWrites pending t.id }

omit [OrderBot V] in
/-- A call of `apply_writes` by the snapshot, which keeps the versions. -/
def Loop.shown (tasks : List TaskWrites) : Option (Loop V) :=
  if tasks.isEmpty then some l
  else match applyWrites l.checkpoint l.channels tasks none p.triggerToNodes with
    | (_, .error _) => none
    | (s, .ok ()) => some { l with checkpoint := s.checkpoint, channels := s.channels }

/-- The tasks that the snapshot has not given writes, unless a channel raises. -/
def prepareStateSnapshot (info : StepInfo) (pending : List PendingWrite) : Option (List Task) :=
  let tasks := l.snapshotTasks p info pending
  (l.shown p (nullTasks (nullWrites pending))).bind fun l' =>
    (l'.shown p ((tasks.filter fun t => !t.writes.isEmpty).map Task.toTaskWrites)).map fun _ =>
      tasks.filter fun t => t.writes.isEmpty

/-- The part of `_first` that applies the writes of the null task. -/
def Loop.applyNull (writes : List (String × PyVal)) : Option (Loop V) :=
  if writes.isEmpty then some l
  else (l.apply p [nullTask writes]).map fun r =>
    { r.1 with updatedChannels := l.updatedChannels.map (· ∪ r.2) }

/-- The loop that goes on from a checkpoint, unless a channel raises or there is
    nothing to go on from. -/
def Loop.proceed (writes : List (String × PyVal)) : Option (Loop V) :=
  (l.applyNull p writes).bind fun l' =>
    if l.checkpoint.channelVersions.entries.isEmpty then none else some l'.seeInterrupts

/-- The tasks without writes after the tick. -/
def Loop.tasksToRun (info : StepInfo) (pending : List PendingWrite) : List Task :=
  match l.proceed p (nullWrites pending) with
  | none => []
  | some l' => (reapplyWrites pending (tasksById (l'.tasks p info true)).values).filter
      fun t => t.writes.isEmpty

/-! ## What is scheduled -/

/-- `tid` is the id of the task for a pending send. -/
def Loop.Sends (step : Int) (tid : String) : Prop :=
  ∃ (idx : Nat) (node : String) (arg : PyVal) (proc : PregelNode),
    (pendingSends l.channels)[idx]? = some (.send node arg) ∧
      p.nodes.get? node = some proc ∧ proc.hasNode = true ∧
      tid = taskId (p.ctx ∅) l.checkpoint.id
        [(p.ctx ∅).checkpointNs node, toString step, node, Const.PUSH, toString idx]

/-- The node is due and finds its input, and `tid` is the id of its task. -/
def Loop.PullsAs (step : Int) (node tid : String) : Prop :=
  ∃ proc, p.nodes.get? node = some proc ∧ l.Due node proc ∧ hasInput proc l.channels = true ∧
    tid = taskId (p.ctx ∅) l.checkpoint.id
      ([(p.ctx ∅).checkpointNs node, toString step, node, Const.PULL] ++
        SortBy.sortBy id proc.triggers)

/-- The hint, if there is one, has a trigger of the node. -/
def Loop.Named (node : String) : Prop :=
  ∀ us, l.updatedChannels = some us → us ≠ [] → ∃ chan ∈ us, p.Triggers node chan

/-- The checkpoint has a task with this id for the step. -/
def Loop.Schedules (step : Int) (tid : String) : Prop :=
  l.Sends p step tid ∨ ∃ node, l.PullsAs p step node tid

/-- A run that goes on prepares a task with this id. -/
def Loop.Continues (step : Int) (tid : String) : Prop :=
  l.checkpoint.channelVersions.entries ≠ [] ∧
    (l.Sends p step tid ∨ ∃ node, l.Named p node ∧ l.PullsAs p step node tid)

omit [OrderBot V] in
/-- The loop with the writes of the null task in its channels. -/
def Loop.withNull (writes : List (String × PyVal)) : Loop V where
  checkpoint := l.checkpoint
  channels := l.channels.filterMap fun chan c => some (c.afterNull writes chan)
  updatedChannels := l.updatedChannels.map fun us => us ++ (l.channels.entries.filter fun e =>
    e.2.nullUpdates writes e.1).map Prod.fst
  unread := fun node chan => l.unread node chan || !(writesFor [nullTask writes] chan).isEmpty

/-- A task with this id has been resumed and not finished since. -/
def Answered (pending : List PendingWrite) (tid : String) : Prop :=
  ∃ w ∈ pending, w.taskId = tid ∧ w.channel = Const.RESUME

/-- What makes the snapshot tell what a resumed run goes on with: the channels take
    the pending writes, and of the ids without writes to channels, those that the
    run prepares are the ones that the checkpoint has and no answer is saved for. -/
structure Loop.Predicts (info : StepInfo) (pending : List PendingWrite) : Prop where
  nullTaken : Takes (writesFor [nullTask (nullWrites pending)]) l.channels
  taken : Takes (writesFor (SortBy.sortBy TaskWrites.sortKey
    (((l.snapshotTasks p info pending).filter fun t => !t.writes.isEmpty).map Task.toTaskWrites)))
    (l.withNull (nullWrites pending)).channels
  answered : ∀ tid, reapplied pending tid = [] →
    (l.withNull (nullWrites pending)).Continues p info.step tid → ¬ Answered pending tid
  added : ∀ tid, reapplied pending tid = [] →
    (l.withNull (nullWrites pending)).Continues p info.step tid → l.Schedules p info.step tid
  kept : ∀ tid, reapplied pending tid = [] → l.Schedules p info.step tid → ¬ Answered pending tid →
    (l.withNull (nullWrites pending)).Continues p info.step tid

variable {p l} {info : StepInfo} {pending : List PendingWrite} {tid : String}

theorem mem_ids_unwritten {tasks : List Task} (hnil : ∀ t ∈ tasks, t.writes = [])
    (writes : String → List (String × PyVal)) :
    tid ∈ (((tasksById tasks).values.map fun t => { t with writes := t.writes ++ writes t.id }).filter
        fun t => t.writes.isEmpty).map Task.id ↔
      (∃ t ∈ tasks, t.id = tid) ∧ writes tid = [] := by
  have hentry : ∀ k t, (tasksById tasks).get? k = some t → t ∈ tasks ∧ t.id = k := by
    intro k t hget
    obtain ⟨t', ht', he⟩ := List.mem_map.mp (OrdDict.mem_of_get?_ofList hget)
    cases he
    exact ⟨ht', rfl⟩
  constructor
  · intro h
    obtain ⟨t', ht', rfl⟩ := List.mem_map.mp h
    obtain ⟨ht', hempty⟩ := List.mem_filter.mp ht'
    obtain ⟨t, ht, rfl⟩ := List.mem_map.mp ht'
    obtain ⟨k, hget⟩ := OrdDict.mem_values_iff.mp ht
    refine ⟨⟨t, (hentry k t hget).1, rfl⟩, ?_⟩
    rw [List.isEmpty_iff, List.append_eq_nil_iff] at hempty
    exact hempty.2
  · rintro ⟨⟨t, ht, rfl⟩, hwrites⟩
    have hkey : t.id ∈ (tasks.map fun t => (t.id, t)).map Prod.fst :=
      List.mem_map.mpr ⟨(t.id, t), List.mem_map.mpr ⟨t, ht, rfl⟩, rfl⟩
    obtain ⟨t', -, hget⟩ := OrdDict.exists_get?_setAll OrdDict.empty hkey
    obtain ⟨ht', hid⟩ := hentry t.id t' hget
    refine List.mem_map.mpr ⟨{ t' with writes := t'.writes ++ writes t'.id }, ?_, hid⟩
    refine List.mem_filter.mpr ⟨List.mem_map.mpr ⟨t', OrdDict.mem_values_iff.mpr ⟨_, hget⟩, rfl⟩, ?_⟩
    rw [List.isEmpty_iff, List.append_eq_nil_iff]
    exact ⟨hnil t' ht', hid ▸ hwrites⟩

theorem writes_of_mem_nextTaskList {ctx : TaskContext} {cp : Checkpoint V}
    {channels : OrdDict String Channel} {step : Int} {forExecution : Bool}
    {ttn : Option TriggerToNodes} {updated : Option (List String)} {t : Task}
    (h : t ∈ nextTaskList ctx cp channels step forExecution ttn updated) : t.writes = [] := by
  rcases mem_nextTaskList.mp h with ⟨i, -, hi⟩ | ⟨node, -, hpull⟩
  · obtain ⟨node, arg, proc, -, -, -, rfl⟩ := preparePushTaskSend_eq_some_iff.mp hi
    rfl
  · exact (preparePullTask_id hpull).2.1

theorem Loop.exists_task_iff (hw : l.Wired p) (hk : l.Current p) (hc : p.builder.compile.Wired)
    {ttn : Option TriggerToNodes} {updated : Option (List String)} :
    (∃ t ∈ nextTaskList (p.ctx info.managed) l.checkpoint l.channels info.step true ttn updated,
        t.id = tid) ↔
      l.Sends p info.step tid ∨
        ∃ node ∈ candidateNodes (p.ctx info.managed) l.checkpoint ttn updated,
          l.PullsAs p info.step node tid := by
  constructor
  · rintro ⟨t, ht, rfl⟩
    rcases mem_nextTaskList.mp ht with ⟨i, -, hi⟩ | ⟨node, hnode, hpull⟩
    · obtain ⟨node, arg, proc, hsend, hp, hn, rfl⟩ := preparePushTaskSend_eq_some_iff.mp hi
      exact Or.inl ⟨i, node, arg, proc, hsend, hp, hn, rfl⟩
    · obtain ⟨proc, hp, htr, hin, -⟩ := preparePullTask_eq_some hpull
      have hp' : p.nodes.get? node = some proc := hp
      have hdue : l.Due node proc := (Loop.due_iff_fires hk hp').mpr (List.any_eq_true.mp htr)
      exact Or.inr ⟨node, hnode, proc, hp, hdue, hin, (preparePullTask_id hpull).2.2 proc hp⟩
  · rintro (⟨i, node, arg, proc, hsend, hp, hn, rfl⟩ | ⟨node, hnode, proc, hp, hdue, hin, rfl⟩)
    · refine ⟨_, mem_nextTaskList.mpr (Or.inl ⟨i, ?_,
        preparePushTaskSend_eq_some_iff.mpr ⟨node, arg, proc, hsend, hp, hn, rfl⟩⟩), rfl⟩
      exact (List.getElem?_eq_some_iff.mp hsend).1
    · obtain ⟨chan, hchan, hf⟩ := (Loop.due_iff_fires hk hp).mp hdue
      have hver := hw.versions_ne_nil ⟨proc, hp, hchan⟩ hf
      have htr : triggers l.channels l.checkpoint.channelVersions
          (l.checkpoint.versionsSeen.get? node) proc = true := by
        rw [Loop.triggers_eq_any_fires, List.any_eq_true]
        exact ⟨chan, hchan, hf⟩
      have hproc : (p.ctx info.managed).processes.get? node = some proc := hp
      obtain ⟨t, ht⟩ : ∃ t, preparePullTask (p.ctx info.managed) l.checkpoint l.channels info.step true
          node = some t :=
        (preparePullTask_isSome_iff hver hproc (hc node proc hp).1).mpr ⟨htr, hin⟩
      exact ⟨t, mem_nextTaskList.mpr (Or.inr ⟨node, hnode, ht⟩), (preparePullTask_id ht).2.2 proc hp⟩

theorem Loop.PullsAs.mem_candidates {node : String} {step : Int} {ctx : TaskContext}
    (hctx : ctx.processes = p.nodes) (hw : l.Wired p) (hk : l.Current p)
    (h : l.PullsAs p step node tid) (updated : Option (List String)) :
    node ∈ candidateNodes ctx l.checkpoint none updated ∧
      (node ∈ candidateNodes ctx l.checkpoint (some p.triggerToNodes) l.updatedChannels ↔
        l.Named p node) := by
  obtain ⟨proc, hp, hdue, -⟩ := h
  obtain ⟨chan, hchan, hf⟩ := (Loop.due_iff_fires hk hp).mp hdue
  have hver := hw.versions_ne_nil ⟨proc, hp, hchan⟩ hf
  have hkeys : node ∈ ctx.processes.keys := hctx ▸ OrdDict.mem_keys_iff.mpr ⟨proc, hp⟩
  refine ⟨by rwa [candidateNodes_none hver], ?_⟩
  unfold candidateNodes
  dsimp only [Option.getD_some]
  split
  · rename_i hhint
    rw [SortBy.mem_sortBy, List.mem_dedup, List.mem_flatMap]
    constructor
    · rintro ⟨c, hc, hmem⟩ us hus _
      rw [hus, Option.getD_some] at hc
      exact ⟨c, hc, mem_triggerToNodes.mp hmem⟩
    · intro hnamed
      cases hus : l.updatedChannels with
      | none => exact absurd (by rw [hus]; rfl) hhint.1
      | some us =>
        rw [hus, Option.getD_some] at hhint
        obtain ⟨c, hc, htrig⟩ := hnamed us hus hhint.1
        exact ⟨c, hc, mem_triggerToNodes.mpr htrig⟩
  · rename_i hhint
    rw [if_neg (by simpa using hver)]
    refine iff_of_true hkeys fun us hus hne => ?_
    -- a node with a trigger is listed under it
    refine absurd ⟨by rw [hus]; exact hne, fun hnil => ?_⟩ hhint
    have hmem : node ∈ p.triggerToNodes.getD chan [] := mem_triggerToNodes.mpr ⟨proc, hp, hchan⟩
    rw [OrdDict.getD, OrdDict.get?, hnil] at hmem
    exact absurd hmem List.not_mem_nil

omit [LinearOrder V] [OrderBot V] in
theorem get?_withNull (l : Loop V) (writes : List (String × PyVal)) (chan : String) :
    (l.withNull writes).channels.get? chan =
      (l.channels.get? chan).map (Channel.afterNull writes chan) := by
  rw [Loop.withNull, OrdDict.get?_filterMap]
  cases l.channels.get? chan <;> rfl

theorem writesFor_nullTask_nil : writesFor [nullTask []] = writesFor [] := by
  funext chan
  unfold writesFor
  split <;> rfl

omit [OrderBot V] in
/-- The snapshot is taken when the channels take the writes. -/
theorem Loop.shown_returns (l : Loop V) (tasks : List TaskWrites) :
    (∃ l', l.shown p tasks = some l') ↔
      Takes (writesFor (SortBy.sortBy TaskWrites.sortKey tasks)) l.channels := by
  unfold Loop.shown
  cases tasks with
  | nil =>
    refine iff_of_true ⟨l, rfl⟩ fun chan c _ => ?_
    obtain ⟨c', b, hu⟩ := c.update_nil
    exact ⟨b, by rw [SortBy.sortBy_nil, writesFor_nil, hu]⟩
  | cons t tasks =>
    have hreturns := applyWrites_returns l.checkpoint l.channels (t :: tasks) none p.triggerToNodes
    rw [List.isEmpty_cons, if_neg Bool.false_ne_true, ← hreturns]
    match applyWrites l.checkpoint l.channels (t :: tasks) none p.triggerToNodes with
    | (s, .error e) => simp
    | (s, .ok ()) => simp

omit [OrderBot V] in
theorem Loop.shown_nullTasks (l : Loop V) (writes : List (String × PyVal)) :
    ((∃ l', l.shown p (nullTasks writes) = some l') ↔
        Takes (writesFor [nullTask writes]) l.channels) ∧
      ∀ l', l.shown p (nullTasks writes) = some l' →
        ∀ chan, l'.channels.get? chan = (l.withNull writes).channels.get? chan := by
  rw [Loop.shown_returns]
  cases writes with
  | nil =>
    refine ⟨by rw [writesFor_nullTask_nil]; exact Iff.rfl, fun l' h chan => ?_⟩
    cases h
    rw [get?_withNull]
    cases l.channels.get? chan with
    | none => rfl
    | some c => simp [Channel.afterNull, writesFor_nullTask_nil, writesFor_nil]
  | cons w ws =>
    refine ⟨Iff.rfl, fun l' h chan => ?_⟩
    unfold Loop.shown at h
    rw [nullTasks, List.isEmpty_cons, if_neg Bool.false_ne_true, List.isEmpty_cons,
      if_neg Bool.false_ne_true] at h
    match hs : applyWrites l.checkpoint l.channels [nullTask (w :: ws)] none p.triggerToNodes with
    | (s, .error e) =>
      rw [hs] at h
      cases h
    | (s, .ok ()) =>
      rw [hs] at h
      cases h
      rw [get?_withNull]
      exact applyWrites_nullTask_channels hs chan

/-- `get_state` returns when the channels take the pending writes. -/
theorem prepareStateSnapshot_returns (tasks : List Task) :
    prepareStateSnapshot p l info pending = some tasks ↔
      tasks = (l.snapshotTasks p info pending).filter (fun t => t.writes.isEmpty) ∧
        Takes (writesFor [nullTask (nullWrites pending)]) l.channels ∧
        Takes (writesFor (SortBy.sortBy TaskWrites.sortKey
          (((l.snapshotTasks p info pending).filter fun t => !t.writes.isEmpty).map
            Task.toTaskWrites))) (l.withNull (nullWrites pending)).channels := by
  obtain ⟨hreturns, hchannels⟩ := Loop.shown_nullTasks (p := p) l (nullWrites pending)
  unfold prepareStateSnapshot
  dsimp only
  cases hshown : l.shown p (nullTasks (nullWrites pending)) with
  | none =>
    rw [hshown] at hreturns
    refine iff_of_false (fun h => nomatch h) fun h => ?_
    obtain ⟨l', hl'⟩ := hreturns.mpr h.2.1
    cases hl'
  | some l₁ =>
    have htakes : ∀ vals, Takes vals (l.withNull (nullWrites pending)).channels ↔
        Takes vals l₁.channels := by
      intro vals
      unfold Takes
      simp only [hchannels l₁ hshown]
    rw [htakes, ← Loop.shown_returns (p := p), and_iff_right (hreturns.mp ⟨l₁, hshown⟩),
      Option.bind_some, Option.map_eq_some_iff]
    constructor
    · rintro ⟨l₂, h₂, rfl⟩
      exact ⟨rfl, l₂, h₂⟩
    · rintro ⟨rfl, l₂, h₂⟩
      exact ⟨l₂, h₂, rfl⟩

/-- The tasks of the snapshot that are left without writes. -/
theorem mem_prepareStateSnapshot (hw : l.Wired p) (hk : l.Current p)
    (hc : p.builder.compile.Wired) (hhandler : ∀ w ∈ pending, w.channel ≠ Const.ERROR_SOURCE_NODE) :
    tid ∈ ((l.snapshotTasks p info pending).filter fun t => t.writes.isEmpty).map Task.id ↔
      l.Schedules p info.step tid ∧ reapplied pending tid = [] ∧ ¬ Answered pending tid := by
  have hwrites : snapshotWrites pending tid = [] ↔
      reapplied pending tid = [] ∧ ¬ Answered pending tid := by
    unfold snapshotWrites reapplied Answered
    simp only [List.map_eq_nil_iff, List.filter_eq_nil_iff, decide_eq_true_eq, not_and, not_not,
      controlSignals, List.mem_cons, List.not_mem_nil, or_false, not_exists]
    constructor
    · intro h
      refine ⟨fun w hw hid => (h w hw hid).imp_right fun hi => Or.inr (Or.inl hi), ?_⟩
      intro w hw hid hr
      rcases h w hw hid with he | hi
      · exact absurd (hr.symm.trans he) (by decide)
      · exact absurd (hr.symm.trans hi) (by decide)
    · rintro ⟨hdone, hanswer⟩ w hw hid
      rcases hdone w hw hid with he | hs | hi | hr
      · exact Or.inl he
      · exact absurd hs (hhandler w hw)
      · exact Or.inr hi
      · exact absurd hr (hanswer w hw hid)
  rw [Loop.snapshotTasks, prepareNextTasks, mem_ids_unwritten
    (fun t ht => writes_of_mem_nextTaskList ht), Loop.exists_task_iff hw hk hc, hwrites]
  refine and_congr_left fun _ => or_congr_right ?_
  constructor
  · rintro ⟨node, -, h⟩
    exact ⟨node, h⟩
  · rintro ⟨node, h⟩
    exact ⟨node, (h.mem_candidates rfl hw hk none).1, h⟩

/-- The loop that goes on has the channels and the hint of `withNull`. -/
structure Loop.GoesOn (p : Program V) (l l' : Loop V) (writes : List (String × PyVal)) : Prop where
  wired : l'.Wired p
  current : l'.Current p
  id : l'.checkpoint.id = l.checkpoint.id
  channels : ∀ chan, l'.channels.get? chan = (l.withNull writes).channels.get? chan
  unread : ∀ chan c, l.channels.get? chan = some c →
    ∀ node, l'.unread node chan = (l.withNull writes).unread node chan
  named : ∀ node, l'.Named p node ↔ (l.withNull writes).Named p node

theorem Loop.GoesOn.sends {l' : Loop V} {writes : List (String × PyVal)} (h : l.GoesOn p l' writes)
    {step : Int} : l'.Sends p step tid ↔ (l.withNull writes).Sends p step tid := by
  have hpending : pendingSends l'.channels = pendingSends (l.withNull writes).channels := by
    unfold pendingSends
    rw [h.channels]
  unfold Loop.Sends
  rw [hpending, h.id]
  rfl

theorem Loop.GoesOn.pullsAs {l' : Loop V} {writes : List (String × PyVal)} (h : l.GoesOn p l' writes)
    {step : Int} {node : String} :
    l'.PullsAs p step node tid ↔ (l.withNull writes).PullsAs p step node tid := by
  have hdue : ∀ proc, l'.Due node proc ↔ (l.withNull writes).Due node proc := by
    intro proc
    refine exists_congr fun chan => and_congr_right fun _ => ?_
    rw [h.channels]
    refine and_congr_right fun ha => ?_
    obtain ⟨c', hc', -⟩ := (Option.any_eq_true _ _).mp ha
    rw [get?_withNull, Option.map_eq_some_iff] at hc'
    obtain ⟨c, hc, -⟩ := hc'
    rw [h.unread chan c hc]
  have hin : ∀ proc, hasInput proc l'.channels = hasInput proc (l.withNull writes).channels := by
    intro proc
    unfold hasInput
    split
    · rfl
    · rw [h.channels]
  unfold Loop.PullsAs
  simp only [hdue, hin, h.id]
  rfl

omit [OrderBot V] in
/-- What a call with the null task leaves, and when it returns. -/
theorem Loop.apply_nullTask (l : Loop V) (writes : List (String × PyVal)) :
    ((∃ r, l.apply p [nullTask writes] = some r) ↔
        Takes (writesFor [nullTask writes]) l.channels) ∧
      ∀ l' us, l.apply p [nullTask writes] = some (l', us) →
        (∀ chan, l'.channels.get? chan = (l.withNull writes).channels.get? chan) ∧
        ∀ chan c, l.channels.get? chan = some c →
          (∀ node, l'.unread node chan = (l.withNull writes).unread node chan) ∧
            (chan ∈ us ↔ c.nullUpdates writes chan = true) := by
  have hreturns := applyWrites_returns l.checkpoint l.channels [nullTask writes]
    (some p.getNextVersion) p.triggerToNodes
  have hsort : SortBy.sortBy TaskWrites.sortKey [nullTask writes] = [nullTask writes] := rfl
  rw [hsort] at hreturns
  unfold Loop.apply
  match hs : applyWrites l.checkpoint l.channels [nullTask writes] (some p.getNextVersion)
      p.triggerToNodes with
  | (s, .error e) =>
    rw [hs] at hreturns
    refine ⟨iff_of_false (fun ⟨_, hr⟩ => Option.some_ne_none _ hr.symm) fun h => ?_, ?_⟩
    · cases hreturns.mpr h
    · intro l' us h
      cases h
  | (s, .ok ()) =>
    rw [hs] at hreturns
    refine ⟨iff_of_true ⟨_, rfl⟩ (hreturns.mp rfl), ?_⟩
    intro l' us h
    cases h
    refine ⟨fun chan => ?_, fun chan c hc => ?_⟩
    · rw [get?_withNull]
      exact applyWrites_nullTask_channels hs chan
    · have hus := mem_updatedChannels_nullTask hs hc
      refine ⟨fun node => ?_, hus⟩
      -- the null task is triggered by nothing, and updates no channel that it does not write to
      have hnone : ([nullTask writes].any fun t => t.name == node && t.triggers.contains chan) =
          false := by simp [nullTask]
      have hwritten : written [nullTask writes] s.updatedChannels chan =
          !(writesFor [nullTask writes] chan).isEmpty := by
        unfold written
        cases hvals : writesFor [nullTask writes] chan with
        | cons v vals => rfl
        | nil =>
          have hnot : chan ∉ s.updatedChannels := by
            rw [hus, Channel.nullUpdates, hvals]
            exact Bool.false_ne_true
          simpa using hnot
      show (l.unread node chan && !([nullTask writes].any fun t => _) ||
        written [nullTask writes] s.updatedChannels chan) = (l.unread node chan || _)
      rw [hnone, hwritten, Bool.not_false, Bool.and_true]

omit [LinearOrder V] [OrderBot V] in
/-- The hint with the channels that the null task updates. -/
theorem Loop.named_withNull (hne : ∀ us, l.updatedChannels = some us → us ≠ [])
    (writes : List (String × PyVal)) (node : String) : (l.withNull writes).Named p node ↔
      ∀ us, l.updatedChannels = some us → ∃ chan, p.Triggers node chan ∧
        (chan ∈ us ∨ ∃ c, l.channels.get? chan = some c ∧ c.nullUpdates writes chan = true) := by
  have hmem : ∀ us chan, chan ∈ us ++ (l.channels.entries.filter fun e =>
      e.2.nullUpdates writes e.1).map Prod.fst ↔
        chan ∈ us ∨ ∃ c, l.channels.get? chan = some c ∧ c.nullUpdates writes chan = true := by
    intro us chan
    simp only [List.mem_append, List.mem_map, List.mem_filter, OrdDict.get?_eq_some_iff]
    refine or_congr_right ⟨?_, ?_⟩
    · rintro ⟨⟨k, c⟩, ⟨he, hu⟩, rfl⟩
      exact ⟨c, he, hu⟩
    · rintro ⟨c, he, hu⟩
      exact ⟨(chan, c), ⟨he, hu⟩, rfl⟩
  constructor
  · intro h us hus
    obtain ⟨chan, hchan, htrig⟩ := h _ (by rw [Loop.withNull, hus, Option.map_some])
      (fun hnil => hne us hus (List.append_eq_nil_iff.mp hnil).1)
    exact ⟨chan, htrig, (hmem us chan).mp hchan⟩
  · intro h us' hus' _
    obtain ⟨us, hus, rfl⟩ := Option.map_eq_some_iff.mp hus'
    obtain ⟨chan, htrig, hchan⟩ := h us hus
    exact ⟨chan, (hmem us chan).mpr hchan, htrig⟩

theorem Loop.applyNull_goesOn (hg : p.builder.WaitsForSome) (hinc : Increasing p.getNextVersion)
    (hl : l.Wired p ∧ l.SeenBelow p ∧ l.Current p)
    (hne : ∀ us, l.updatedChannels = some us → us ≠ []) (writes : List (String × PyVal)) :
    ((∃ l', l.applyNull p writes = some l') ↔ Takes (writesFor [nullTask writes]) l.channels) ∧
      ∀ l', l.applyNull p writes = some l' → l'.SeenBelow p ∧ l.GoesOn p l' writes := by
  have hI := current_loopInvariant p (p.builder.compile_wired hg) hinc
  unfold Loop.applyNull
  cases writes with
  | nil =>
    have hnone : ∀ chan, writesFor [nullTask []] chan = [] := by
      intro chan
      rw [writesFor_nullTask_nil, writesFor_nil]
    refine ⟨iff_of_true ⟨l, rfl⟩ fun chan c _ => ?_, ?_⟩
    · obtain ⟨c', b, hu⟩ := c.update_nil
      exact ⟨b, by rw [hnone, hu]⟩
    · intro l' h
      cases h
      refine ⟨hl.2.1, hl.1, hl.2.2, rfl, fun chan => ?_, fun chan c hc node => ?_, fun node => ?_⟩
      · rw [get?_withNull]
        cases l.channels.get? chan <;> simp [Channel.afterNull, hnone]
      · simp [Loop.withNull, hnone]
      · rw [Loop.named_withNull hne]
        refine forall₂_congr fun us hus => ?_
        rw [imp_iff_right (hne us hus)]
        refine exists_congr fun chan => ?_
        have hnot : ∀ c : Channel, c.nullUpdates [] chan = false := by
          intro c
          rw [Channel.nullUpdates, hnone]
        simp only [hnot, Bool.false_eq_true, and_false, exists_false, or_false]
        exact and_comm
  | cons w ws =>
    obtain ⟨hreturns, hleft⟩ := Loop.apply_nullTask (p := p) l (w :: ws)
    rw [List.isEmpty_cons, if_neg Bool.false_ne_true]
    refine ⟨?_, ?_⟩
    · rw [← hreturns]
      cases l.apply p [nullTask (w :: ws)] <;> simp
    · intro l' h
      obtain ⟨⟨l₁, us⟩, happly, rfl⟩ := Option.map_eq_some_iff.mp h
      obtain ⟨hw, hs, hk⟩ := hI.command l l₁ (w :: ws) us hl happly
      obtain ⟨hchannels, hupdated⟩ := hleft l₁ us happly
      refine ⟨hs, hw, hk, ?_, hchannels, fun chan c hc => (hupdated chan c hc).1, fun node => ?_⟩
      · exact (Loop.apply_id happly : l₁.checkpoint.id = l.checkpoint.id)
      · rw [Loop.named_withNull hne]
        constructor
        · intro h us₀ hus₀
          have hnil : us₀ ∪ us ≠ [] := by
            obtain ⟨chan, hchan⟩ := List.exists_mem_of_ne_nil _ (hne us₀ hus₀)
            exact List.ne_nil_of_mem (List.mem_union_iff.mpr (Or.inl hchan))
          obtain ⟨chan, hchan, htrig⟩ := h (us₀ ∪ us) (by simp only [hus₀, Option.map_some]) hnil
          obtain ⟨c, -, hc, -⟩ := hl.1 node chan htrig
          exact ⟨chan, htrig, (List.mem_union_iff.mp hchan).imp_right fun hu =>
            ⟨c, hc, (hupdated chan c hc).2.mp hu⟩⟩
        · intro h us' hus' _
          obtain ⟨us₀, hus₀, rfl⟩ := Option.map_eq_some_iff.mp hus'
          obtain ⟨chan, htrig, hchan⟩ := h us₀ hus₀
          exact ⟨chan, List.mem_union_iff.mpr (hchan.imp_right fun ⟨c, hc, hu⟩ =>
            (hupdated chan c hc).2.mpr hu), htrig⟩

/-- The run goes on from a checkpoint with versions, when the channels take the
    writes of the null task. -/
theorem Loop.proceed_goesOn (hg : p.builder.WaitsForSome) (hinc : Increasing p.getNextVersion)
    (hl : l.Wired p ∧ l.SeenBelow p ∧ l.Current p)
    (hne : ∀ us, l.updatedChannels = some us → us ≠ []) (writes : List (String × PyVal)) :
    ((∃ l', l.proceed p writes = some l') ↔ Takes (writesFor [nullTask writes]) l.channels ∧
        l.checkpoint.channelVersions.entries ≠ []) ∧
      ∀ l', l.proceed p writes = some l' → l.GoesOn p l' writes := by
  obtain ⟨hreturns, hleft⟩ := Loop.applyNull_goesOn hg hinc hl hne writes
  have hI := current_loopInvariant p (p.builder.compile_wired hg) hinc
  rw [← hreturns]
  unfold Loop.proceed
  cases happlied : l.applyNull p writes with
  | none => exact ⟨by simp, fun l' h => nomatch h⟩
  | some l₁ =>
    rw [Option.bind_some]
    by_cases hver : l.checkpoint.channelVersions.entries = []
    · simp [hver]
    · rw [if_neg (by simpa using hver)]
      refine ⟨iff_of_true ⟨_, rfl⟩ ⟨⟨l₁, rfl⟩, hver⟩, fun l' h => ?_⟩
      cases h
      obtain ⟨hs₁, h₁⟩ := hleft l₁ happlied
      -- the triggers do not depend on what the interrupts have seen
      obtain ⟨hw, hs⟩ := h₁.wired.withCheckpoint l₁.seeInterrupts.checkpoint
        (fun node chan ht => rfl)
        (fun node chan ht => OrdDict.get?_set_of_ne (p.triggers_ne_interrupt ht) _ _)
      obtain ⟨-, -, hk⟩ := hI.again l₁ l₁.seeInterrupts ⟨h₁.wired, hs₁, h₁.current⟩ hw hs
        fun us₂ h₂ => ⟨us₂, h₂, fun _ => Iff.rfl⟩
      exact ⟨hw, hk, h₁.id, h₁.channels, h₁.unread, h₁.named⟩

theorem mem_tasksToRun (hg : p.builder.WaitsForSome) (hinc : Increasing p.getNextVersion)
    (hl : l.Wired p ∧ l.SeenBelow p ∧ l.Current p)
    (hne : ∀ us, l.updatedChannels = some us → us ≠ []) :
    tid ∈ (l.tasksToRun p info pending).map Task.id ↔
      Takes (writesFor [nullTask (nullWrites pending)]) l.channels ∧
        (l.withNull (nullWrites pending)).Continues p info.step tid ∧ reapplied pending tid = [] := by
  obtain ⟨hsome, hgoes⟩ := Loop.proceed_goesOn hg hinc hl hne (nullWrites pending)
  unfold Loop.tasksToRun
  cases hproceed : l.proceed p (nullWrites pending) with
  | none =>
    rw [hproceed] at hsome
    refine iff_of_false List.not_mem_nil fun h => ?_
    obtain ⟨l', hl'⟩ := hsome.mpr ⟨h.1, h.2.1.1⟩
    cases hl'
  | some l' =>
    obtain ⟨htakes, hver⟩ := hsome.mp ⟨l', hproceed⟩
    have hon := hgoes l' hproceed
    rw [and_iff_right htakes]
    simp only [reapplyWrites, Loop.tasks]
    rw [mem_ids_unwritten (fun t ht => writes_of_mem_nextTaskList ht), Loop.exists_task_iff hon.wired hon.current (p.builder.compile_wired hg), Loop.Continues,
      hon.sends]
    refine and_congr_left fun _ => ?_
    rw [and_iff_right (show (l.withNull (nullWrites pending)).checkpoint.channelVersions.entries ≠ []
      from hver)]
    refine or_congr_right (exists_congr fun node => ?_)
    rw [← hon.pullsAs, ← hon.named]
    constructor
    · rintro ⟨hmem, h⟩
      exact ⟨(h.mem_candidates rfl hon.wired hon.current none).2.mp hmem, h⟩
    · rintro ⟨hnamed, h⟩
      exact ⟨(h.mem_candidates rfl hon.wired hon.current none).2.mpr hnamed, h⟩

/-- Of every checkpoint that a thread may have saved, and any writes pending on it,
    `get_state` names the tasks that the thread goes on with exactly when the writes
    are accepted, answer no task that is left, and schedule what is scheduled. -/
theorem getState_next_iff (p : Program V) (hg : p.builder.WaitsForSome)
    (hinc : Increasing p.getNextVersion) {w : World V}
    (h : Machine.Reachable (step p) (fun _ _ => True) ⟨[], none⟩ w) {idx : Nat} {s : Saved V}
    (hs : w.saved[idx]? = some s) {history : History} {l : Loop V} (hl : s.load p history = some l)
    (info info' : StepInfo) (hstep : info'.step = info.step) (pending : List PendingWrite)
    (hhandler : ∀ w ∈ pending, w.channel ≠ Const.ERROR_SOURCE_NODE) :
    (∃ tasks, prepareStateSnapshot p l info pending = some tasks ∧
        ∀ tid, tid ∈ tasks.map Task.id ↔ tid ∈ (l.tasksToRun p info' pending).map Task.id) ↔
      l.Predicts p info pending := by
  have hc := p.builder.compile_wired hg
  have hI := ((current_loopInvariant p hc hinc).reachable hc h).saved s (List.mem_of_getElem? hs)
    history l hl
  have hne : ∀ us, l.updatedChannels = some us → us ≠ [] := by
    intro us hus hnil
    rw [(Saved.load_eq_some hl).2.2.2, Option.filter_eq_some_iff] at hus
    simp [hnil] at hus
  have hids : ∀ tid, tid ∈ ((l.snapshotTasks p info pending).filter
        fun t => t.writes.isEmpty).map Task.id ↔
      l.Schedules p info.step tid ∧ reapplied pending tid = [] ∧ ¬ Answered pending tid :=
    fun tid => mem_prepareStateSnapshot hI.1 hI.2.2 hc hhandler
  have hrun : ∀ tid, tid ∈ (l.tasksToRun p info' pending).map Task.id ↔
      Takes (writesFor [nullTask (nullWrites pending)]) l.channels ∧
        (l.withNull (nullWrites pending)).Continues p info'.step tid ∧ reapplied pending tid = [] :=
    fun tid => mem_tasksToRun hg hinc hI hne
  constructor
  · rintro ⟨tasks, htasks, hagree⟩
    obtain ⟨rfl, hnull, htaken⟩ := (prepareStateSnapshot_returns tasks).mp htasks
    simp only [hids, hrun, and_iff_right hnull, hstep] at hagree
    refine ⟨hnull, htaken, ?_, ?_, ?_⟩
    · exact fun tid hdone hcont => ((hagree tid).mpr ⟨hcont, hdone⟩).2.2
    · exact fun tid hdone hcont => ((hagree tid).mpr ⟨hcont, hdone⟩).1
    · exact fun tid hdone hsched hanswer => ((hagree tid).mp ⟨hsched, hdone, hanswer⟩).1
  · intro hp
    refine ⟨_, (prepareStateSnapshot_returns _).mpr ⟨rfl, hp.nullTaken, hp.taken⟩, fun tid => ?_⟩
    rw [hids, hrun, and_iff_right hp.nullTaken, hstep]
    constructor
    · exact fun ⟨hsched, hdone, hanswer⟩ => ⟨hp.kept tid hdone hsched hanswer, hdone⟩
    · exact fun ⟨hcont, hdone⟩ =>
        ⟨hp.added tid hdone hcont, hdone, hp.answered tid hdone hcont⟩

end Snapshot

/-- The thread before `A` runs. -/
def beforeA : List Event :=
  [.enter none "0" noHistory, .input (unmanaged (-1)) [(Const.START, .int 5)],
    .putCheckpoint "1" [] true,
    .superstep (unmanaged 0) (fun _ => [(branchTo "A", .none), ("x", .int 5)]) [],
    .putCheckpoint "2" [] true]

/-- The id of the task of `A`. -/
def taskA : String := "A1A" ++ Const.PULL ++ branchTo "A"

/-- The ids that `get_state` gives for the last checkpoint of the thread, and those of
    the tasks that run when it is resumed. -/
def snapshotAndRun (pending : List PendingWrite) : Option (Option (List String) × List String) :=
  (Machine.run (step growingProgram) ⟨[], none⟩ beforeA).bind fun w =>
    w.saved[1]?.bind fun s => (s.load growingProgram noHistory).map fun l =>
      ((prepareStateSnapshot growingProgram l (unmanaged 1) pending).map (·.map Task.id),
        (l.tasksToRun growingProgram (unmanaged 1) pending).map Task.id)

theorem exists_of_snapshotAndRun {pending : List PendingWrite} {shown : Option (List String)}
    {run : List String} (h : snapshotAndRun pending = some (shown, run)) :
    ∃ w s l, Machine.Reachable (step growingProgram) (fun _ _ => True) ⟨[], none⟩ w ∧
      w.saved[1]? = some s ∧ s.load growingProgram noHistory = some l ∧
      (prepareStateSnapshot growingProgram l (unmanaged 1) pending).map (·.map Task.id) = shown ∧
      (l.tasksToRun growingProgram (unmanaged 1) pending).map Task.id = run := by
  obtain ⟨w, hw, h⟩ := Option.bind_eq_some_iff.mp h
  obtain ⟨s, hs, h⟩ := Option.bind_eq_some_iff.mp h
  obtain ⟨l, hl, h⟩ := Option.map_eq_some_iff.mp h
  exact ⟨w, s, l, Machine.Reachable.of_run (meets_true _ _ _) hw, hs, hl, (Prod.mk.inj h).1,
    (Prod.mk.inj h).2⟩

/-- `A` failed, and a command has written to the state. -/
def failedPending : List PendingWrite :=
  [⟨taskA, Const.ERROR, .str "failed"⟩, ⟨Const.NULL_TASK_ID, "x", .int 7⟩]

theorem failedPending_predicts : ∃ w s l,
    Machine.Reachable (step growingProgram) (fun _ _ => True) ⟨[], none⟩ w ∧
    w.saved[1]? = some s ∧ s.load growingProgram noHistory = some l ∧
    l.Predicts growingProgram (unmanaged 1) failedPending := by
  have hboth : snapshotAndRun failedPending = some (some [taskA], [taskA]) := by decide +kernel
  obtain ⟨w, s, l, hw, hs, hl, hshown, hrun⟩ := exists_of_snapshotAndRun hboth
  obtain ⟨tasks, htasks, hids⟩ := Option.map_eq_some_iff.mp hshown
  refine ⟨w, s, l, hw, hs, hl, (getState_next_iff growingProgram (by decide)
    increasing_growingProgram hw hs hl (unmanaged 1) (unmanaged 1) rfl failedPending
    (by decide)).mp ⟨tasks, htasks, fun tid => ?_⟩⟩
  rw [hids, hrun]

/-- `A` was resumed and interrupts again: it runs when the thread is resumed, and
    `get_state` does not name it. Nor does it name a task that a command sends. -/
theorem getState_next_fails :
    (∃ w s l, Machine.Reachable (step growingProgram) (fun _ _ => True) ⟨[], none⟩ w ∧
      w.saved[1]? = some s ∧ s.load growingProgram noHistory = some l ∧
      ∃ pending, (∀ w ∈ pending, w.channel ≠ Const.ERROR_SOURCE_NODE) ∧
        (prepareStateSnapshot growingProgram l (unmanaged 1) pending).map (·.map Task.id) = some [] ∧
        (l.tasksToRun growingProgram (unmanaged 1) pending).map Task.id = [taskA]) ∧
    ∃ w s l, Machine.Reachable (step growingProgram) (fun _ _ => True) ⟨[], none⟩ w ∧
      w.saved[1]? = some s ∧ s.load growingProgram noHistory = some l ∧
      ∃ pending, (∀ w ∈ pending, w.channel ≠ Const.ERROR_SOURCE_NODE) ∧
        (prepareStateSnapshot growingProgram l (unmanaged 1) pending).map (·.map Task.id) =
          some [taskA] ∧
        (l.tasksToRun growingProgram (unmanaged 1) pending).map Task.id =
          ["A1A" ++ Const.PUSH ++ "0", taskA] := by
  have hagain : snapshotAndRun [⟨taskA, Const.INTERRUPT, .none⟩, ⟨taskA, Const.RESUME, .none⟩] =
      some (some [], [taskA]) := by decide +kernel
  have hsend : snapshotAndRun [⟨Const.NULL_TASK_ID, Const.TASKS, .send "A" .none⟩] =
      some (some [taskA], ["A1A" ++ Const.PUSH ++ "0", taskA]) := by decide +kernel
  obtain ⟨w, s, l, hw, hs, hl, hshown, hrun⟩ := exists_of_snapshotAndRun hagain
  obtain ⟨w', s', l', hw', hs', hl', hshown', hrun'⟩ := exists_of_snapshotAndRun hsend
  exact ⟨⟨w, s, l, hw, hs, hl, _, by decide, hshown, hrun⟩,
    ⟨w', s', l', hw', hs', hl', _, by decide, hshown', hrun'⟩⟩

end LangGraph
