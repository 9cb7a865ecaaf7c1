import LangGraph.Savers.Base

/- Checkpoints of a loop: `pregel/_checkpoint.py`.

   Correspondence (source ↔ Lean):
     `empty_checkpoint`, `create_checkpoint`        ↔ `emptyCheckpoint`, `createCheckpoint`
     `delta_channels_to_snapshot`                   ↔ `deltaChannelsToSnapshot`
     `channels_from_checkpoint`                     ↔ `channelsFromCheckpoint`
     `saver.get_delta_channel_history`              ↔ the argument `history`; it answers with no
                                                       entry when there is no saver
     `get_new_channel_versions` (pregel/_utils.py)  ↔ `getNewChannelVersions`
   `create_checkpoint` visits the channels in order and changes nothing of
   another one, so it is given channel by channel (`get?_channelVersions_create`,
   `get?_channelValues_create`). -/
namespace LangGraph

section Checkpointing
variable {V : Type}

def emptyCheckpoint (id : String) : Checkpoint V := ⟨id, ∅, ∅, ∅, none⟩

/-- `DELTA_MAX_SUPERSTEPS_SINCE_SNAPSHOT` -/
def deltaMaxSuperstepsSinceSnapshot : Nat := 5000

def deltaChannelsToSnapshot (channels : OrdDict String Channel)
    (counters : OrdDict String (Nat × Nat)) : List String :=
  channels.entries.filterMap fun e =>
    match e.2.asDelta with
    | none => none
    | some ch =>
      let count := counters.getD e.1 (0, 0)
      if e.2.isAvailable &&
          (ch.snapshotFrequency ≤ count.1 || deltaMaxSuperstepsSinceSnapshot ≤ count.2) then
        some e.1
      else none

/-- The version of a channel in the new checkpoint: a snapshot of a channel that
    the step did not update gets a new one. -/
def snapshotVersion (getNextVersion : Option (GetNextVersion V))
    (updatedChannels : Option (List String)) (toSnapshot : List String) (k : String) (v : V) : V :=
  if k ∈ toSnapshot ∧ (updatedChannels.all fun updated => !updated.contains k) then
    (getNextVersion.map fun g => g (some v)).getD v
  else v

/-- The value of a channel in the new checkpoint. `get` does not raise: a
    `DeltaChannel` that came from a checkpoint holds a value. -/
def snapshotValue (toSnapshot : List String) (k : String) (ch : Channel) : Option PyVal :=
  if k ∈ toSnapshot then ch.get.map .deltaSnapshot else ch.checkpoint

/-- `create_checkpoint`; `none` for the channels keeps the values and the versions. -/
def createCheckpoint (cp : Checkpoint V) (channels : Option (OrdDict String Channel))
    (id : String) (updatedChannels : Option (List String))
    (getNextVersion : Option (GetNextVersion V)) (toSnapshot : List String) : Checkpoint V where
  id := id
  channelValues := match channels with
    | none => cp.channelValues
    | some channels => channels.filterMap fun k ch =>
        if cp.channelVersions.contains k then snapshotValue toSnapshot k ch else none
  channelVersions := match channels with
    | none => cp.channelVersions
    | some channels => cp.channelVersions.filterMap fun k v =>
        some (if channels.contains k then
          snapshotVersion getNextVersion updatedChannels toSnapshot k v else v)
  versionsSeen := cp.versionsSeen
  updatedChannels := updatedChannels.map (SortBy.sortBy fun c => c)

/-- `sanitize_untracked_values_in_send`: a `Send` takes no value of an
    `UntrackedValue` channel into a checkpoint. -/
def sanitizeUntrackedValuesInSend (channels : OrdDict String Channel) : PyVal → PyVal
  | .send node (.dict entries) => .send node (.dict (entries.filter fun e =>
      match e.1 with
      | .str k => !(channels.get? k).any Channel.isUntracked
      | _ => true))
  | v => v

/-- What `_put_checkpoint` does to the `TASKS` value of the new checkpoint. -/
def sanitizeTasks (channels : OrdDict String Channel) (cp : Checkpoint V) : Checkpoint V :=
  match cp.channelValues.get? Const.TASKS with
  | some (.list sends) =>
    if channels.values.any Channel.isUntracked then
      { cp with
        channelValues := cp.channelValues.set Const.TASKS
          (.list (sends.map (sanitizeUntrackedValuesInSend channels))) }
    else cp
  | _ => cp

/-- `get_new_channel_versions` -/
def getNewChannelVersions [LinearOrder V] [OrderBot V] (previous current : OrdDict String V) :
    OrdDict String V :=
  if previous.entries.isEmpty then current
  else current.filterMap fun k v => if previous.getD k ⊥ < v then some v else none

/-- `_needs_replay` -/
def needsReplay (spec : Channel) (stored : Option PyVal) : Bool :=
  spec.asDelta.isSome && stored.isNone

/-- A channel of `channels_from_checkpoint`. -/
def hydrate (histories : OrdDict String DeltaChannelHistory) (k : String) (spec : Channel)
    (stored : Option PyVal) : Except PyErr Channel :=
  match histories.get? k, spec.asDelta with
  | some history, some delta =>
    ((delta.fromCheckpoint history.seed).replayWrites (history.writes.map (·.value))).map
      .deltaChannel
  | _, _ => .ok (spec.fromCheckpoint stored)

/-- The loop over the channels. -/
def hydrateAll (histories : OrdDict String DeltaChannelHistory) (values : OrdDict String PyVal) :
    List (String × Channel) → OrdDict String Channel → Except PyErr (OrdDict String Channel)
  | [], channels => .ok channels
  | (k, spec) :: rest, channels =>
    match hydrate histories k spec (values.get? k) with
    | .error e => .error e
    | .ok ch => hydrateAll histories values rest (channels.set k ch)

/-- `channels_from_checkpoint` -/
def channelsFromCheckpoint (specs : OrdDict String Channel) (cp : Checkpoint V)
    (history : List String → OrdDict String DeltaChannelHistory) :
    Except PyErr (OrdDict String Channel) :=
  let deltaChannels := specs.entries.filterMap fun e =>
    if needsReplay e.2 (cp.channelValues.get? e.1) then some e.1 else none
  let histories := if deltaChannels.isEmpty then ∅ else history deltaChannels
  hydrateAll histories cp.channelValues specs.entries ∅

/-! ## Channel by channel -/

section Create
variable (cp : Checkpoint V) (channels : OrdDict String Channel) (id : String)
  (updatedChannels : Option (List String)) (g : Option (GetNextVersion V))
  (toSnapshot : List String)

theorem get?_channelVersions_create (k : String) :
    (createCheckpoint cp (some channels) id updatedChannels g toSnapshot).channelVersions.get? k =
      (cp.channelVersions.get? k).map fun v =>
        if channels.contains k then snapshotVersion g updatedChannels toSnapshot k v else v := by
  rw [createCheckpoint, OrdDict.get?_filterMap]
  cases cp.channelVersions.get? k <;> rfl

theorem get?_channelValues_create (k : String) :
    (createCheckpoint cp (some channels) id updatedChannels g toSnapshot).channelValues.get? k =
      if cp.channelVersions.contains k then
        (channels.get? k).bind (snapshotValue toSnapshot k) else none := by
  rw [createCheckpoint, OrdDict.get?_filterMap]
  cases channels.get? k with
  | none => simp
  | some ch => simp

end Create

@[simp] theorem channelVersions_sanitizeTasks (channels : OrdDict String Channel)
    (cp : Checkpoint V) : (sanitizeTasks channels cp).channelVersions = cp.channelVersions := by
  unfold sanitizeTasks
  split
  · split <;> rfl
  · rfl

@[simp] theorem versionsSeen_sanitizeTasks (channels : OrdDict String Channel)
    (cp : Checkpoint V) : (sanitizeTasks channels cp).versionsSeen = cp.versionsSeen := by
  unfold sanitizeTasks
  split
  · split <;> rfl
  · rfl

@[simp] theorem updatedChannels_sanitizeTasks (channels : OrdDict String Channel)
    (cp : Checkpoint V) : (sanitizeTasks channels cp).updatedChannels = cp.updatedChannels := by
  unfold sanitizeTasks
  split
  · split <;> rfl
  · rfl

theorem get?_channelValues_sanitizeTasks (channels : OrdDict String Channel) (cp : Checkpoint V)
    {k : String} (h : k ≠ Const.TASKS) :
    (sanitizeTasks channels cp).channelValues.get? k = cp.channelValues.get? k := by
  unfold sanitizeTasks
  split
  · split
    · exact OrdDict.get?_set_of_ne h _ _
    · rfl
  · rfl

/-- The channels that a checkpoint restores, one by one. -/
theorem get?_hydrateAll {histories : OrdDict String DeltaChannelHistory}
    {values : OrdDict String PyVal} {k : String} :
    ∀ {specs : List (String × Channel)} {d channels : OrdDict String Channel},
      (specs.map Prod.fst).Nodup → hydrateAll histories values specs d = .ok channels →
      (∀ spec, (k, spec) ∈ specs → ∃ ch, channels.get? k = some ch ∧
        hydrate histories k spec (values.get? k) = .ok ch) ∧
      (k ∉ specs.map Prod.fst → channels.get? k = d.get? k)
  | [], d, channels, _, h => by
    cases h
    simp
  | (k', spec') :: rest, d, channels, hn, h => by
    obtain ⟨hk', hn⟩ := List.nodup_cons.mp hn
    unfold hydrateAll at h
    match hy : hydrate histories k' spec' (values.get? k') with
    | .error e =>
      rw [hy] at h
      cases h
    | .ok ch =>
      rw [hy] at h
      obtain ⟨hin, hout⟩ := get?_hydrateAll hn h
      refine ⟨?_, ?_⟩
      · intro spec hmem
        rcases List.mem_cons.mp hmem with he | hmem
        · cases he
          exact ⟨ch, by rw [hout hk', OrdDict.get?_set_self], hy⟩
        · exact hin spec hmem
      · intro hk
        have hne : k ≠ k' := fun e => hk (by simp [e])
        have hrest : k ∉ rest.map Prod.fst := fun hm => hk (List.mem_cons_of_mem _ hm)
        rw [hout hrest, OrdDict.get?_set_of_ne hne]

/-- A checkpoint restores the channels of the graph in their order. -/
theorem keys_hydrateAll {histories : OrdDict String DeltaChannelHistory}
    {values : OrdDict String PyVal} :
    ∀ {specs : List (String × Channel)} {d channels : OrdDict String Channel},
      (specs.map Prod.fst).Nodup → (∀ k ∈ specs.map Prod.fst, k ∉ d.keys) →
      hydrateAll histories values specs d = .ok channels →
      channels.keys = d.keys ++ specs.map Prod.fst
  | [], d, channels, _, _, h => by
    cases h
    simp
  | (k', spec') :: rest, d, channels, hn, hd, h => by
    obtain ⟨hk', hn⟩ := List.nodup_cons.mp hn
    have hnew : k' ∉ d.keys := hd k' List.mem_cons_self
    unfold hydrateAll at h
    match hy : hydrate histories k' spec' (values.get? k') with
    | .error e =>
      rw [hy] at h
      cases h
    | .ok ch =>
      rw [hy] at h
      have hkeys : (d.set k' ch).keys = d.keys ++ [k'] := by
        rw [OrdDict.keys_set, if_neg hnew]
      rw [keys_hydrateAll hn ?_ h, hkeys, List.append_assoc]
      · rfl
      · intro k hk hmem
        rw [hkeys, List.mem_append, List.mem_singleton] at hmem
        rcases hmem with hmem | rfl
        · exact hd k (List.mem_cons_of_mem _ hk) hmem
        · exact hk' hk

theorem channelsFromCheckpoint_keys {specs channels : OrdDict String Channel} {cp : Checkpoint V}
    {history : List String → OrdDict String DeltaChannelHistory}
    (h : channelsFromCheckpoint specs cp history = .ok channels) : channels.keys = specs.keys :=
  keys_hydrateAll specs.nodup (fun _ _ => List.not_mem_nil) h

/-- A channel that is no `DeltaChannel` is restored from its stored value. -/
theorem channelsFromCheckpoint_get? {specs channels : OrdDict String Channel} {cp : Checkpoint V}
    {history : List String → OrdDict String DeltaChannelHistory}
    (h : channelsFromCheckpoint specs cp history = .ok channels) {k : String} {spec : Channel}
    (hs : specs.get? k = some spec) (hd : spec.asDelta = none) :
    channels.get? k = some (spec.fromCheckpoint (cp.channelValues.get? k)) := by
  obtain ⟨ch, hch, hy⟩ := (get?_hydrateAll specs.nodup h).1 spec (OrdDict.get?_eq_some_iff.mp hs)
  rw [hch]
  unfold hydrate at hy
  rw [hd] at hy
  split at hy
  · rename_i heq
    cases heq
  · cases hy
    rfl

end Checkpointing
end LangGraph
