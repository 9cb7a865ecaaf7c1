import LangGraph.Savers.Stage1
import LangGraph.Savers.WritesTable

/- `PostgresSaver` (checkpoint-postgres), for one thread and namespace.

   Correspondence (source ↔ Lean):
     tables `checkpoints`, `checkpoint_blobs`, `checkpoint_writes` ↔ the fields of `PostgresSaver`
     `put`, `put_writes`, `get_tuple`               ↔ the functions of these names
     the stage-1 columns `ver_i`, `hs_i`            ↔ `stage1Table`
     `_build_delta_channels_writes_history`         ↔ `buildHistory`
     `get_delta_channel_history`                    ↔ `deltaChannelHistory`
   `put` inlines a primitive value in the checkpoint JSON, stores any other value
   as a blob, and leaves the mark `true` in the JSON for a `_DeltaSnapshot` only.
   Stage 1 tells a seed by its key in the JSON (a key whose value is JSON null
   is present), stage 2 reads its value from the blobs: `SeedsAlike` is what
   that needs of the ancestors (`postgresHistory_eq_default_iff`). -/
namespace LangGraph

structure PostgresCheckpoint (V : Type) where
  parentId : Option String
  /-- The JSONB column; `channelValues` holds what `put` inlines. -/
  checkpoint : Checkpoint V
  metadata : Metadata

structure PostgresSaver (V : Type) where
  checkpoints : OrdDict String (PostgresCheckpoint V)
  blobs : OrdDict (String × V) PyVal
  writes : WritesTable

namespace PostgresSaver
variable {V : Type} [DecidableEq V]

def empty : PostgresSaver V := ⟨∅, ∅, ∅⟩

/-- `v is None or isinstance(v, (str, int, float, bool))` -/
def isPrimitive : PyVal → Bool
  | .none => true
  | .str _ => true
  | .int _ => true
  | .float _ => true
  | .bool _ => true
  | _ => false

/-- What stays of `channel_values` in the checkpoint JSON. -/
def inlineValues (values : OrdDict String PyVal) : OrdDict String PyVal :=
  values.filterMap fun _ v =>
    match v with
    | .deltaSnapshot _ => some (.bool true)
    | v => if isPrimitive v then some v else none

/-- `blob_values` -/
def blobValues (values : OrdDict String PyVal) : OrdDict String PyVal :=
  values.filterMap fun _ v => if isPrimitive v then none else some v

/-- `UPSERT_CHECKPOINT_BLOBS_SQL`: ON CONFLICT DO NOTHING. -/
def insertBlobs (blobs : OrdDict (String × V) PyVal) (rows : List ((String × V) × PyVal)) :
    OrdDict (String × V) PyVal :=
  rows.foldl (fun d e => if d.contains e.1 then d else d.set e.1 e.2) blobs

/-- `put`; on conflict the checkpoint and the metadata are updated. -/
def put (s : PostgresSaver V) (parentId : Option String) (checkpoint : Checkpoint V)
    (metadata : Metadata) (newVersions : OrdDict String V) : PostgresSaver V :=
  let rows := newVersions.entries.filterMap fun e =>
    ((blobValues checkpoint.channelValues).get? e.1).map fun v => (e, v)
  let parentId := match s.checkpoints.get? checkpoint.id with
    | some row => row.parentId
    | none => parentId
  { s with
    blobs := insertBlobs s.blobs rows
    checkpoints := s.checkpoints.set checkpoint.id
      ⟨parentId, { checkpoint with channelValues := inlineValues checkpoint.channelValues },
        metadata⟩ }

def putWrites (s : PostgresSaver V) (id : String) (writes : List (String × PyVal))
    (taskId : String) : PostgresSaver V :=
  { s with writes := s.writes.putWrites id writes taskId }

/-- The `channel_values` column of `SELECT_SQL`: the blobs of the channels' versions. -/
def loadBlobs (s : PostgresSaver V) (versions : OrdDict String V) : OrdDict String PyVal :=
  versions.filterMap fun k ver => s.blobs.get? (k, ver)

def tupleOf (s : PostgresSaver V) (id : String) (row : PostgresCheckpoint V) :
    CheckpointTuple V where
  checkpoint := { row.checkpoint with
    channelValues :=
      row.checkpoint.channelValues.merge (s.loadBlobs row.checkpoint.channelVersions) }
  metadata := row.metadata
  parentId := row.parentId
  pendingWrites := s.writes.pendingAt id

/-- `get_tuple` with a `checkpoint_id` -/
def getTuple (s : PostgresSaver V) (id : String) : Option (CheckpointTuple V) :=
  (s.checkpoints.get? id).map (s.tupleOf id)

/-- `_DELTA_PAGE_SIZE` -/
def deltaPageSize : Nat := 1024

/-- What the stage-1 query selects of a row. -/
def stage1Row (row : PostgresCheckpoint V) : Stage1Row V :=
  ⟨row.parentId, row.checkpoint.channelVersions.get?, row.checkpoint.channelValues.contains⟩

def stage1Table (s : PostgresSaver V) : OrdDict String (Stage1Row V) :=
  s.checkpoints.filterMap fun _ row => some (stage1Row row)

/-- `_build_delta_channels_writes_history` for one channel: the writes are
    collected newest first, then reversed. -/
def buildHistory (s : PostgresSaver V) (ch : String) (chain : List String)
    (seedVersion : Option V) : DeltaChannelHistory :=
  let rows := s.writes.stage2Rows ch chain
  let collected := chain.flatMap fun cid =>
    ((orderByKey (rows.filter fun w => w.1.1 = cid)).reverse).map WriteRow.toPending
  ⟨collected.reverse, seedVersion.bind fun ver => s.blobs.get? (ch, ver)⟩

/-- `get_delta_channel_history` -/
def deltaChannelHistory (s : PostgresSaver V) (target : String) (channels : List String) :
    OrdDict String DeltaChannelHistory :=
  let walks := pagedWalk s.stage1Table deltaPageSize target channels
  OrdDict.tabulate channels fun ch =>
    let walk := walks.getD ch ([], none)
    s.buildHistory ch walk.1 walk.2.join

/-- The default walk over this saver's `get_tuple`. -/
def defaultHistory (s : PostgresSaver V) (target : String) (channels : List String) :
    OrdDict String DeltaChannelHistory :=
  LangGraph.defaultHistory s.getTuple (s.checkpoints.keys.length + 1) target channels

/-! ## Stage 1 over the stored checkpoints -/

section Agreement
variable (s : PostgresSaver V) (target ch : String)

omit [DecidableEq V] in
theorem get?_stage1Table (id : String) :
    s.stage1Table.get? id = (s.checkpoints.get? id).map stage1Row := by
  rw [stage1Table, OrdDict.get?_filterMap]
  cases s.checkpoints.get? id <;> rfl

/-- The proper ancestors of a checkpoint. -/
def ancestors : List (String × PostgresCheckpoint V) :=
  Lineage.walk s.checkpoints.get? (·.parentId) (s.checkpoints.keys.length + 1)
    ((s.checkpoints.get? target).bind (·.parentId))

/-- `put` left the channel in the checkpoint JSON: an inlined value or a mark. -/
def marked (e : String × PostgresCheckpoint V) : Bool := e.2.checkpoint.channelValues.contains ch

/-- The blob of the channel's version at a checkpoint. -/
def blobOf (e : String × PostgresCheckpoint V) : Option PyVal :=
  (e.2.checkpoint.channelVersions.get? ch).bind fun ver => s.blobs.get? (ch, ver)

/-- What `get_tuple` returns for the channel. -/
def rowValue (e : String × PostgresCheckpoint V) : Option PyVal :=
  (s.blobOf ch e).or (e.2.checkpoint.channelValues.get? ch)

/-- Where the override ends a walk, and the seed it decodes there. -/
def stage1Value (e : String × PostgresCheckpoint V) : Option (Option PyVal) :=
  if marked ch e then some (s.blobOf ch e) else none

def rowWrites (e : String × PostgresCheckpoint V) : List PendingWrite :=
  s.writes.writesAt ch e.1

theorem rowValue_of_unmarked {e : String × PostgresCheckpoint V} (h : marked ch e = false) :
    s.rowValue ch e = s.blobOf ch e := by
  have hnone : e.2.checkpoint.channelValues.get? ch = none := by
    simpa [marked, OrdDict.contains] using h
  rw [rowValue, hnone, Option.or_none]

theorem rowValue_of_marked {e : String × PostgresCheckpoint V} (h : marked ch e = true) :
    ∃ v, s.rowValue ch e = some v ∧ (s.blobOf ch e = some v ∨ s.blobOf ch e = none) := by
  obtain ⟨v, hv⟩ := Option.isSome_iff_exists.mp h
  cases hb : s.blobOf ch e with
  | none => exact ⟨v, by rw [rowValue, hb, hv, Option.none_or], Or.inr rfl⟩
  | some b => exact ⟨b, by rw [rowValue, hb, Option.some_or], Or.inl rfl⟩

/-- What the override returns for a channel once stage 1 went over `rows`. -/
def stage1History (rows : List (String × PostgresCheckpoint V)) :
    Option PyVal × List PendingWrite :=
  let h := Lineage.collect (s.stage1Value ch) (s.rowWrites ch) rows
  (h.1.join, h.2)

omit [DecidableEq V] in
theorem stage1Rows_eq (hacyc : Lineage.Acyclic s.checkpoints.get? PostgresCheckpoint.parentId)
    (cursor : Option String) :
    LangGraph.stage1Rows s.stage1Table cursor =
      (Lineage.walk s.checkpoints.get? (·.parentId) (s.checkpoints.keys.length + 1) cursor).map
        fun e => (e.1, stage1Row e.2) := by
  have hkeys : ∀ k, (s.checkpoints.get? k).isSome → k ∈ s.stage1Table.keys := by
    intro k hk
    refine OrdDict.mem_keys_of_isSome k ?_
    rw [get?_stage1Table, Option.isSome_map]
    exact hk
  have hparent : ∀ (_ : String) (row : PostgresCheckpoint V),
      (stage1Row row).parentId = PostgresCheckpoint.parentId row := fun _ _ => rfl
  rw [LangGraph.stage1Rows, Lineage.walk_map s.stage1Table.get? Stage1Row.parentId
    (fun _ row => stage1Row row) s.get?_stage1Table hparent]
  congr 1
  rw [← Lineage.walk_of_le hacyc hkeys (n := s.stage1Table.keys.length + 1 +
      (s.checkpoints.keys.length + 1)) (by omega),
    Lineage.walk_of_le hacyc (fun k => OrdDict.mem_keys_of_isSome k)
      (n := s.stage1Table.keys.length + 1 + (s.checkpoints.keys.length + 1)) (by omega)]

theorem buildHistory_eq (chain : List String) (seedVersion : Option V) :
    s.buildHistory ch chain seedVersion =
      ⟨chain.reverse.flatMap (s.writes.writesAt ch),
        seedVersion.bind fun ver => s.blobs.get? (ch, ver)⟩ := by
  rw [← WritesTable.chainWrites_stage2Rows, chainWrites, buildHistory]
  simp only [List.reverse_flatMap]
  congr 1
  refine List.flatMap_congr ?_
  intro cid _
  simp [List.map_reverse]

omit [DecidableEq V] in
theorem stage1Value_stage1Row (e : String × PostgresCheckpoint V) :
    LangGraph.stage1Value ch (e.1, stage1Row e.2) =
      if marked ch e then some (e.2.checkpoint.channelVersions.get? ch) else none := rfl

omit [DecidableEq V] in
theorem upto_stage1Row (value : String × PostgresCheckpoint V → Option (Option PyVal))
    (hvalue : ∀ e, (value e).isSome = marked ch e) :
    ∀ rows : List (String × PostgresCheckpoint V),
      (Lineage.upto (LangGraph.stage1Value ch) (rows.map fun e => (e.1, stage1Row e.2))).map
        Prod.fst = (Lineage.upto value rows).map Prod.fst
  | [] => rfl
  | e :: rest => by
    have hv := hvalue e
    rw [List.map_cons, Lineage.upto, Lineage.upto, stage1Value_stage1Row]
    cases hm : marked ch e with
    | true =>
      rw [hm] at hv
      simp [hv]
    | false =>
      rw [hm] at hv
      have ih := upto_stage1Row value hvalue rest
      simp [hv, ih]

theorem seed_stage1Row : ∀ rows : List (String × PostgresCheckpoint V),
    ((Lineage.collect (LangGraph.stage1Value ch) (fun _ => ([] : List Unit))
        (rows.map fun e => (e.1, stage1Row e.2))).1.join.bind fun ver => s.blobs.get? (ch, ver)) =
      (Lineage.collect (s.stage1Value ch) (s.rowWrites ch) rows).1.join
  | [] => rfl
  | e :: rest => by
    have hrow := stage1Value_stage1Row ch e
    rw [List.map_cons]
    cases hm : marked ch e with
    | true =>
      have hv : s.stage1Value ch e = some (s.blobOf ch e) := by rw [stage1Value, if_pos hm]
      rw [hm, if_pos rfl] at hrow
      rw [Lineage.collect_cons_some hrow, Lineage.collect_cons_some hv]
      rfl
    | false =>
      have hv : s.stage1Value ch e = none := by rw [stage1Value, if_neg (by simp [hm])]
      rw [hm, if_neg (by simp)] at hrow
      rw [Lineage.collect_cons_none hrow, Lineage.collect_cons_none hv]
      exact seed_stage1Row rest

/-- Stage 2, over what the plain walk of stage 1 finds. -/
theorem buildHistory_plain (hacyc : Lineage.Acyclic s.checkpoints.get? PostgresCheckpoint.parentId)
    (cursor : Option String) :
    s.buildHistory ch (stage1Chain s.stage1Table ch cursor)
        (stage1Seed s.stage1Table ch cursor).join =
      toHistory (s.stage1History ch (Lineage.walk s.checkpoints.get? (·.parentId)
        (s.checkpoints.keys.length + 1) cursor)) := by
  have hchain := upto_stage1Row ch (s.stage1Value ch) (fun e => by
    rw [stage1Value]
    cases marked ch e <;> rfl)
  rw [buildHistory_eq, stage1Chain, stage1Seed, s.stage1Rows_eq hacyc, hchain, seed_stage1Row,
    toHistory, stage1History, Lineage.collect_snd, ← List.map_reverse, List.flatMap_map]
  rfl

theorem deltaChannelHistory_spec
    (hacyc : Lineage.Acyclic s.checkpoints.get? PostgresCheckpoint.parentId)
    (channels : List String) :
    s.deltaChannelHistory target channels =
      OrdDict.tabulate channels fun ch =>
        toHistory
          (if TargetOnFirstPage s.stage1Table deltaPageSize target then
            s.stage1History ch (s.ancestors target)
          else (none, [])) := by
  have hacyc' : Lineage.Acyclic s.stage1Table.get? Stage1Row.parentId := by
    obtain ⟨rank, hr⟩ := hacyc
    refine ⟨rank, ?_⟩
    intro k r p hk hp hs
    rw [get?_stage1Table, Option.map_eq_some_iff] at hk
    obtain ⟨row, hrow, rfl⟩ := hk
    rw [get?_stage1Table, Option.isSome_map] at hs
    exact hr k row p hrow hp hs
  have hparent : (s.stage1Table.get? target).bind (·.parentId) =
      (s.checkpoints.get? target).bind (·.parentId) := by
    rw [get?_stage1Table]
    cases s.checkpoints.get? target <;> rfl
  unfold deltaChannelHistory
  rw [OrdDict.tabulate_eq_iff, pagedWalk_spec hacyc' (by decide)]
  intro ch hch
  simp only [OrdDict.getD, OrdDict.get?_tabulate, if_pos hch, Option.getD_some, hparent]
  by_cases htarget : TargetOnFirstPage s.stage1Table deltaPageSize target
  · rw [if_pos htarget, if_pos htarget]
    exact s.buildHistory_plain ch hacyc _
  · rw [if_neg htarget, if_neg htarget, buildHistory_eq]
    rfl

theorem defaultHistory_eq (channels : List String) :
    s.defaultHistory target channels =
      OrdDict.tabulate channels fun ch =>
        toHistory (Lineage.collect (s.rowValue ch) (s.rowWrites ch) (s.ancestors target)) := by
  unfold defaultHistory
  rw [defaultHistory_spec, OrdDict.tabulate_eq_iff]
  intro ch _
  have hwalk := Lineage.walk_map s.getTuple (·.parentId) s.tupleOf (fun _ => rfl) (fun _ _ => rfl)
    (s.checkpoints.keys.length + 1) ((s.checkpoints.get? target).bind (·.parentId))
  have hp : (s.getTuple target).bind (·.parentId) =
      (s.checkpoints.get? target).bind (·.parentId) := by
    unfold getTuple
    cases s.checkpoints.get? target <;> rfl
  rw [hp, tupleWalk, hwalk, Lineage.collect_map]
  congr 1
  refine Lineage.collect_congr ?_ (fun _ _ => rfl)
  intro e _
  change (e.2.checkpoint.channelValues.merge (s.loadBlobs e.2.checkpoint.channelVersions)).get? ch =
    s.rowValue ch e
  rw [OrdDict.get?_merge, loadBlobs, OrdDict.get?_filterMap]
  rfl

/-- The seed of a walk that went past a blob `v` that has no mark is `v` again,
    and there is no write on the way. -/
def SameSeedBelow (v : PyVal) : List (String × PostgresCheckpoint V) → Prop
  | [] => False
  | e :: rest =>
    s.rowWrites ch e = [] ∧
      if marked ch e then s.blobOf ch e = some v else SameSeedBelow v rest

/-- The first ancestor that holds a value of the channel has its mark, and the
    value is a blob (or the marked blob further down is the same). -/
def SeedsAlike : List (String × PostgresCheckpoint V) → Prop
  | [] => True
  | e :: rest =>
    if marked ch e then (s.blobOf ch e).isSome = true
    else match s.blobOf ch e with
      | none => SeedsAlike rest
      | some v => s.SameSeedBelow ch v rest

theorem sameSeedBelow_iff (v : PyVal) : ∀ rows : List (String × PostgresCheckpoint V),
    s.stage1History ch rows = (some v, []) ↔ s.SameSeedBelow ch v rows
  | [] => by simp [stage1History, SameSeedBelow]
  | e :: rest => by
    cases hm : marked ch e with
    | true =>
      have hv : s.stage1Value ch e = some (s.blobOf ch e) := by rw [stage1Value, if_pos hm]
      simp [stage1History, SameSeedBelow, hm, Lineage.collect_cons_some hv, and_comm]
    | false =>
      have hv : s.stage1Value ch e = none := by rw [stage1Value, if_neg (by simp [hm])]
      have ih := sameSeedBelow_iff v rest
      simp only [stage1History, Prod.mk.injEq] at ih
      simp [stage1History, SameSeedBelow, hm, Lineage.collect_cons_none hv, ← ih]
      tauto

theorem seedsAlike_iff : ∀ rows : List (String × PostgresCheckpoint V),
    s.stage1History ch rows = Lineage.collect (s.rowValue ch) (s.rowWrites ch) rows ↔
      s.SeedsAlike ch rows
  | [] => by simp [stage1History, SeedsAlike]
  | e :: rest => by
    cases hm : marked ch e with
    | true =>
      have hv : s.stage1Value ch e = some (s.blobOf ch e) := by rw [stage1Value, if_pos hm]
      obtain ⟨v, hrow, hb⟩ := s.rowValue_of_marked ch hm
      rw [SeedsAlike, if_pos hm, stage1History, Lineage.collect_cons_some hv,
        Lineage.collect_cons_some hrow]
      rcases hb with hb | hb <;> simp [hb]
    | false =>
      have hv : s.stage1Value ch e = none := by rw [stage1Value, if_neg (by simp [hm])]
      have hrow := s.rowValue_of_unmarked ch hm
      rw [SeedsAlike, if_neg (by simp [hm]), stage1History, Lineage.collect_cons_none hv]
      cases hb : s.blobOf ch e with
      | none =>
        rw [Lineage.collect_cons_none (hrow.trans hb), ← seedsAlike_iff rest]
        simp [stage1History, Prod.ext_iff]
      | some v =>
        rw [Lineage.collect_cons_some (hrow.trans hb)]
        simp only
        rw [← sameSeedBelow_iff]
        simp [stage1History, Prod.ext_iff]

/-- The walk of every channel finds its seed where the default walk does; when the
    first page does not have the target, there is nothing to find. -/
def StoredForHistory (channels : List String) : Prop :=
  ∀ ch ∈ channels,
    if TargetOnFirstPage s.stage1Table deltaPageSize target then
      s.SeedsAlike ch (s.ancestors target)
    else ∀ e ∈ Lineage.upto (s.rowValue ch) (s.ancestors target),
      s.rowValue ch e = none ∧ s.rowWrites ch e = []

/-- The override returns what the default walk returns exactly on such stores. -/
theorem postgresHistory_eq_default_iff
    (hacyc : Lineage.Acyclic s.checkpoints.get? PostgresCheckpoint.parentId)
    (channels : List String) :
    s.deltaChannelHistory target channels = s.defaultHistory target channels ↔
      s.StoredForHistory target channels := by
  unfold StoredForHistory
  rw [s.deltaChannelHistory_spec target hacyc, defaultHistory_eq, OrdDict.tabulate_eq_iff]
  refine forall₂_congr fun ch _ => ?_
  rw [toHistory_inj]
  by_cases htarget : TargetOnFirstPage s.stage1Table deltaPageSize target
  · rw [if_pos htarget, if_pos htarget]
    exact s.seedsAlike_iff ch _
  · rw [if_neg htarget, if_neg htarget, eq_comm]
    exact Lineage.collect_eq_nil_iff _

end Agreement

end PostgresSaver

/-- A channel that held a plain list at checkpoint "1", and nothing since. -/
def plainSeedStore : PostgresSaver ℕ :=
  let c1 : Checkpoint ℕ :=
    ⟨"1", OrdDict.ofList [("log", .list [.str "a"])], OrdDict.ofList [("log", 1)], ∅, none⟩
  let s := PostgresSaver.empty.put none c1 ⟨"loop", 0, ∅⟩ c1.channelVersions
  let c2 : Checkpoint ℕ := ⟨"2", ∅, OrdDict.ofList [("log", 2)], ∅, none⟩
  s.put (some "1") c2 ⟨"loop", 1, ∅⟩ c2.channelVersions

/-- The same with a snapshot at checkpoint "1" and a write above it. -/
def snapshotSeedStore : PostgresSaver ℕ :=
  let c1 : Checkpoint ℕ :=
    ⟨"1", OrdDict.ofList [("log", .deltaSnapshot (.list [.str "a"]))], OrdDict.ofList [("log", 1)],
      ∅, none⟩
  let s := PostgresSaver.empty.put none c1 ⟨"loop", 0, ∅⟩ c1.channelVersions
  let s := s.putWrites "1" [("log", .str "b")] "task"
  let c2 : Checkpoint ℕ := ⟨"2", ∅, OrdDict.ofList [("log", 2)], ∅, none⟩
  s.put (some "1") c2 ⟨"loop", 1, ∅⟩ c2.channelVersions

theorem snapshotSeedStore_acyclic :
    Lineage.Acyclic snapshotSeedStore.checkpoints.get? PostgresCheckpoint.parentId := by
  refine ⟨fun k => if k = "2" then 1 else 0, ?_⟩
  intro k r p hk hp _
  have hmem := OrdDict.get?_eq_some_iff.mp hk
  have hkeys : ∀ e ∈ snapshotSeedStore.checkpoints.entries,
      e.2.parentId = none ∨ (e.1 = "2" ∧ e.2.parentId = some "1") := by decide
  rcases hkeys (k, r) hmem with h | ⟨rfl, h⟩
  · cases hp.symm.trans h
  · cases hp.symm.trans h
    decide

/-- The snapshot and the write above it are what both walks return. -/
theorem snapshotSeedStore_history :
    snapshotSeedStore.deltaChannelHistory "2" ["log"] =
      snapshotSeedStore.defaultHistory "2" ["log"] :=
  (PostgresSaver.postgresHistory_eq_default_iff snapshotSeedStore "2" snapshotSeedStore_acyclic
    ["log"]).mpr (by
      intro ch hch
      cases List.mem_singleton.mp hch
      rw [if_pos (by decide)]
      have hrows : snapshotSeedStore.ancestors "2" =
          [("1", ⟨none, ⟨"1", OrdDict.ofList [("log", .bool true)], OrdDict.ofList [("log", 1)],
            ∅, none⟩, ⟨"loop", 0, ∅⟩⟩)] := rfl
      rw [hrows, PostgresSaver.SeedsAlike, if_pos (by decide)]
      rfl)

/-- On `plainSeedStore` the override misses the plain value, which the default
    walk returns as the seed. -/
theorem plainSeedStore_history :
    plainSeedStore.deltaChannelHistory "2" ["log"] ≠ plainSeedStore.defaultHistory "2" ["log"] := by
  decide

end LangGraph
