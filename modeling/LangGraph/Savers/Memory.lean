import LangGraph.Savers.Base

/- `InMemorySaver` (checkpoint/memory/__init__.py), for one thread and namespace.

   Correspondence (source ↔ Lean):
     `self.storage[thread][ns]`                     ↔ `InMemorySaver.storage`
     `self.writes[(thread, ns, id)]`                ↔ `InMemorySaver.writes`, under `id`
     `self.blobs[(thread, ns, channel, version)]`   ↔ `InMemorySaver.blobs`; `("empty", b"")` ↔ `none`
     `put`, `put_writes`, `get_tuple`, `_load_blobs` ↔ the functions of these names
     `get_delta_channel_history`                    ↔ `deltaChannelHistory`
   Serialisation is the identity. `deltaChannelHistory_spec` reads the override
   as a `collect`; `deltaChannelHistory_eq_default_iff` says on which stores it
   returns what the default walk over `get_tuple` returns. -/
namespace LangGraph

structure StoredCheckpoint (V : Type) where
  checkpoint : Checkpoint V
  metadata : Metadata
  parentId : Option String

structure StoredWrite where
  taskId : String
  channel : String
  value : PyVal
  taskPath : String
  deriving DecidableEq

structure InMemorySaver (V : Type) where
  storage : OrdDict String (StoredCheckpoint V)
  writes : OrdDict String (OrdDict WriteKey StoredWrite)
  blobs : OrdDict (String × V) (Option PyVal)

namespace InMemorySaver
variable {V : Type} [DecidableEq V]

def empty : InMemorySaver V := ⟨∅, ∅, ∅⟩

/-- `_load_blobs` -/
def loadBlobs (s : InMemorySaver V) (versions : OrdDict String V) : OrdDict String PyVal :=
  versions.filterMap fun k ver => (s.blobs.get? (k, ver)).join

def StoredWrite.toPending (w : StoredWrite) : PendingWrite := ⟨w.taskId, w.channel, w.value⟩

/-- `self.writes[(thread_id, checkpoint_ns, checkpoint_id)]` -/
def writesAt (s : InMemorySaver V) (id : String) : OrdDict WriteKey StoredWrite :=
  s.writes.getD id ∅

def tupleOf (s : InMemorySaver V) (id : String) (row : StoredCheckpoint V) : CheckpointTuple V where
  checkpoint := { row.checkpoint with
    channelValues := s.loadBlobs row.checkpoint.channelVersions }
  metadata := row.metadata
  parentId := row.parentId
  pendingWrites := (s.writesAt id).values.map StoredWrite.toPending

/-- `get_tuple` with a `checkpoint_id` -/
def getTuple (s : InMemorySaver V) (id : String) : Option (CheckpointTuple V) :=
  (s.storage.get? id).map (s.tupleOf id)

/-- `max(checkpoints.keys())` -/
def latestId (s : InMemorySaver V) : Option String := s.storage.keys.max?

/-- `get_tuple` without a `checkpoint_id` -/
def getLatestTuple (s : InMemorySaver V) : Option (String × CheckpointTuple V) :=
  s.latestId.bind fun id => (s.getTuple id).map (id, ·)

/-- The blobs that `put` writes: for every new version the channel's value, or "empty". -/
def putBlobs (s : InMemorySaver V) (values : OrdDict String PyVal)
    (newVersions : OrdDict String V) : OrdDict (String × V) (Option PyVal) :=
  s.blobs.setAll (newVersions.entries.map fun e => (e, values.get? e.1))

/-- `put`; `parentId` is the `checkpoint_id` of the config. -/
def put (s : InMemorySaver V) (parentId : Option String) (checkpoint : Checkpoint V)
    (metadata : Metadata) (newVersions : OrdDict String V) : InMemorySaver V :=
  { s with
    blobs := s.putBlobs checkpoint.channelValues newVersions
    storage := s.storage.set checkpoint.id
      ⟨{ checkpoint with channelValues := ∅ }, metadata, parentId⟩ }

/-- The loop of `put_writes`: an index ≥ 0 that is present is kept, a special
    index is always assigned. -/
def putWritesLoop (taskId taskPath : String) :
    Nat → List (String × PyVal) → OrdDict WriteKey StoredWrite → OrdDict WriteKey StoredWrite
  | _, [], d => d
  | idx, (c, v) :: rest, d =>
    let key := (taskId, writeIdx c idx)
    if 0 ≤ key.2 ∧ d.contains key = true then putWritesLoop taskId taskPath (idx + 1) rest d
    else putWritesLoop taskId taskPath (idx + 1) rest (d.set key ⟨taskId, c, v, taskPath⟩)

/-- `put_writes` at checkpoint `id`. -/
def putWrites (s : InMemorySaver V) (id : String) (writes : List (String × PyVal))
    (taskId : String) (taskPath : String) : InMemorySaver V :=
  { s with writes := s.writes.set id (putWritesLoop taskId taskPath 0 writes (s.writesAt id)) }

/-- The value the override finds for a channel at a checkpoint: the blob of the
    channel's version, unless it is missing or empty. -/
def blobValue (s : InMemorySaver V) (row : StoredCheckpoint V) (ch : String) : Option PyVal :=
  (row.checkpoint.channelVersions.get? ch).bind fun ver => (s.blobs.get? (ch, ver)).join

/-- `sorted(step_writes.items())` -/
def sortedWritesAt (s : InMemorySaver V) (id : String) : List StoredWrite :=
  (SortBy.sortBy (fun e : WriteKey × StoredWrite => toLex e.1) (s.writesAt id).entries).map
    Prod.snd

/-- `blob_value is not None and not isinstance(blob_value, _DeltaSnapshot)` -/
def isPlainSeed : Option PyVal → Bool
  | none => false
  | some .none => false
  | some (.deltaSnapshot _) => false
  | some _ => true

/-- The first loop of the override: the ids along the parent links. -/
def chain (s : InMemorySaver V) : Nat → Option String → List String
  | 0, _ => []
  | _ + 1, none => []
  | n + 1, some current =>
    match s.storage.get? current with
    | none => []
    | some row => current :: chain s n row.parentId

/-- The second loop of the override, over the chain. -/
def visitChain (s : InMemorySaver V) : List String → HistoryWalk → HistoryWalk
  | [], st => st
  | cpId :: rest, st =>
    if st.remaining.isEmpty then st
    else
      match s.storage.get? cpId with
      | none => visitChain s rest st
      | some row =>
        let kept := (s.sortedWritesAt cpId).reverse.filter fun w =>
          !isPlainSeed (s.blobValue row w.channel)
        let st := st.collectWrites (kept.map StoredWrite.toPending)
        visitChain s rest (st.takeSeeds (s.blobValue row))

/-- `get_delta_channel_history` -/
def deltaChannelHistory (s : InMemorySaver V) (target : String) (channels : List String) :
    OrdDict String DeltaChannelHistory :=
  let ids := s.chain (s.storage.keys.length + 1) ((s.storage.get? target).bind (·.parentId))
  (s.visitChain ids (HistoryWalk.init channels)).result channels

/-- The default walk over this saver's `get_tuple`. -/
def defaultHistory (s : InMemorySaver V) (target : String) (channels : List String) :
    OrdDict String DeltaChannelHistory :=
  LangGraph.defaultHistory s.getTuple (s.storage.keys.length + 1) target channels

/-! ## The override as a collect -/

/-- The stored checkpoints along the parent links. -/
abbrev rowWalk (s : InMemorySaver V) (fuel : Nat) (cursor : Option String) :
    List (String × StoredCheckpoint V) :=
  Lineage.walk s.storage.get? (·.parentId) fuel cursor

/-- The proper ancestors of a checkpoint. -/
def ancestors (s : InMemorySaver V) (target : String) : List (String × StoredCheckpoint V) :=
  s.rowWalk (s.storage.keys.length + 1) ((s.storage.get? target).bind (·.parentId))

def rowValue (s : InMemorySaver V) (ch : String) (e : String × StoredCheckpoint V) :
    Option PyVal :=
  s.blobValue e.2 ch

/-- The writes to `ch` at a checkpoint in `(task_id, idx)` order. -/
def writesInKeyOrder (s : InMemorySaver V) (ch : String) (id : String) : List PendingWrite :=
  writesTo ch ((s.sortedWritesAt id).map StoredWrite.toPending)

/-- The writes to `ch` at a checkpoint in the order `put_writes` stored them. -/
def writesInStoredOrder (s : InMemorySaver V) (ch : String) (id : String) : List PendingWrite :=
  writesTo ch ((s.writesAt id).values.map StoredWrite.toPending)

/-- What the override takes from a checkpoint: none of its writes when the
    checkpoint holds a plain value. -/
def rowWrites (s : InMemorySaver V) (ch : String) (e : String × StoredCheckpoint V) :
    List PendingWrite :=
  if isPlainSeed (s.rowValue ch e) then [] else s.writesInKeyOrder ch e.1

omit [DecidableEq V] in
theorem chain_eq_walk (s : InMemorySaver V) : ∀ (fuel : Nat) (cursor : Option String),
    s.chain fuel cursor = (s.rowWalk fuel cursor).map Prod.fst
  | 0, _ => rfl
  | _ + 1, none => rfl
  | n + 1, some c => by
    cases h : s.storage.get? c with
    | none => simp [chain, rowWalk, Lineage.walk, h]
    | some row =>
      simp only [chain, h, rowWalk, Lineage.walk_succ_some h, List.map_cons]
      rw [chain_eq_walk s n row.parentId]

/-- The writes to one channel that a visited checkpoint contributes. -/
theorem writesTo_kept (s : InMemorySaver V) (ch cpId : String) (row : StoredCheckpoint V) :
    writesTo ch (((s.sortedWritesAt cpId).reverse.filter fun w =>
        !isPlainSeed (s.blobValue row w.channel)).map StoredWrite.toPending) =
      (s.rowWrites ch (cpId, row)).reverse := by
  unfold rowWrites writesInKeyOrder writesTo rowValue
  simp only
  generalize s.sortedWritesAt cpId = l
  rw [List.filter_reverse, List.map_reverse, List.filter_reverse]
  by_cases hp : isPlainSeed (s.blobValue row ch) = true
  · rw [if_pos hp]
    simp only [List.reverse_nil, List.reverse_eq_nil_iff, List.filter_eq_nil_iff, List.mem_map,
      List.mem_filter, Bool.not_eq_true', forall_exists_index, and_imp]
    intro p w _ hkeep hwp hch
    have : w.channel = ch := by
      rw [← hwp] at hch
      exact of_decide_eq_true hch
    rw [this, hp] at hkeep
    exact absurd hkeep (by simp)
  · rw [if_neg hp]
    congr 1
    induction l with
    | nil => rfl
    | cons w l ih =>
      by_cases hw : w.channel = ch
      · have hkeep : (!isPlainSeed (s.blobValue row w.channel)) = true := by
          rw [hw]
          simpa using hp
        simp only [List.filter_cons, hkeep, if_true, List.map_cons]
        rw [ih]
      · have hne : (StoredWrite.toPending w).channel ≠ ch := hw
        by_cases hkeep : (!isPlainSeed (s.blobValue row w.channel)) = true
        · simp only [List.filter_cons, hkeep, if_true, List.map_cons, hne, decide_false,
            Bool.false_eq_true, if_false]
          exact ih
        · simp only [List.filter_cons, hkeep, if_false, List.map_cons, hne, decide_false,
            Bool.false_eq_true]
          exact ih

theorem visitChain_done (s : InMemorySaver V) {ch : String} :
    ∀ {ids : List String} {st : HistoryWalk}, ch ∉ st.remaining →
      (s.visitChain ids st).collectedByCh.getD ch [] = st.collectedByCh.getD ch [] ∧
        (s.visitChain ids st).seedByCh.get? ch = st.seedByCh.get? ch
  | [], _, _ => ⟨rfl, rfl⟩
  | cpId :: rest, st, h => by
    unfold visitChain
    split
    · exact ⟨rfl, rfl⟩
    · split
      · exact visitChain_done s h
      · rename_i row hrow
        obtain ⟨h₁, h₂, h₃⟩ := HistoryWalk.visit_done h
          (((s.sortedWritesAt cpId).reverse.filter fun w =>
            !isPlainSeed (s.blobValue row w.channel)).map StoredWrite.toPending) (s.blobValue row)
        obtain ⟨hc, hs⟩ := visitChain_done s h₁
        exact ⟨hc.trans h₂, hs.trans h₃⟩

theorem visitChain_spec (s : InMemorySaver V) {ch : String} :
    ∀ {rows : List (String × StoredCheckpoint V)} {st : HistoryWalk},
      (∀ e ∈ rows, s.storage.get? e.1 = some e.2) → ch ∈ st.remaining →
      st.seedByCh.get? ch = none →
      (s.visitChain (rows.map Prod.fst) st).collectedByCh.getD ch [] =
          st.collectedByCh.getD ch [] ++
            (Lineage.collect (s.rowValue ch) (s.rowWrites ch) rows).2.reverse ∧
        (s.visitChain (rows.map Prod.fst) st).seedByCh.get? ch =
          (Lineage.collect (s.rowValue ch) (s.rowWrites ch) rows).1
  | [], _, _, _, hs => ⟨by simp [visitChain], by simp [visitChain, hs]⟩
  | (cpId, row) :: rest, st, hrows, h, hs => by
    have hne : st.remaining.isEmpty = false := by
      cases hr : st.remaining with
      | nil => simp [hr] at h
      | cons _ _ => rfl
    have hrow : s.storage.get? cpId = some row := hrows _ (List.mem_cons_self ..)
    have hrest : ∀ e ∈ rest, s.storage.get? e.1 = some e.2 :=
      fun e he => hrows e (List.mem_cons_of_mem _ he)
    simp only [List.map_cons, visitChain, hne, hrow, Bool.false_eq_true, if_false]
    cases hv : s.rowValue ch (cpId, row) with
    | some v =>
      have hv' : s.blobValue row ch = some v := hv
      have hout : ch ∉ ((st.collectWrites (((s.sortedWritesAt cpId).reverse.filter fun w =>
          !isPlainSeed (s.blobValue row w.channel)).map StoredWrite.toPending)).takeSeeds
            (s.blobValue row)).remaining := by
        rw [HistoryWalk.mem_remaining_takeSeeds, hv']
        simp
      obtain ⟨hc, hd⟩ := visitChain_done s hout
      rw [Lineage.collect_cons_some hv, hc, hd, HistoryWalk.collectedByCh_takeSeeds,
        HistoryWalk.collected_collectWrites, if_pos h, writesTo_kept, HistoryWalk.seed_takeSeeds,
        hv']
      simp [h]
    | none =>
      have hv' : s.blobValue row ch = none := hv
      have hin : ch ∈ ((st.collectWrites (((s.sortedWritesAt cpId).reverse.filter fun w =>
          !isPlainSeed (s.blobValue row w.channel)).map StoredWrite.toPending)).takeSeeds
            (s.blobValue row)).remaining :=
        HistoryWalk.mem_remaining_takeSeeds.mpr ⟨h, hv'⟩
      obtain ⟨hc, hd⟩ := visitChain_spec s hrest hin
        (by rw [HistoryWalk.seed_takeSeeds, hv']; simpa using hs)
      rw [Lineage.collect_cons_none hv, hc, hd, HistoryWalk.collectedByCh_takeSeeds,
        HistoryWalk.collected_collectWrites, if_pos h, writesTo_kept]
      simp [List.append_assoc]

theorem deltaChannelHistory_spec (s : InMemorySaver V) (target : String)
    (channels : List String) :
    s.deltaChannelHistory target channels =
      OrdDict.tabulate channels fun ch =>
        toHistory (Lineage.collect (s.rowValue ch) (s.rowWrites ch) (s.ancestors target)) := by
  unfold deltaChannelHistory HistoryWalk.result
  rw [OrdDict.tabulate_eq_iff, chain_eq_walk]
  intro ch hch
  have hrem : ch ∈ (HistoryWalk.init channels).remaining := List.mem_dedup.mpr hch
  have hrows : ∀ e ∈ s.rowWalk (s.storage.keys.length + 1)
      ((s.storage.get? target).bind (·.parentId)), s.storage.get? e.1 = some e.2 :=
    fun e he => Lineage.lookup_of_mem_walk he
  obtain ⟨hc, hs⟩ := visitChain_spec s hrows hrem rfl
  have hinit : (HistoryWalk.init channels).collectedByCh.getD ch [] = [] := by
    simp [HistoryWalk.init, OrdDict.getD, OrdDict.get?_tabulate, hch]
  rw [hc, hs, hinit]
  simp [toHistory, ancestors]

/-! ## The override and the default walk -/

theorem blobValue_eq_get? (s : InMemorySaver V) (row : StoredCheckpoint V) (ch : String) :
    (s.loadBlobs row.checkpoint.channelVersions).get? ch = s.blobValue row ch :=
  OrdDict.get?_filterMap _ _ _

theorem getTuple_parentId (s : InMemorySaver V) (id : String) :
    (s.getTuple id).bind (·.parentId) = (s.storage.get? id).bind (·.parentId) := by
  unfold getTuple tupleOf
  cases s.storage.get? id <;> rfl

theorem defaultHistory_eq (s : InMemorySaver V) (target : String) (channels : List String) :
    s.defaultHistory target channels =
      OrdDict.tabulate channels fun ch =>
        toHistory (Lineage.collect (s.rowValue ch) (fun e => s.writesInStoredOrder ch e.1)
          (s.ancestors target)) := by
  unfold defaultHistory
  rw [defaultHistory_spec, OrdDict.tabulate_eq_iff]
  intro ch _
  have hwalk := Lineage.walk_map s.getTuple (·.parentId) s.tupleOf (fun _ => rfl) (fun _ _ => rfl)
    (s.storage.keys.length + 1) ((s.storage.get? target).bind (·.parentId))
  rw [getTuple_parentId, tupleWalk, hwalk, Lineage.collect_map]
  congr 1
  refine Lineage.collect_congr ?_ (fun _ _ => rfl)
  intro e _
  exact s.blobValue_eq_get? e.2 ch

/-- The checkpoints whose writes to `ch` the history takes: the ancestors up to
    the nearest that holds a value of `ch`. -/
def historyRows (s : InMemorySaver V) (ch target : String) :
    List (String × StoredCheckpoint V) :=
  Lineage.upto (s.rowValue ch) (s.ancestors target)

omit [DecidableEq V] in
/-- Both readings of a checkpoint's writes count the same writes. -/
theorem length_writesInKeyOrder (s : InMemorySaver V) (ch id : String) :
    (s.writesInKeyOrder ch id).length = (s.writesInStoredOrder ch id).length := by
  have hp : ((s.sortedWritesAt id).map StoredWrite.toPending).Perm
      ((s.writesAt id).values.map StoredWrite.toPending) :=
    ((SortBy.perm_sortBy _ _).map _).map _
  exact (hp.filter _).length_eq

/-- At every checkpoint the history reads, the writes to the channel were stored
    in `(task_id, idx)` order, and there are none where the value that ends the
    walk is a plain one. -/
def StoredForHistory (s : InMemorySaver V) (target : String) (channels : List String) : Prop :=
  ∀ ch ∈ channels, ∀ e ∈ s.historyRows ch target,
    s.writesInStoredOrder ch e.1 = s.writesInKeyOrder ch e.1 ∧
      (isPlainSeed (s.rowValue ch e) = true → s.writesInStoredOrder ch e.1 = [])

/-- The override returns what the default walk returns exactly on such stores. -/
theorem deltaChannelHistory_eq_default_iff (s : InMemorySaver V) (target : String)
    (channels : List String) :
    s.deltaChannelHistory target channels = s.defaultHistory target channels ↔
      s.StoredForHistory target channels := by
  unfold StoredForHistory
  rw [deltaChannelHistory_spec, defaultHistory_eq, OrdDict.tabulate_eq_iff]
  refine forall₂_congr fun ch _ => ?_
  have hlen : ∀ e, s.rowValue ch e = none →
      (s.rowWrites ch e).length = (s.writesInStoredOrder ch e.1).length := by
    intro e he
    rw [rowWrites, he, if_neg (by simp [isPlainSeed]), length_writesInKeyOrder]
  rw [toHistory_inj, Lineage.collect_eq_iff hlen]
  refine forall₂_congr fun e _ => ?_
  unfold rowWrites
  split
  · rename_i hplain
    constructor
    · intro h
      have hnil : s.writesInStoredOrder ch e.1 = [] := h.symm
      have hkey : s.writesInKeyOrder ch e.1 = [] := by
        rw [← List.length_eq_zero_iff, length_writesInKeyOrder, hnil, List.length_nil]
      exact ⟨by rw [hnil, hkey], fun _ => hnil⟩
    · rintro ⟨-, h⟩
      exact (h hplain).symm
  · rename_i hplain
    constructor
    · intro h
      exact ⟨h.symm, fun hp => absurd hp hplain⟩
    · rintro ⟨h, -⟩
      exact h.symm

end InMemorySaver
end LangGraph
