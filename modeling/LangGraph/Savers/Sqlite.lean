import LangGraph.Savers.WritesTable

/- `SqliteSaver` (checkpoint-sqlite), for one thread and namespace.

   Correspondence (source ↔ Lean):
     tables `checkpoints`, `writes` by primary key  ↔ `SqliteSaver.checkpoints`, `.writes`
     `put`, `put_writes`                            ↔ `put`, `putWrites`
     `get_tuple` with a `checkpoint_id`             ↔ `getTuple`
     `DELTA_STAGE1_SQL`, `step_walk_with_row`       ↔ `stage1Rows`, `stepWalkWithRow`
     the stage-2 query and its demux                ↔ `WritesTable.stage2Rows`, `chainWrites`
     `get_delta_channel_history`                    ↔ `deltaChannelHistory`
   Checkpoint ids compare as strings, as in the ORDER BY of the query. The
   override makes a single pass over the rows in descending id order, so it
   follows the parent links only as long as they go to smaller ids
   (`deltaChannelHistory_eq_default_iff`). -/
namespace LangGraph

structure SqliteCheckpoint (V : Type) where
  parentId : Option String
  checkpoint : Checkpoint V
  metadata : Metadata

structure SqliteSaver (V : Type) where
  checkpoints : OrdDict String (SqliteCheckpoint V)
  writes : WritesTable

namespace SqliteSaver
variable {V : Type}

def empty : SqliteSaver V := ⟨∅, ∅⟩

/-- `put`: INSERT OR REPLACE. -/
def put (s : SqliteSaver V) (parentId : Option String) (checkpoint : Checkpoint V)
    (metadata : Metadata) : SqliteSaver V :=
  { s with checkpoints := s.checkpoints.set checkpoint.id ⟨parentId, checkpoint, metadata⟩ }

/-- `put_writes` -/
def putWrites (s : SqliteSaver V) (id : String) (writes : List (String × PyVal))
    (taskId : String) : SqliteSaver V :=
  { s with writes := s.writes.putWrites id writes taskId }

/-- `get_tuple` with a `checkpoint_id` -/
def getTuple (s : SqliteSaver V) (id : String) : Option (CheckpointTuple V) :=
  (s.checkpoints.get? id).map fun row =>
    { checkpoint := row.checkpoint
      metadata := row.metadata
      parentId := row.parentId
      pendingWrites := s.writes.pendingAt id }

/-- `SELECT … WHERE checkpoint_id <= target ORDER BY checkpoint_id DESC` -/
def stage1Rows (s : SqliteSaver V) (target : String) : List (String × SqliteCheckpoint V) :=
  (SortBy.sortBy (fun e => e.1) (s.checkpoints.entries.filter fun e => e.1 ≤ target)).reverse

/-- `walk_state`, `chain_by_ch` and `seed_val_by_ch`; `seeded` is the key set of the last. -/
structure Stage1 where
  started : Bool
  curCid : Option String
  active : List String
  chainByCh : OrdDict String (List String)
  seedValByCh : OrdDict String PyVal

/-- `for ch in active: chain_by_ch[ch].append(cid)` -/
def appendToChains (cid : String) (active : List String) (chains : OrdDict String (List String)) :
    OrdDict String (List String) :=
  active.foldl (fun d ch => d.set ch (d.getD ch [] ++ [cid])) chains

/-- A row on the path: every active channel's chain takes it, and the channels
    it holds a value of have their seed. -/
def visitRow (cid : String) (row : SqliteCheckpoint V) (st : Stage1) : Stage1 :=
  let value := row.checkpoint.channelValues.get?
  { st with
    curCid := row.parentId
    active := st.active.filter fun ch => (value ch).isNone
    chainByCh := appendToChains cid st.active st.chainByCh
    seedValByCh := assignSeeds value st.active st.seedValByCh }

/-- The target's row: the walk goes to its parent. -/
def startWalk (channels : List String) (row : SqliteCheckpoint V) (st : Stage1) : Stage1 :=
  { st with started := true, curCid := row.parentId, active := channels.dedup }

/-- `step_walk_with_row`: the new state, and whether the caller can stop. -/
def stepWalkWithRow (target : String) (channels : List String) (cid : String)
    (row : SqliteCheckpoint V) (st : Stage1) : Stage1 × Bool :=
  if st.started = false then
    if cid = target then (startWalk channels row st, false) else (st, false)
  else if st.active.isEmpty then (st, true)
  else if some cid ≠ st.curCid then (st, false) -- off-path row from a sibling branch
  else (visitRow cid row st, (visitRow cid row st).active.isEmpty)

/-- The loop `for row in cur`. -/
def stage1Loop (target : String) (channels : List String) :
    List (String × SqliteCheckpoint V) → Stage1 → Stage1
  | [], st => st
  | (cid, row) :: rest, st =>
    match stepWalkWithRow target channels cid row st with
    | (st', true) => st'
    | (st', false) => stage1Loop target channels rest st'

def stage1Init (channels : List String) : Stage1 :=
  ⟨false, none, [], OrdDict.tabulate channels fun _ => [], ∅⟩

/-- `get_delta_channel_history` -/
def deltaChannelHistory (s : SqliteSaver V) (target : String) (channels : List String) :
    OrdDict String DeltaChannelHistory :=
  let st := stage1Loop target channels (s.stage1Rows target) (stage1Init channels)
  OrdDict.tabulate channels fun ch =>
    let chain := st.chainByCh.getD ch []
    ⟨chainWrites (s.writes.stage2Rows ch chain) chain, st.seedValByCh.get? ch⟩

/-- The default walk over this saver's `get_tuple`. -/
def defaultHistory (s : SqliteSaver V) (target : String) (channels : List String) :
    OrdDict String DeltaChannelHistory :=
  LangGraph.defaultHistory s.getTuple (s.checkpoints.keys.length + 1) target channels

/-! ## The single pass -/

def rowValue (ch : String) (e : String × SqliteCheckpoint V) : Option PyVal :=
  e.2.checkpoint.channelValues.get? ch

def rowWrites (s : SqliteSaver V) (ch : String) (e : String × SqliteCheckpoint V) :
    List PendingWrite :=
  s.writes.writesAt ch e.1

theorem getD_appendToChains (cid ch : String) : ∀ (active : List String)
    (chains : OrdDict String (List String)), active.Nodup →
    (appendToChains cid active chains).getD ch [] =
      chains.getD ch [] ++ if ch ∈ active then [cid] else []
  | [], chains, _ => by simp [appendToChains]
  | c :: active, chains, hn => by
    obtain ⟨hc, hn⟩ := List.nodup_cons.mp hn
    have ih := getD_appendToChains cid ch active (chains.set c (chains.getD c [] ++ [cid])) hn
    rw [appendToChains, List.foldl_cons, ← appendToChains, ih]
    by_cases h : ch = c
    · subst h
      simp [hc, OrdDict.getD]
    · simp [h, OrdDict.getD, OrdDict.get?_set_of_ne h]

section Loop
variable {target ch : String} {channels : List String} {st : Stage1}

theorem started_visitRow (cid : String) (row : SqliteCheckpoint V) (h : st.started = true) :
    (visitRow cid row st).started = true := h

theorem nodup_visitRow (cid : String) (row : SqliteCheckpoint V) (h : st.active.Nodup) :
    (visitRow cid row st).active.Nodup := h.filter _

theorem stage1Loop_inactive (hst : st.started = true) (he : st.active.isEmpty = true) :
    ∀ rows : List (String × SqliteCheckpoint V), stage1Loop target channels rows st = st
  | [] => rfl
  | (cid, row) :: rest => by simp [stage1Loop, stepWalkWithRow, hst, he]

theorem stage1Loop_offPath (hst : st.started = true) {cid : String} (hcur : st.curCid ≠ some cid)
    (row : SqliteCheckpoint V) (rest : List (String × SqliteCheckpoint V)) :
    stage1Loop target channels ((cid, row) :: rest) st = stage1Loop target channels rest st := by
  cases he : st.active.isEmpty with
  | true => rw [stage1Loop_inactive hst he, stage1Loop_inactive hst he]
  | false => simp [stage1Loop, stepWalkWithRow, hst, he, Ne.symm hcur]

theorem stage1Loop_onPath (hst : st.started = true) (he : st.active.isEmpty = false) {cid : String}
    (hcur : st.curCid = some cid) (row : SqliteCheckpoint V)
    (rest : List (String × SqliteCheckpoint V)) :
    stage1Loop target channels ((cid, row) :: rest) st =
      stage1Loop target channels rest (visitRow cid row st) := by
  have hst' := started_visitRow cid row hst
  cases hv : (visitRow cid row st).active.isEmpty with
  | true =>
    rw [stage1Loop_inactive hst' hv]
    simp [stage1Loop, stepWalkWithRow, hst, he, hcur, hv]
  | false => simp [stage1Loop, stepWalkWithRow, hst, he, hcur, hv]

/-- A channel that is no longer active keeps its chain and its seed. -/
theorem stage1Loop_done : ∀ (rows : List (String × SqliteCheckpoint V)) {st : Stage1},
    st.started = true → st.active.Nodup → ch ∉ st.active →
      (stage1Loop target channels rows st).chainByCh.getD ch [] = st.chainByCh.getD ch [] ∧
        (stage1Loop target channels rows st).seedValByCh.get? ch = st.seedValByCh.get? ch
  | [], _, _, _, _ => ⟨rfl, rfl⟩
  | (cid, row) :: rest, st, hst, hn, h => by
    by_cases hcur : st.curCid = some cid
    · cases he : st.active.isEmpty with
      | true =>
        rw [stage1Loop_inactive hst he]
        exact ⟨rfl, rfl⟩
      | false =>
        rw [stage1Loop_onPath hst he hcur]
        have hout : ch ∉ (visitRow cid row st).active := fun hm => h (List.mem_filter.mp hm).1
        obtain ⟨hc, hs⟩ := stage1Loop_done rest (started_visitRow cid row hst) (nodup_visitRow cid row hn) hout
        rw [hc, hs]
        refine ⟨?_, ?_⟩
        · rw [visitRow, getD_appendToChains cid ch _ _ hn, if_neg h, List.append_nil]
        · rw [visitRow, get?_assignSeeds, if_neg fun hm => h hm.1]
    · rw [stage1Loop_offPath hst hcur]
      exact stage1Loop_done rest hst hn h

/-- An active channel's chain and seed, after the pass. -/
theorem stage1Loop_active : ∀ (rows : List (String × SqliteCheckpoint V)) {st : Stage1},
    st.started = true → st.active.Nodup → ch ∈ st.active → st.seedValByCh.get? ch = none →
      (stage1Loop target channels rows st).chainByCh.getD ch [] = st.chainByCh.getD ch [] ++
          (Lineage.upto (rowValue ch)
            (Lineage.scan SqliteCheckpoint.parentId st.curCid rows)).map Prod.fst ∧
        (stage1Loop target channels rows st).seedValByCh.get? ch =
          (Lineage.collect (rowValue ch) (fun _ => ([] : List Unit))
            (Lineage.scan SqliteCheckpoint.parentId st.curCid rows)).1
  | [], st, _, _, _, hs => by simp [stage1Loop, Lineage.scan, Lineage.upto, hs]
  | (cid, row) :: rest, st, hst, hn, h, hs => by
    by_cases hcur : st.curCid = some cid
    · have he : st.active.isEmpty = false := by
        cases ha : st.active with
        | nil => simp [ha] at h
        | cons _ _ => rfl
      rw [stage1Loop_onPath hst he hcur, Lineage.scan, if_pos hcur]
      have hchain : (visitRow cid row st).chainByCh.getD ch [] =
          st.chainByCh.getD ch [] ++ [cid] := by
        rw [visitRow, getD_appendToChains cid ch _ _ hn, if_pos h]
      cases hv : rowValue ch (cid, row) with
      | some v =>
        have hv' : row.checkpoint.channelValues.get? ch = some v := hv
        have hout : ch ∉ (visitRow cid row st).active := by
          simp [visitRow, hv']
        obtain ⟨hc, hd⟩ := stage1Loop_done rest (started_visitRow cid row hst) (nodup_visitRow cid row hn) hout
        rw [hc, hd, hchain, Lineage.collect_cons_some hv]
        refine ⟨by simp [Lineage.upto, hv], ?_⟩
        rw [visitRow, get?_assignSeeds, hv', if_pos ⟨h, rfl⟩]
      | none =>
        have hv' : row.checkpoint.channelValues.get? ch = none := hv
        have hin : ch ∈ (visitRow cid row st).active := by
          simp [visitRow, hv', h]
        have hs' : (visitRow cid row st).seedValByCh.get? ch = none := by
          rw [visitRow, get?_assignSeeds, hv']
          simpa using hs
        obtain ⟨hc, hd⟩ := stage1Loop_active rest (started_visitRow cid row hst) (nodup_visitRow cid row hn) hin hs'
        rw [hc, hd, hchain, Lineage.collect_cons_none hv]
        refine ⟨by simp [Lineage.upto, hv, visitRow], rfl⟩
    · rw [stage1Loop_offPath hst hcur, Lineage.scan, if_neg hcur]
      exact stage1Loop_active rest hst hn h hs

end Loop

/-! ## The override and the default walk -/

section Agreement
variable (s : SqliteSaver V) (target : String)

theorem mem_stage1Rows {k : String} {r : SqliteCheckpoint V} :
    (k, r) ∈ s.stage1Rows target ↔ s.checkpoints.get? k = some r ∧ k ≤ target := by
  simp only [stage1Rows, List.mem_reverse, SortBy.mem_sortBy, List.mem_filter, decide_eq_true_eq,
    OrdDict.get?_eq_some_iff]

theorem stage1Rows_pairwise :
    (s.stage1Rows target).Pairwise fun a b => b.1 < a.1 := by
  rw [stage1Rows, List.pairwise_reverse]
  have hle := SortBy.pairwise_sortBy (fun e : String × SqliteCheckpoint V => e.1)
    (s.checkpoints.entries.filter fun e => e.1 ≤ target)
  have hne : (SortBy.sortBy (fun e : String × SqliteCheckpoint V => e.1)
      (s.checkpoints.entries.filter fun e => e.1 ≤ target)).Pairwise fun a b => a.1 ≠ b.1 := by
    refine List.pairwise_map.mp (List.Perm.nodup_iff ((SortBy.perm_sortBy _ _).map _) |>.mpr ?_)
    exact s.checkpoints.nodup.sublist (List.filter_sublist.map _)
  exact hle.imp₂ (fun _ _ h hn => lt_of_le_of_ne h hn) hne

/-- The pass begins at the target, and goes on over the smaller ids. -/
theorem stage1Rows_of_stored {row : SqliteCheckpoint V}
    (h : s.checkpoints.get? target = some row) :
    ∃ rest, s.stage1Rows target = (target, row) :: rest ∧
      rest.Pairwise (fun a b => b.1 < a.1) ∧
      (∀ k r, (k, r) ∈ rest ↔ s.checkpoints.get? k = some r ∧ k < target) ∧
      rest.length < s.checkpoints.keys.length + 1 := by
  have hmem := (s.mem_stage1Rows target).mpr ⟨h, le_refl target⟩
  have hpw := s.stage1Rows_pairwise target
  have hall := fun k r => s.mem_stage1Rows target (k := k) (r := r)
  have hlen : (s.stage1Rows target).length ≤ s.checkpoints.keys.length := by
    simp only [stage1Rows, List.length_reverse, SortBy.length_sortBy, OrdDict.keys, List.length_map]
    exact List.length_filter_le _ _
  cases hrows : s.stage1Rows target with
  | nil => rw [hrows] at hmem; simp at hmem
  | cons e rest =>
    rw [hrows] at hmem hpw hall hlen
    obtain ⟨hlt, hpw'⟩ := List.pairwise_cons.mp hpw
    have he : e = (target, row) := by
      rcases List.mem_cons.mp hmem with he | hm
      · exact he.symm
      · have hle : e.1 ≤ target := ((hall e.1 e.2).mp (List.mem_cons_self ..)).2
        exact absurd (hlt _ hm) (not_lt_of_ge hle)
    subst he
    refine ⟨rest, rfl, hpw', ?_, by simp at hlen; omega⟩
    intro k r
    constructor
    · intro hm
      exact ⟨((hall k r).mp (List.mem_cons_of_mem _ hm)).1, hlt _ hm⟩
    · rintro ⟨hk, hkt⟩
      rcases List.mem_cons.mp ((hall k r).mpr ⟨hk, le_of_lt hkt⟩) with he | hm
      · cases he
        exact absurd hkt (lt_irrefl _)
      · exact hm

/-- The proper ancestors of a checkpoint. -/
def ancestors : List (String × SqliteCheckpoint V) :=
  Lineage.walk s.checkpoints.get? (·.parentId) (s.checkpoints.keys.length + 1)
    ((s.checkpoints.get? target).bind (·.parentId))

/-- The ancestors the single pass meets: those reached while ids decrease. -/
def scannedAncestors : List (String × SqliteCheckpoint V) :=
  Lineage.descending target (s.ancestors target)

/-- What stage 1 leaves for a channel. -/
theorem stage1_spec {channels : List String} {ch : String} (hch : ch ∈ channels) :
    (stage1Loop target channels (s.stage1Rows target) (stage1Init channels)).chainByCh.getD ch [] =
        (Lineage.upto (rowValue ch) (s.scannedAncestors target)).map Prod.fst ∧
      (stage1Loop target channels (s.stage1Rows target) (stage1Init channels)).seedValByCh.get? ch =
        (Lineage.collect (rowValue ch) (s.rowWrites ch) (s.scannedAncestors target)).1 := by
  have hinit : (stage1Init channels).chainByCh.getD ch [] = [] := by
    simp [stage1Init, OrdDict.getD, OrdDict.get?_tabulate, hch]
  cases h : s.checkpoints.get? target with
  | none =>
    have hwait : ∀ rows : List (String × SqliteCheckpoint V), (∀ e ∈ rows, e.1 ≠ target) →
        stage1Loop target channels rows (stage1Init channels) = stage1Init channels := by
      intro rows
      induction rows with
      | nil => intro _; rfl
      | cons e rest ih =>
        intro hne
        have he := hne e (List.mem_cons_self ..)
        simp only [stage1Loop, stepWalkWithRow, stage1Init, if_true, if_neg he]
        exact ih fun x hx => hne x (List.mem_cons_of_mem _ hx)
    rw [hwait]
    · rw [hinit]
      simp [scannedAncestors, ancestors, h, Lineage.descending, Lineage.upto, stage1Init]
    · rintro ⟨k, r⟩ he rfl
      rw [((s.mem_stage1Rows k).mp he).1] at h
      cases h
  | some row =>
    obtain ⟨rest, hrows, hpw, hmem, hlen⟩ := s.stage1Rows_of_stored target h
    have hstart : stage1Loop target channels (s.stage1Rows target) (stage1Init channels) =
        stage1Loop target channels rest (startWalk channels row (stage1Init channels)) := by
      rw [hrows]
      simp [stage1Loop, stepWalkWithRow, stage1Init]
    have hscan : Lineage.scan SqliteCheckpoint.parentId row.parentId rest =
        s.scannedAncestors target := by
      rw [Lineage.scan_eq_descending hpw hmem hlen]
      simp [scannedAncestors, ancestors, h]
    have hstarted : (startWalk channels row (stage1Init channels)).started = true := rfl
    obtain ⟨hc, hs⟩ := stage1Loop_active rest hstarted (List.nodup_dedup channels)
      (List.mem_dedup.mpr hch) rfl
    rw [hstart, hc, hs, ← hscan]
    refine ⟨?_, Lineage.collect_fst _ _⟩
    change (stage1Init channels).chainByCh.getD ch [] ++ _ = _
    rw [hinit, List.nil_append]
    rfl

theorem deltaChannelHistory_spec (channels : List String) :
    s.deltaChannelHistory target channels =
      OrdDict.tabulate channels fun ch =>
        toHistory (Lineage.collect (rowValue ch) (s.rowWrites ch) (s.scannedAncestors target)) := by
  unfold deltaChannelHistory
  rw [OrdDict.tabulate_eq_iff]
  intro ch hch
  obtain ⟨hc, hs⟩ := s.stage1_spec target hch
  simp only [hc, hs, WritesTable.chainWrites_stage2Rows]
  rw [toHistory, Lineage.collect_snd, ← List.map_reverse, List.flatMap_map]
  rfl

theorem defaultHistory_eq (channels : List String) :
    s.defaultHistory target channels =
      OrdDict.tabulate channels fun ch =>
        toHistory (Lineage.collect (rowValue ch) (s.rowWrites ch) (s.ancestors target)) := by
  unfold defaultHistory
  rw [defaultHistory_spec, OrdDict.tabulate_eq_iff]
  intro ch _
  have hwalk := Lineage.walk_map s.getTuple (·.parentId)
    (fun id (row : SqliteCheckpoint V) => ⟨row.checkpoint, row.metadata, row.parentId, s.writes.pendingAt id⟩)
    (fun _ => rfl) (fun _ _ => rfl) (s.checkpoints.keys.length + 1)
    ((s.checkpoints.get? target).bind (·.parentId))
  have hp : (s.getTuple target).bind (·.parentId) =
      (s.checkpoints.get? target).bind (·.parentId) := by
    unfold getTuple
    cases s.checkpoints.get? target <;> rfl
  rw [hp, tupleWalk, hwalk, Lineage.collect_map]
  rfl

/-- The checkpoints whose writes to `ch` the default walk takes. -/
def historyRows (ch : String) : List (String × SqliteCheckpoint V) :=
  Lineage.upto (rowValue ch) (s.ancestors target)

/-- No checkpoint that the default walk reads past the descending part of the
    parent links holds a value of the channel or a write to it. -/
def StoredForHistory (channels : List String) : Prop :=
  ∀ ch ∈ channels, ∀ e ∈ (s.historyRows target ch).drop (s.scannedAncestors target).length,
    rowValue ch e = none ∧ s.rowWrites ch e = []

/-- The override returns what the default walk returns exactly on such stores. -/
theorem deltaChannelHistory_eq_default_iff (channels : List String) :
    s.deltaChannelHistory target channels = s.defaultHistory target channels ↔
      s.StoredForHistory target channels := by
  unfold StoredForHistory
  rw [deltaChannelHistory_spec, defaultHistory_eq, OrdDict.tabulate_eq_iff]
  refine forall₂_congr fun ch _ => ?_
  obtain ⟨rest, hrest⟩ := Lineage.descending_append_rest target (s.ancestors target)
  have h := Lineage.collect_prefix_iff (rowValue ch) (s.rowWrites ch) (s.scannedAncestors target)
    rest
  rw [toHistory_inj]
  rw [scannedAncestors] at h ⊢
  rw [← hrest] at h
  exact h

end Agreement

end SqliteSaver
end LangGraph
