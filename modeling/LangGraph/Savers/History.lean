import LangGraph.Savers.CheckpointIds
import LangGraph.Savers.Memory
import LangGraph.Savers.Sqlite

/- The history of a thread, as the savers list it.

   Correspondence (source ↔ Lean):
     `put`, `put_writes` of a thread, in order      ↔ `SaverCall`
     `InMemorySaver.list`                           ↔ `InMemorySaver.list`
     `SqliteSaver.list`, its query                  ↔ `SqliteSaver.list`
     `get_tuple` without a `checkpoint_id`          ↔ `InMemorySaver.getLatestTuple`,
                                                       `SqliteSaver.getLatestTuple`
   The config names a thread and a namespace, `before` a checkpoint; there is no filter
   on metadata. The savers order checkpoints by the texts of their ids. A process draws
   increasing ids, so that this is the order of the puts (`histories_agree`). -/
namespace LangGraph

/-- The arguments of one `put`. -/
structure SaverPut (V : Type) where
  parentId : Option String
  checkpoint : Checkpoint V
  metadata : Metadata
  newVersions : OrdDict String V

inductive SaverCall (V : Type) where
  | put (p : SaverPut V)
  | putWrites (id : String) (writes : List (String × PyVal)) (taskId taskPath : String)

def SaverPut.id {V : Type} (p : SaverPut V) : String := p.checkpoint.id

/-- `LIMIT n`; the loop of `InMemorySaver.list` counts down. -/
def limited {α : Type} (limit : Option Nat) (l : List α) : List α := limit.elim l fun n => l.take n

section Definitions
variable {V : Type}

def putsOf (calls : List (SaverCall V)) : List (SaverPut V) :=
  calls.filterMap fun
    | .put p => some p
    | .putWrites _ _ _ _ => none

/-- What was put before the checkpoint that `before` names. -/
def putsBefore (before : Option String) (puts : List (SaverPut V)) : List (SaverPut V) :=
  before.elim puts fun b => puts.takeWhile fun p => p.id ≠ b

/-- `ORDER BY checkpoint_id DESC`, `sorted(..., reverse=True)`: the rows before a checkpoint. -/
def newestFirst {R : Type} (rows : OrdDict String R) (before : Option String) :
    List (String × R) :=
  (SortBy.sortBy (fun e : String × R => e.1) rows.entries).reverse.filter fun e =>
    before.all fun b => e.1 < b

namespace InMemorySaver
variable [DecidableEq V]

def list (s : InMemorySaver V) (before : Option String) (limit : Option Nat) :
    List (String × CheckpointTuple V) :=
  (limited limit (newestFirst s.storage before)).map fun e => (e.1, s.tupleOf e.1 e.2)

def call (s : InMemorySaver V) : SaverCall V → InMemorySaver V
  | .put p => s.put p.parentId p.checkpoint p.metadata p.newVersions
  | .putWrites id writes taskId taskPath => s.putWrites id writes taskId taskPath

def run (s : InMemorySaver V) (calls : List (SaverCall V)) : InMemorySaver V := calls.foldl call s

end InMemorySaver

namespace SqliteSaver

def tupleOf (s : SqliteSaver V) (id : String) (row : SqliteCheckpoint V) : CheckpointTuple V where
  checkpoint := row.checkpoint
  metadata := row.metadata
  parentId := row.parentId
  pendingWrites := s.writes.pendingAt id

def list (s : SqliteSaver V) (before : Option String) (limit : Option Nat) :
    List (String × CheckpointTuple V) :=
  (limited limit (newestFirst s.checkpoints before)).map fun e => (e.1, s.tupleOf e.1 e.2)

/-- `ORDER BY checkpoint_id DESC LIMIT 1` -/
def getLatestTuple (s : SqliteSaver V) : Option (String × CheckpointTuple V) :=
  (newestFirst s.checkpoints none).head?.map fun e => (e.1, s.tupleOf e.1 e.2)

def call (s : SqliteSaver V) : SaverCall V → SqliteSaver V
  | .put p => s.put p.parentId p.checkpoint p.metadata
  | .putWrites id writes taskId _ => s.putWrites id writes taskId

def run (s : SqliteSaver V) (calls : List (SaverCall V)) : SqliteSaver V := calls.foldl call s

end SqliteSaver

/-- The tuple is that of the put; a saver may keep the channel values elsewhere. -/
structure SaverPut.Shown (p : SaverPut V) (e : String × CheckpointTuple V) : Prop where
  id : e.1 = p.id
  checkpoint : e.2.checkpoint =
    { p.checkpoint with channelValues := e.2.checkpoint.channelValues }
  parentId : e.2.parentId = p.parentId
  metadata : e.2.metadata = p.metadata

/-- The list shows these puts, in this order, each as `get_tuple` returns it. -/
structure Lists (getTuple : String → Option (CheckpointTuple V)) (puts : List (SaverPut V))
    (listed : List (String × CheckpointTuple V)) : Prop where
  shown : List.Forall₂ SaverPut.Shown puts listed
  own : ∀ e ∈ listed, getTuple e.1 = some e.2

end Definitions

/- ── Rows in the order of their keys ───────────────────────────── -/

section Rows
variable {α R : Type}

/-- What lies below one of the keys of an increasing list comes before it. -/
theorem filter_lt_eq_takeWhile {κ : Type} [LinearOrder κ] {key : α → κ} {b : κ} : ∀ {l : List α},
    (l.map key).Pairwise (· < ·) → b ∈ l.map key →
      l.filter (fun a => key a < b) = l.takeWhile fun a => key a ≠ b
  | [], _, hb => absurd hb List.not_mem_nil
  | a :: l, h, hb => by
    obtain ⟨ha, h⟩ := List.pairwise_cons.mp h
    rcases List.mem_cons.mp hb with rfl | hb
    · have hnone : ∀ c ∈ l, ¬key c < key a := fun c hc =>
        not_lt.mpr (le_of_lt (ha _ (List.mem_map_of_mem hc)))
      simpa using hnone
    · have hab := ha b hb
      rw [List.filter_cons_of_pos (by simpa using hab),
        List.takeWhile_cons_of_pos (by simpa using ne_of_lt hab), filter_lt_eq_takeWhile h hb]

theorem newestFirst_eq {rows : OrdDict String R} (h : rows.keys.Pairwise (· < ·))
    {before : Option String} (hb : ∀ b ∈ before, b ∈ rows.keys) :
    newestFirst rows before =
      (before.elim rows.entries fun b => rows.entries.takeWhile fun e => e.1 ≠ b).reverse := by
  have hsorted : SortBy.sortBy (fun e : String × R => e.1) rows.entries = rows.entries :=
    SortBy.sortBy_eq_self ((List.pairwise_map.mp h).imp le_of_lt)
  rw [newestFirst, hsorted, List.filter_reverse]
  cases before with
  | none => simp
  | some b =>
    have hfilter := filter_lt_eq_takeWhile h (hb b rfl)
    simp only [Option.all_some, Option.elim_some, hfilter]

theorem max?_of_pairwise : ∀ {l : List String}, l.Pairwise (· < ·) → l.max? = l.getLast?
  | [], _ => rfl
  | a :: l, h => by
    obtain ⟨ha, h⟩ := List.pairwise_cons.mp h
    have ih := max?_of_pairwise h
    rw [List.max?_cons, ih, List.getLast?_cons]
    cases hl : l.getLast? with
    | none => rfl
    | some b =>
      have hab := ha b (List.mem_of_getLast? hl)
      simp [max_eq_right (le_of_lt hab)]

/-- Puts under new ids append rows. -/
theorem entries_foldl_set {β : Type} {key : β → String} {row : β → R} : ∀ (ps : List β)
    (d : OrdDict String R), (d.keys ++ ps.map key).Nodup →
      (ps.foldl (fun d p => d.set (key p) (row p)) d).entries =
        d.entries ++ ps.map fun p => (key p, row p)
  | [], d, _ => by simp
  | p :: ps, d, h => by
    have hkeys : key p ∉ d.keys := fun hmem =>
      (List.nodup_append.mp h).2.2 _ hmem _ List.mem_cons_self rfl
    have hset := OrdDict.entries_set_of_not_mem hkeys (row p)
    have hnodup : ((d.set (key p) (row p)).keys ++ ps.map key).Nodup := by
      rw [OrdDict.keys, hset, List.map_append, List.map_singleton, List.append_assoc]
      exact h
    rw [List.foldl_cons, entries_foldl_set ps _ hnodup, hset, List.append_assoc]
    rfl

theorem forall₂_limited {β γ : Type} {Q : β → γ → Prop} {l : List β} {l' : List γ}
    (h : List.Forall₂ Q l l') (limit : Option Nat) :
    List.Forall₂ Q (limited limit l) (limited limit l') := by
  cases limit with
  | none => exact h
  | some n => exact List.forall₂_take n h

end Rows

/- ── The rows that the calls leave ─────────────────────────────── -/

section Calls
variable {V : Type}

theorem putsOf_cons_put (p : SaverPut V) (calls : List (SaverCall V)) :
    putsOf (.put p :: calls) = p :: putsOf calls := rfl

def SaverPut.memoryRow (p : SaverPut V) : StoredCheckpoint V :=
  ⟨{ p.checkpoint with channelValues := ∅ }, p.metadata, p.parentId⟩

def SaverPut.sqliteRow (p : SaverPut V) : SqliteCheckpoint V := ⟨p.parentId, p.checkpoint, p.metadata⟩

theorem InMemorySaver.storage_run [DecidableEq V] : ∀ (calls : List (SaverCall V))
    (s : InMemorySaver V), (s.run calls).storage =
      (putsOf calls).foldl (fun d p => d.set p.id p.memoryRow) s.storage
  | [], _ => rfl
  | .put p :: calls, s => storage_run calls (s.call (.put p))
  | .putWrites id writes taskId taskPath :: calls, s =>
    storage_run calls (s.call (.putWrites id writes taskId taskPath))

theorem SqliteSaver.checkpoints_run : ∀ (calls : List (SaverCall V)) (s : SqliteSaver V),
    (s.run calls).checkpoints =
      (putsOf calls).foldl (fun d p => d.set p.id p.sqliteRow) s.checkpoints
  | [], _ => rfl
  | .put p :: calls, s => checkpoints_run calls (s.call (.put p))
  | .putWrites id writes taskId taskPath :: calls, s =>
    checkpoints_run calls (s.call (.putWrites id writes taskId taskPath))

/-- A saver's rows are those of the puts, and a row is shown as its tuple. -/
structure RowsOf {R : Type} (puts : List (SaverPut V)) (rows : OrdDict String R)
    (row : SaverPut V → R) (tuple : String → R → CheckpointTuple V) : Prop where
  entries : rows.entries = puts.map fun p => (p.id, row p)
  shown : ∀ p : SaverPut V, p.Shown (p.id, tuple p.id (row p))

section RowsOf
variable {R : Type} {puts : List (SaverPut V)} {rows : OrdDict String R} {row : SaverPut V → R}
  {tuple : String → R → CheckpointTuple V}

theorem RowsOf.keys (h : RowsOf puts rows row tuple) : rows.keys = puts.map SaverPut.id := by
  rw [OrdDict.keys, h.entries, List.map_map]
  rfl

theorem RowsOf.newestFirst_eq (h : RowsOf puts rows row tuple)
    (hids : (puts.map SaverPut.id).Pairwise (· < ·)) {before : Option String}
    (hb : ∀ b ∈ before, b ∈ puts.map SaverPut.id) :
    newestFirst rows before = (putsBefore before puts).reverse.map fun p => (p.id, row p) := by
  rw [← h.keys] at hids hb
  rw [LangGraph.newestFirst_eq hids hb, h.entries, List.map_reverse]
  cases before with
  | none => rfl
  | some b =>
    simp only [Option.elim_some, putsBefore, List.takeWhile_map]
    rfl

/-- The tuples of the rows in that order are what the puts are to be shown as. -/
theorem RowsOf.lists (h : RowsOf puts rows row tuple)
    (hids : (puts.map SaverPut.id).Pairwise (· < ·)) {before : Option String}
    (hb : ∀ b ∈ before, b ∈ puts.map SaverPut.id) (limit : Option Nat)
    {getTuple : String → Option (CheckpointTuple V)}
    (hget : ∀ id, getTuple id = (rows.get? id).map (tuple id)) :
    Lists getTuple (limited limit (putsBefore before puts).reverse)
      ((limited limit (newestFirst rows before)).map fun e => (e.1, tuple e.1 e.2)) where
  shown := by
    rw [h.newestFirst_eq hids hb, List.forall₂_map_right_iff]
    apply forall₂_limited
    rw [List.forall₂_map_right_iff, List.forall₂_same]
    exact fun p _ => h.shown p
  own := by
    intro e he
    obtain ⟨r, hr, rfl⟩ := List.mem_map.mp he
    have hmem : r ∈ newestFirst rows before := by
      cases limit with
      | none => exact hr
      | some n => exact List.mem_of_mem_take hr
    rw [newestFirst, List.mem_filter, List.mem_reverse, SortBy.mem_sortBy] at hmem
    rw [hget, OrdDict.get?_eq_some_iff.mpr hmem.1]
    rfl

end RowsOf

variable {calls : List (SaverCall V)}

/-- Increasing ids are new ones for an empty saver. -/
theorem nodup_ids {R : Type} {puts : List (SaverPut V)}
    (hids : (puts.map SaverPut.id).Pairwise (· < ·)) :
    ((∅ : OrdDict String R).keys ++ puts.map SaverPut.id).Nodup :=
  hids.imp ne_of_lt

theorem InMemorySaver.rowsOf_run [DecidableEq V]
    (hids : ((putsOf calls).map SaverPut.id).Pairwise (· < ·)) :
    RowsOf (putsOf calls) (InMemorySaver.empty.run calls).storage SaverPut.memoryRow
      (InMemorySaver.empty.run calls).tupleOf where
  entries := by
    rw [storage_run, show empty.storage = (∅ : OrdDict String (StoredCheckpoint V)) from rfl,
      entries_foldl_set _ _ (nodup_ids hids)]
    rfl
  shown _ := ⟨rfl, rfl, rfl, rfl⟩

theorem SqliteSaver.rowsOf_run
    (hids : ((putsOf calls).map SaverPut.id).Pairwise (· < ·)) :
    RowsOf (putsOf calls) (SqliteSaver.empty.run calls).checkpoints SaverPut.sqliteRow
      (SqliteSaver.empty.run calls).tupleOf where
  entries := by
    rw [checkpoints_run, show empty.checkpoints = (∅ : OrdDict String (SqliteCheckpoint V)) from rfl,
      entries_foldl_set _ _ (nodup_ids hids)]
    rfl
  shown _ := ⟨rfl, rfl, rfl, rfl⟩

theorem InMemorySaver.getLatestTuple_eq [DecidableEq V] {s : InMemorySaver V}
    (h : s.storage.keys.Pairwise (· < ·)) : s.getLatestTuple = (s.list none (some 1)).head? := by
  have hnewest : newestFirst s.storage none = s.storage.entries.reverse :=
    LangGraph.newestFirst_eq h fun b hb => by cases hb
  rw [getLatestTuple, latestId, max?_of_pairwise h, list, hnewest, OrdDict.keys,
    List.getLast?_map]
  cases hl : s.storage.entries.getLast? with
  | none =>
    rw [List.getLast?_eq_none_iff] at hl
    simp [hl, limited]
  | some e =>
    have hget : s.storage.get? e.1 = some e.2 :=
      OrdDict.get?_eq_some_iff.mpr (List.mem_of_getLast? hl)
    simpa [limited, getTuple, hget, List.head?_take] using ⟨e.2, hl, rfl⟩

theorem SqliteSaver.getLatestTuple_eq (s : SqliteSaver V) :
    s.getLatestTuple = (s.list none (some 1)).head? := by
  rw [getLatestTuple, list]
  simp [limited, List.head?_take]

/-- Both savers show what a process put in one thread, newest first, as long as the ids
    were drawn for the puts in order; a config without an id stands for the last put. -/
theorem histories_agree [DecidableEq V] (draws : List Uuid6Call) (hdraws : InRange draws)
    (calls : List (SaverCall V)) (hids : ((putsOf calls).map SaverPut.id).Sublist (drawIds draws))
    (before : Option String) (hb : ∀ b ∈ before, b ∈ (putsOf calls).map SaverPut.id)
    (limit : Option Nat) :
    let memory := InMemorySaver.empty.run calls
    let sqlite := SqliteSaver.empty.run calls
    let shown := limited limit (putsBefore before (putsOf calls)).reverse
    (Lists memory.getTuple shown (memory.list before limit) ∧
        Lists sqlite.getTuple shown (sqlite.list before limit)) ∧
      memory.getLatestTuple = (memory.list none (some 1)).head? ∧
        sqlite.getLatestTuple = (sqlite.list none (some 1)).head? := by
  have hpair := (drawIds_pairwise_lt draws hdraws).1.sublist hids
  have hrows := InMemorySaver.rowsOf_run hpair
  have hlists := hrows.lists hpair hb limit fun _ => rfl
  have hsqlite := (SqliteSaver.rowsOf_run hpair).lists hpair hb limit fun _ => rfl
  refine ⟨⟨hlists, hsqlite⟩, ?_, SqliteSaver.getLatestTuple_eq _⟩
  apply InMemorySaver.getLatestTuple_eq
  rw [hrows.keys]
  exact hpair

/-- A put under each id that is drawn. -/
def threadCalls : List (SaverCall Nat) :=
  (drawIds stuckCalls).map fun id => .put ⟨none, ⟨id, ∅, ∅, ∅, none⟩, ⟨"loop", 0, ∅⟩, ∅⟩

theorem histories_agree_stuck :
    let memory := InMemorySaver.empty.run threadCalls
    let sqlite := SqliteSaver.empty.run threadCalls
    let shown := limited (some 1) (putsBefore (drawIds stuckCalls)[2]? (putsOf threadCalls)).reverse
    (Lists memory.getTuple shown (memory.list (drawIds stuckCalls)[2]? (some 1)) ∧
        Lists sqlite.getTuple shown (sqlite.list (drawIds stuckCalls)[2]? (some 1))) ∧
      memory.getLatestTuple = (memory.list none (some 1)).head? ∧
        sqlite.getLatestTuple = (sqlite.list none (some 1)).head? := by
  have hids : (putsOf threadCalls).map SaverPut.id = drawIds stuckCalls := by
    rw [putsOf, threadCalls, List.filterMap_map, List.map_filterMap]
    exact List.filterMap_some
  apply histories_agree stuckCalls (by decide) threadCalls (hids ▸ List.Sublist.refl _)
  intro b hb
  rw [hids]
  exact List.mem_of_getElem? hb

end Calls

end LangGraph
