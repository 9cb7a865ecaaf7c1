import LangGraph.Savers.Base

/- The table of writes that the SQL savers share.

   Correspondence (source ↔ Lean):
     `writes` / `checkpoint_writes` by primary key  ↔ `WritesTable`: (checkpoint_id, (task_id, idx))
                                                       to (channel, value)
     `put_writes`: INSERT OR REPLACE / ON CONFLICT DO UPDATE when every write is
       special, else INSERT OR IGNORE / DO NOTHING  ↔ `putWrites`
     the writes part of the stage-2 query           ↔ `stage2Rows`
     its demux, checkpoint by checkpoint            ↔ `chainWrites` -/
namespace LangGraph

abbrev WritesTable := OrdDict (String × WriteKey) (String × PyVal)

abbrev WriteRow := (String × WriteKey) × (String × PyVal)

def WriteRow.toPending (w : WriteRow) : PendingWrite := ⟨w.1.2.1, w.2.1, w.2.2⟩

/-- `ORDER BY task_id, idx` -/
def orderByKey (rows : List WriteRow) : List WriteRow :=
  SortBy.sortBy (fun w => toLex w.1.2) rows

namespace WritesTable

/-- The rows that `put_writes` inserts. -/
def insertLoop (replace : Bool) (id taskId : String) :
    Nat → List (String × PyVal) → WritesTable → WritesTable
  | _, [], d => d
  | idx, (c, v) :: rest, d =>
    let key := (id, (taskId, writeIdx c idx))
    if replace || !OrdDict.contains d key then
      insertLoop replace id taskId (idx + 1) rest (OrdDict.set d key (c, v))
    else insertLoop replace id taskId (idx + 1) rest d

def putWrites (t : WritesTable) (id : String) (writes : List (String × PyVal))
    (taskId : String) : WritesTable :=
  insertLoop (writes.all fun w => (writesIdxMap w.1).isSome) id taskId 0 writes t

/-- The pending writes of a checkpoint, as `get_tuple` selects them. -/
def pendingAt (t : WritesTable) (id : String) : List PendingWrite :=
  (orderByKey (t.entries.filter fun w => w.1.1 = id)).map WriteRow.toPending

/-- The writes to `ch` at a checkpoint. -/
def writesAt (t : WritesTable) (ch id : String) : List PendingWrite := writesTo ch (t.pendingAt id)

/-- The branch of the stage-2 query for one channel. -/
def stage2Rows (t : WritesTable) (ch : String) (chain : List String) : List WriteRow :=
  t.entries.filter fun w => w.2.1 = ch ∧ w.1.1 ∈ chain

end WritesTable

/-- The writes of a chain, oldest checkpoint first, each checkpoint's sorted by
    `(task_id, idx)`. -/
def chainWrites (rows : List WriteRow) (chain : List String) : List PendingWrite :=
  chain.reverse.flatMap fun cid =>
    (orderByKey (rows.filter fun w => w.1.1 = cid)).map WriteRow.toPending

/-- Stage 2 reads the writes of a chain as `get_tuple` reads them. -/
theorem WritesTable.chainWrites_stage2Rows (t : WritesTable) (ch : String) (chain : List String) :
    chainWrites (t.stage2Rows ch chain) chain = chain.reverse.flatMap (t.writesAt ch) := by
  have hrow : ∀ cid ∈ chain,
      (orderByKey ((t.stage2Rows ch chain).filter fun w => w.1.1 = cid)).map WriteRow.toPending =
        t.writesAt ch cid := by
    intro cid hcid
    have hkeys : ∀ a ∈ t.entries.filter fun w => w.1.1 = cid,
        ∀ b ∈ t.entries.filter fun w => w.1.1 = cid, toLex a.1.2 = toLex b.1.2 → a = b := by
      intro a ha b hb hab
      have ha' := List.mem_filter.mp ha
      have hb' := List.mem_filter.mp hb
      refine List.inj_on_of_nodup_map t.nodup ha'.1 hb'.1 (Prod.ext ?_ (toLex_inj.mp hab))
      exact (of_decide_eq_true ha'.2).trans (of_decide_eq_true hb'.2).symm
    have hfilter : ((t.stage2Rows ch chain).filter fun w => w.1.1 = cid) =
        (t.entries.filter fun w => w.1.1 = cid).filter fun w => decide (w.2.1 = ch) := by
      rw [stage2Rows, List.filter_filter, List.filter_filter]
      refine List.filter_congr ?_
      intro w _
      by_cases hw : w.1.1 = cid
      · simp [hw, hcid]
      · simp [hw]
    rw [hfilter, orderByKey, SortBy.sortBy_filter _ hkeys, WritesTable.writesAt, writesTo,
      WritesTable.pendingAt, List.filter_map]
    rfl
  rw [chainWrites]
  refine List.flatMap_congr ?_
  intro cid hcid
  exact hrow cid (List.mem_reverse.mp hcid)

end LangGraph
