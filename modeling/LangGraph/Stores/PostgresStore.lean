import LangGraph.Stores.SqliteStore

/- The put batches of `PostgresStore` (checkpoint-postgres).

   Correspondence (source ↔ Lean):
     `INSERT INTO store … ON CONFLICT (prefix, key) DO UPDATE` ↔ `insertRows`
     `INSERT INTO store_vectors … ON CONFLICT … DO UPDATE` ↔ `upsertVectors`
     `_batch_put_ops`                               ↔ `putBatch`
   The foreign key always cascades here. A statement that meets one row twice
   raises, and then the batch has no effect (`none`). -/
namespace LangGraph.Stores

structure PostgresStore (E : Type) where
  /-- `index_config["__tokenized_fields"]`, if there is an index. -/
  indexFields : Option (List (String × TokenizedPath))
  floatRepr : BitVec 64 → String
  embedDocuments : List String → List E

namespace PostgresStore
variable {E : Type}

/-- A row that conflicts keeps its `created_at`. -/
def insertRows (rows : List (RowKey × StoreRow)) (t : Tables E) : Option (Tables E) :=
  if (rows.map Prod.fst).Nodup then
    some { t with
      store := t.store.setAll (rows.map fun r =>
        (r.1, { r.2 with createdAt := ((t.store.get? r.1).map StoreRow.createdAt).getD r.2.createdAt })) }
  else none

def upsertVectors (rows : List ((RowKey × String) × E)) (t : Tables E) : Option (Tables E) :=
  if (rows.map Prod.fst).Nodup then some { t with vectors := t.vectors.setAll rows } else none

def putBatch (store : PostgresStore E) (clock : Clock) (ops : List PutOp) (t : Tables E) :
    Option (Tables E) :=
  let t := (deleteWrites ops).foldl (fun t w => w.apply true t) t
  (if inserts ops = [] then some t
    else insertRows ((inserts ops).map (SqliteStore.insertedRow clock)) t).bind fun t =>
  if embeddingParams store.indexFields store.floatRepr ops = [] then some t
  else upsertVectors (vectorRows store.indexFields store.floatRepr store.embedDocuments ops) t

end PostgresStore
end LangGraph.Stores
