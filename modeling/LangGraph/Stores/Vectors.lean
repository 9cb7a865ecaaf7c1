import LangGraph.Lib.Machine
import LangGraph.Stores.PostgresStore

/- The vectors of a SQL store over a history of put batches.

   The state is the tables and, for each namespace and key, the last put. A
   batch that succeeds takes one to the next. `Follows`: the rows of
   `store_vectors` of a key are one for each text that its last put indexed.
   What a statement does not remove stays, so a batch has to write every field
   anew that the last put of the key had (`Reindexes`), unless the foreign key
   removes the old rows first: in Postgres for a delete, in SQLite for every
   put, but only with foreign keys enabled on the connection. -/
namespace LangGraph.Stores

inductive Backend where
  | sqlite (foreignKeys : Bool)
  | postgres
  deriving DecidableEq, Repr

/-- What the stores have in common: the fields of the index and the embedding. -/
structure IndexConfig (E : Type) where
  fields : List (String × TokenizedPath)
  floatRepr : BitVec 64 → String
  embedDocuments : List String → List E

structure History (E : Type) where
  tables : Tables E
  lastPut : OrdDict (Namespace × String) PutOp

/-- The foreign key removes the old rows of what is put. -/
def Backend.cascades : Backend → PutOp → Bool
  | .sqlite foreignKeys, _ => foreignKeys
  | .postgres, op => op.value.isNone

namespace History
variable {E : Type} (cfg : IndexConfig E) (backend : Backend)

def init : History E := ⟨Tables.empty, ∅⟩

/-- No statement raises. -/
def calm (clock : Clock) : Env := ⟨fun _ _ => false, fun _ _ => clock⟩

/-- The tables after a batch of puts, unless it raises. -/
def putBatch (clock : Clock) (ops : List PutOp) (t : Tables E) : Option (Tables E) :=
  match backend with
  | .sqlite foreignKeys =>
    let store : SqliteStore E :=
      { foreignKeys, indexFields := some cfg.fields, refreshOnRead := false, floatText := cfg.floatRepr,
        floatRepr := cfg.floatRepr, embedDocuments := cfg.embedDocuments, find := fun _ _ => [] }
    match store.batch (calm clock) (ops.map .put) t with
    | (t', none) => some t'
    | (_, some _) => none
  | .postgres =>
    let store : PostgresStore E := ⟨some cfg.fields, cfg.floatRepr, cfg.embedDocuments⟩
    store.putBatch clock ops t

def step (h : History E) (batch : Clock × List PutOp) : Option (History E) :=
  (putBatch cfg backend batch.1 batch.2 h.tables).map fun t =>
    ⟨t, h.lastPut.setAll (batch.2.map fun op => ((op.ns, op.key), op))⟩

/-- The fields and texts that the last put of a key indexed. -/
def lastTexts (h : History E) (x : Namespace × String) : List (String × String) :=
  (h.lastPut.get? x).elim [] (indexedTexts cfg.floatRepr cfg.fields)

/-- The rows of `store_vectors` of a key. -/
def vectorsOf (t : Tables E) (k : RowKey) : List (String × E) :=
  t.vectors.entries.filterMap fun e => if e.1.1 = k then some (e.1.2, e.2) else none

/-- No other namespace that has been used with the key has the same text. -/
def Alone (d : OrdDict (Namespace × String) PutOp) (ns : Namespace) (key : String) : Prop :=
  ∀ x ∈ d.keys, x.2 = key → namespaceToText x.1 = namespaceToText ns → x.1 = ns

instance (d : OrdDict (Namespace × String) PutOp) (ns : Namespace) (key : String) :
    Decidable (Alone d ns key) :=
  inferInstanceAs (Decidable (∀ x ∈ d.keys, _))

/-- One row for each text of the last put, with its embedding. -/
def Follows (embed : String → E) (h : History E) : Prop :=
  ∀ ns key, Alone h.lastPut ns key →
    (vectorsOf h.tables (namespaceToText ns, key)).Perm
      ((lastTexts cfg h (ns, key)).map fun f => (f.1, embed f.2))

/-- What a batch has to do: its namespaces are told apart by their texts, no two
    texts of a put share a field, and a put writes every field of the last put of
    its key, if the foreign key does not remove them. -/
def Reindexes (h : History E) (batch : Clock × List PutOp) : Prop :=
  ∀ op ∈ dedupped batch.2,
    Alone (h.lastPut.setAll (batch.2.map fun op => ((op.ns, op.key), op))) op.ns op.key ∧
      ((indexedTexts cfg.floatRepr cfg.fields op).map Prod.fst).Nodup ∧
      (backend.cascades op = true ∨ ∀ f ∈ (lastTexts cfg h (op.ns, op.key)).map Prod.fst,
        f ∈ (indexedTexts cfg.floatRepr cfg.fields op).map Prod.fst)

instance (h : History E) (batch : Clock × List PutOp) : Decidable (Reindexes cfg backend h batch) :=
  inferInstanceAs (Decidable (∀ op ∈ dedupped batch.2, _))

/-! ## What a batch does -/

/-- The rows that the INSERT writes. -/
def insertWrites (clock : Clock) (ops : List PutOp) : List (Write E) :=
  if inserts ops = [] then [] else [.insert ((inserts ops).map (SqliteStore.insertedRow clock))]

theorem any_drops_insertWrites {clock : Clock} {ops : List PutOp} {k : RowKey} :
    (insertWrites (E := E) clock ops).any (fun w => w.drops k) = true ↔
      ∃ op ∈ inserts ops, rowKey op = k := by
  unfold insertWrites
  split
  · next h => simp [h]
  · simp [Write.drops, Write.names, Write.isRefresh, SqliteStore.insertedRow]

/-- What a batch that succeeds leaves of the rows. -/
structure BatchSpec (ops : List PutOp) (t t' : Tables E) : Prop where
  inserted : ∀ op ∈ inserts ops, t'.store.contains (rowKey op) = true
  kept : ∀ k, (∀ op ∈ dedupped ops, rowKey op ≠ k) → t'.store.contains k = t.store.contains k
  vectors : ∀ k f, t'.vectors.get? (k, f) =
    ((OrdDict.ofList (vectorRows (some cfg.fields) cfg.floatRepr cfg.embedDocuments ops)).get? (k, f)).or
      (if t.store.contains k = true ∧ (∃ op ∈ dedupped ops, rowKey op = k ∧ backend.cascades op = true)
        then none else t.vectors.get? (k, f))

theorem pairwise_putWrites (clock : Clock) (ops : List PutOp) :
    (deleteWrites (E := E) ops ++ insertWrites clock ops).Pairwise Write.Precedes := by
  apply List.pairwise_append.mpr
  refine ⟨pairwise_deleteWrites ops, ?_, ?_⟩
  · unfold insertWrites
    split
    · exact List.Pairwise.nil
    · exact List.pairwise_singleton _ _
  · intro w hw w' hw'
    obtain ⟨_, _, rfl⟩ := isDelete_of_mem_deleteWrites hw
    unfold insertWrites at hw'
    split at hw'
    · cases hw'
    · cases List.mem_singleton.mp hw'
      rfl

theorem not_isUpsert_putWrites {clock : Clock} {ops : List PutOp} {w : Write E}
    (hw : w ∈ deleteWrites ops ++ insertWrites clock ops) : w.isUpsert = false := by
  rcases List.mem_append.mp hw with hw | hw
  · obtain ⟨_, _, rfl⟩ := isDelete_of_mem_deleteWrites hw
    rfl
  · unfold insertWrites at hw
    split at hw
    · cases hw
    · cases List.mem_singleton.mp hw
      rfl

theorem drops_of_names {w : Write E} (hw : w.isRefresh = false) (k : RowKey) :
    w.drops k = w.names k := by simp [Write.drops, hw]

theorem not_isRefresh_putWrites {clock : Clock} {ops : List PutOp} {w : Write E}
    (hw : w ∈ deleteWrites ops ++ insertWrites clock ops) : w.isRefresh = false := by
  rcases List.mem_append.mp hw with hw | hw
  · obtain ⟨_, _, rfl⟩ := isDelete_of_mem_deleteWrites hw
    rfl
  · unfold insertWrites at hw
    split at hw
    · cases hw
    · cases List.mem_singleton.mp hw
      rfl

theorem any_drops_putWrites {clock : Clock} {ops : List PutOp} {k : RowKey} :
    (deleteWrites (E := E) ops ++ insertWrites clock ops).any (fun w => w.drops k) = true ↔
      ∃ op ∈ dedupped ops, rowKey op = k := by
  rw [List.any_append, Bool.or_eq_true, any_drops_deleteWrites, any_drops_insertWrites]
  constructor
  · rintro (⟨op, hop, hk⟩ | ⟨op, hop, hk⟩)
    · exact ⟨op, (List.mem_filter.mp hop).1, hk⟩
    · exact ⟨op, (List.mem_filter.mp hop).1, hk⟩
  · rintro ⟨op, hop, hk⟩
    cases hv : op.value with
    | none => exact Or.inl ⟨op, List.mem_filter.mpr ⟨hop, by simp [hv]⟩, hk⟩
    | some v => exact Or.inr ⟨op, List.mem_filter.mpr ⟨hop, by simp [hv]⟩, hk⟩

/-- The tables after the DELETE and the INSERT statements. -/
def afterRows (foreignKeys : Bool) (clock : Clock) (ops : List PutOp) (t : Tables E) : Tables E :=
  (deleteWrites ops ++ insertWrites clock ops).foldl (fun t (w : Write E) => w.apply foreignKeys t) t

theorem contains_afterRows_inserted (foreignKeys : Bool) (clock : Clock) {ops : List PutOp}
    (t : Tables E) {op : PutOp} (hop : op ∈ inserts ops) :
    (afterRows foreignKeys clock ops t).store.contains (rowKey op) = true := by
  have hne : inserts ops ≠ [] := List.ne_nil_of_mem hop
  have hkey : rowKey op ∈ ((inserts ops).map (SqliteStore.insertedRow clock)).map Prod.fst := by
    rw [List.map_map]
    exact List.mem_map_of_mem (f := rowKey) hop
  obtain ⟨row, -, hrow⟩ := OrdDict.exists_get?_setAll OrdDict.empty hkey
  have hrow : (OrdDict.ofList ((inserts ops).map (SqliteStore.insertedRow clock))).get? (rowKey op) =
      some row := hrow
  unfold OrdDict.contains afterRows
  rw [Write.get?_foldl_apply, List.foldl_append, insertWrites, if_neg hne, List.foldl_cons,
    List.foldl_nil]
  simp only [Write.onRow, hrow, Option.some_or, Option.isSome_some]

theorem contains_afterRows_kept (foreignKeys : Bool) (clock : Clock) {ops : List PutOp}
    (t : Tables E) {k : RowKey} (hk : ∀ op ∈ dedupped ops, rowKey op ≠ k) :
    (afterRows foreignKeys clock ops t).store.contains k = t.store.contains k := by
  have hnames : ∀ w ∈ deleteWrites (E := E) ops ++ insertWrites clock ops, w.names k = false := by
    intro w hw
    rw [← drops_of_names (not_isRefresh_putWrites hw)]
    cases hdrop : w.drops k with
    | false => rfl
    | true =>
      obtain ⟨op, hop, hkey⟩ := any_drops_putWrites.mp (List.any_eq_true.mpr ⟨w, hw, hdrop⟩)
      exact absurd hkey (hk op hop)
  unfold OrdDict.contains afterRows
  rw [Write.get?_foldl_of_not_names foreignKeys hnames]

/-! The SQLite batch. -/

/-- The steps of a batch of puts write the same at any time and on any tables. -/
def isPutStep : SqliteStore.Step E → Bool
  | .compute none | .delete _ _ | .insert _ | .upsert _ => true
  | _ => false

theorem run_calm (store : SqliteStore E) (clock : Clock) : ∀ (ss : List (SqliteStore.Step E)) (i : Nat)
    (t : Tables E), (∀ s ∈ ss, isPutStep s = true) → store.run (calm clock) i ss t =
      ((ss.flatMap fun s => s.writes store (calm clock) 0 Tables.empty).foldl
        (fun t w => w.apply store.foreignKeys t) t, none)
  | [], _, _, _ => rfl
  | s :: ss, i, t, h => by
    have hs := h s List.mem_cons_self
    have hraises : s.raises (calm clock) i = none := by
      cases s with
      | compute err => cases err <;> first | rfl | cases hs
      | _ => rfl
    have hwrites : s.writes store (calm clock) i t = s.writes store (calm clock) 0 Tables.empty := by
      cases s with
      | refresh _ _ => cases hs
      | search _ _ => cases hs
      | _ => rfl
    unfold SqliteStore.run
    rw [hraises, List.flatMap_cons, List.foldl_append, ← hwrites]
    exact run_calm store clock ss (i + 1) _ fun s' hs' => h s' (List.mem_cons_of_mem _ hs')

theorem steps_puts (store : SqliteStore E) (ops : List PutOp) :
    store.steps (ops.map .put) = SqliteStore.batchPutOps store ops := by
  have hget : SqliteStore.getOps (ops.map .put) = [] := by
    simp [SqliteStore.getOps, List.filterMap_map]
  have hsearch : SqliteStore.searchOps (ops.map .put) = [] := by
    simp [SqliteStore.searchOps, List.filterMap_map]
  have hlist : SqliteStore.listOps (ops.map .put) = [] := by
    simp [SqliteStore.listOps, List.filterMap_map]
  have hput : SqliteStore.putOps (ops.map .put) = ops := by
    simp [SqliteStore.putOps, List.filterMap_map]
  unfold SqliteStore.steps
  rw [hget, hsearch, hlist, hput]
  rfl

theorem vectorRows_nil {ops : List PutOp}
    (h : embeddingParams (some cfg.fields) cfg.floatRepr ops = []) :
    vectorRows (some cfg.fields) cfg.floatRepr cfg.embedDocuments ops = [] := by
  unfold vectorRows
  rw [h]
  rfl

theorem isPutStep_batchPutOps (store : SqliteStore E) (ops : List PutOp) :
    ∀ s ∈ SqliteStore.batchPutOps store ops, isPutStep s = true := by
  intro s hs
  unfold SqliteStore.batchPutOps at hs
  split at hs
  · cases hs
  · simp only [List.mem_append, List.mem_map] at hs
    have hone : ∀ (p : Prop) [Decidable p] (s' : SqliteStore.Step E), isPutStep s' = true →
        s ∈ (if p then [] else [s']) → isPutStep s = true := by
      intro p _ s' hs' hmem
      split at hmem
      · cases hmem
      · rw [List.mem_singleton.mp hmem]
        exact hs'
    rcases hs with (((hs | hs) | ⟨g, -, rfl⟩) | hs) | hs
    · rw [List.mem_singleton.mp hs]
      rfl
    · exact hone _ _ rfl hs
    · rfl
    · exact hone _ _ rfl hs
    · exact hone _ _ rfl hs

theorem writes_batchPutOps (store : SqliteStore E) (clock : Clock) (ops : List PutOp) :
    (SqliteStore.batchPutOps store ops).flatMap
        (fun s => s.writes store (calm clock) 0 Tables.empty) =
      deleteWrites ops ++ insertWrites clock ops ++
        (if embeddingParams store.indexFields store.floatRepr ops = [] then [] else
          [.upsert (vectorRows store.indexFields store.floatRepr store.embedDocuments ops)]) := by
  unfold SqliteStore.batchPutOps
  split
  · next h =>
    subst h
    cases hf : store.indexFields <;> rfl
  · have hdel : ∀ gs : List (Namespace × List String),
        (gs.map fun g => SqliteStore.Step.delete (E := E) (namespaceToText g.1) g.2).flatMap
          (fun s => s.writes store (calm clock) 0 Tables.empty) =
        gs.map fun g => .delete (namespaceToText g.1) g.2 := by
      intro gs
      induction gs with
      | nil => rfl
      | cons g gs ih => simpa [SqliteStore.Step.writes] using ih
    simp only [List.flatMap_append, hdel]
    unfold deleteWrites insertWrites
    split <;> split <;> simp [SqliteStore.Step.writes, calm]

theorem get?_upsert (foreignKeys : Bool) (rows : List ((RowKey × String) × E)) (t : Tables E)
    (v : RowKey × String) : ((Write.upsert rows).apply foreignKeys t).vectors.get? v =
      ((OrdDict.ofList rows).get? v).or (t.vectors.get? v) := by
  have hcascade : ((Write.upsert rows).cascade t).get? v = t.vectors.get? v := by
    rw [Write.cascade, OrdDict.get?_filterMap]
    cases t.vectors.get? v <;> rfl
  show ((if foreignKeys then _ else t.vectors).setAll rows).get? v = _
  rw [OrdDict.get?_setAll_eq_or]
  cases foreignKeys with
  | false => rfl
  | true => exact congrArg _ hcascade

theorem putBatch_sqlite (foreignKeys : Bool) (clock : Clock) (ops : List PutOp) (t : Tables E) :
    ∃ t', putBatch cfg (.sqlite foreignKeys) clock ops t = some t' ∧
      t'.store = (afterRows foreignKeys clock ops t).store ∧
      ∀ v, t'.vectors.get? v =
        ((OrdDict.ofList (vectorRows (some cfg.fields) cfg.floatRepr cfg.embedDocuments ops)).get? v).or
          ((afterRows foreignKeys clock ops t).vectors.get? v) := by
  have hbatch : ∀ store : SqliteStore E, store.foreignKeys = foreignKeys →
      store.batch (calm clock) (ops.map .put) t =
        ((if embeddingParams store.indexFields store.floatRepr ops = [] then [] else
            [Write.upsert (vectorRows store.indexFields store.floatRepr store.embedDocuments ops)]).foldl
              (fun t w => w.apply foreignKeys t) (afterRows foreignKeys clock ops t), none) := by
    intro store hfk
    unfold SqliteStore.batch SqliteStore.cursor afterRows
    rw [steps_puts, run_calm store clock _ 0 t (isPutStep_batchPutOps store ops), hfk,
      writes_batchPutOps, List.foldl_append]
  unfold putBatch
  simp only
  rw [hbatch _ rfl]
  refine ⟨_, rfl, ?_⟩
  simp only
  split
  · next h =>
    rw [vectorRows_nil cfg h]
    exact ⟨rfl, fun v => rfl⟩
  · exact ⟨rfl, fun v => get?_upsert foreignKeys _ _ v⟩

theorem batchSpec_sqlite {foreignKeys : Bool} {clock : Clock} {ops : List PutOp} {t t' : Tables E}
    (h : putBatch cfg (.sqlite foreignKeys) clock ops t = some t') :
    BatchSpec cfg (.sqlite foreignKeys) ops t t' := by
  obtain ⟨t₁, ht₁, hstore, hvectors⟩ := putBatch_sqlite cfg foreignKeys clock ops t
  cases ht₁.symm.trans h
  refine ⟨?_, ?_, ?_⟩
  · intro op hop
    rw [hstore]
    exact contains_afterRows_inserted foreignKeys clock t hop
  · intro k hk
    rw [hstore]
    exact contains_afterRows_kept foreignKeys clock t hk
  · intro k f
    have hrows : (afterRows foreignKeys clock ops t).vectors.get? (k, f) = _ :=
      Write.get?_vectors_foldl foreignKeys (k, f) _ t (pairwise_putWrites clock ops)
        fun w hw => not_isUpsert_putWrites hw
    rw [hvectors, hrows]
    simp only [any_drops_putWrites]
    congr 1
    apply if_congr _ rfl rfl
    constructor
    · rintro ⟨hfk, ⟨op, hop, hk⟩, hstored⟩
      exact ⟨hstored, op, hop, hk, hfk⟩
    · rintro ⟨hstored, op, hop, hk, hfk⟩
      exact ⟨hfk, ⟨op, hop, hk⟩, hstored⟩

theorem batchSpec_postgres {clock : Clock} {ops : List PutOp} {t t' : Tables E}
    (h : putBatch cfg .postgres clock ops t = some t') : BatchSpec cfg .postgres ops t t' := by
  obtain ⟨t₂, ht₂, ht'⟩ : ∃ t₂ : Tables E,
      (if inserts ops = [] then some ((deleteWrites ops).foldl (fun t w => w.apply true t) t)
        else PostgresStore.insertRows ((inserts ops).map (SqliteStore.insertedRow clock))
          ((deleteWrites ops).foldl (fun t w => w.apply true t) t)) = some t₂ ∧
      (if embeddingParams (some cfg.fields) cfg.floatRepr ops = [] then some t₂
        else PostgresStore.upsertVectors
          (vectorRows (some cfg.fields) cfg.floatRepr cfg.embedDocuments ops) t₂) = some t' :=
    Option.bind_eq_some_iff.mp h
  generalize ht₁ : (deleteWrites ops).foldl (fun t (w : Write E) => w.apply true t) t = t₁ at ht₂
  -- the INSERT, if there is one, changes the rows of the inserts only
  have hinsert : (∀ op ∈ inserts ops, t₂.store.contains (rowKey op) = true) ∧
      (∀ k, (∀ op ∈ inserts ops, rowKey op ≠ k) → t₂.store.contains k = t₁.store.contains k) ∧
      t₂.vectors = t₁.vectors := by
    by_cases hne : inserts ops = []
    · rw [if_pos hne] at ht₂
      cases ht₂
      simp [hne]
    · rw [if_neg hne, PostgresStore.insertRows] at ht₂
      split at ht₂
      · cases ht₂
        refine ⟨?_, ?_, rfl⟩
        · intro op hop
          apply OrdDict.contains_iff.mpr
          obtain ⟨row, -, hrow⟩ := OrdDict.exists_get?_setAll (k := rowKey op)
            (l := ((inserts ops).map (SqliteStore.insertedRow clock)).map fun r =>
              (r.1, { r.2 with createdAt := ((t₁.store.get? r.1).map StoreRow.createdAt).getD r.2.createdAt }))
            t₁.store (by
              rw [List.map_map, List.map_map]
              exact List.mem_map_of_mem (f := rowKey) hop)
          exact OrdDict.mem_keys_iff.mpr ⟨row, hrow⟩
        · intro k hk
          unfold OrdDict.contains
          rw [OrdDict.get?_setAll_of_not_mem]
          rw [List.map_map, List.map_map]
          intro hmem
          obtain ⟨op, hop, hkey⟩ := List.mem_map.mp hmem
          exact hk op hop hkey
      · cases ht₂
  have hupsert : t'.store = t₂.store ∧ ∀ v, t'.vectors.get? v =
      ((OrdDict.ofList (vectorRows (some cfg.fields) cfg.floatRepr cfg.embedDocuments ops)).get? v).or
        (t₂.vectors.get? v) := by
    by_cases hne : embeddingParams (some cfg.fields) cfg.floatRepr ops = []
    · rw [if_pos hne] at ht'
      cases ht'
      rw [vectorRows_nil cfg hne]
      exact ⟨rfl, fun v => rfl⟩
    · rw [if_neg hne, PostgresStore.upsertVectors] at ht'
      split at ht'
      · cases ht'
        exact ⟨rfl, fun v => OrdDict.get?_setAll_eq_or v _ _⟩
      · cases ht'
  refine ⟨?_, ?_, ?_⟩
  · intro op hop
    rw [hupsert.1]
    exact hinsert.1 op hop
  · intro k hk
    have hnames : ∀ w ∈ deleteWrites (E := E) ops, w.names k = false := by
      intro w hw
      have hw' : w ∈ deleteWrites ops ++ insertWrites clock ops := List.mem_append_left _ hw
      rw [← drops_of_names (not_isRefresh_putWrites hw')]
      cases hdrop : w.drops k with
      | false => rfl
      | true =>
        obtain ⟨op, hop, hkey⟩ := any_drops_putWrites.mp (List.any_eq_true.mpr ⟨w, hw', hdrop⟩)
        exact absurd hkey (hk op hop)
    rw [hupsert.1, hinsert.2.1 k fun op hop => hk op (List.mem_filter.mp hop).1, ← ht₁]
    unfold OrdDict.contains
    rw [Write.get?_foldl_of_not_names true hnames]
  · intro k f
    rw [hupsert.2, hinsert.2.2, ← ht₁, Write.get?_vectors_foldl true (k, f) _ t (pairwise_deleteWrites ops)
      fun w hw => @not_isUpsert_putWrites _ clock _ _ (List.mem_append_left _ hw)]
    simp only [any_drops_deleteWrites, true_and]
    congr 1
    apply if_congr _ rfl rfl
    constructor
    · rintro ⟨⟨op, hop, hk⟩, hstored⟩
      obtain ⟨hop, hv⟩ := List.mem_filter.mp hop
      exact ⟨hstored, op, hop, hk, hv⟩
    · rintro ⟨hstored, op, hop, hk, hv⟩
      exact ⟨⟨op, List.mem_filter.mpr ⟨hop, hv⟩, hk⟩, hstored⟩

theorem batchSpec {clock : Clock} {ops : List PutOp} {t t' : Tables E}
    (h : putBatch cfg backend clock ops t = some t') : BatchSpec cfg backend ops t t' := by
  cases backend with
  | sqlite foreignKeys => exact batchSpec_sqlite cfg h
  | postgres => exact batchSpec_postgres cfg h

/-! ## What a run keeps -/

variable (embed : String → E)

/-- What the rows of a reachable state are. -/
structure Sound (h : History E) : Prop where
  alone : ∀ x ∈ h.lastPut.keys, Alone h.lastPut x.1 x.2
  stored : ∀ x op, h.lastPut.get? x = some op → op.value ≠ none →
    h.tables.store.contains (namespaceToText x.1, x.2) = true
  nodup : ∀ x, ((lastTexts cfg h x).map Prod.fst).Nodup
  rows : ∀ x ∈ h.lastPut.keys, ∀ f e,
    h.tables.vectors.get? ((namespaceToText x.1, x.2), f) = some e ↔
      ∃ text, (f, text) ∈ lastTexts cfg h x ∧ e = embed text
  known : ∀ k f e, h.tables.vectors.get? (k, f) = some e →
    ∃ x ∈ h.lastPut.keys, (namespaceToText x.1, x.2) = k

theorem Sound.init : Sound cfg embed init := by
  refine ⟨?_, ?_, ?_, ?_, ?_⟩
  · intro x hx
    cases hx
  · intro x op hx
    cases hx
  · exact fun x => List.nodup_nil
  · intro x hx
    cases hx
  · intro k f e hk
    cases hk

variable {cfg backend embed}

/-- A row of a key that is known is one of its last put. -/
theorem Sound.rows_known {h : History E} (hs : Sound cfg embed h) {d : OrdDict (Namespace × String) PutOp}
    (hd : ∀ x ∈ h.lastPut.keys, x ∈ d.keys) {x : Namespace × String} (hx : Alone d x.1 x.2) {f : String}
    {e : E} (hget : h.tables.vectors.get? ((namespaceToText x.1, x.2), f) = some e) :
    ∃ op, h.lastPut.get? x = some op ∧ op.value ≠ none ∧
      f ∈ (indexedTexts cfg.floatRepr cfg.fields op).map Prod.fst := by
  obtain ⟨y, hy, hkey⟩ := hs.known _ f e hget
  obtain ⟨htext, hkey⟩ := Prod.ext_iff.mp hkey
  have hyx : y = x := Prod.ext (hx y (hd y hy) hkey htext) hkey
  rw [hyx] at hy
  obtain ⟨text, htext, -⟩ := (hs.rows x hy f e).mp hget
  obtain ⟨op, hop⟩ := OrdDict.mem_keys_iff.mp hy
  rw [lastTexts, hop] at htext
  refine ⟨op, hop, ?_, List.mem_map_of_mem htext⟩
  intro hv
  rw [Option.elim_some, indexedTexts, hv] at htext
  cases htext

theorem dedupped_inj {ops : List PutOp} {d : OrdDict (Namespace × String) PutOp}
    (hd : ∀ op ∈ ops, (op.ns, op.key) ∈ d.keys) {op op' : PutOp} (hop : op ∈ dedupped ops)
    (hop' : op' ∈ dedupped ops) (halone : Alone d op.ns op.key) (hkey : rowKey op' = rowKey op) :
    op' = op := by
  obtain ⟨htext, hk⟩ := Prod.ext_iff.mp hkey
  have hmem := (lastOps_get? (mem_dedupped.mp hop')).1
  have hns : op'.ns = op.ns := halone (op'.ns, op'.key) (hd op' hmem) hk htext
  have hget := mem_dedupped.mp hop'
  rw [hns, show op'.key = op.key from hk, mem_dedupped.mp hop, Option.some.injEq] at hget
  exact hget.symm

/-- What the last statement writes for a put. -/
theorem get?_vectorRows (hembed : ∀ texts, cfg.embedDocuments texts = texts.map embed)
    {ops : List PutOp} {d : OrdDict (Namespace × String) PutOp}
    (hd : ∀ op ∈ ops, (op.ns, op.key) ∈ d.keys)
    (hok : ∀ op ∈ dedupped ops, Alone d op.ns op.key ∧
      ((indexedTexts cfg.floatRepr cfg.fields op).map Prod.fst).Nodup)
    {k : RowKey} {f : String} {e : E} :
    (OrdDict.ofList (vectorRows (some cfg.fields) cfg.floatRepr cfg.embedDocuments ops)).get? (k, f) =
        some e ↔
      ∃ op ∈ dedupped ops, rowKey op = k ∧
        ∃ text, (f, text) ∈ indexedTexts cfg.floatRepr cfg.fields op ∧ e = embed text := by
  have hmem : ∀ v e, (v, e) ∈ vectorRows (some cfg.fields) cfg.floatRepr cfg.embedDocuments ops ↔
      ∃ op ∈ inserts ops, rowKey op = v.1 ∧
        ∃ text, (v.2, text) ∈ indexedTexts cfg.floatRepr cfg.fields op ∧ e = embed text :=
    fun v e => mem_vectorRows hembed
  rw [OrdDict.get?_ofList_eq_some_iff, hmem]
  · constructor
    · rintro ⟨op, hop, hrest⟩
      exact ⟨op, (List.mem_filter.mp hop).1, hrest⟩
    · rintro ⟨op, hop, hk, text, htext, he⟩
      refine ⟨op, List.mem_filter.mpr ⟨hop, ?_⟩, hk, text, htext, he⟩
      cases hv : op.value with
      | none =>
        rw [indexedTexts, hv] at htext
        cases htext
      | some v => rfl
  · rintro ⟨v, e⟩ he ⟨v', e'⟩ he' rfl
    obtain ⟨op, hop, hk, text, htext, rfl⟩ := (hmem _ _).mp he
    obtain ⟨op', hop', hk', text', htext', rfl⟩ := (hmem _ _).mp he'
    have hop := (List.mem_filter.mp hop).1
    have hop' := (List.mem_filter.mp hop').1
    have hsame : op' = op := dedupped_inj hd hop hop' (hok op hop).1 (hk'.trans hk.symm)
    rw [hsame] at htext'
    have htexts : (v.2, text) = (v.2, text') :=
      List.inj_on_of_nodup_map (hok op hop).2 htext htext' rfl
    have htexts : text = text' := congrArg Prod.snd htexts
    rw [htexts]

/-- Namespaces that are told apart stay so if the batch keeps its own apart. -/
theorem alone_setAll {d : OrdDict (Namespace × String) PutOp} {ops : List PutOp}
    (hd : ∀ x ∈ d.keys, Alone d x.1 x.2)
    (hops : ∀ op ∈ dedupped ops, Alone (d.setAll (ops.map fun op => ((op.ns, op.key), op))) op.ns op.key) :
    ∀ x ∈ (d.setAll (ops.map fun op => ((op.ns, op.key), op))).keys,
      Alone (d.setAll (ops.map fun op => ((op.ns, op.key), op))) x.1 x.2 := by
  have hput : ∀ x op, (lastOps ops).get? x = some op →
      Alone (d.setAll (ops.map fun op => ((op.ns, op.key), op))) x.1 x.2 := by
    intro x op hx
    obtain ⟨-, rfl⟩ := lastOps_get? hx
    exact hops op (mem_dedupped.mpr hx)
  intro x hx y hy hkey htext
  cases mem_keys_setAll_ops.mp hx with
  | inl hnew =>
    obtain ⟨op, hop⟩ := hnew
    exact hput x op hop y hy hkey htext
  | inr hxold =>
    cases mem_keys_setAll_ops.mp hy with
    | inl hnew =>
      obtain ⟨op, hop⟩ := hnew
      exact (hput y op hop x hx hkey.symm htext.symm).symm
    | inr hyold => exact hd x hxold y hyold hkey htext

theorem lastTexts_setAll (t' : Tables E) (h : History E) (ops : List PutOp) (x : Namespace × String) :
    lastTexts cfg ⟨t', h.lastPut.setAll (ops.map fun op => ((op.ns, op.key), op))⟩ x =
      ((lastOps ops).get? x).elim (lastTexts cfg h x) (indexedTexts cfg.floatRepr cfg.fields) := by
  simp only [lastTexts, get?_setAll_ops]
  cases (lastOps ops).get? x with
  | none => rfl
  | some op => rfl

/-- The keys of a batch are the only ones whose rows its statements name. -/
theorem Reindexes.rowKey_ne {h : History E} {clock : Clock} {ops : List PutOp}
    (hok : Reindexes cfg backend h (clock, ops)) {x : Namespace × String} (hx : x ∈ h.lastPut.keys)
    (hnone : (lastOps ops).get? x = none) :
    ∀ op ∈ dedupped ops, rowKey op ≠ (namespaceToText x.1, x.2) := by
  intro op hop hkey
  obtain ⟨htext, hk⟩ := Prod.ext_iff.mp hkey
  have hxop : x.1 = op.ns :=
    (hok op hop).1 x (mem_keys_setAll_ops.mpr (Or.inr hx)) hk.symm htext.symm
  have hx' : x = (op.ns, op.key) := Prod.ext hxop hk.symm
  rw [hx', mem_dedupped.mp hop] at hnone
  cases hnone

/-- What the last statement of a batch writes. -/
theorem Reindexes.get?_vectorRows (hembed : ∀ texts, cfg.embedDocuments texts = texts.map embed)
    {h : History E} {clock : Clock} {ops : List PutOp} (hok : Reindexes cfg backend h (clock, ops))
    {k : RowKey} {f : String} {e : E} :
    (OrdDict.ofList (vectorRows (some cfg.fields) cfg.floatRepr cfg.embedDocuments ops)).get? (k, f) =
        some e ↔
      ∃ op ∈ dedupped ops, rowKey op = k ∧
        ∃ text, (f, text) ∈ indexedTexts cfg.floatRepr cfg.fields op ∧ e = embed text := by
  have hput : ∀ op ∈ ops, (op.ns, op.key) ∈
      (h.lastPut.setAll (ops.map fun op => ((op.ns, op.key), op))).keys :=
    fun op hop => mem_keys_setAll_ops.mpr (Or.inl (lastOps_isSome hop))
  exact History.get?_vectorRows hembed hput fun op hop => ⟨(hok op hop).1, (hok op hop).2.1⟩

/-- The rows of a key that no put of the batch has are those before it. -/
theorem BatchSpec.get?_kept (hembed : ∀ texts, cfg.embedDocuments texts = texts.map embed)
    {h : History E} {clock : Clock} {ops : List PutOp} (hok : Reindexes cfg backend h (clock, ops))
    {t' : Tables E} (hspec : BatchSpec cfg backend ops h.tables t') {k : RowKey}
    (hk : ∀ op ∈ dedupped ops, rowKey op ≠ k) (f : String) :
    t'.vectors.get? (k, f) = h.tables.vectors.get? (k, f) := by
  have hcascade : ¬(h.tables.store.contains k = true ∧
      ∃ op ∈ dedupped ops, rowKey op = k ∧ backend.cascades op = true) := by
    intro hc
    obtain ⟨-, op, hop, hkey, -⟩ := hc
    exact hk op hop hkey
  rw [hspec.vectors, if_neg hcascade]
  cases hrow : (OrdDict.ofList (vectorRows (some cfg.fields) cfg.floatRepr cfg.embedDocuments
      ops)).get? (k, f) with
  | none => exact Option.none_or
  | some e' =>
    obtain ⟨op, hop, hkey, -⟩ := (hok.get?_vectorRows hembed).mp hrow
    exact absurd hkey (hk op hop)

/-- The rows of a key that the batch puts are those of its last put. -/
theorem Sound.get?_put (hembed : ∀ texts, cfg.embedDocuments texts = texts.map embed) {h : History E}
    {clock : Clock} {ops : List PutOp} (hs : Sound cfg embed h)
    (hok : Reindexes cfg backend h (clock, ops)) {t' : Tables E}
    (hspec : BatchSpec cfg backend ops h.tables t') {op : PutOp} (hop : op ∈ dedupped ops) (f : String)
    (e : E) :
    t'.vectors.get? (rowKey op, f) = some e ↔
      ∃ text, (f, text) ∈ indexedTexts cfg.floatRepr cfg.fields op ∧ e = embed text := by
  -- what the last statement does not write over was removed, or was never there
  have hrest : ∀ e', (if h.tables.store.contains (rowKey op) = true ∧
      (∃ op' ∈ dedupped ops, rowKey op' = rowKey op ∧ backend.cascades op' = true) then none
      else h.tables.vectors.get? (rowKey op, f)) = some e' →
        f ∈ (indexedTexts cfg.floatRepr cfg.fields op).map Prod.fst := by
    intro e' he'
    split at he'
    · cases he'
    · next hkeep =>
      obtain ⟨op₀, hop₀, hv, hf⟩ := hs.rows_known (x := (op.ns, op.key))
        (fun y hy => mem_keys_setAll_ops.mpr (Or.inr hy)) (hok op hop).1 he'
      cases (hok op hop).2.2 with
      | inl hcas => exact absurd ⟨hs.stored _ op₀ hop₀ hv, op, hop, rfl, hcas⟩ hkeep
      | inr hfields =>
        apply hfields
        rw [lastTexts, hop₀]
        exact hf
  have hown : (∃ op' ∈ dedupped ops, rowKey op' = rowKey op ∧
      ∃ text, (f, text) ∈ indexedTexts cfg.floatRepr cfg.fields op' ∧ e = embed text) ↔
        ∃ text, (f, text) ∈ indexedTexts cfg.floatRepr cfg.fields op ∧ e = embed text := by
    constructor
    · intro hex
      obtain ⟨op', hop', hk, htext⟩ := hex
      have hsame : op' = op := dedupped_inj
        (fun op hop => mem_keys_setAll_ops.mpr (Or.inl (lastOps_isSome hop))) hop hop' (hok op hop).1 hk
      rwa [hsame] at htext
    · exact fun htext => ⟨op, hop, rfl, htext⟩
  rw [← hown, ← hok.get?_vectorRows hembed, hspec.vectors]
  cases hrow : (OrdDict.ofList (vectorRows (some cfg.fields) cfg.floatRepr cfg.embedDocuments
      ops)).get? (rowKey op, f) with
  | some e' => rw [Option.some_or]
  | none =>
    rw [Option.none_or]
    refine iff_of_false ?_ (by simp)
    intro he
    obtain ⟨⟨f', text⟩, htext, rfl⟩ := List.mem_map.mp (hrest e he)
    have hwritten : (OrdDict.ofList (vectorRows (some cfg.fields) cfg.floatRepr cfg.embedDocuments
        ops)).get? (rowKey op, f') = some (embed text) :=
      (hok.get?_vectorRows hembed).mpr ⟨op, hop, rfl, text, htext, rfl⟩
    rw [hrow] at hwritten
    cases hwritten

theorem Sound.step (hembed : ∀ texts, cfg.embedDocuments texts = texts.map embed) {h h' : History E}
    {batch : Clock × List PutOp} (hs : Sound cfg embed h) (hok : Reindexes cfg backend h batch)
    (hstep : step cfg backend h batch = some h') : Sound cfg embed h' := by
  obtain ⟨clock, ops⟩ := batch
  obtain ⟨t', ht', rfl⟩ := Option.map_eq_some_iff.mp hstep
  have hspec : BatchSpec cfg backend ops h.tables t' := batchSpec cfg backend ht'
  refine ⟨alone_setAll hs.alone fun op hop => (hok op hop).1, ?_, ?_, ?_, ?_⟩
  · intro x op hx hv
    have hx := (get?_setAll_ops h.lastPut ops x).symm.trans hx
    cases hop : (lastOps ops).get? x with
    | some op' =>
      rw [hop] at hx
      cases hx
      obtain ⟨-, rfl⟩ := lastOps_get? hop
      apply hspec.inserted
      exact List.mem_filter.mpr ⟨mem_dedupped.mpr hop, Option.isSome_iff_ne_none.mpr hv⟩
    | none =>
      rw [hop] at hx
      have hxold : x ∈ h.lastPut.keys := OrdDict.mem_keys_iff.mpr ⟨op, hx⟩
      show t'.store.contains _ = true
      rw [hspec.kept _ (hok.rowKey_ne hxold hop)]
      exact hs.stored x op hx hv
  · intro x
    rw [lastTexts_setAll]
    cases hop : (lastOps ops).get? x with
    | some op =>
      obtain ⟨-, rfl⟩ := lastOps_get? hop
      exact (hok op (mem_dedupped.mpr hop)).2.1
    | none => exact hs.nodup x
  · intro x hx f e
    show t'.vectors.get? _ = some e ↔ _
    rw [lastTexts_setAll]
    cases hop : (lastOps ops).get? x with
    | some op =>
      obtain ⟨-, rfl⟩ := lastOps_get? hop
      exact hs.get?_put hembed hok hspec (mem_dedupped.mpr hop) f e
    | none =>
      have hxold : x ∈ h.lastPut.keys := by
        cases mem_keys_setAll_ops.mp hx with
        | inl hnew =>
          obtain ⟨op, hop'⟩ := hnew
          rw [hop] at hop'
          cases hop'
        | inr hxold => exact hxold
      rw [hspec.get?_kept hembed hok (hok.rowKey_ne hxold hop)]
      exact hs.rows x hxold f e
  · intro k f e hk
    have hk : t'.vectors.get? (k, f) = some e := hk
    by_cases hnamed : ∃ op ∈ dedupped ops, rowKey op = k
    · obtain ⟨op, hop, hkey⟩ := hnamed
      exact ⟨(op.ns, op.key), mem_keys_setAll_ops.mpr (Or.inl ⟨op, mem_dedupped.mp hop⟩), hkey⟩
    · rw [hspec.get?_kept hembed hok fun op hop hkey => hnamed ⟨op, hop, hkey⟩] at hk
      obtain ⟨x, hx, hkey⟩ := hs.known k f e hk
      exact ⟨x, mem_keys_setAll_ops.mpr (Or.inr hx), hkey⟩

theorem mem_vectorsOf {t : Tables E} {k : RowKey} {f : String} {e : E} :
    (f, e) ∈ vectorsOf t k ↔ t.vectors.get? (k, f) = some e := by
  rw [vectorsOf, List.mem_filterMap, OrdDict.get?_eq_some_iff]
  constructor
  · rintro ⟨⟨⟨k', f'⟩, e'⟩, hmem, heq⟩
    split at heq
    · next hk =>
      cases hk
      cases heq
      exact hmem
    · cases heq
  · exact fun hmem => ⟨((k, f), e), hmem, if_pos rfl⟩

theorem nodup_vectorsOf (t : Tables E) (k : RowKey) : (vectorsOf t k).Nodup := by
  apply (List.Nodup.of_map Prod.fst t.vectors.keys_nodup).filterMap
  rintro ⟨⟨k₁, f₁⟩, e₁⟩ ⟨⟨k₂, f₂⟩, e₂⟩ r hr₁ hr₂
  split at hr₁
  · split at hr₂
    · next h₁ h₂ =>
      cases h₁
      cases h₂
      cases hr₁
      cases hr₂
      rfl
    · cases hr₂
  · cases hr₁

theorem Sound.follows {h : History E} (hs : Sound cfg embed h) : Follows cfg embed h := by
  intro ns key halone
  have hn : ((lastTexts cfg h (ns, key)).map fun f => (f.1, embed f.2)).Nodup := by
    apply List.Nodup.of_map Prod.fst
    rw [List.map_map]
    exact hs.nodup (ns, key)
  apply (List.perm_ext_iff_of_nodup (nodup_vectorsOf _ _) hn).mpr
  rintro ⟨f, e⟩
  have hrhs : (f, e) ∈ (lastTexts cfg h (ns, key)).map (fun f => (f.1, embed f.2)) ↔
      ∃ text, (f, text) ∈ lastTexts cfg h (ns, key) ∧ e = embed text := by
    rw [List.mem_map]
    constructor
    · rintro ⟨⟨f', text⟩, htext, heq⟩
      cases heq
      exact ⟨text, htext, rfl⟩
    · rintro ⟨text, htext, rfl⟩
      exact ⟨(f, text), htext, rfl⟩
  rw [mem_vectorsOf, hrhs]
  by_cases hx : (ns, key) ∈ h.lastPut.keys
  · exact hs.rows (ns, key) hx f e
  · -- a key that was never put has no texts, and no other namespace shares its rows
    have hnone : h.lastPut.get? (ns, key) = none := OrdDict.get?_eq_none_iff.mpr hx
    refine iff_of_false ?_ ?_
    · intro hrow
      obtain ⟨op, hop, -⟩ := hs.rows_known (x := (ns, key)) (fun _ h => h) halone hrow
      rw [hnone] at hop
      cases hop
    · rintro ⟨text, htext, -⟩
      rw [lastTexts, hnone] at htext
      cases htext

/-- In a run whose batches all re-index what they put, the vectors of every key
    are those of the texts that its last put indexed. -/
theorem vectors_follow_puts (cfg : IndexConfig E) (backend : Backend) (embed : String → E)
    (hembed : ∀ texts, cfg.embedDocuments texts = texts.map embed) {h : History E}
    (hr : Machine.Reachable (step cfg backend) (Reindexes cfg backend) init h) :
    Follows cfg embed h := by
  have hs : Sound cfg embed h :=
    hr.invariant (Sound.init cfg embed) fun _ _ _ hs hok hstep => hs.step hembed hok hstep
  exact hs.follows

/-! Two fields are indexed, and a text is its own embedding. -/

def twoFields : IndexConfig String where
  fields := [tokenizeField "text", tokenizeField "title"]
  floatRepr := fun _ => ""
  embedDocuments := fun texts => texts.map fun text => text

def noon : Clock := ⟨"12:00", fun _ => none, fun _ => ""⟩

def note (value : Option Json) : PutOp := ⟨["users"], "a", value, .default, none⟩

/-- A note is put, and then put with another text and without a title. -/
def retitled : List (Clock × List PutOp) :=
  [(noon, [note (some (.dict [("text", .str "x"), ("title", .str "y")]))]),
    (noon, [note (some (.dict [("text", .str "z")]))])]

/-- A note is put and put again with both fields. -/
def rewritten : List (Clock × List PutOp) :=
  [(noon, [note (some (.dict [("text", .str "x"), ("title", .str "y")]))]),
    (noon, [note (some (.dict [("title", .str "w"), ("text", .str "z")]))])]

theorem rewritten_follows : ∃ h, Machine.run (step twoFields (.sqlite false)) init rewritten = some h ∧
    Follows twoFields id h := by
  have hmeets : Machine.Meets (step twoFields (.sqlite false)) (Reindexes twoFields (.sqlite false)) init
      rewritten := by decide +kernel
  have hsome : (Machine.run (step twoFields (.sqlite false)) init rewritten).isSome = true := by
    decide +kernel
  obtain ⟨h, hrun⟩ := Option.isSome_iff_exists.mp hsome
  exact ⟨h, hrun, vectors_follow_puts twoFields (.sqlite false) id (fun _ => rfl)
    (Machine.Reachable.of_run hmeets hrun)⟩

theorem not_follows_of_stale {backend : Backend}
    (hrun : (Machine.run (step twoFields backend) init retitled).map
        (fun h => (vectorsOf h.tables ("users", "a"), lastTexts twoFields h (["users"], "a"), h.lastPut.keys)) =
      some ([("text", "z"), ("title", "y")], [("text", "z")], [(["users"], "a")])) :
    ∃ h, Machine.Reachable (step twoFields backend) (fun _ _ => True) init h ∧
      ¬ Follows twoFields id h := by
  obtain ⟨h, hh, heq⟩ := Option.map_eq_some_iff.mp hrun
  refine ⟨h, Machine.Reachable.of_run (Machine.Meets.of_forall (fun _ _ => trivial) _ _) hh, ?_⟩
  intro hfollows
  simp only [Prod.mk.injEq] at heq
  have halone : Alone h.lastPut ["users"] "a" := by
    intro x hx _ _
    rw [heq.2.2, List.mem_singleton] at hx
    rw [hx]
  have hperm := (hfollows ["users"] "a" halone).length_eq
  have hkey : (namespaceToText ["users"], "a") = ("users", "a") := by decide +kernel
  rw [hkey, heq.1, heq.2.1] at hperm
  cases hperm

/-- The row of the title stays, in SQLite and in Postgres. -/
theorem vectors_follow_puts_fails :
    (∃ h, Machine.Reachable (step twoFields (.sqlite false)) (fun _ _ => True) init h ∧
        ¬ Follows twoFields id h) ∧
      ∃ h, Machine.Reachable (step twoFields .postgres) (fun _ _ => True) init h ∧
        ¬ Follows twoFields id h :=
  ⟨not_follows_of_stale (by decide +kernel), not_follows_of_stale (by decide +kernel)⟩

end History
end LangGraph.Stores
