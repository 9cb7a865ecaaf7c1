import LangGraph.Stores.Tables

/- What `_prepare_batch_PUT_queries` of the SQL stores has in common.

   Correspondence (source ↔ Lean):
     `dedupped_ops.values()`                        ↔ `dedupped`
     `deletes`, `inserts`, `namespace_groups`       ↔ `deletes`, `inserts`, `groupBy`
     `embedding_request_params`                     ↔ `embeddingParams`
     the parameters with the vectors put in         ↔ `vectorRows`
   `mem_dedupped`: a put survives iff it is the last of its namespace and key.
   `mem_vectorRows`: which row is written for which text. -/
namespace LangGraph.Stores

/-- `defaultdict(list)`, filled in order. -/
def groupBy {κ α : Type} [DecidableEq κ] (l : List (κ × α)) : OrdDict κ (List α) :=
  l.foldl (fun d e => d.set e.1 (d.getD e.1 [] ++ [e.2])) ∅

def rowKey (op : PutOp) : RowKey := (namespaceToText op.ns, op.key)

/-- `dedupped_ops` -/
def lastOps (ops : List PutOp) : OrdDict (Namespace × String) PutOp :=
  OrdDict.ofList (ops.map fun op => ((op.ns, op.key), op))

/-- `dedupped_ops.values()` -/
def dedupped (ops : List PutOp) : List PutOp := (lastOps ops).values

def deletes (ops : List PutOp) : List PutOp := (dedupped ops).filter fun op => op.value.isNone

def inserts (ops : List PutOp) : List PutOp := (dedupped ops).filter fun op => op.value.isSome

section Embedding
variable {E : Type} (indexFields : Option (List (String × TokenizedPath)))
  (floatRepr : BitVec 64 → String) (embedDocuments : List String → List E)

/-- `embedding_request_params` -/
def embeddingParams (ops : List PutOp) : List ((RowKey × String) × String) :=
  match indexFields with
  | none => []
  | some fields => (inserts ops).flatMap fun op =>
    (indexedTexts floatRepr fields op).map fun f => ((rowKey op, f.1), f.2)

/-- The rows of the last statement, with the texts replaced by their vectors. -/
def vectorRows (ops : List PutOp) : List ((RowKey × String) × E) :=
  let params := embeddingParams indexFields floatRepr ops
  (params.map Prod.fst).zip (embedDocuments (params.map Prod.snd))

end Embedding

/-- The DELETE statements, one for each namespace. -/
def deleteWrites {E : Type} (ops : List PutOp) : List (Write E) :=
  (groupBy ((deletes ops).map fun op => (op.ns, op.key))).entries.map fun g =>
    .delete (namespaceToText g.1) g.2

theorem groupBy_eq {κ α : Type} [DecidableEq κ] (l : List (κ × α)) : groupBy l = OrdDict.group l := rfl

theorem mem_groupBy {κ α : Type} [DecidableEq κ] {l : List (κ × α)} {k : κ} {a : α} :
    (∃ g ∈ (groupBy l).entries, g.1 = k ∧ a ∈ g.2) ↔ (k, a) ∈ l := by
  have hget : (∃ g ∈ (groupBy l).entries, g.1 = k ∧ a ∈ g.2) ↔ a ∈ (groupBy l).getD k [] := by
    unfold OrdDict.getD
    constructor
    · rintro ⟨⟨k', as⟩, hg, rfl, ha⟩
      rw [OrdDict.get?_eq_some_iff.mpr hg]
      exact ha
    · intro ha
      cases hd : (groupBy l).get? k with
      | none => rw [hd] at ha; cases ha
      | some as =>
        rw [hd] at ha
        exact ⟨(k, as), OrdDict.get?_eq_some_iff.mp hd, rfl, ha⟩
  rw [hget, groupBy_eq, OrdDict.getD_group, List.mem_map]
  constructor
  · intro h
    obtain ⟨e, he, rfl⟩ := h
    obtain ⟨he, hk⟩ := List.mem_filter.mp he
    rw [← of_decide_eq_true hk]
    exact he
  · intro h
    exact ⟨(k, a), List.mem_filter.mpr ⟨h, decide_eq_true rfl⟩, rfl⟩

/-- A put survives iff it is the last of its namespace and key. -/
theorem mem_dedupped {ops : List PutOp} {op : PutOp} :
    op ∈ dedupped ops ↔ (lastOps ops).get? (op.ns, op.key) = some op := by
  rw [dedupped, OrdDict.mem_values_iff]
  constructor
  · rintro ⟨k, hk⟩
    obtain ⟨op', -, hop'⟩ := List.mem_map.mp (OrdDict.mem_of_get?_ofList hk)
    cases hop'
    exact hk
  · exact fun h => ⟨_, h⟩

theorem lastOps_get? {ops : List PutOp} {x : Namespace × String} {op : PutOp}
    (h : (lastOps ops).get? x = some op) : op ∈ ops ∧ x = (op.ns, op.key) := by
  obtain ⟨op', hop', heq⟩ := List.mem_map.mp (OrdDict.mem_of_get?_ofList h)
  cases heq
  exact ⟨hop', rfl⟩

theorem lastOps_isSome {ops : List PutOp} {op : PutOp} (h : op ∈ ops) :
    ∃ op', (lastOps ops).get? (op.ns, op.key) = some op' := by
  have hkey : (op.ns, op.key) ∈ (ops.map fun op => ((op.ns, op.key), op)).map Prod.fst := by
    rw [List.map_map]
    exact List.mem_map_of_mem h
  obtain ⟨op', -, hget⟩ := OrdDict.exists_get?_setAll OrdDict.empty hkey
  exact ⟨op', hget⟩

/-- The last puts after a batch: its own come before the earlier ones. -/
theorem get?_setAll_ops (d : OrdDict (Namespace × String) PutOp) (ops : List PutOp)
    (x : Namespace × String) :
    (d.setAll (ops.map fun op => ((op.ns, op.key), op))).get? x =
      ((lastOps ops).get? x).or (d.get? x) :=
  OrdDict.get?_setAll_eq_or x _ _

theorem mem_keys_setAll_ops {d : OrdDict (Namespace × String) PutOp} {ops : List PutOp}
    {x : Namespace × String} :
    x ∈ (d.setAll (ops.map fun op => ((op.ns, op.key), op))).keys ↔
      (∃ op, (lastOps ops).get? x = some op) ∨ x ∈ d.keys := by
  rw [OrdDict.mem_keys_iff, OrdDict.mem_keys_iff, get?_setAll_ops]
  cases (lastOps ops).get? x with
  | none => simp
  | some op => simp

theorem mem_deletes {ops : List PutOp} {op : PutOp} :
    op ∈ deletes ops ↔ (lastOps ops).get? (op.ns, op.key) = some op ∧ op.value = none := by
  rw [deletes, List.mem_filter, mem_dedupped, Option.isNone_iff_eq_none]

theorem mem_inserts {ops : List PutOp} {op : PutOp} :
    op ∈ inserts ops ↔ (lastOps ops).get? (op.ns, op.key) = some op ∧ op.value ≠ none := by
  rw [inserts, List.mem_filter, mem_dedupped, Option.isSome_iff_ne_none]

theorem isDelete_of_mem_deleteWrites {E : Type} {ops : List PutOp} {w : Write E}
    (h : w ∈ deleteWrites ops) : ∃ nsText keys, w = .delete nsText keys := by
  obtain ⟨g, -, rfl⟩ := List.mem_map.mp h
  exact ⟨_, _, rfl⟩

/-- The DELETE statements name the rows of the deletes. -/
theorem any_drops_deleteWrites {E : Type} {ops : List PutOp} {k : RowKey} :
    (deleteWrites (E := E) ops).any (fun w => w.drops k) = true ↔ ∃ op ∈ deletes ops, rowKey op = k := by
  rw [List.any_eq_true]
  constructor
  · rintro ⟨w, hw, hdrop⟩
    obtain ⟨g, hg, rfl⟩ := List.mem_map.mp hw
    have hk : k.1 = namespaceToText g.1 ∧ k.2 ∈ g.2 := by simpa [Write.drops, Write.names, Write.isRefresh] using hdrop
    obtain ⟨op, hop, heq⟩ := List.mem_map.mp (mem_groupBy.mp ⟨g, hg, rfl, hk.2⟩)
    obtain ⟨hns, hkey⟩ := Prod.ext_iff.mp heq
    refine ⟨op, hop, Prod.ext ?_ hkey⟩
    rw [hk.1, ← hns]
    rfl
  · rintro ⟨op, hop, rfl⟩
    obtain ⟨g, hg, hns, hkey⟩ := mem_groupBy.mpr (List.mem_map_of_mem (f := fun op => (op.ns, op.key)) hop)
    refine ⟨.delete (namespaceToText g.1) g.2, List.mem_map_of_mem hg, ?_⟩
    simp [Write.drops, Write.names, Write.isRefresh, rowKey, hns, hkey]

theorem pairwise_deleteWrites {E : Type} (ops : List PutOp) :
    (deleteWrites (E := E) ops).Pairwise Write.Precedes := by
  apply List.pairwise_of_forall_mem_list
  intro w hw w' hw'
  obtain ⟨_, _, rfl⟩ := isDelete_of_mem_deleteWrites hw
  obtain ⟨_, _, rfl⟩ := isDelete_of_mem_deleteWrites hw'
  rfl

/-- An embedding of documents that embeds each text of the list. -/
theorem mem_vectorRows {E : Type} {fields : List (String × TokenizedPath)}
    {floatRepr : BitVec 64 → String} {embedDocuments : List String → List E} {embed : String → E}
    (hembed : ∀ texts, embedDocuments texts = texts.map embed) {ops : List PutOp} {k : RowKey}
    {field : String} {e : E} :
    ((k, field), e) ∈ vectorRows (some fields) floatRepr embedDocuments ops ↔
      ∃ op ∈ inserts ops, rowKey op = k ∧
        ∃ text, (field, text) ∈ indexedTexts floatRepr fields op ∧ e = embed text := by
  have hrows : vectorRows (some fields) floatRepr embedDocuments ops =
      (embeddingParams (some fields) floatRepr ops).map fun p => (p.1, embed p.2) := by
    unfold vectorRows
    simp only [hembed, List.map_map]
    rw [List.zip_map']
    rfl
  rw [hrows, embeddingParams]
  simp only [List.mem_map, List.mem_flatMap, Prod.mk.injEq]
  constructor
  · rintro ⟨p, ⟨op, hop, f, hf, rfl⟩, ⟨rfl, rfl⟩, rfl⟩
    exact ⟨op, hop, rfl, f.2, hf, rfl⟩
  · rintro ⟨op, hop, rfl, text, hf, rfl⟩
    exact ⟨((rowKey op, field), text), ⟨op, hop, (field, text), hf, rfl⟩, rfl, rfl⟩

end LangGraph.Stores
