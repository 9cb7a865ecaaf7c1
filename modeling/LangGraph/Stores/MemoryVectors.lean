import LangGraph.Stores.MemoryStore
import LangGraph.Stores.Vectors

/- The vectors of `InMemoryStore` over a history of put batches.

   Correspondence (source ↔ Lean):
     `_data`, `_vectors[ns][key][path]`             ↔ `IndexedMemory`
     `put_ops.values()` of `_prepare_ops`           ↔ `dedupped`
     `_extract_texts`                               ↔ `extractTexts`
     `_insertinmem_store`                           ↔ `insertVectors`
     `_apply_put_ops`                               ↔ `applyPutOps`
     the puts of `batch` / `abatch`                 ↔ `batch`
   The operations that read change no vector and are left out. A text is embedded
   once for a batch, and `_insertinmem_store` zips the vectors with one place for
   each text, so that a batch in which a text comes twice raises. No put removes
   a vector, unless it deletes the key. `vectors_follow_iff` says on which
   histories the vectors are those of the last puts all the same. -/
namespace LangGraph.Stores

/-- Where the vector of a text goes: namespace and key, and the path. -/
abbrev VectorPlace := (Namespace × String) × String

abbrev MemoryVectors (E : Type) := OrdDict (Namespace × String) (OrdDict String E)

namespace MemoryVectors
variable {E : Type} (vectors : MemoryVectors E)

/-- `self._vectors[ns][key].get(path)` -/
def at? (p : VectorPlace) : Option E := (OrdDict.get? vectors p.1).bind fun paths => paths.get? p.2

/-- `self._vectors[ns][key][path] = embedding` -/
def assign (p : VectorPlace) (embedding : E) : MemoryVectors E :=
  OrdDict.set vectors p.1 ((OrdDict.getD vectors p.1 ∅).set p.2 embedding)

theorem at?_assign (p q : VectorPlace) (embedding : E) :
    (vectors.assign p embedding).at? q = if q = p then some embedding else vectors.at? q := by
  rw [at?, assign, OrdDict.get?_set]
  by_cases hkey : q.1 = p.1
  · rw [if_pos hkey, Option.bind_some, OrdDict.get?_set]
    by_cases hpath : q.2 = p.2
    · rw [if_pos hpath, if_pos (Prod.ext hkey hpath)]
    · rw [if_neg hpath, if_neg fun h => hpath (congrArg Prod.snd h), at?, hkey, OrdDict.getD]
      cases OrdDict.get? vectors p.1 <;> rfl
  · rw [if_neg hkey, if_neg fun h => hkey (congrArg Prod.fst h), at?]

/-- The vectors of a list of texts with their places, one after the other. -/
def assignAll (l : List (VectorPlace × E)) : MemoryVectors E :=
  l.foldl (fun vectors e => assign vectors e.1 e.2) vectors

/-- The last vector of a place counts. -/
theorem at?_assignAll : ∀ (l : List (VectorPlace × E)) (vectors : MemoryVectors E) (q : VectorPlace),
    (assignAll vectors l).at? q = (OrdDictEntries.get l.reverse q).or (vectors.at? q)
  | [], _, _ => rfl
  | (p, e) :: l, vectors, q => by
    rw [show assignAll vectors ((p, e) :: l) = assignAll (vectors.assign p e) l from rfl,
      at?_assignAll l, at?_assign, List.reverse_cons, OrdDictEntries.get_append, Option.or_assoc]
    congr 1
    by_cases hq : q = p
    · subst hq
      simp [OrdDictEntries.get]
    · simp [OrdDictEntries.get, hq, Ne.symm hq]

end MemoryVectors

structure IndexedMemory (E : Type) where
  store : InMemoryStore
  vectors : MemoryVectors E

namespace IndexedMemory
variable {E : Type} (cfg : IndexConfig E)

/-- The texts to embed, each with its place. -/
def textPlaces (ops : List PutOp) : List (String × VectorPlace) :=
  (dedupped ops).flatMap fun op =>
    (indexedTexts cfg.floatRepr cfg.fields op).map fun f => (f.2, ((op.ns, op.key), f.1))

def extractTexts (ops : List PutOp) : OrdDict String (List VectorPlace) := groupBy (textPlaces cfg ops)

def insertVectors (toEmbed : OrdDict String (List VectorPlace)) (embeddings : List E)
    (vectors : MemoryVectors E) : Except StoreErr (MemoryVectors E) :=
  let indices := toEmbed.values.flatten
  if indices.length ≠ embeddings.length then
    .error (.valueError ("Number of embeddings (" ++ toString embeddings.length ++
      ") does not match number of indices (" ++ toString indices.length ++ ")"))
  else .ok (vectors.assignAll (indices.zip embeddings))

/-- One step of `_apply_put_ops`. -/
def applyPutOp (now : PutOp → String × String) (s : IndexedMemory E) (op : PutOp) : IndexedMemory E where
  store := s.store.applyPut (now op) op
  vectors := if op.value.isNone then OrdDict.erase s.vectors (op.ns, op.key) else s.vectors

def applyPutOps (now : PutOp → String × String) (ops : List PutOp) (s : IndexedMemory E) :
    IndexedMemory E :=
  (dedupped ops).foldl (applyPutOp now) s

def batch (now : PutOp → String × String) (ops : List PutOp) (s : IndexedMemory E) :
    IndexedMemory E × Except StoreErr Unit :=
  let toEmbed := extractTexts cfg ops
  if toEmbed.keys = [] then (applyPutOps now ops s, .ok ())
  else
    match insertVectors toEmbed (cfg.embedDocuments toEmbed.keys) s.vectors with
    | .error e => (s, .error e)
    | .ok vectors => (applyPutOps now ops { s with vectors }, .ok ())

/-! ## What a batch does -/

section Batch
variable {cfg} {embed : String → E} {now : PutOp → String × String} {ops : List PutOp}
  {s : IndexedMemory E}

/-- A batch in which no text comes twice assigns the vector of each text to its place. -/
theorem batch_of_nodup (hembed : ∀ texts, cfg.embedDocuments texts = texts.map embed)
    (h : ((textPlaces cfg ops).map Prod.fst).Nodup) :
    batch cfg now ops s = (applyPutOps now ops
      { s with vectors := s.vectors.assignAll ((textPlaces cfg ops).map fun e => (e.2, embed e.1)) },
        .ok ()) := by
  have hentries := OrdDict.entries_group_of_nodup h
  have hkeys : (extractTexts cfg ops).keys = (textPlaces cfg ops).map Prod.fst := by
    rw [extractTexts, groupBy_eq, OrdDict.keys, hentries, List.map_map]
    rfl
  have hvalues : (extractTexts cfg ops).values.flatten = (textPlaces cfg ops).map Prod.snd := by
    rw [extractTexts, groupBy_eq, OrdDict.values, hentries, List.map_map]
    exact (List.flatMap_def ..).symm.trans (List.map_eq_flatMap ..).symm
  unfold batch
  simp only [hkeys]
  split
  · next hnil =>
    rw [List.map_eq_nil_iff.mp hnil]
    rfl
  · simp only [insertVectors, hvalues, hembed, List.length_map, ne_eq, not_true, if_false,
      List.map_map, List.zip_map']
    rfl

theorem batch_of_not_nodup (hembed : ∀ texts, cfg.embedDocuments texts = texts.map embed)
    (h : ¬((textPlaces cfg ops).map Prod.fst).Nodup) :
    (batch cfg now ops s).1 = s ∧ ∃ e, (batch cfg now ops s).2 = .error e := by
  have hlen : (extractTexts cfg ops).values.flatten.length = (textPlaces cfg ops).length :=
    OrdDict.length_flatten_group _
  have hne : ¬(extractTexts cfg ops).keys.length = (textPlaces cfg ops).length := fun heq =>
    h (OrdDict.length_keys_group_iff.mp heq)
  by_cases hnil : (extractTexts cfg ops).keys = []
  · -- without texts none comes twice
    exfalso
    apply h
    have hempty : ∀ k, k ∉ (textPlaces cfg ops).map Prod.fst := fun k hk => by
      have hmem := OrdDict.mem_keys_group.mpr hk
      rw [show (OrdDict.group (textPlaces cfg ops)).keys = [] from hnil] at hmem
      cases hmem
    rw [List.eq_nil_iff_forall_not_mem.mpr hempty]
    exact List.nodup_nil
  · simp only [batch, if_neg hnil, insertVectors, hlen, hembed, List.length_map]
    rw [if_pos (Ne.symm hne)]
    exact ⟨rfl, _, rfl⟩

end Batch

/-- The deletes take the vectors of their keys. -/
theorem at?_foldl_applyPutOp (now : PutOp → String × String) (q : VectorPlace) :
    ∀ (l : List PutOp) (s : IndexedMemory E), (l.foldl (applyPutOp now) s).vectors.at? q =
      if ∃ op ∈ l, (op.ns, op.key) = q.1 ∧ op.value = none then none else s.vectors.at? q
  | [], s => by simp
  | op :: l, s => by
    have hstep : (applyPutOp now s op).vectors.at? q =
        if (op.ns, op.key) = q.1 ∧ op.value = none then none else s.vectors.at? q := by
      unfold applyPutOp MemoryVectors.at?
      cases hv : op.value with
      | some v => simp
      | none =>
        simp only [Option.isNone_none, if_true, and_true, OrdDict.get?_erase]
        by_cases hq : q.1 = (op.ns, op.key)
        · rw [if_pos hq, if_pos hq.symm]
          rfl
        · rw [if_neg hq, if_neg (Ne.symm hq)]
    rw [List.foldl_cons, at?_foldl_applyPutOp now q l, hstep]
    simp only [List.exists_mem_cons_iff]
    by_cases hrest : ∃ op ∈ l, (op.ns, op.key) = q.1 ∧ op.value = none
    · rw [if_pos hrest, if_pos (Or.inr hrest)]
    · rw [if_neg hrest]
      by_cases hop : (op.ns, op.key) = q.1 ∧ op.value = none
      · rw [if_pos hop, if_pos (Or.inl hop)]
      · rw [if_neg hop, if_neg fun h => h.elim hop hrest]

end IndexedMemory

/-! ## Histories -/

/-- The store, the last put of every key, and whether a batch has raised. -/
structure MemoryHistory (E : Type) where
  memory : IndexedMemory E
  lastPut : OrdDict (Namespace × String) PutOp
  raised : Bool

/-- A batch of puts, with what the clock shows at each. -/
abbrev MemoryBatch := (PutOp → String × String) × List PutOp

namespace MemoryHistory
variable {E : Type} (cfg : IndexConfig E) (embed : String → E)

def init : MemoryHistory E := ⟨⟨InMemoryStore.empty, ∅⟩, ∅, false⟩

def step (h : MemoryHistory E) (b : MemoryBatch) : MemoryHistory E :=
  match h.memory.batch cfg b.1 b.2 with
  | (memory, .ok ()) => ⟨memory, h.lastPut.setAll (b.2.map fun op => ((op.ns, op.key), op)), h.raised⟩
  | (memory, .error _) => ⟨memory, h.lastPut, true⟩

/-- The paths and texts that the last put of a key indexed. -/
def lastTexts (h : MemoryHistory E) (x : Namespace × String) : List (String × String) :=
  (h.lastPut.get? x).elim [] (indexedTexts cfg.floatRepr cfg.fields)

/-- No batch has raised, and a key and path has a vector iff the key's last put indexed a
    text there, whose embedding it is. -/
structure VectorsFollow (h : MemoryHistory E) : Prop where
  calm : h.raised = false
  stored : ∀ x, ∀ f ∈ lastTexts cfg h x, h.memory.vectors.at? (x, f.1) = some (embed f.2)
  indexed : ∀ x path v, h.memory.vectors.at? (x, path) = some v →
    ∃ f ∈ lastTexts cfg h x, f.1 = path

/-- What a batch has to be: no text comes twice in it, no put has texts with different
    embeddings at one path, and each put deletes its key or indexes a text at every path
    where the key's last put did. -/
def Renews (h : MemoryHistory E) (b : MemoryBatch) : Prop :=
  ((IndexedMemory.textPlaces cfg b.2).map Prod.fst).Nodup ∧
    ∀ op ∈ dedupped b.2,
      (∀ f ∈ indexedTexts cfg.floatRepr cfg.fields op, ∀ f' ∈ indexedTexts cfg.floatRepr cfg.fields op,
        f.1 = f'.1 → embed f.2 = embed f'.2) ∧
      (op.value = none ∨ ∀ f ∈ lastTexts cfg h (op.ns, op.key),
        f.1 ∈ (indexedTexts cfg.floatRepr cfg.fields op).map Prod.fst)

instance [DecidableEq E] (h : MemoryHistory E) (b : MemoryBatch) : Decidable (Renews cfg embed h b) :=
  inferInstanceAs (Decidable (_ ∧ ∀ op ∈ dedupped b.2, _))

section Step
variable {cfg embed} {h : MemoryHistory E} {b : MemoryBatch}

theorem indexedTexts_of_delete {floatRepr : BitVec 64 → String}
    {fields : List (String × TokenizedPath)} {op : PutOp} (h : op.value = none) :
    indexedTexts floatRepr fields op = [] := by
  unfold indexedTexts
  rw [h]

/-- The places of the texts of a batch. -/
theorem mem_textPlaces {ops : List PutOp} {x : Namespace × String} {path text : String} :
    (text, (x, path)) ∈ IndexedMemory.textPlaces cfg ops ↔
      ∃ op, (lastOps ops).get? x = some op ∧ (path, text) ∈ indexedTexts cfg.floatRepr cfg.fields op := by
  simp only [IndexedMemory.textPlaces, List.mem_flatMap, List.mem_map, Prod.mk.injEq]
  constructor
  · intro h
    obtain ⟨op, hop, f, hf, rfl, rfl, rfl⟩ := h
    exact ⟨op, mem_dedupped.mp hop, hf⟩
  · intro h
    obtain ⟨op, hop, hf⟩ := h
    obtain ⟨-, rfl⟩ := lastOps_get? hop
    exact ⟨op, mem_dedupped.mpr hop, (path, text), hf, rfl, rfl, rfl⟩

/-- The history after a batch in which no text comes twice. -/
theorem step_of_nodup (hembed : ∀ texts, cfg.embedDocuments texts = texts.map embed)
    (hn : ((IndexedMemory.textPlaces cfg b.2).map Prod.fst).Nodup) :
    step cfg h b = ⟨IndexedMemory.applyPutOps b.1 b.2
      ⟨h.memory.store, h.memory.vectors.assignAll
        ((IndexedMemory.textPlaces cfg b.2).map fun e => (e.2, embed e.1))⟩,
      h.lastPut.setAll (b.2.map fun op => ((op.ns, op.key), op)), h.raised⟩ := by
  rw [step, IndexedMemory.batch_of_nodup hembed hn]

theorem raised_of_not_nodup (hembed : ∀ texts, cfg.embedDocuments texts = texts.map embed)
    (hn : ¬((IndexedMemory.textPlaces cfg b.2).map Prod.fst).Nodup) : (step cfg h b).raised = true := by
  obtain ⟨-, e, he⟩ := IndexedMemory.batch_of_not_nodup (s := h.memory) hembed hn
  unfold step
  split
  · next heq =>
    rw [heq] at he
    cases he
  · rfl

/-- The last puts after such a batch, and the texts that they indexed. -/
theorem lastTexts_step (hembed : ∀ texts, cfg.embedDocuments texts = texts.map embed)
    (hn : ((IndexedMemory.textPlaces cfg b.2).map Prod.fst).Nodup) (x : Namespace × String) :
    lastTexts cfg (step cfg h b) x =
      ((lastOps b.2).get? x).elim (lastTexts cfg h x) (indexedTexts cfg.floatRepr cfg.fields) := by
  rw [step_of_nodup hembed hn, lastTexts, get?_setAll_ops]
  cases (lastOps b.2).get? x <;> rfl

/-- The vectors after such a batch. -/
theorem vectors_step (hembed : ∀ texts, cfg.embedDocuments texts = texts.map embed)
    (hn : ((IndexedMemory.textPlaces cfg b.2).map Prod.fst).Nodup) (x : Namespace × String)
    (path : String) :
    (step cfg h b).memory.vectors.at? (x, path) =
      if ∃ op, (lastOps b.2).get? x = some op ∧ op.value = none then none
      else (OrdDictEntries.get (((IndexedMemory.textPlaces cfg b.2).map
        fun e => (e.2, embed e.1)).reverse) (x, path)).or (h.memory.vectors.at? (x, path)) := by
  have hdelete : (∃ op ∈ dedupped b.2, (op.ns, op.key) = (x, path).1 ∧ op.value = none) ↔
      ∃ op, (lastOps b.2).get? x = some op ∧ op.value = none := by
    constructor
    · intro hd
      obtain ⟨op, hop, hx, hv⟩ := hd
      have hx : (op.ns, op.key) = x := hx
      exact ⟨op, hx ▸ mem_dedupped.mp hop, hv⟩
    · intro hd
      obtain ⟨op, hop, hv⟩ := hd
      obtain ⟨-, rfl⟩ := lastOps_get? hop
      exact ⟨op, mem_dedupped.mpr hop, rfl, hv⟩
  rw [step_of_nodup hembed hn]
  show (IndexedMemory.applyPutOps b.1 b.2 _).vectors.at? (x, path) = _
  rw [IndexedMemory.applyPutOps, IndexedMemory.at?_foldl_applyPutOp, MemoryVectors.at?_assignAll]
  exact if_congr hdelete rfl rfl

/-- A vector that the batch assigns is the one of a text that the key's put indexes. -/
theorem get_textPlaces {ops : List PutOp} {x : Namespace × String} {path : String} {v : E}
    (hget : OrdDictEntries.get ((IndexedMemory.textPlaces cfg ops).map
      fun e => (e.2, embed e.1)).reverse (x, path) = some v) :
    ∃ op text, (lastOps ops).get? x = some op ∧
      (path, text) ∈ indexedTexts cfg.floatRepr cfg.fields op ∧ v = embed text := by
  obtain ⟨e, he, heq⟩ := List.mem_map.mp (List.mem_reverse.mp (OrdDictEntries.mem_of_get hget))
  obtain ⟨rfl, hplace⟩ := (Prod.mk.inj heq).symm.imp Eq.symm id
  obtain ⟨op, hop, hf⟩ := mem_textPlaces.mp (show (e.1, (x, path)) ∈ _ by rw [← hplace]; exact he)
  exact ⟨op, e.1, hop, hf, rfl⟩

theorem VectorsFollow.renews (hembed : ∀ texts, cfg.embedDocuments texts = texts.map embed)
    (hf : VectorsFollow cfg embed h) (hf' : VectorsFollow cfg embed (step cfg h b)) :
    Renews cfg embed h b := by
  have hn : ((IndexedMemory.textPlaces cfg b.2).map Prod.fst).Nodup := by
    by_contra hn
    have hraised := raised_of_not_nodup (h := h) hembed hn
    rw [hf'.calm] at hraised
    cases hraised
  refine ⟨hn, fun op hop => ?_⟩
  have hget := mem_dedupped.mp hop
  have hlast : lastTexts cfg (step cfg h b) (op.ns, op.key) =
      indexedTexts cfg.floatRepr cfg.fields op := by
    rw [lastTexts_step hembed hn, hget]
    rfl
  constructor
  · intro f hfm f' hfm' hpath
    have hv := hf'.stored (op.ns, op.key) f (hlast ▸ hfm)
    have hv' := hf'.stored (op.ns, op.key) f' (hlast ▸ hfm')
    rw [hpath, hv'] at hv
    exact (Option.some.inj hv).symm
  · by_cases hdel : op.value = none
    · exact Or.inl hdel
    · refine Or.inr fun f hfm => ?_
      have hkept : ¬∃ op', (lastOps b.2).get? (op.ns, op.key) = some op' ∧ op'.value = none := by
        intro hd
        obtain ⟨op', hop', hv⟩ := hd
        rw [hget] at hop'
        exact hdel (Option.some.inj hop' ▸ hv)
      have hafter := vectors_step (h := h) hembed hn (op.ns, op.key) f.1
      rw [if_neg hkept, hf.stored _ f hfm] at hafter
      -- a vector that stays must belong to a text of the put
      obtain ⟨v, hv⟩ : ∃ v, (step cfg h b).memory.vectors.at? ((op.ns, op.key), f.1) = some v := by
        rw [hafter, ← Option.isSome_iff_exists, Option.isSome_or, Option.isSome_some, Bool.or_true]
      obtain ⟨f', hfm', hpath⟩ := hf'.indexed _ _ v hv
      rw [← hpath, ← hlast]
      exact List.mem_map_of_mem hfm'

theorem VectorsFollow.step (hembed : ∀ texts, cfg.embedDocuments texts = texts.map embed)
    (hf : VectorsFollow cfg embed h) (hr : Renews cfg embed h b) :
    VectorsFollow cfg embed (step cfg h b) := by
  obtain ⟨hn, hops⟩ := hr
  refine ⟨?_, fun x f hfm => ?_, fun x path v hv => ?_⟩
  · rw [step_of_nodup hembed hn]
    exact hf.calm
  · rw [lastTexts_step hembed hn] at hfm
    rw [vectors_step hembed hn]
    cases hop : (lastOps b.2).get? x with
    | none =>
      rw [hop] at hfm
      rw [if_neg fun hd => (by obtain ⟨op, h, -⟩ := hd; cases h)]
      cases hg : OrdDictEntries.get ((IndexedMemory.textPlaces cfg b.2).map
          fun e => (e.2, embed e.1)).reverse (x, f.1) with
      | none => exact hf.stored x f hfm
      | some v =>
        obtain ⟨op, -, h, -⟩ := get_textPlaces hg
        rw [hop] at h
        cases h
    | some op =>
      rw [hop] at hfm
      have hfm : f ∈ indexedTexts cfg.floatRepr cfg.fields op := hfm
      have hkept : ¬∃ op', some op = some op' ∧ op'.value = none := by
        intro hd
        obtain ⟨op', hop', hv⟩ := hd
        rw [indexedTexts_of_delete (Option.some.inj hop' ▸ hv)] at hfm
        cases hfm
      rw [if_neg hkept]
      cases hg : OrdDictEntries.get ((IndexedMemory.textPlaces cfg b.2).map
          fun e => (e.2, embed e.1)).reverse (x, f.1) with
      | none =>
        rw [OrdDictEntries.get_eq_none_iff, List.map_reverse, List.mem_reverse, List.map_map] at hg
        exact absurd (List.mem_map_of_mem (mem_textPlaces.mpr ⟨op, hop, hfm⟩)) hg
      | some v =>
        obtain ⟨op', text, hop', htext, rfl⟩ := get_textPlaces hg
        obtain rfl := Option.some.inj (hop.symm.trans hop')
        obtain ⟨-, rfl⟩ := lastOps_get? hop
        rw [Option.some_or, (hops op (mem_dedupped.mpr hop)).1 (f.1, text) htext f hfm rfl]
  · rw [vectors_step hembed hn] at hv
    rw [lastTexts_step hembed hn]
    split at hv
    · cases hv
    · next hkept =>
      rcases Option.or_eq_some_iff.mp hv with hg | ⟨-, hbefore⟩
      · obtain ⟨op, text, hop, htext, -⟩ := get_textPlaces hg
        rw [hop]
        exact ⟨(path, text), htext, rfl⟩
      · obtain ⟨f, hfm, rfl⟩ := hf.indexed x path v hbefore
        cases hop : (lastOps b.2).get? x with
        | none => exact ⟨f, hfm, rfl⟩
        | some op =>
          obtain ⟨-, rfl⟩ := lastOps_get? hop
          rcases (hops op (mem_dedupped.mpr hop)).2 with hdel | hpaths
          · exact absurd ⟨op, hop, hdel⟩ hkept
          · obtain ⟨f', hfm', hpath⟩ := List.mem_map.mp (hpaths f hfm)
            exact ⟨f', hfm', hpath⟩

end Step

theorem vectorsFollow_init : VectorsFollow cfg embed init :=
  ⟨rfl, fun _ _ hf => (nomatch hf), fun _ _ _ hv => (nomatch hv)⟩

/-- After every batch of a history the vectors are those of the last puts, and none has
    raised, exactly when every batch renews the vectors of what it puts. -/
theorem vectors_follow_iff (hembed : ∀ texts, cfg.embedDocuments texts = texts.map embed)
    (batches : List MemoryBatch) :
    (∀ pre, pre <+: batches → VectorsFollow cfg embed (pre.foldl (step cfg) init)) ↔
      ∀ pre b, pre ++ [b] <+: batches → Renews cfg embed (pre.foldl (step cfg) init) b :=
  Machine.foldl_prefix_iff (I := fun _ => True) trivial (fun _ _ _ => trivial)
    (vectorsFollow_init cfg embed)
    (fun _ _ _ hf => ⟨hf.renews hembed, hf.step hembed⟩) batches

/-! Two fields are indexed, and a text is its own embedding. -/

def memoryNote (key : String) (entries : List (String × Json)) : PutOp :=
  ⟨["users"], key, some (.dict entries), .default, none⟩

def clock : PutOp → String × String := fun _ => ("12:00", "12:00")

/-- A note is put, put again with other texts, and deleted. -/
def renewed : List MemoryBatch :=
  [(clock, [memoryNote "a" [("text", .str "x"), ("title", .str "y")]]),
    (clock, [memoryNote "a" [("text", .str "y"), ("title", .str "z")],
      memoryNote "b" [("text", .str "x")]]),
    (clock, [⟨["users"], "a", none, .default, none⟩])]

theorem vectors_follow_renewed :
    VectorsFollow History.twoFields id (renewed.foldl (step History.twoFields) init) := by
  have hrenews : Machine.Along (step History.twoFields) (Renews History.twoFields id) init renewed := by
    decide +kernel
  apply (vectors_follow_iff History.twoFields id (fun _ => rfl) renewed).mpr
  · exact hrenews.every
  · exact List.prefix_refl renewed

/-- Two new notes with the same text. -/
def sameTexts : List MemoryBatch :=
  [(clock, [memoryNote "a" [("text", .str "x")], memoryNote "b" [("text", .str "x")]])]

theorem not_vectors_follow : ¬∀ (E : Type) (cfg : IndexConfig E) (embed : String → E),
    (∀ texts, cfg.embedDocuments texts = texts.map embed) → ∀ batches : List MemoryBatch,
      ∀ pre, pre <+: batches → VectorsFollow cfg embed (pre.foldl (step cfg) init) := by
  intro h
  have hcalm := (h String History.twoFields id (fun _ => rfl) sameTexts sameTexts
    (List.prefix_refl _)).calm
  exact absurd hcalm (by decide +kernel)

end MemoryHistory
end LangGraph.Stores
