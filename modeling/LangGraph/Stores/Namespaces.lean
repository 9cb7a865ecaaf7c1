import Mathlib.Data.List.Dedup
import LangGraph.Lib.Machine
import LangGraph.Lib.SortBy
import LangGraph.Stores.MemoryStore

/- The namespaces that `InMemoryStore` lists, over whole histories.

   Correspondence (source ↔ Lean):
     `_does_match`                                  ↔ `doesMatch`
     `_handle_list_namespaces`                      ↔ `handleListNamespaces`
     one turn of `_prepare_ops`                     ↔ `readResult`, `afterRead`
     `_prepare_ops`, `_apply_put_ops`, `batch`      ↔ `prepareOps`, `applyPutOps`, `batch`
   `_data` is a `defaultdict`: a get enters the namespace that it looks in, and a
   deletion leaves the namespace that it empties. `Lists` says what a listing is
   to be, and `listsLive_iff` in which histories every listing is that. -/
namespace LangGraph.Stores

/-! ### Match conditions -/

/-- `_does_match` -/
def doesMatch (cond : MatchCondition) (key : Namespace) : Bool :=
  if key.length < cond.path.length then false
  else
    let elems := match cond.matchType with
      | .prefixed => key.zip cond.path
      | .suffixed => key.reverse.zip cond.path.reverse
    elems.all fun e => e.2 == "*" || e.1 == e.2

/-- A label of a path is a label, or the wildcard. -/
def LabelMatches (label pattern : String) : Prop := pattern = "*" ∨ label = pattern

/-- The namespace begins, or ends, with labels that match the path one by one. -/
def Matches (cond : MatchCondition) (ns : Namespace) : Prop :=
  match cond.matchType with
  | .prefixed => ∃ part, part <+: ns ∧ List.Forall₂ LabelMatches part cond.path
  | .suffixed => ∃ part, part <:+ ns ∧ List.Forall₂ LabelMatches part cond.path

theorem all_zip_iff : ∀ {key path : Namespace}, path.length ≤ key.length →
    ((key.zip path).all (fun e => e.2 == "*" || e.1 == e.2) = true ↔
      ∃ part, part <+: key ∧ List.Forall₂ LabelMatches part path)
  | key, [], _ => by
    rw [List.zip_nil_right]
    exact iff_of_true rfl ⟨[], List.nil_prefix, .nil⟩
  | [], _ :: _, h => by simp at h
  | label :: key, pattern :: path, h => by
    have ih := @all_zip_iff key path (Nat.le_of_succ_le_succ h)
    rw [List.zip_cons_cons, List.all_cons, Bool.and_eq_true, ih]
    have hlabel : (pattern == "*" || label == pattern) = true ↔ LabelMatches label pattern := by
      simp [LabelMatches]
    rw [hlabel]
    constructor
    · intro ⟨hfirst, part, hpart, hall⟩
      exact ⟨label :: part, List.cons_prefix_cons.mpr ⟨rfl, hpart⟩, .cons hfirst hall⟩
    · intro ⟨part, hpart, hall⟩
      cases hall with
      | cons hfirst hall =>
        have hcons := List.cons_prefix_cons.mp hpart
        exact ⟨hcons.1 ▸ hfirst, _, hcons.2, hall⟩

theorem doesMatch_iff (cond : MatchCondition) (ns : Namespace) :
    doesMatch cond ns = true ↔ Matches cond ns := by
  obtain ⟨matchType, path⟩ := cond
  unfold doesMatch Matches
  by_cases hlen : ns.length < path.length
  · -- too short for the path
    simp only [if_pos hlen, Bool.false_eq_true, false_iff]
    cases matchType with
    | prefixed =>
      intro ⟨part, hpart, hall⟩
      have h₁ := hpart.length_le
      have h₂ : part.length = path.length := hall.length_eq
      omega
    | suffixed =>
      intro ⟨part, hpart, hall⟩
      have h₁ := hpart.length_le
      have h₂ : part.length = path.length := hall.length_eq
      omega
  · simp only [if_neg hlen]
    cases matchType with
    | prefixed => exact all_zip_iff (by omega)
    | suffixed =>
      have hle : path.reverse.length ≤ ns.reverse.length := by
        simp only [List.length_reverse]
        omega
      refine (all_zip_iff hle).trans ?_
      constructor
      · intro ⟨part, hpart, hall⟩
        refine ⟨part.reverse, ?_, ?_⟩
        · rwa [← List.reverse_prefix, List.reverse_reverse]
        · rwa [← List.forall₂_reverse_iff, List.reverse_reverse]
      · intro ⟨part, hpart, hall⟩
        exact ⟨part.reverse, List.reverse_prefix.mpr hpart, List.forall₂_reverse_iff.mpr hall⟩

/-! ### Listings -/

namespace ListNamespacesOp

def conditions (op : ListNamespacesOp) : List MatchCondition := op.matchConditions.getD []

/-- `ns[: op.max_depth]` -/
def truncate (op : ListNamespacesOp) (ns : Namespace) : Namespace :=
  match op.maxDepth with
  | none => ns
  | some depth => pySlice ns 0 depth

end ListNamespacesOp

/-- `_handle_list_namespaces` -/
def InMemoryStore.handleListNamespaces (store : InMemoryStore) (op : ListNamespacesOp) :
    List Namespace :=
  let namespaces := store.data.keys.filter fun ns => op.conditions.all (doesMatch · ns)
  let sorted := match op.maxDepth with
    | some depth => SortBy.sortBy id (namespaces.map (pySlice · 0 depth)).dedup
    | none => SortBy.sortBy id namespaces
  pySlice sorted op.offset (op.offset + op.limit)

/-- The page of the sorted list, without repetitions, of the truncated live
    namespaces that meet the conditions. -/
def Lists (live : Namespace → Prop) (op : ListNamespacesOp) (found : List Namespace) : Prop :=
  ∃ all : List Namespace, all.Pairwise (· < ·) ∧
    (∀ x, x ∈ all ↔ ∃ ns, live ns ∧ (∀ cond ∈ op.conditions, Matches cond ns) ∧ op.truncate ns = x) ∧
    found = pySlice all op.offset (op.offset + op.limit)

/-- The store lists the namespaces that are keys of its dictionary. -/
theorem InMemoryStore.lists_keys (store : InMemoryStore) (op : ListNamespacesOp) :
    Lists (· ∈ store.data.keys) op (store.handleListNamespaces op) := by
  have hmem : ∀ ns, ns ∈ (store.data.keys.filter fun ns => op.conditions.all (doesMatch · ns)) ↔
      ns ∈ store.data.keys ∧ ∀ cond ∈ op.conditions, Matches cond ns := by
    intro ns
    simp only [List.mem_filter, List.all_eq_true, doesMatch_iff]
  unfold handleListNamespaces Lists ListNamespacesOp.truncate
  cases op.maxDepth with
  | none =>
    refine ⟨_, SortBy.pairwise_lt_sortBy (store.data.keys_nodup.filter _), ?_, rfl⟩
    intro x
    rw [SortBy.mem_sortBy, hmem]
    constructor
    · exact fun h => ⟨x, h.1, h.2, rfl⟩
    · intro ⟨ns, hns, hconds, hx⟩
      exact hx ▸ ⟨hns, hconds⟩
  | some depth =>
    refine ⟨_, SortBy.pairwise_lt_sortBy (List.nodup_dedup _), ?_, rfl⟩
    intro x
    rw [SortBy.mem_sortBy, List.mem_dedup, List.mem_map]
    constructor
    · intro ⟨ns, hns, hx⟩
      exact ⟨ns, ((hmem ns).mp hns).1, ((hmem ns).mp hns).2, hx⟩
    · intro ⟨ns, hns, hconds, hx⟩
      exact ⟨ns, (hmem ns).mpr ⟨hns, hconds⟩, hx⟩

/-! ### Histories -/

/-- What `batch` returns for an operation. -/
inductive MemoryResult where
  | item (item : Option Item)
  | items (items : List Item)
  | namespaces (namespaces : List Namespace)
  | none

/-- What happens to the store: an operation is prepared, or the puts of a batch
    are applied. A batch is its reads, and then its puts unless it raises. -/
inductive MemoryEvent where
  | read (op : Op)
  | puts (now : PutOp → String × String) (ops : List PutOp)

namespace InMemoryStore

/-- The result of an operation in `_prepare_ops`; `none` is an exception. -/
def readResult (store : InMemoryStore) : Op → Option MemoryResult
  | .get op => some (.item ((store.slot op.ns).get? op.key))
  | .search op => (store.search op).map .items
  | .listNamespaces op => some (.namespaces (store.handleListNamespaces op))
  | .put _ => some .none

/-- The store after an operation in `_prepare_ops`: `self._data[op.namespace]` of
    a get enters the namespace. -/
def afterRead (store : InMemoryStore) : Op → InMemoryStore
  | .get op => store.touch op.ns
  | _ => store

def prepareOps (store : InMemoryStore) : List Op → InMemoryStore × Option (List MemoryResult)
  | [] => (store, some [])
  | op :: ops =>
    match store.readResult op with
    | none => (store, none)
    | some result =>
      let rest := prepareOps (store.afterRead op) ops
      (rest.1, rest.2.map (result :: ·))

/-- `_apply_put_ops`, over the last put of each key. -/
def applyPutOps (now : PutOp → String × String) (ops : List PutOp) (store : InMemoryStore) :
    InMemoryStore :=
  (dedupped ops).foldl (fun store op => store.applyPut (now op) op) store

def putsOf (ops : List Op) : List PutOp :=
  ops.filterMap fun op => match op with
    | .put op => some op
    | _ => none

/-- `batch` of a store without an index. -/
def batch (now : PutOp → String × String) (store : InMemoryStore) (ops : List Op) :
    InMemoryStore × Option (List MemoryResult) :=
  match store.prepareOps ops with
  | (store, none) => (store, none)
  | (store, some results) => (store.applyPutOps now (putsOf ops), some results)

def step (store : InMemoryStore) : MemoryEvent → InMemoryStore
  | .read op => store.afterRead op
  | .puts now ops => store.applyPutOps now ops

/-- The store after a history. -/
def after (es : List MemoryEvent) : InMemoryStore := es.foldl step empty

/-- A batch is a piece of a history: the operations up to the first that raises,
    and the puts if none does. -/
theorem batch_eq_foldl (now : PutOp → String × String) (store : InMemoryStore) (ops : List Op) :
    ∃ es : List MemoryEvent, (store.batch now ops).1 = es.foldl step store ∧
      (es = ops.map .read ++ [.puts now (putsOf ops)] ∨
        (store.batch now ops).2 = none ∧ es <+: ops.map .read) := by
  have hprepare : ∀ (ops : List Op) (store : InMemoryStore), ∃ es : List MemoryEvent,
      (store.prepareOps ops).1 = es.foldl step store ∧
        (es = ops.map .read ∧ (store.prepareOps ops).2.isSome ∨
          (store.prepareOps ops).2 = none ∧ es <+: ops.map .read) := by
    intro ops
    induction ops with
    | nil => exact fun store => ⟨[], rfl, Or.inl ⟨rfl, rfl⟩⟩
    | cons op ops ih =>
      intro store
      cases hread : store.readResult op with
      | none =>
        refine ⟨[], ?_, Or.inr ⟨?_, List.nil_prefix⟩⟩
        · simp only [prepareOps, hread, List.foldl_nil]
        · simp only [prepareOps, hread]
      | some result =>
        obtain ⟨es, hes, hend⟩ := ih (store.afterRead op)
        refine ⟨.read op :: es, ?_, ?_⟩
        · simpa only [prepareOps, hread, List.foldl_cons, step] using hes
        · simp only [prepareOps, hread, List.map_cons, Option.isSome_map, Option.map_eq_none_iff,
            List.cons.injEq, true_and, List.cons_prefix_cons]
          exact hend
  obtain ⟨es, hes, hend⟩ := hprepare ops store
  unfold batch
  match hp : store.prepareOps ops with
  | (store', none) =>
    rw [hp] at hes hend
    refine ⟨es, hes, Or.inr ⟨rfl, ?_⟩⟩
    exact hend.elim (fun h => nomatch h.2) And.right
  | (store', some results) =>
    rw [hp] at hes hend
    have hall := hend.elim And.left fun h => nomatch h.1
    refine ⟨es ++ [.puts now (putsOf ops)], ?_, Or.inl (by rw [hall])⟩
    rw [List.foldl_append, ← hes]
    rfl

/-- The namespace holds an item. -/
def Holds (store : InMemoryStore) (ns : Namespace) : Prop :=
  ∃ key, ((store.slot ns).get? key).isSome

/-- Every listing is a listing of the namespaces that hold an item. -/
def ListsLive (store : InMemoryStore) : Prop :=
  ∀ op, Lists store.Holds op (store.handleListNamespaces op)

theorem mem_keys_of_holds {store : InMemoryStore} {ns : Namespace} (h : store.Holds ns) :
    ns ∈ store.data.keys := by
  obtain ⟨key, hkey⟩ := h
  apply OrdDict.mem_keys_of_isSome
  unfold slot OrdDict.getD at hkey
  cases hd : store.data.get? ns with
  | none => rw [hd] at hkey; cases hkey
  | some d => rfl

theorem length_le_of_members {l l' : List Namespace} (h : l.Pairwise (· < ·)) (hsub : ∀ x ∈ l, x ∈ l') :
    l.length ≤ l'.length := by
  have hnodup : l.Nodup := h.imp fun h => ne_of_lt h
  exact (List.subperm_of_subset hnodup hsub).length_le

/-- The listings are right exactly where no namespace of the dictionary is empty. -/
theorem listsLive_iff_noEmpty (store : InMemoryStore) :
    store.ListsLive ↔ ∀ ns ∈ store.data.keys, store.Holds ns := by
  constructor
  · intro h ns hns
    let op : ListNamespacesOp := { limit := store.data.keys.length }
    obtain ⟨keys, hkeys, hmem, hfound⟩ := store.lists_keys op
    obtain ⟨live, hlive, hmem', hfound'⟩ := h op
    have hplain : ∀ (p : Namespace → Prop) x,
        (∃ ns, p ns ∧ (∀ cond ∈ op.conditions, Matches cond ns) ∧ op.truncate ns = x) ↔ p x := by
      intro p x
      constructor
      · intro ⟨ns, hp, _, hx⟩
        exact hx ▸ hp
      · exact fun hp => ⟨x, hp, by simp [op, ListNamespacesOp.conditions], rfl⟩
    have hle : (keys.length : Int) ≤ op.offset + op.limit := by
      have := length_le_of_members hkeys fun x hx => (hplain _ x).mp ((hmem x).mp hx)
      show (keys.length : Int) ≤ 0 + (store.data.keys.length : Int)
      omega
    have hle' : (live.length : Int) ≤ op.offset + op.limit := by
      have := length_le_of_members hlive
        fun x hx => mem_keys_of_holds ((hplain _ x).mp ((hmem' x).mp hx))
      show (live.length : Int) ≤ 0 + (store.data.keys.length : Int)
      omega
    have hsame : keys = live :=
      calc keys = pySlice keys op.offset (op.offset + op.limit) := (pySlice_zero hle).symm
        _ = pySlice live op.offset (op.offset + op.limit) := hfound.symm.trans hfound'
        _ = live := pySlice_zero hle'
    apply (hplain _ ns).mp
    rw [← hmem', ← hsame, hmem, hplain]
    exact hns
  · intro h op
    obtain ⟨all, hall, hmem, hfound⟩ := store.lists_keys op
    refine ⟨all, hall, ?_, hfound⟩
    intro x
    rw [hmem]
    constructor
    · intro ⟨ns, hns, hrest⟩
      exact ⟨ns, h ns hns, hrest⟩
    · intro ⟨ns, hns, hrest⟩
      exact ⟨ns, mem_keys_of_holds hns, hrest⟩

/-! ### What a step changes -/

section Step
variable (store : InMemoryStore)

theorem slot_assign (ns ns' : Namespace) (d : OrdDict String Item)
    (hd : ∀ key item, d.get? key = some item → item.ns = ns ∧ item.key = key) :
    (store.assign ns d hd).slot ns' = if ns' = ns then d else store.slot ns' := by
  unfold slot OrdDict.getD assign
  rw [OrdDict.get?_set]
  split <;> rfl

theorem mem_keys_assign {ns ns' : Namespace} {d : OrdDict String Item}
    {hd : ∀ key item, d.get? key = some item → item.ns = ns ∧ item.key = key} :
    ns' ∈ (store.assign ns d hd).data.keys ↔ ns' = ns ∨ ns' ∈ store.data.keys :=
  OrdDict.mem_keys_set

theorem slot_touch (ns ns' : Namespace) : (store.touch ns).slot ns' = store.slot ns' := by
  unfold touch
  rw [slot_assign]
  split
  · next h => rw [h]
  · rfl

theorem mem_keys_applyPut {now : String × String} {op : PutOp} {ns : Namespace} :
    ns ∈ (store.applyPut now op).data.keys ↔ ns = op.ns ∨ ns ∈ store.data.keys := by
  unfold applyPut
  cases op.value <;> exact mem_keys_assign store

/-- A put leaves an item at its key, or none if it deletes, and no other key moves. -/
theorem isSome_slot_applyPut (now : String × String) (op : PutOp) (ns : Namespace) (key : String) :
    (((store.applyPut now op).slot ns).get? key).isSome =
      if (op.ns, op.key) = (ns, key) then op.value.isSome else ((store.slot ns).get? key).isSome := by
  unfold applyPut
  cases hvalue : op.value with
  | none =>
    simp only [slot_assign]
    by_cases hns : ns = op.ns
    · subst hns
      rw [if_pos rfl, OrdDict.get?_filterMap]
      by_cases hkey : key = op.key
      · subst hkey
        simp
      · rw [if_neg fun h => hkey (congrArg Prod.snd h).symm]
        simp [hkey]
    · rw [if_neg hns, if_neg fun h => hns (congrArg Prod.fst h).symm]
  | some value =>
    simp only [slot_assign]
    by_cases hns : ns = op.ns
    · subst hns
      rw [if_pos rfl, OrdDict.get?_set]
      by_cases hkey : key = op.key
      · subst hkey
        simp
      · rw [if_neg hkey, if_neg fun h => hkey (congrArg Prod.snd h).symm]
    · rw [if_neg hns, if_neg fun h => hns (congrArg Prod.fst h).symm]

/-- Whether a key has an item after the puts of a batch: its last put decides. -/
def isPutTo (ops : List PutOp) (ns : Namespace) (key : String) : Bool :=
  match (lastOps ops).get? (ns, key) with
  | some op => op.value.isSome
  | none => ((store.slot ns).get? key).isSome

theorem foldl_applyPut_spec (now : PutOp → String × String) :
    ∀ (l : List ((Namespace × String) × PutOp)) (store : InMemoryStore),
      (l.map Prod.fst).Nodup → (∀ e ∈ l, e.1 = (e.2.ns, e.2.key)) →
      let store' := (l.map Prod.snd).foldl (fun store op => store.applyPut (now op) op) store
      (∀ ns, ns ∈ store'.data.keys ↔ (∃ e ∈ l, e.2.ns = ns) ∨ ns ∈ store.data.keys) ∧
      ∀ ns key, ((store'.slot ns).get? key).isSome =
        match OrdDictEntries.get l (ns, key) with
        | some op => op.value.isSome
        | none => ((store.slot ns).get? key).isSome
  | [], store, _, _ => by
    refine ⟨fun ns => ?_, fun ns key => rfl⟩
    simp
  | (x, op) :: l, store, hnodup, hslots => by
    obtain ⟨hx, hnodup⟩ := List.nodup_cons.mp hnodup
    have hslot : x = (op.ns, op.key) := hslots (x, op) List.mem_cons_self
    obtain ⟨hkeys, hitems⟩ := foldl_applyPut_spec now l (store.applyPut (now op) op) hnodup
      fun e he => hslots e (List.mem_cons_of_mem _ he)
    refine ⟨fun ns => ?_, fun ns key => ?_⟩
    · rw [List.map_cons, List.foldl_cons, hkeys, mem_keys_applyPut, @eq_comm _ ns op.ns]
      simp only [List.mem_cons, exists_eq_or_imp]
      exact or_left_comm.trans (or_assoc.symm)
    · rw [List.map_cons, List.foldl_cons, hitems, isSome_slot_applyPut, ← hslot]
      by_cases heq : x = (ns, key)
      · have hnone : OrdDictEntries.get l (ns, key) = none :=
          OrdDictEntries.get_eq_none_iff.mpr (heq ▸ hx)
        simp only [OrdDictEntries.get, heq, if_true, hnone]
      · simp only [OrdDictEntries.get, heq, if_false]

theorem applyPutOps_spec (now : PutOp → String × String) (ops : List PutOp) :
    (∀ ns, ns ∈ (store.applyPutOps now ops).data.keys ↔
      (∃ op ∈ ops, op.ns = ns) ∨ ns ∈ store.data.keys) ∧
    ∀ ns key, (((store.applyPutOps now ops).slot ns).get? key).isSome = store.isPutTo ops ns key := by
  have hslots : ∀ e ∈ (lastOps ops).entries, e.1 = (e.2.ns, e.2.key) := fun e he =>
    (lastOps_get? (OrdDict.get?_eq_some_iff.mpr he)).2
  obtain ⟨hkeys, hitems⟩ := foldl_applyPut_spec now (lastOps ops).entries store
    (lastOps ops).nodup hslots
  refine ⟨fun ns => ?_, hitems⟩
  refine (hkeys ns).trans (or_congr_left ?_)
  constructor
  · intro ⟨e, he, hns⟩
    exact ⟨e.2, (lastOps_get? (OrdDict.get?_eq_some_iff.mpr he)).1, hns⟩
  · intro ⟨op, hop, hns⟩
    obtain ⟨op', hop'⟩ := lastOps_isSome hop
    refine ⟨((op.ns, op.key), op'), OrdDict.get?_eq_some_iff.mp hop', ?_⟩
    rw [← hns]
    exact (congrArg Prod.fst (lastOps_get? hop').2).symm

/-- The step enters no namespace without an item, and empties none: a get looks
    in a namespace that holds an item, and every namespace that a batch of puts
    names has an item left at some key. -/
def KeepsLive : MemoryEvent → Prop
  | .read (.get op) => store.Holds op.ns
  | .read _ => True
  | .puts _ ops => ∀ op ∈ ops, ∃ key, store.isPutTo ops op.ns key = true

theorem listsLive_step_iff (e : MemoryEvent) (h : store.ListsLive) :
    (store.step e).ListsLive ↔ store.KeepsLive e := by
  rw [listsLive_iff_noEmpty] at h ⊢
  match e with
  | .read (.get op) =>
    have hholds : ∀ ns, (store.touch op.ns).Holds ns ↔ store.Holds ns := by
      intro ns
      unfold Holds
      rw [slot_touch]
    show (∀ ns ∈ (store.touch op.ns).data.keys, (store.touch op.ns).Holds ns) ↔ store.Holds op.ns
    constructor
    · intro hall
      exact (hholds op.ns).mp (hall op.ns ((mem_keys_assign store).mpr (Or.inl rfl)))
    · intro hop ns hns
      rw [hholds]
      rcases (mem_keys_assign store).mp hns with rfl | hns
      · exact hop
      · exact h ns hns
  | .read (.search op) => exact iff_of_true h trivial
  | .read (.put op) => exact iff_of_true h trivial
  | .read (.listNamespaces op) => exact iff_of_true h trivial
  | .puts now ops =>
    obtain ⟨hkeys, hitems⟩ := store.applyPutOps_spec now ops
    have hholds : ∀ ns, (store.applyPutOps now ops).Holds ns ↔ ∃ key, store.isPutTo ops ns key = true := by
      intro ns
      unfold Holds
      simp only [hitems]
    show (∀ ns ∈ (store.applyPutOps now ops).data.keys, (store.applyPutOps now ops).Holds ns) ↔
      ∀ op ∈ ops, ∃ key, store.isPutTo ops op.ns key = true
    constructor
    · intro hall op hop
      exact (hholds op.ns).mp (hall op.ns ((hkeys op.ns).mpr (Or.inl ⟨op, hop, rfl⟩)))
    · intro hall ns hns
      rw [hholds]
      by_cases hnamed : ∃ op ∈ ops, op.ns = ns
      · obtain ⟨op, hop, rfl⟩ := hnamed
        exact hall op hop
      · -- a namespace that no put names keeps its items
        obtain ⟨key, hkey⟩ := h ns (((hkeys ns).mp hns).resolve_left hnamed)
        refine ⟨key, ?_⟩
        have hlast : (lastOps ops).get? (ns, key) = none := by
          cases hget : (lastOps ops).get? (ns, key) with
          | none => rfl
          | some op =>
            obtain ⟨hop, hslot⟩ := lastOps_get? hget
            exact absurd ⟨op, hop, (congrArg Prod.fst hslot).symm⟩ hnamed
        unfold isPutTo
        rw [hlast]
        exact hkey

end Step

/-- In every state of a history every listing is right exactly where no step of
    it enters an empty namespace or empties one. -/
theorem listsLive_iff (es : List MemoryEvent) :
    (∀ pre, pre <+: es → (after pre).ListsLive) ↔
      ∀ pre e, pre ++ [e] <+: es → (after pre).KeepsLive e := by
  have hempty : empty.ListsLive := by
    rw [listsLive_iff_noEmpty]
    exact fun ns hns => nomatch hns
  exact @Machine.foldl_prefix_iff _ _ step (fun _ => True) ListsLive KeepsLive empty trivial (fun _ _ _ => trivial) hempty
    (fun store e _ h => store.listsLive_step_iff e h) es

/-- A get of a key that is not there: the namespace is listed from then on. -/
theorem not_listsLive : ¬ ∀ es, (after es).ListsLive := by
  intro h
  have hnow := (listsLive_iff_noEmpty _).mp (h [.read (.get { ns := ["a"], key := "k" })]) ["a"]
    (by decide)
  obtain ⟨key, hkey⟩ := hnow
  exact Bool.false_ne_true hkey

end InMemoryStore
end LangGraph.Stores
