import LangGraph.Stores.MemoryFilter
import LangGraph.Stores.PutQueries

/- `InMemoryStore` without an index.

   Correspondence (source ↔ Lean):
     `Item`, `_data`                                ↔ `Item`, `InMemoryStore.data`
     `self._data[namespace]`, which enters the namespace ↔ `slot`, `touch`
     `_apply_put_ops`, for one operation            ↔ `applyPut`
     `_filter_items`                                ↔ `filterItems`
     `_batch_search`, without vectors               ↔ `search`
     `candidates[op.offset : op.offset + op.limit]` ↔ `pySlice`
   `none` is an exception of a comparison. -/
namespace LangGraph.Stores

structure Item where
  value : Json
  key : String
  ns : Namespace
  createdAt : String
  updatedAt : String
  deriving DecidableEq, Repr, Inhabited

/-- An item stands under its own namespace and key. -/
structure InMemoryStore where
  data : OrdDict Namespace (OrdDict String Item)
  located : ∀ ns d, data.get? ns = some d → ∀ key item, d.get? key = some item →
    item.ns = ns ∧ item.key = key

/-- `xs[start:stop]` -/
def pySlice {α : Type} (xs : List α) (start stop : Int) : List α :=
  let clamp (i : Int) : Nat := (if i < 0 then i + xs.length else i).toNat
  (xs.take (clamp stop)).drop (clamp start)

/-- `[x for x in xs if test(x)]`, where the test may raise. -/
def filterLazily {α : Type} (test : α → Option Bool) : List α → Option (List α)
  | [] => some []
  | x :: xs => (test x).bind fun b => (filterLazily test xs).map fun ys => if b then x :: ys else ys

theorem filterLazily_eq_some_iff {α : Type} {test : α → Option Bool} : ∀ {xs ys : List α},
    filterLazily test xs = some ys ↔
      (∀ x ∈ xs, (test x).isSome) ∧ ys = xs.filter fun x => test x == some true
  | [], ys => by
    constructor
    · exact fun h => ⟨fun _ hx => (nomatch hx), (Option.some.inj h).symm⟩
    · rintro ⟨_, rfl⟩
      rfl
  | x :: xs, ys => by
    cases hx : test x with
    | none => simp [filterLazily, hx]
    | some b =>
      have hcons : filterLazily test (x :: xs) = some ys ↔
          ∃ zs, filterLazily test xs = some zs ∧ (if b then x :: zs else zs) = ys := by
        simp [filterLazily, hx]
      rw [hcons, List.forall_mem_cons, List.filter_cons, hx]
      constructor
      · rintro ⟨zs, hzs, rfl⟩
        obtain ⟨hall, rfl⟩ := filterLazily_eq_some_iff.mp hzs
        refine ⟨⟨rfl, hall⟩, ?_⟩
        cases b <;> rfl
      · rintro ⟨⟨_, hall⟩, rfl⟩
        refine ⟨_, filterLazily_eq_some_iff.mpr ⟨hall, rfl⟩, ?_⟩
        cases b <;> rfl

/-- A slice from the start that is long enough is the whole list. -/
theorem pySlice_zero {α : Type} {xs : List α} {stop : Int} (h : (xs.length : Int) ≤ stop) :
    pySlice xs 0 stop = xs := by
  have hstop : ¬stop < 0 := by omega
  have hlen : xs.length ≤ stop.toNat := by omega
  simp [pySlice, hstop, List.take_of_length_le hlen]

/-- A slice between natural numbers. -/
theorem pySlice_window {α : Type} (xs : List α) (offset limit : Nat) :
    pySlice xs offset (offset + limit) = (xs.drop offset).take limit := by
  have ho : ¬(offset : Int) < 0 := by omega
  have hl : ¬(offset + limit : Int) < 0 := by omega
  have hnat : ((offset : Int) + limit).toNat = offset + limit := by omega
  simp only [pySlice, if_neg ho, if_neg hl, hnat, Int.toNat_natCast]
  rw [List.drop_take, Nat.add_sub_cancel_left]

namespace InMemoryStore

def empty : InMemoryStore := ⟨∅, fun _ _ h => nomatch h⟩

variable (store : InMemoryStore)

/-- `self._data[namespace]` -/
def slot (ns : Namespace) : OrdDict String Item := store.data.getD ns ∅

theorem slot_located {ns : Namespace} {key : String} {item : Item}
    (h : (store.slot ns).get? key = some item) : item.ns = ns ∧ item.key = key := by
  unfold slot OrdDict.getD at h
  cases hd : store.data.get? ns with
  | none => rw [hd] at h; cases h
  | some d =>
    rw [hd] at h
    exact store.located ns d hd key item h

/-- `self._data[namespace] = d` -/
def assign (ns : Namespace) (d : OrdDict String Item)
    (hd : ∀ key item, d.get? key = some item → item.ns = ns ∧ item.key = key) : InMemoryStore where
  data := store.data.set ns d
  located := by
    intro ns' d' h
    rw [OrdDict.get?_set] at h
    split at h
    · next heq =>
      cases heq
      obtain rfl := Option.some.inj h
      exact hd
    · exact store.located ns' d' h

def touch (ns : Namespace) : InMemoryStore :=
  store.assign ns (store.slot ns) fun _ _ => store.slot_located

/-- One step of `_apply_put_ops`; `now` is what the clock shows, twice. -/
def applyPut (now : String × String) (op : PutOp) : InMemoryStore :=
  match op.value with
  | none =>
    store.assign op.ns ((store.slot op.ns).filterMap fun k item => if k = op.key then none else some item) <| by
      intro key item h
      rw [OrdDict.get?_filterMap, Option.bind_eq_some_iff] at h
      obtain ⟨item', hitem, h⟩ := h
      split at h
      · cases h
      · obtain rfl := Option.some.inj h
        exact store.slot_located hitem
  | some value =>
    store.assign op.ns ((store.slot op.ns).set op.key ⟨value, op.key, op.ns, now.1, now.2⟩) <| by
      intro key item h
      rw [OrdDict.get?_set] at h
      split at h
      · next heq =>
        obtain rfl := Option.some.inj h
        exact ⟨rfl, heq.symm⟩
      · exact store.slot_located h

/-- Every item, in the order of the dictionaries. -/
def items : List Item := store.data.entries.flatMap fun e => e.2.values

/-- `filter_func` -/
def filterItem (filter : Option (List (String × Json))) (item : Item) : Option Bool :=
  match item.value with
  | .dict entries => filterFunc filter entries
  -- only a filter with an entry reads the value
  | _ => if filter.getD [] = [] then some true else none

/-- `_filter_items` -/
def filterItems (op : SearchOp) : Option (List Item) :=
  filterLazily (filterItem op.filter)
    ((store.data.entries.filter fun e => op.namespacePrefix.isPrefixOf e.1).flatMap fun e => e.2.values)

/-- What `_batch_search` returns for a search without an index. -/
def search (op : SearchOp) : Option (List Item) :=
  (store.filterItems op).map fun candidates => pySlice candidates op.offset (op.offset + op.limit)

theorem ns_of_mem {e : Namespace × OrdDict String Item} (he : e ∈ store.data.entries) {item : Item}
    (h : item ∈ e.2.values) : item.ns = e.1 := by
  obtain ⟨key, hkey⟩ := OrdDict.mem_values_iff.mp h
  exact (store.located e.1 e.2 (OrdDict.get?_eq_some_iff.mpr he) key item hkey).1

/-- The candidates are the items under the prefix that pass the filter. -/
theorem filterItems_eq_some_iff {op : SearchOp} {found : List Item} :
    store.filterItems op = some found ↔
      (∀ item ∈ store.items, op.namespacePrefix <+: item.ns → (filterItem op.filter item).isSome) ∧
        found = store.items.filter fun item =>
          op.namespacePrefix.isPrefixOf item.ns && filterItem op.filter item == some true := by
  have hunder : ∀ es : List (Namespace × OrdDict String Item), (∀ e ∈ es, e ∈ store.data.entries) →
      ((es.filter fun e => op.namespacePrefix.isPrefixOf e.1).flatMap fun e => e.2.values) =
        (es.flatMap fun e => e.2.values).filter fun item => op.namespacePrefix.isPrefixOf item.ns := by
    intro es hes
    induction es with
    | nil => rfl
    | cons e es ih =>
      rw [List.forall_mem_cons] at hes
      -- the items of one namespace are all under the prefix, or none is
      have hns : e.2.values.filter (fun item => op.namespacePrefix.isPrefixOf item.ns) =
          if op.namespacePrefix.isPrefixOf e.1 then e.2.values else [] := by
        split
        · next h =>
          exact List.filter_eq_self.mpr fun item hi => by rw [store.ns_of_mem hes.1 hi, h]
        · next h =>
          refine List.filter_eq_nil_iff.mpr fun item hi => ?_
          rw [store.ns_of_mem hes.1 hi]
          exact h
      rw [List.flatMap_cons, List.filter_append, hns, ← ih hes.2, List.filter_cons]
      split
      · rw [List.flatMap_cons]
      · rfl
  unfold filterItems items
  rw [hunder _ fun _ he => he, filterLazily_eq_some_iff, List.filter_filter]
  have hmem : ∀ item, item ∈ (store.data.entries.flatMap fun e => e.2.values).filter
      (fun item => op.namespacePrefix.isPrefixOf item.ns) ↔
        item ∈ (store.data.entries.flatMap fun e => e.2.values) ∧ op.namespacePrefix <+: item.ns := by
    intro item
    rw [List.mem_filter, List.isPrefixOf_iff_prefix]
  simp only [hmem, and_imp, Bool.and_comm]

end InMemoryStore
end LangGraph.Stores
