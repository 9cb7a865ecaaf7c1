import Mathlib.Data.List.Induction
import LangGraph.Lib.OrdDict
import LangGraph.Stores.Texts

/- The tables `store` and `store_vectors` and the statements that write to them.

   Correspondence (source ↔ Lean):
     tables `store`, `store_vectors` by primary key ↔ `Tables.store`, `Tables.vectors`
     `UPDATE store SET expires_at = … AND ttl_minutes IS NOT NULL` ↔ `Write.refresh`
     `DELETE FROM store WHERE prefix = ? AND key IN (…)` ↔ `Write.delete`
     `INSERT OR REPLACE INTO store`, `… INTO store_vectors` ↔ `Write.insert`, `Write.upsert`
   In SQLite a REPLACE removes the old row first, so with foreign keys on its
   vectors go as they do with a deleted row. `get?_foldl_refreshFirst`: of the
   statements that name a row the last decides what it is. -/
namespace LangGraph.Stores

/-- The key of a row: the text of the namespace and the key. -/
abbrev RowKey := String × String

structure StoreRow where
  value : Json
  createdAt : String
  updatedAt : String
  expiresAt : Option String
  ttlMinutes : Option Minutes
  deriving DecidableEq, Repr

structure Tables (E : Type) where
  store : OrdDict RowKey StoreRow
  vectors : OrdDict (RowKey × String) E

namespace Tables
variable {E : Type}

def empty : Tables E := ⟨∅, ∅⟩

/-- The same rows. -/
def Same (t t' : Tables E) : Prop :=
  (∀ k, t.store.get? k = t'.store.get? k) ∧ ∀ v, t.vectors.get? v = t'.vectors.get? v

theorem Same.refl (t : Tables E) : t.Same t := ⟨fun _ => rfl, fun _ => rfl⟩

end Tables

/-- A statement with its parameters bound. -/
inductive Write (E : Type) where
  | refresh (nsText : String) (keys : List String) (expiresAt : Minutes → Option String)
  | delete (nsText : String) (keys : List String)
  | insert (rows : List (RowKey × StoreRow))
  | upsert (rows : List ((RowKey × String) × E))

namespace Write
variable {E : Type}

/-- The rows of `store` that the statement removes or replaces. -/
def removes (w : Write E) (t : Tables E) (k : RowKey) : Bool :=
  match w with
  | .delete nsText keys => k.1 == nsText && keys.contains k.2 && t.store.contains k
  | .insert rows => (rows.map Prod.fst).contains k && t.store.contains k
  | _ => false

/-- `ON DELETE CASCADE` -/
def cascade (w : Write E) (t : Tables E) : OrdDict (RowKey × String) E :=
  t.vectors.filterMap fun v e => if w.removes t v.1 then none else some e

/-- What the statement does to the rows of `store`. -/
def applyStore (w : Write E) (store : OrdDict RowKey StoreRow) : OrdDict RowKey StoreRow :=
  match w with
  | .refresh nsText keys expiresAt => store.filterMap fun k row =>
    match row.ttlMinutes with
    | some ttl =>
      if k.1 = nsText ∧ k.2 ∈ keys then some { row with expiresAt := expiresAt ttl } else some row
    | none => some row
  | .delete nsText keys => store.filterMap fun k row =>
    if k.1 = nsText ∧ k.2 ∈ keys then none else some row
  | .insert rows => store.setAll rows
  | .upsert _ => store

/-- The statement, with foreign keys enabled or not. -/
def apply (foreignKeys : Bool) (w : Write E) (t : Tables E) : Tables E where
  store := w.applyStore t.store
  vectors :=
    let vectors := if foreignKeys then w.cascade t else t.vectors
    match w with
    | .upsert rows => vectors.setAll rows
    | _ => vectors

/-- The row `k` of `store` after the statement. -/
def onRow (w : Write E) (k : RowKey) (row : Option StoreRow) : Option StoreRow :=
  match w with
  | .refresh nsText keys expiresAt => row.map fun r =>
    match r.ttlMinutes with
    | some ttl => if k.1 = nsText ∧ k.2 ∈ keys then { r with expiresAt := expiresAt ttl } else r
    | none => r
  | .delete nsText keys => if k.1 = nsText ∧ k.2 ∈ keys then none else row
  | .insert rows => ((OrdDict.ofList rows).get? k).or row
  | .upsert _ => row

theorem get?_applyStore (w : Write E) (store : OrdDict RowKey StoreRow) (k : RowKey) :
    (w.applyStore store).get? k = w.onRow k (store.get? k) := by
  cases w with
  | refresh nsText keys expiresAt =>
    show (OrdDict.filterMap _ _).get? k = _
    rw [OrdDict.get?_filterMap]
    unfold onRow
    cases store.get? k with
    | none => rfl
    | some row =>
      cases hr : row.ttlMinutes with
      | none => simp [hr]
      | some ttl => by_cases hk : k.1 = nsText ∧ k.2 ∈ keys <;> simp [hr, hk]
  | delete nsText keys =>
    show (OrdDict.filterMap _ _).get? k = _
    rw [OrdDict.get?_filterMap]
    unfold onRow
    cases store.get? k with
    | none => simp
    | some row => rfl
  | insert rows => exact OrdDict.get?_setAll_eq_or k rows store
  | upsert rows => rfl

theorem get?_foldl_apply (foreignKeys : Bool) (k : RowKey) : ∀ (ws : List (Write E)) (t : Tables E),
    (ws.foldl (fun t w => w.apply foreignKeys t) t).store.get? k =
      ws.foldl (fun row w => w.onRow k row) (t.store.get? k)
  | [], _ => rfl
  | w :: ws, t => by
    rw [List.foldl_cons, List.foldl_cons, get?_foldl_apply foreignKeys k ws]
    show ws.foldl _ ((w.applyStore t.store).get? k) = _
    rw [get?_applyStore]

/-! ## What a list of statements leaves -/

/-- The statement names the row `k`. -/
def names (w : Write E) (k : RowKey) : Bool :=
  match w with
  | .refresh nsText keys _ => k.1 == nsText && keys.contains k.2
  | .delete nsText keys => k.1 == nsText && keys.contains k.2
  | .insert rows => (rows.map Prod.fst).contains k
  | .upsert _ => false

def isRefresh : Write E → Bool
  | .refresh .. => true
  | _ => false

def isUpsert : Write E → Bool
  | .upsert _ => true
  | _ => false

/-- The order in which a batch writes: it refreshes, deletes, inserts once and embeds once. -/
def Precedes (w w' : Write E) : Prop :=
  match w with
  | .refresh .. => True
  | .delete .. => w'.isRefresh = false
  | .insert _ => w'.isUpsert = true
  | .upsert _ => False

/-- The last of the statements that names the row. -/
def lastNaming (ws : List (Write E)) (k : RowKey) : Option (Write E) :=
  (ws.filter fun w => w.names k).getLast?

/-- The statement would leave the row as it is. -/
def Leaves (w : Write E) (k : RowKey) (row : Option StoreRow) : Prop :=
  match w with
  | .refresh _ _ expiresAt =>
    ∀ r ttl, row = some r → r.ttlMinutes = some ttl → r.expiresAt = expiresAt ttl
  | .delete _ _ => row = none
  | .insert rows => row = (OrdDict.ofList rows).get? k
  | .upsert _ => True

theorem onRow_of_not_names {w : Write E} {k : RowKey} (h : w.names k = false) (row : Option StoreRow) :
    w.onRow k row = row := by
  cases w with
  | refresh nsText keys expiresAt =>
    have hk : ¬ (k.1 = nsText ∧ k.2 ∈ keys) := by simpa [names] using h
    cases row with
    | none => rfl
    | some r => cases hr : r.ttlMinutes <;> simp [onRow, hr, hk]
  | delete nsText keys =>
    have hk : ¬ (k.1 = nsText ∧ k.2 ∈ keys) := by simpa [names] using h
    simp [onRow, hk]
  | insert rows =>
    have hk : k ∉ rows.map Prod.fst := by simpa [names] using h
    show ((OrdDict.ofList rows).get? k).or row = row
    rw [OrdDict.ofList, OrdDict.get?_setAll_of_not_mem _ hk]
    rfl
  | upsert rows => rfl

/-- A later refresh of a row hides an earlier one. -/
theorem onRow_onRow_refresh {w w' : Write E} {k : RowKey} (hw : w.isRefresh = true)
    (hw' : w'.isRefresh = true) (hk : w.names k = true) (row : Option StoreRow) :
    w.onRow k (w'.onRow k row) = w.onRow k row := by
  cases w with
  | refresh nsText keys expiresAt =>
    cases w' with
    | refresh nsText' keys' expiresAt' =>
      have hk : k.1 = nsText ∧ k.2 ∈ keys := by simpa [names] using hk
      cases row with
      | none => rfl
      | some r =>
        cases hr : r.ttlMinutes with
        | none => simp [onRow, hr]
        | some ttl =>
          by_cases hk' : k.1 = nsText' ∧ k.2 ∈ keys'
          · simp only [onRow, Option.map_some, hr, if_pos hk, if_pos hk']
          · simp only [onRow, Option.map_some, hr, if_pos hk, if_neg hk']
    | _ => cases hw'
  | _ => cases hw

theorem onRow_foldl_refreshes {w : Write E} {k : RowKey} (hw : w.isRefresh = true)
    (hk : w.names k = true) : ∀ (ws : List (Write E)) (row : Option StoreRow),
      (∀ w' ∈ ws, w'.isRefresh = true) →
        w.onRow k (ws.foldl (fun row w' => w'.onRow k row) row) = w.onRow k row
  | [], _, _ => rfl
  | w' :: ws, row, h => by
    rw [List.foldl_cons, onRow_foldl_refreshes hw hk ws _ fun w'' hw'' =>
      h w'' (List.mem_cons_of_mem _ hw'')]
    exact onRow_onRow_refresh hw (h w' List.mem_cons_self) hk row

/-- A statement that names a row leaves it as it is when it says so. -/
theorem onRow_eq_self_iff {w : Write E} {k : RowKey} (hk : w.names k = true)
    (row : Option StoreRow) : w.onRow k row = row ↔ w.Leaves k row := by
  cases w with
  | refresh nsText keys expiresAt =>
    have hk : k.1 = nsText ∧ k.2 ∈ keys := by simpa [names] using hk
    cases row with
    | none => simp [onRow, Leaves]
    | some r =>
      cases hr : r.ttlMinutes with
      | none =>
        have hleaves : Leaves (E := E) (.refresh nsText keys expiresAt) k (some r) := by
          intro r' ttl hr' httl
          cases hr'
          cases hr.symm.trans httl
        have hrow : onRow (E := E) (.refresh nsText keys expiresAt) k (some r) = some r := by
          simp [onRow, hr]
        exact iff_of_true hrow hleaves
      | some ttl =>
        have hrow : onRow (E := E) (.refresh nsText keys expiresAt) k (some r) =
            some { r with expiresAt := expiresAt ttl } := by simp [onRow, hr, hk]
        rw [hrow, Option.some.injEq]
        constructor
        · intro h r' ttl' hr' httl
          cases hr'
          cases hr.symm.trans httl
          exact (congrArg StoreRow.expiresAt h).symm
        · intro h
          rw [← h r ttl rfl hr]
  | delete nsText keys =>
    have hk : k.1 = nsText ∧ k.2 ∈ keys := by simpa [names] using hk
    simp only [onRow, hk, Leaves, and_self, if_true]
    exact eq_comm
  | insert rows =>
    have hk : k ∈ rows.map Prod.fst := by simpa [names] using hk
    obtain ⟨r, -, hget⟩ := OrdDict.exists_get?_setAll OrdDict.empty hk
    have hget : (OrdDict.ofList rows).get? k = some r := hget
    simp only [onRow, Leaves, hget, Option.some_or]
    exact eq_comm
  | upsert rows => cases hk

/-- Of the statements that name a row the last decides what it is. -/
theorem foldl_onRow_eq_iff {k : RowKey} {row : Option StoreRow} {ws : List (Write E)}
    (hord : ws.Pairwise Precedes) :
    ws.foldl (fun row w => w.onRow k row) row = row ↔
      ∀ w, lastNaming ws k = some w → w.Leaves k row := by
  induction ws using List.reverseRecOn with
  | nil => simp [lastNaming]
  | append_singleton ws w ih =>
    obtain ⟨hws, -, hbefore⟩ := List.pairwise_append.mp hord
    rw [List.foldl_append, List.foldl_cons, List.foldl_nil, lastNaming, List.filter_append]
    cases hk : w.names k with
    | false =>
      have hfilter : ([w].filter fun w => w.names k) = [] := by simp [hk]
      rw [onRow_of_not_names hk, hfilter, List.append_nil]
      exact ih hws
    | true =>
      have hfilter : ([w].filter fun w => w.names k) = [w] := by simp [hk]
      rw [hfilter, List.getLast?_concat]
      have hlast : w.onRow k (ws.foldl (fun row w => w.onRow k row) row) = w.onRow k row := by
        cases hw : w.isRefresh with
        | true =>
          -- nothing but refreshes stands before a refresh
          apply onRow_foldl_refreshes hw hk
          intro w' hw'
          have hprec := hbefore w' hw' w List.mem_cons_self
          cases w' with
          | refresh _ _ _ => rfl
          | delete _ _ => exact absurd hw (by simpa [Precedes] using hprec)
          | insert _ => cases w <;> simp_all [Precedes, isUpsert, isRefresh]
          | upsert _ => cases hprec
        | false =>
          cases w with
          | refresh _ _ _ => cases hw
          | delete nsText keys =>
            have hk : k.1 = nsText ∧ k.2 ∈ keys := by simpa [names] using hk
            simp [onRow, hk]
          | insert rows =>
            have hk : k ∈ rows.map Prod.fst := by simpa [names] using hk
            obtain ⟨r, -, hget⟩ := OrdDict.exists_get?_setAll OrdDict.empty hk
            have hget : (OrdDict.ofList rows).get? k = some r := hget
            simp [onRow, hget]
          | upsert _ => cases hk
      rw [hlast, onRow_eq_self_iff hk]
      simp

/-- The statement removes the row, or replaces it, if it is stored. -/
def drops (w : Write E) (k : RowKey) : Bool := !w.isRefresh && w.names k

theorem removes_eq {w : Write E} (hw : w.isUpsert = false) (t : Tables E) (k : RowKey) :
    w.removes t k = (w.drops k && t.store.contains k) := by
  cases w with
  | upsert _ => cases hw
  | _ => rfl

theorem get?_vectors_apply {w : Write E} (hw : w.isUpsert = false) (foreignKeys : Bool) (t : Tables E)
    (v : RowKey × String) : (w.apply foreignKeys t).vectors.get? v =
      if foreignKeys = true ∧ w.drops v.1 = true ∧ t.store.contains v.1 = true then none
      else t.vectors.get? v := by
  have hvec : (w.apply foreignKeys t).vectors = if foreignKeys then w.cascade t else t.vectors := by
    cases w with
    | upsert _ => cases hw
    | _ => rfl
  rw [hvec]
  cases foreignKeys with
  | false => simp
  | true =>
    simp only [if_true, true_and, cascade, OrdDict.get?_filterMap, removes_eq hw, Bool.and_eq_true]
    by_cases hdrop : w.drops v.1 = true ∧ t.store.contains v.1 = true
    · simp [hdrop]
    · simp [hdrop]

theorem get?_vectors_none {v : RowKey × String} (foreignKeys : Bool) : ∀ (ws : List (Write E))
    (t : Tables E), (∀ w ∈ ws, w.isUpsert = false) → t.vectors.get? v = none →
      (ws.foldl (fun t w => w.apply foreignKeys t) t).vectors.get? v = none
  | [], _, _, h => h
  | w :: ws, t, hw, h => by
    apply get?_vectors_none foreignKeys ws _ fun w' hw' => hw w' (List.mem_cons_of_mem _ hw')
    rw [get?_vectors_apply (hw w List.mem_cons_self), h, ite_self]

theorem contains_apply_of_not_drops {w : Write E} {k : RowKey} (h : w.drops k = false)
    (foreignKeys : Bool) (t : Tables E) :
    (w.apply foreignKeys t).store.contains k = t.store.contains k := by
  have hrow : (w.apply foreignKeys t).store.get? k = w.onRow k (t.store.get? k) :=
    get?_applyStore w t.store k
  unfold OrdDict.contains
  rw [hrow]
  cases hk : w.names k with
  | false => rw [onRow_of_not_names hk]
  | true =>
    cases w with
    | refresh _ _ _ => simp [onRow]
    | _ => simp [drops, hk, isRefresh] at h

/-- With foreign keys the vectors of a stored row go with the first statement that drops it. -/
theorem get?_vectors_foldl (foreignKeys : Bool) (v : RowKey × String) : ∀ (ws : List (Write E))
    (t : Tables E), ws.Pairwise Precedes → (∀ w ∈ ws, w.isUpsert = false) →
      (ws.foldl (fun t w => w.apply foreignKeys t) t).vectors.get? v =
        if foreignKeys = true ∧ ws.any (fun w => w.drops v.1) = true ∧ t.store.contains v.1 = true
        then none else t.vectors.get? v
  | [], t, _, _ => by simp
  | w :: ws, t, hord, hup => by
    obtain ⟨hprec, hord⟩ := List.pairwise_cons.mp hord
    have hw := hup w List.mem_cons_self
    have hws : ∀ w' ∈ ws, w'.isUpsert = false := fun w' hw' => hup w' (List.mem_cons_of_mem _ hw')
    have ih := get?_vectors_foldl foreignKeys v ws (w.apply foreignKeys t) hord hws
    rw [List.foldl_cons, List.any_cons, ih, get?_vectors_apply hw]
    cases hdrop : w.drops v.1 with
    | false => simp [contains_apply_of_not_drops hdrop]
    | true =>
      cases hstored : t.store.contains v.1 with
      | true => cases foreignKeys <;> simp
      | false =>
        -- a row that is not stored has nothing to drop, now or by what may follow
        have hrest : ws.any (fun w' => w'.drops v.1) = true →
            (w.apply foreignKeys t).store.contains v.1 = false := by
          intro hany
          obtain ⟨w', hw', -⟩ := List.any_eq_true.mp hany
          have hrow : (w.apply foreignKeys t).store.get? v.1 = w.onRow v.1 (t.store.get? v.1) :=
            get?_applyStore w t.store v.1
          have hnone : t.store.get? v.1 = none := by
            simpa [OrdDict.contains] using hstored
          cases w with
          | refresh _ _ _ => cases hdrop
          | delete _ _ => simp [OrdDict.contains, hrow, hnone, onRow]
          | insert _ => exact absurd (hprec w' hw') (by simp [Precedes, hws w' hw'])
          | upsert _ => cases hw
        by_cases hany : ws.any (fun w' => w'.drops v.1) = true
        · simp [hrest hany]
        · simp [hany]

/-- A row that no statement names stays. -/
theorem get?_foldl_of_not_names (foreignKeys : Bool) {k : RowKey} {ws : List (Write E)}
    (h : ∀ w ∈ ws, w.names k = false) (t : Tables E) :
    (ws.foldl (fun t w => w.apply foreignKeys t) t).store.get? k = t.store.get? k := by
  rw [get?_foldl_apply]
  generalize t.store.get? k = row
  induction ws with
  | nil => rfl
  | cons w ws ih =>
    rw [List.foldl_cons, onRow_of_not_names (h w List.mem_cons_self)]
    exact ih fun w' hw' => h w' (List.mem_cons_of_mem _ hw')

/-- What the statements leave in place: every row as its last statement would, and with
    foreign keys no stored row that had vectors is dropped. -/
structure Undisturbed (foreignKeys : Bool) (ws : List (Write E)) (t : Tables E) : Prop where
  rows : ∀ k w, lastNaming ws k = some w → w.Leaves k (t.store.get? k)
  vectors : foreignKeys = true → ∀ k, ws.any (fun w => w.drops k) = true →
    t.store.contains k = true → ∀ field, t.vectors.get? (k, field) = none

theorem foldl_same_iff {foreignKeys : Bool} {ws : List (Write E)} {t : Tables E}
    (hord : ws.Pairwise Precedes) (hup : ∀ w ∈ ws, w.isUpsert = false) :
    (ws.foldl (fun t w => w.apply foreignKeys t) t).Same t ↔ Undisturbed foreignKeys ws t := by
  have hrow : ∀ k, (ws.foldl (fun t w => w.apply foreignKeys t) t).store.get? k = t.store.get? k ↔
      ∀ w, lastNaming ws k = some w → w.Leaves k (t.store.get? k) := by
    intro k
    rw [get?_foldl_apply]
    exact foldl_onRow_eq_iff hord
  constructor
  · intro h
    refine ⟨fun k => (hrow k).mp (h.1 k), ?_⟩
    intro hfk k hany hstored field
    have hv := h.2 (k, field)
    rw [get?_vectors_foldl foreignKeys (k, field) ws t hord hup, if_pos ⟨hfk, hany, hstored⟩] at hv
    exact hv.symm
  · intro h
    refine ⟨fun k => (hrow k).mpr (h.rows k), ?_⟩
    intro v
    rw [get?_vectors_foldl foreignKeys v ws t hord hup]
    split
    · next hc => exact (h.vectors hc.1 v.1 hc.2.1 hc.2.2 v.2).symm
    · rfl

end Write
end LangGraph.Stores
