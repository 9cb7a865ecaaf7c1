import LangGraph.Lib.Like
import LangGraph.Stores.PostgresFilter
import LangGraph.Stores.MemoryStore
import LangGraph.Stores.Vectors

/- Searches without a query, in the SQL stores and in memory.

   Correspondence (source ↔ Lean):
     `_row_to_search_item`                          ↔ `rowItem`
     `prefix LIKE ?`                                ↔ `matchesPrefix`
     `SELECT … ORDER BY updated_at DESC`            ↔ `selectRows`
     `LIMIT ? OFFSET ?`                             ↔ `window`
     `search` of the SQL stores                     ↔ `search`
   LIKE has no escape character; in SQLite it does not tell the case of ASCII
   letters apart. Rows with one `updated_at` stay as the table has them. The
   refresh of `expires_at` is left out: a search does not return it.
   `isolated_iff`: a search stays under its prefix, and finds what the memory
   finds, iff no item elsewhere that the filter selects has a text that begins
   with a match of the prefix, and the filters agree under the prefix. -/
namespace LangGraph.Stores

/-- What the database and the runtime do with texts and floats. -/
structure SqlEnv where
  floatText : BitVec 64 → String
  castReal : String → Binary64
  pg : Postgres.PgText

section Select
variable {E : Type}

/-- `_row_to_search_item` -/
def rowItem (r : RowKey × StoreRow) : Item where
  value := r.2.value
  key := r.1.2
  ns := decodeNsText r.1.1
  createdAt := r.2.createdAt
  updatedAt := r.2.updatedAt

/-- Whether two characters count as equal in LIKE. -/
def Backend.same : Backend → Char → Char → Bool
  | .sqlite _, c, d => c.toLower == d.toLower
  | .postgres, c, d => c == d

/-- `prefix LIKE ?` with the parameter `f"{_namespace_to_text(op.namespace_prefix)}%"`. -/
def matchesPrefix (backend : Backend) (namespacePrefix : Namespace) (nsText : String) : Bool :=
  let like := Like.like backend.same ((namespaceToText namespacePrefix).toList ++ ['%']) nsText.toList
  match backend with
  | .sqlite _ => like
  | .postgres => if namespacePrefix = [] then true else like

/-- The rows that the WHERE clause selects, in the order of the results. -/
def selectRows (t : Tables E) (selected : RowKey × StoreRow → Bool) : List (RowKey × StoreRow) :=
  (t.store.entries.filter selected).insertionSort fun r r' => r'.2.updatedAt ≤ r.2.updatedAt

/-- `LIMIT ? OFFSET ?`. The numbers have 64 bits; only SQLite takes negative ones. -/
def window {α : Type} (backend : Backend) (limit offset : Int) (rows : List α) :
    Except StoreErr (List α) :=
  if limit < -2 ^ 63 ∨ 2 ^ 63 ≤ limit ∨ offset < -2 ^ 63 ∨ 2 ^ 63 ≤ offset then .error .overflow
  else match backend with
    | .sqlite _ =>
      let rows := rows.drop offset.toNat
      .ok (if limit < 0 then rows else rows.take limit.toNat)
    | .postgres =>
      if limit < 0 ∨ offset < 0 then .error .failed
      else .ok ((rows.drop offset.toNat).take limit.toNat)

/-- The test of the filter's part of the WHERE clause. -/
def whereFilter (env : SqlEnv) (backend : Backend) (filter : Option (List (String × Json))) :
    Except StoreErr (Json → Bool) :=
  match backend with
  | .sqlite _ => Sqlite.whereFilter env.floatText env.castReal filter
  | .postgres => Postgres.whereFilter env.pg env.floatText filter

/-- `search` without a query. -/
def search (env : SqlEnv) (backend : Backend) (t : Tables E) (op : SearchOp) :
    Except StoreErr (List Item) :=
  match whereFilter env backend op.filter with
  | .error err => .error err
  | .ok test =>
    (window backend op.limit op.offset
      (selectRows t fun r => matchesPrefix backend op.namespacePrefix r.1.1 && test r.2.value)).map
        fun rows => rows.map rowItem

end Select

/-! ## The texts of namespaces -/

theorem namespaceToText_decodeNsText (text : String) : namespaceToText (decodeNsText text) = text := by
  apply String.toList_inj.mp
  rw [toList_namespaceToText]
  unfold decodeNsText
  rw [List.map_map]
  have hid : String.toList ∘ String.ofList = id := funext fun cs => String.toList_ofList
  rw [hid, List.map_id]
  exact List.intercalate_splitOn '.'

/-- A prefix of the labels is a beginning of the text. -/
theorem toList_prefix {ns ns' : Namespace} (h : ns <+: ns') :
    (namespaceToText ns).toList <+: (namespaceToText ns').toList := by
  obtain ⟨rest, rfl⟩ := h
  by_cases hns : ns = []
  · subst hns
    exact List.nil_prefix
  by_cases hrest : rest = []
  · rw [hrest, List.append_nil]
  unfold namespaceToText
  rw [String.intercalate_append_of_ne_nil hns hrest, String.toList_append, String.toList_append,
    List.append_assoc]
  exact List.prefix_append _ _

theorem Backend.same_self (backend : Backend) (c : Char) : backend.same c c = true := by
  cases backend <;> simp [Backend.same]

theorem matchesPrefix_iff {backend : Backend} {namespacePrefix : Namespace} {nsText : String} :
    matchesPrefix backend namespacePrefix nsText = true ↔
      ∃ a, a <+: nsText.toList ∧
        Like.like backend.same (namespaceToText namespacePrefix).toList a = true := by
  rw [← Like.like_append_percent]
  unfold matchesPrefix
  cases backend with
  | sqlite foreignKeys => rfl
  | postgres =>
    show (if namespacePrefix = [] then true else _) = true ↔ _
    split
    · next h =>
      subst h
      refine iff_of_true rfl (Like.like_append_percent.mpr ⟨[], List.nil_prefix, rfl⟩)
    · rfl

theorem matchesPrefix_of_under (backend : Backend) {ns ns' : Namespace} (h : ns <+: ns') :
    matchesPrefix backend ns (namespaceToText ns') = true :=
  matchesPrefix_iff.mpr ⟨_, toList_prefix h, Like.like_self backend.same_self _⟩

/-! ## What a search finds -/

/-- The stores hold the same items, and their namespaces passed `_validate_namespace`. -/
structure SameContent {E : Type} (store : InMemoryStore) (t : Tables E) : Prop where
  valid : ∀ item ∈ store.items, validateNamespace item.ns = true
  rows : (t.store.entries.map rowItem).Perm store.items

/-- A search of the SQL store stays under its prefix, and one with a limit that is
    large enough finds what the memory finds. -/
def Isolated {E : Type} (env : SqlEnv) (backend : Backend) (store : InMemoryStore) (t : Tables E)
    (namespacePrefix : Namespace) (filter : Option (List (String × Json))) : Prop :=
  (∀ limit offset refreshTtl found,
    search env backend t { namespacePrefix, filter, limit, offset, refreshTtl } = .ok found →
      ∀ item ∈ found, namespacePrefix <+: item.ns) ∧
  ∀ limit refreshTtl items, (t.store.entries.length : Int) ≤ limit → limit < 2 ^ 63 →
    store.search { namespacePrefix, filter, limit, refreshTtl } = some items →
      ∃ found, search env backend t { namespacePrefix, filter, limit, refreshTtl } = .ok found ∧
        found.Perm items

/-- The text of the namespace begins with a match of the prefix, but the prefix is another. -/
def Leaks (backend : Backend) (namespacePrefix ns : Namespace) : Prop :=
  ¬namespacePrefix <+: ns ∧
    ∃ a, a <+: (namespaceToText ns).toList ∧
      Like.like backend.same (namespaceToText namespacePrefix).toList a = true

/-- The filters select the same items under the prefix. -/
def FiltersAgree (env : SqlEnv) (backend : Backend) (store : InMemoryStore)
    (namespacePrefix : Namespace) (filter : Option (List (String × Json))) : Prop :=
  (∀ item ∈ store.items, namespacePrefix <+: item.ns → (InMemoryStore.filterItem filter item).isSome) →
    ∃ test, whereFilter env backend filter = .ok test ∧
      ∀ item ∈ store.items, namespacePrefix <+: item.ns →
        (test item.value = true ↔ InMemoryStore.filterItem filter item = some true)

section Found
variable {E : Type} {env : SqlEnv} {backend : Backend} {t : Tables E}

theorem mem_selectRows {selected : RowKey × StoreRow → Bool} {r : RowKey × StoreRow} :
    r ∈ selectRows t selected ↔ r ∈ t.store.entries ∧ selected r = true := by
  unfold selectRows
  rw [List.mem_insertionSort, List.mem_filter]

theorem mem_of_window {α : Type} {limit offset : Int} {rows found : List α} {r : α}
    (h : window backend limit offset rows = .ok found) (hr : r ∈ found) : r ∈ rows := by
  unfold window at h
  split at h
  · cases h
  cases backend with
  | sqlite foreignKeys =>
    obtain rfl := Except.ok.inj h
    split at hr
    · exact List.mem_of_mem_drop hr
    · exact List.mem_of_mem_drop (List.mem_of_mem_take hr)
  | postgres =>
    dsimp only at h
    split at h
    · cases h
    · obtain rfl := Except.ok.inj h
      exact List.mem_of_mem_drop (List.mem_of_mem_take hr)

/-- A limit that is large enough leaves every row in the window. -/
theorem window_all {α : Type} {limit : Int} {rows : List α} (hlow : (rows.length : Int) ≤ limit)
    (hhigh : limit < 2 ^ 63) : window backend limit 0 rows = .ok rows := by
  have hrange : ¬(limit < -2 ^ 63 ∨ 2 ^ 63 ≤ limit ∨ (0 : Int) < -2 ^ 63 ∨ (2 ^ 63 : Int) ≤ 0) := by omega
  have hneg : ¬limit < 0 := by omega
  have hlen : rows.length ≤ limit.toNat := by omega
  unfold window
  rw [if_neg hrange]
  cases backend with
  | sqlite foreignKeys => simp [hneg, List.take_of_length_le hlen]
  | postgres => simp [hneg, List.take_of_length_le hlen]

/-- The items that a search without limits finds. -/
theorem search_all {store : InMemoryStore} (op : SearchOp) (hcontent : SameContent store t)
    {test : Json → Bool} (htest : whereFilter env backend op.filter = .ok test) (hoffset : op.offset = 0)
    (hlow : (t.store.entries.length : Int) ≤ op.limit) (hhigh : op.limit < 2 ^ 63) :
    ∃ found, search env backend t op = .ok found ∧
      found.Perm (store.items.filter fun item =>
        matchesPrefix backend op.namespacePrefix (namespaceToText item.ns) && test item.value) := by
  let selected (r : RowKey × StoreRow) : Bool :=
    matchesPrefix backend op.namespacePrefix r.1.1 && test r.2.value
  have hlen : ((selectRows t selected).length : Int) ≤ op.limit := by
    have : (selectRows t selected).length ≤ t.store.entries.length := by
      unfold selectRows
      rw [List.length_insertionSort]
      exact List.length_filter_le ..
    omega
  refine ⟨(selectRows t selected).map rowItem, ?_, ?_⟩
  · unfold search
    rw [htest, hoffset]
    show (window backend op.limit 0 (selectRows t selected)).map _ = _
    rw [window_all hlen hhigh]
    rfl
  · -- a row and its item pass the same tests
    have hitems : (t.store.entries.filter selected).map rowItem =
        (t.store.entries.map rowItem).filter fun item =>
          matchesPrefix backend op.namespacePrefix (namespaceToText item.ns) && test item.value := by
      rw [List.filter_map]
      congr 1
      refine List.filter_congr fun r _ => ?_
      show selected r = (matchesPrefix backend op.namespacePrefix
        (namespaceToText (decodeNsText r.1.1)) && test r.2.value)
      rw [namespaceToText_decodeNsText]
    refine ((List.perm_insertionSort _ _).map rowItem).trans ?_
    rw [hitems]
    exact hcontent.rows.filter _

theorem filter_of_search {op : SearchOp} {found : List Item} (h : search env backend t op = .ok found) :
    ∃ test, whereFilter env backend op.filter = .ok test := by
  unfold search at h
  split at h
  · cases h
  · next test htest => exact ⟨test, htest⟩

/-- What is found is a row that the conditions select. -/
theorem selected_of_search {op : SearchOp} {found : List Item} {test : Json → Bool}
    (htest : whereFilter env backend op.filter = .ok test) (h : search env backend t op = .ok found)
    {item : Item} (hi : item ∈ found) :
    ∃ r ∈ t.store.entries, rowItem r = item ∧
      matchesPrefix backend op.namespacePrefix r.1.1 = true ∧ test r.2.value = true := by
  unfold search at h
  rw [htest] at h
  dsimp only at h
  cases hw : window backend op.limit op.offset (selectRows t fun r =>
      matchesPrefix backend op.namespacePrefix r.1.1 && test r.2.value) with
  | error err => rw [hw] at h; cases h
  | ok rows =>
    rw [hw] at h
    obtain rfl := Except.ok.inj h
    obtain ⟨r, hr, rfl⟩ := List.mem_map.mp hi
    obtain ⟨hmem, hsel⟩ := mem_selectRows.mp (mem_of_window hw hr)
    rw [Bool.and_eq_true] at hsel
    exact ⟨r, hmem, rfl, hsel⟩

/-- A search of the memory without limits returns its candidates. -/
theorem memory_search_all {store : InMemoryStore} {op : SearchOp} (hoffset : op.offset = 0)
    (hlow : (store.items.length : Int) ≤ op.limit) : store.search op = store.filterItems op := by
  unfold InMemoryStore.search
  cases hfound : store.filterItems op with
  | none => rfl
  | some candidates =>
    obtain ⟨_, rfl⟩ := store.filterItems_eq_some_iff.mp hfound
    rw [Option.map_some, hoffset, Int.zero_add, pySlice_zero]
    refine le_trans ?_ hlow
    exact Int.ofNat_le.mpr (List.length_filter_le ..)

end Found

/-- A search of a SQL store stays under its prefix, and with a large limit finds what the
    memory finds, iff no selected item leaks and the filters agree under the prefix. -/
theorem isolated_iff {E : Type} (env : SqlEnv) (backend : Backend) (store : InMemoryStore) (t : Tables E)
    (hcontent : SameContent store t) (hsize : t.store.entries.length < 2 ^ 63)
    (namespacePrefix : Namespace) (filter : Option (List (String × Json))) :
    Isolated env backend store t namespacePrefix filter ↔
      (∀ test, whereFilter env backend filter = .ok test →
        ∀ item ∈ store.items, Leaks backend namespacePrefix item.ns → test item.value = false) ∧
      FiltersAgree env backend store namespacePrefix filter := by
  have hlength : t.store.entries.length = store.items.length := by
    rw [← hcontent.rows.length_eq, List.length_map]
  constructor
  · intro h
    obtain ⟨hstays, hfinds⟩ := h
    let limit : Int := t.store.entries.length
    have hhigh : limit < 2 ^ 63 := by omega
    refine ⟨?_, ?_⟩
    · intro test htest item hitem hleak
      by_contra hsel
      rw [Bool.not_eq_false] at hsel
      obtain ⟨found, hfound, hperm⟩ := search_all { namespacePrefix, filter, limit }
        hcontent htest rfl (Int.le_refl _) hhigh
      refine hleak.1 (hstays limit 0 true found hfound item ?_)
      refine hperm.mem_iff.mpr (List.mem_filter.mpr ⟨hitem, ?_⟩)
      rw [matchesPrefix_iff.mpr hleak.2, hsel]
      rfl
    · intro hall
      -- the memory returns, so the SQL store returns the same
      have hmemory : store.search { namespacePrefix, filter, limit } = some _ :=
        (memory_search_all rfl (by show _ ≤ (t.store.entries.length : Int); omega)).trans
          (store.filterItems_eq_some_iff.mpr ⟨hall, rfl⟩)
      obtain ⟨found, hfound, hsame⟩ := hfinds limit true _ (Int.le_refl _) hhigh hmemory
      obtain ⟨test, htest⟩ := filter_of_search hfound
      refine ⟨test, htest, ?_⟩
      intro item hitem hpre
      obtain ⟨found', hfound', hperm⟩ := search_all { namespacePrefix, filter, limit }
        hcontent htest rfl (Int.le_refl _) hhigh
      obtain rfl : found = found' := Except.ok.inj (hfound.symm.trans hfound')
      have hmem := (hperm.symm.trans hsame).mem_iff (a := item)
      rw [List.mem_filter, List.mem_filter] at hmem
      simpa [hitem, matchesPrefix_of_under backend hpre, hpre] using hmem
  · intro h
    obtain ⟨hleaks, hagree⟩ := h
    refine ⟨?_, ?_⟩
    · intro limit offset refreshTtl found hfound item hitem
      obtain ⟨test, htest⟩ := filter_of_search hfound
      obtain ⟨r, hr, rfl, hlike, hsel⟩ := selected_of_search htest hfound hitem
      by_contra hpre
      have hmem : rowItem r ∈ store.items := hcontent.rows.mem_iff.mp (List.mem_map_of_mem hr)
      have hleak : Leaks backend namespacePrefix (rowItem r).ns := by
        refine ⟨hpre, ?_⟩
        show ∃ a, a <+: (namespaceToText (decodeNsText r.1.1)).toList ∧ _
        rw [namespaceToText_decodeNsText]
        exact matchesPrefix_iff.mp hlike
      have hout : test r.2.value = false := hleaks test htest (rowItem r) hmem hleak
      rw [hsel] at hout
      cases hout
    · intro limit refreshTtl items hlow hhigh hmemory
      have hlow' : (store.items.length : Int) ≤ limit := by omega
      obtain ⟨hall, rfl⟩ := store.filterItems_eq_some_iff.mp
        ((memory_search_all rfl hlow').symm.trans hmemory)
      obtain ⟨test, htest, hsame⟩ := hagree hall
      obtain ⟨found, hfound, hperm⟩ := search_all { namespacePrefix, filter, limit, refreshTtl }
        hcontent htest rfl hlow hhigh
      refine ⟨found, hfound, hperm.trans (List.Perm.of_eq (List.filter_congr fun item hitem => ?_))⟩
      by_cases hpre : namespacePrefix <+: item.ns
      · have hiff := hsame item hitem hpre
        rw [matchesPrefix_of_under backend hpre, List.isPrefixOf_iff_prefix.mpr hpre, Bool.true_and,
          Bool.true_and, Bool.eq_iff_iff, hiff, beq_iff_eq]
      · have hout : (matchesPrefix backend namespacePrefix (namespaceToText item.ns) &&
            test item.value) = false := by
          rw [Bool.and_eq_false_iff, ← Bool.not_eq_true, or_iff_not_imp_left, not_not]
          exact fun hlike => hleaks test htest item hitem ⟨hpre, matchesPrefix_iff.mp hlike⟩
        have hnot : namespacePrefix.isPrefixOf item.ns = false := by
          rw [← Bool.not_eq_true, List.isPrefixOf_iff_prefix]
          exact hpre
        rw [hout, hnot, Bool.false_and]

/-! Two tenants whose labels begin alike. -/

def plainEnv : SqlEnv where
  floatText _ := "0.5"
  castReal _ := .fin 0
  pg := { decimal := fun _ => 1 / 2, strOf := fun _ => "0.5", jsonbText := fun _ => "0.5",
          lt := fun a b => decide (a < b) }

def noon : String := "2025-01-01 12:00:00"

def tenants : List PutOp :=
  [{ ns := ["users", "ann"], key := "k", value := some (.dict [("color", .str "red")]) },
   { ns := ["users", "anna"], key := "k", value := some (.dict [("color", .str "blue")]) }]

def tenantsInMemory : InMemoryStore :=
  tenants.foldl (fun store op => store.applyPut (noon, noon) op) InMemoryStore.empty

def tenantsTables : Tables Unit where
  store := OrdDict.ofList (tenants.map fun op =>
    (rowKey op, ⟨op.value.getD .null, noon, noon, none, none⟩))
  vectors := ∅

theorem tenants_same : SameContent tenantsInMemory tenantsTables :=
  ⟨by decide +kernel, by decide +kernel⟩

/-- Under the label that only the other label continues, nothing leaks. -/
theorem isolated_anna :
    Isolated plainEnv .postgres tenantsInMemory tenantsTables ["users", "anna"] none := by
  refine (isolated_iff plainEnv .postgres tenantsInMemory tenantsTables tenants_same
    (by decide +kernel) ["users", "anna"] none).mpr ⟨?_, ?_⟩
  · intro test _ item hitem hleak
    have hmatch : ∀ item ∈ tenantsInMemory.items,
        matchesPrefix .postgres ["users", "anna"] (namespaceToText item.ns) = true →
          ["users", "anna"] <+: item.ns := by decide +kernel
    exact absurd (hmatch item hitem (matchesPrefix_iff.mpr hleak.2)) hleak.1
  · intro _
    refine ⟨fun _ => true, rfl, fun item hitem _ => iff_of_true rfl ?_⟩
    revert item
    decide +kernel

/-- The search of one tenant returns the item of the other. -/
theorem not_isolated :
    SameContent tenantsInMemory tenantsTables ∧
      ¬Isolated plainEnv (.sqlite true) tenantsInMemory tenantsTables ["users", "ann"] none ∧
      ¬Isolated plainEnv .postgres tenantsInMemory tenantsTables ["users", "ann"] none := by
  refine ⟨tenants_same, ?_, ?_⟩
  · intro h
    have hstays := h.1 10 0 true (tenantsTables.store.entries.map rowItem) (by decide +kernel)
    revert hstays
    decide +kernel
  · intro h
    have hstays := h.1 10 0 true (tenantsTables.store.entries.map rowItem) (by decide +kernel)
    revert hstays
    decide +kernel

end LangGraph.Stores
