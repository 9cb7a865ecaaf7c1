import Mathlib.Algebra.Order.Group.Defs
import LangGraph.Lib.Ranking
import LangGraph.Stores.Search

/- Searches of the SQL stores with a query, as statements over the tables.

   Correspondence (source ↔ Lean):
     `distance_type`                                ↔ `DistanceType`
     the distance functions at the query's vector   ↔ `Measures`
     `score_expr` (sqlite/base.py)                  ↔ `Sqlite.scoreExpr`
     `get_distance_operator` (postgres/base.py)     ↔ `Postgres.scoreOperator`, `Postgres.postOperator`
     `FROM store s JOIN store_vectors sv … WHERE`   ↔ `joined`
     `op.limit * 2`, `expanded_limit`               ↔ `expandedLimit`
     the query of a search                          ↔ `vectorSearch`
   Scores are values of an ordered group. Of the rows of one item the first in the
   order of the scores is kept (`ROW_NUMBER() … = 1`, `DISTINCT ON`). Rows with
   one score stay in the order of the table; `TopK` does not depend on that.
   The inner query takes the first `expandedLimit` rows whatever the offset is:
   `topK_iff` says when the items of the page are among them. -/
namespace LangGraph.Stores

inductive DistanceType where
  | cosine
  | l2
  | innerProduct
  deriving DecidableEq, Repr

/-- What the vectors measure against the vector of the query. -/
structure Measures (E σ : Type) where
  cosineDistance : E → σ
  l2Distance : E → σ
  l1Distance : E → σ
  innerProduct : E → σ

section Scores
variable {E σ : Type} [AddCommGroup σ] [LinearOrder σ] [IsOrderedAddMonoid σ]

/-- The similarity that the distance type stands for. -/
def Measures.similarity (m : Measures E σ) : DistanceType → E → σ
  | .cosine, v => -m.cosineDistance v
  | .l2, v => -m.l2Distance v
  | .innerProduct, v => m.innerProduct v

/-- `score_expr`; the rows are ordered by it from high to low. -/
def Sqlite.scoreExpr (one : σ) (m : Measures E σ) : DistanceType → E → σ
  | .cosine, v => one - m.cosineDistance v
  | .l2, v => m.l2Distance v
  | .innerProduct, v => -m.l1Distance v

/-- `score_operator`; the rows are ordered by it from low to high. -/
def Postgres.scoreOperator (m : Measures E σ) : DistanceType → E → σ
  | .cosine, v => m.cosineDistance v
  | .l2, v => m.l2Distance v
  | .innerProduct, v => -m.innerProduct v

/-- `post_operator` -/
def Postgres.postOperator (one : σ) : DistanceType → σ → σ
  | .cosine, negScore => one - negScore
  | .l2, negScore => -negScore
  | .innerProduct, negScore => -negScore

abbrev VectorRow (E : Type) := (RowKey × StoreRow) × E

/-- The rows of the JOIN that the WHERE clause selects. -/
def joined (t : Tables E) (selected : RowKey × StoreRow → Bool) : List (VectorRow E) :=
  t.vectors.entries.filterMap fun e =>
    match t.store.get? e.1.1 with
    | some row => if selected (e.1.1, row) then some ((e.1.1, row), e.2) else none
    | none => none

structure VectorConfig where
  distanceType : DistanceType := .cosine
  /-- `__estimated_num_vectors` -/
  estimatedNumVectors : Nat := 1

/-- The LIMIT of the inner query. -/
def expandedLimit (backend : Backend) (cfg : VectorConfig) (limit : Int) : Int :=
  match backend with
  | .sqlite _ => limit * 2
  | .postgres => limit * cfg.estimatedNumVectors * 2 + 1

/-- `ORDER BY score ASC` -/
def orderByAsc {α : Type} (score : α → σ) (rows : List α) : List α :=
  rows.insertionSort fun a b => score a ≤ score b

/-- The rows of the query. -/
def scoredRows (one : σ) (m : Measures E σ) (backend : Backend) (cfg : VectorConfig)
    (limit offset : Int) (rows : List (VectorRow E)) : Except StoreErr (List (VectorRow E)) :=
  match backend with
  | .sqlite _ =>
    let score (r : VectorRow E) := Sqlite.scoreExpr one m cfg.distanceType r.2
    (window backend (expandedLimit backend cfg limit) 0 (Ranking.rank score rows)).bind fun scored =>
      let ranked := Ranking.distinctOn (fun r => r.1.1) (Ranking.rank score scored)
      window backend limit offset (Ranking.rank score ranked)
  | .postgres =>
    let negScore (r : VectorRow E) := Postgres.scoreOperator m cfg.distanceType r.2
    let score (r : VectorRow E) := Postgres.postOperator one cfg.distanceType (negScore r)
    (window backend (expandedLimit backend cfg limit) 0 (orderByAsc negScore rows)).bind fun scored =>
      let uniq := Ranking.distinctOn (fun r => r.1.1) (orderByAsc negScore scored)
      window backend limit offset (Ranking.rank score uniq)

/-- The rows that a search looks at: of items under the prefix that pass the filter. -/
def matchingRows (backend : Backend) (t : Tables E) (op : SearchOp) (test : Json → Bool) :
    List (VectorRow E) :=
  joined t fun r => matchesPrefix backend op.namespacePrefix r.1.1 && test r.2.value

/-- `search` with a query, of a store with an index. -/
def vectorSearch (env : SqlEnv) (one : σ) (m : Measures E σ) (backend : Backend) (cfg : VectorConfig)
    (t : Tables E) (op : SearchOp) : Except StoreErr (List Item) :=
  match whereFilter env backend op.filter with
  | .error err => .error err
  | .ok test =>
    (scoredRows one m backend cfg op.limit op.offset (matchingRows backend t op test)).map
      fun rows => rows.map fun r => rowItem r.1

/-! ### Exact top-k -/

/-- The rows ranked from the most similar item to the least. -/
abbrev RanksItems (score : E → σ) (rows : List (VectorRow E)) (L : List (RowKey × StoreRow)) : Prop :=
  Ranking.IsRanking (fun r : VectorRow E => r.1) (fun r => score r.2) rows L

/-- The page of a ranking of the matching items with a vector, by their best
    vectors under the distance type. -/
def TopK (m : Measures E σ) (distanceType : DistanceType) (rows : List (VectorRow E)) (n offset : Nat)
    (found : Except StoreErr (List Item)) : Prop :=
  ∃ L, RanksItems (m.similarity distanceType) rows L ∧
    found = .ok (((L.drop offset).take n).map rowItem)

/-- The score by which the inner query orders, from high to low. -/
def sqlOrder (one : σ) (m : Measures E σ) (backend : Backend) (distanceType : DistanceType) (v : E) : σ :=
  match backend with
  | .sqlite _ => Sqlite.scoreExpr one m distanceType v
  | .postgres => -Postgres.scoreOperator m distanceType v

/-- The score orders as the similarity does. SQLite's L2 score grows with the
    distance, and its inner product is an L1 distance. -/
def ordersBySimilarity (backend : Backend) (distanceType : DistanceType) : Bool :=
  match backend, distanceType with
  | .sqlite _, .cosine => true
  | .sqlite _, _ => false
  | .postgres, _ => true

/-- The rows in the order of the scores. -/
def ordered (one : σ) (m : Measures E σ) (backend : Backend) (cfg : VectorConfig)
    (rows : List (VectorRow E)) : List (VectorRow E) :=
  Ranking.rank (fun r => sqlOrder one m backend cfg.distanceType r.2) rows

/-- The items in the order of their first rows. -/
def itemsOf (rows : List (VectorRow E)) : List (RowKey × StoreRow) :=
  (Ranking.distinctOn (fun r : VectorRow E => r.1) rows).map fun r => r.1

/-- The numbers fit into the 64 bits of a LIMIT and an OFFSET. -/
def Fits (backend : Backend) (cfg : VectorConfig) (n offset : Nat) : Prop :=
  expandedLimit backend cfg n < 2 ^ 63 ∧ n < 2 ^ 63 ∧ offset < 2 ^ 63

/-- There is no item at the ranks of the page, or the first `expandedLimit` rows
    have the items up to its end. -/
def Reaches (one : σ) (m : Measures E σ) (backend : Backend) (cfg : VectorConfig)
    (rows : List (VectorRow E)) (n offset : Nat) : Prop :=
  (itemsOf rows).length ≤ offset ∨ min (offset + n) (itemsOf rows).length ≤
    (itemsOf ((ordered one m backend cfg rows).take (expandedLimit backend cfg n).toNat)).length

/-- A ranking by similarity has the same page as the order of the scores. -/
def SameAtRanks (one : σ) (m : Measures E σ) (backend : Backend) (cfg : VectorConfig)
    (rows : List (VectorRow E)) (n offset : Nat) : Prop :=
  ∃ L, RanksItems (m.similarity cfg.distanceType) rows L ∧
    ((L.drop offset).take n).map rowItem =
      (((itemsOf (ordered one m backend cfg rows)).drop offset).take n).map rowItem

variable {one : σ} {m : Measures E σ} {backend : Backend} {cfg : VectorConfig}

theorem orderByAsc_eq {α : Type} (score : α → σ) (rows : List α) :
    orderByAsc score rows = Ranking.rank (fun a => -score a) rows := by
  unfold orderByAsc Ranking.rank
  simp only [neg_le_neg_iff]

theorem window_nat {α : Type} (backend : Backend) {n offset : Nat} (hn : n < 2 ^ 63)
    (ho : offset < 2 ^ 63) (rows : List α) :
    window backend n offset rows = .ok ((rows.drop offset).take n) := by
  have hfits : ¬((n : Int) < -2 ^ 63 ∨ (2 : Int) ^ 63 ≤ n ∨ (offset : Int) < -2 ^ 63 ∨
      (2 : Int) ^ 63 ≤ offset) := by omega
  have hneg : ¬(n : Int) < 0 := by omega
  have hneg' : ¬((n : Int) < 0 ∨ (offset : Int) < 0) := by omega
  unfold window
  rw [if_neg hfits]
  cases backend with
  | sqlite foreignKeys => simp [hneg]
  | postgres => simp [hneg']

theorem window_overflow {α : Type} (backend : Backend) {limit offset : Int}
    (h : 2 ^ 63 ≤ limit ∨ 2 ^ 63 ≤ offset) (rows : List α) :
    window backend limit offset rows = .error .overflow := by
  unfold window
  rw [if_pos (by omega)]

/-- The score by which the results are ordered. -/
def finalScore (one : σ) (m : Measures E σ) (backend : Backend) (distanceType : DistanceType) (v : E) : σ :=
  match backend with
  | .sqlite _ => Sqlite.scoreExpr one m distanceType v
  | .postgres => Postgres.postOperator one distanceType (Postgres.scoreOperator m distanceType v)

theorem finalScore_le_iff (distanceType : DistanceType) (v w : E) :
    finalScore one m backend distanceType v ≤ finalScore one m backend distanceType w ↔
      sqlOrder one m backend distanceType v ≤ sqlOrder one m backend distanceType w := by
  cases backend with
  | sqlite foreignKeys => exact Iff.rfl
  | postgres =>
    cases distanceType with
    | cosine => exact (sub_le_sub_iff_left one).trans neg_le_neg_iff.symm
    | l2 => exact Iff.rfl
    | innerProduct => exact Iff.rfl

/-- Where the score orders as the similarity does. -/
theorem sqlOrder_le_iff {distanceType : DistanceType} (h : ordersBySimilarity backend distanceType = true)
    (v w : E) : sqlOrder one m backend distanceType v ≤ sqlOrder one m backend distanceType w ↔
      m.similarity distanceType v ≤ m.similarity distanceType w := by
  cases backend with
  | sqlite foreignKeys =>
    cases distanceType with
    | cosine => exact (sub_le_sub_iff_left one).trans neg_le_neg_iff.symm
    | l2 => cases h
    | innerProduct => cases h
  | postgres =>
    cases distanceType <;> simp [sqlOrder, Postgres.scoreOperator, Measures.similarity]

/-- The query, with one order for both databases. -/
theorem scoredRows_eq_bind (limit offset : Int) (rows : List (VectorRow E)) :
    scoredRows one m backend cfg limit offset rows =
      (window backend (expandedLimit backend cfg limit) 0 (ordered one m backend cfg rows)).bind
        fun scored => window backend limit offset
          (Ranking.rank (fun r => finalScore one m backend cfg.distanceType r.2)
            (Ranking.distinctOn (fun r => r.1.1) (ordered one m backend cfg scored))) := by
  cases backend with
  | sqlite foreignKeys => rfl
  | postgres =>
    unfold scoredRows ordered
    simp only [orderByAsc_eq]
    rfl

theorem expandedLimit_nonneg (n : Nat) : 0 ≤ expandedLimit backend cfg n := by
  have hprod : 0 ≤ (n : Int) * cfg.estimatedNumVectors := by positivity
  cases backend with
  | sqlite foreignKeys =>
    show 0 ≤ (n : Int) * 2
    omega
  | postgres =>
    show 0 ≤ (n : Int) * cfg.estimatedNumVectors * 2 + 1
    omega

theorem scoredRows_of_fits {n offset : Nat} (h : Fits backend cfg n offset) (rows : List (VectorRow E)) :
    scoredRows one m backend cfg n offset rows =
      .ok (((Ranking.distinctOn (fun r => r.1.1) ((ordered one m backend cfg rows).take
        (expandedLimit backend cfg n).toNat)).drop offset).take n) := by
  obtain ⟨hexpanded, hn, ho⟩ := h
  have hcast : expandedLimit backend cfg n = ((expandedLimit backend cfg n).toNat : Int) :=
    (Int.toNat_of_nonneg (expandedLimit_nonneg n)).symm
  have hwindow : window backend (expandedLimit backend cfg n) 0 (ordered one m backend cfg rows) =
      .ok ((ordered one m backend cfg rows).take (expandedLimit backend cfg n).toNat) := by
    have h := @window_nat (VectorRow E) backend (expandedLimit backend cfg n).toNat 0 (by omega)
      (by omega) (ordered one m backend cfg rows)
    rw [← hcast] at h
    exact h
  rw [scoredRows_eq_bind, hwindow]
  show window backend n offset _ = _
  rw [window_nat backend hn ho]
  -- a beginning of the ordered rows is ordered, and so are the first rows of its items
  have hsorted := (Ranking.pairwise_rank (fun r : VectorRow E => sqlOrder one m backend
    cfg.distanceType r.2) rows).sublist (List.take_sublist (expandedLimit backend cfg n).toNat _)
  have hfirst : ordered one m backend cfg ((ordered one m backend cfg rows).take
      (expandedLimit backend cfg n).toNat) = (ordered one m backend cfg rows).take
        (expandedLimit backend cfg n).toNat := Ranking.rank_eq_self hsorted
  rw [hfirst, Ranking.rank_eq_self]
  refine (hsorted.sublist (Ranking.distinctOn_sublist (fun r : VectorRow E => r.1.1) _)).imp ?_
  intro a b hab
  exact (finalScore_le_iff _ _ _).mpr hab

theorem scoredRows_of_not_fits {n offset : Nat} (h : ¬Fits backend cfg n offset)
    (rows : List (VectorRow E)) : ∃ err, scoredRows one m backend cfg n offset rows = .error err := by
  rw [scoredRows_eq_bind]
  by_cases hexpanded : expandedLimit backend cfg n < 2 ^ 63
  · have hpage : (2 : Int) ^ 63 ≤ n ∨ (2 : Int) ^ 63 ≤ offset := by
      by_contra hcon
      exact h ⟨hexpanded, by omega, by omega⟩
    cases hwindow : window backend (expandedLimit backend cfg n) 0 (ordered one m backend cfg rows) with
    | error err => exact ⟨err, rfl⟩
    | ok scored => exact ⟨.overflow, window_overflow backend hpage _⟩
  · rw [window_overflow backend (Or.inl (by omega))]
    exact ⟨.overflow, rfl⟩

/-- The key of a row of the JOIN tells its item. -/
theorem joined_row {t : Tables E} {selected : RowKey × StoreRow → Bool} {a b : VectorRow E}
    (ha : a ∈ joined t selected) (hb : b ∈ joined t selected) : a.1.1 = b.1.1 ↔ a.1 = b.1 := by
  have hrow : ∀ r ∈ joined t selected, t.store.get? r.1.1 = some r.1.2 := by
    intro r hr
    obtain ⟨e, -, he⟩ := List.mem_filterMap.mp hr
    cases hget : t.store.get? e.1.1 with
    | none => simp [hget] at he
    | some row =>
      simp only [hget, Option.ite_none_right_eq_some, Option.some.injEq] at he
      rw [← he.2]
      exact hget
  constructor
  · intro hkey
    refine Prod.ext hkey (Option.some.inj ?_)
    rw [← hrow a ha, ← hrow b hb, hkey]
  · exact fun h => congrArg Prod.fst h

omit [IsOrderedAddMonoid σ] in
theorem isRanking_ordered (rows : List (VectorRow E)) :
    RanksItems (sqlOrder one m backend cfg.distanceType) rows (itemsOf (ordered one m backend cfg rows)) :=
  Ranking.isRanking_distinctOn _ _ rows

end Scores

/-- Two vectors of `a`, both nearer to the query than the one of `b`. -/
def twoDocs : Tables Int where
  store := OrdDict.ofList (["a", "b"].map fun key => (("docs", key), ⟨.null, noon, noon, none, none⟩))
  vectors := OrdDict.ofList [((("docs", "a"), "title"), 1), ((("docs", "a"), "text"), 2),
    ((("docs", "b"), "text"), 3)]

def plainMeasures : Measures Int Int := ⟨id, id, id, id⟩

def askDocs : SearchOp := { namespacePrefix := [], query := some "x" }

end LangGraph.Stores
