import LangGraph.Lib.Ranking
import LangGraph.Stores.MemoryVectors

/- Searches of `InMemoryStore` with a query, and their pages.

   Correspondence (source ↔ Lean):
     `_filter_items`                                ↔ `candidates`
     the max pooling loop                           ↔ `pool`
     one turn of `_batch_search`                    ↔ `batchSearch`
   `scoreOf` is the embedding of the query and the similarity to it; it is there
   when the store has an index. Scores are values of a linear order, as the floats
   are without NaN. The items with a vector come in the order of their scores, and
   the page is filled with items that have none, from the first of these on
   whatever the offset is: `pages_partition_iff`. -/
namespace LangGraph.Stores

variable {E σ : Type}

/-- `op.query` is true. -/
def SearchOp.asks (op : SearchOp) : Bool := op.query.getD "" != ""

abbrev Item.slot (item : Item) : Namespace × String := (item.ns, item.key)

namespace IndexedMemory

/-- `list(self._vectors[namespace].get(key).values())` -/
def vectorsFor (s : IndexedMemory E) (item : Item) : List E :=
  match OrdDict.get? s.vectors item.slot with
  | some embeddings => embeddings.values
  | none => []

/-- `_filter_items` -/
def candidates (s : IndexedMemory E) (op : SearchOp) : Option (List (Item × List E)) :=
  (s.store.filterItems op).map fun items =>
    items.map fun item => (item, if op.asks then s.vectorsFor item else [])

/-- The loop of the max pooling, with the keys it has seen and the results it has kept. -/
def pool (offset limit : Int) : List (σ × Item) → List (Namespace × String) → List (σ × Item) →
    List (σ × Item)
  | [], _, kept => kept
  | (score, item) :: rest, seen, kept =>
    if item.slot ∈ seen then pool offset limit rest seen kept
    else if (seen.length : Int) ≥ offset + limit then kept
    else if (seen.length : Int) < offset then pool offset limit rest (item.slot :: seen) kept
    else pool offset limit rest (item.slot :: seen) (kept ++ [(score, item)])

variable [LinearOrder σ]

/-- The results for one query. -/
def scoredSearch (score : E → σ) (op : SearchOp) (candidates : List (Item × List E)) :
    List (Option σ × Item) :=
  let flat := candidates.flatMap fun c => c.2.map fun vector => (score vector, c.1)
  let scoreless := (candidates.filter fun c => c.2.isEmpty).map Prod.fst
  let kept := pool op.offset op.limit (Ranking.rank Prod.fst flat) [] []
  let scored := kept.map fun e => (some e.1, e.2)
  -- the rest of the page is filled from the first item without a vector on
  if scoreless ≠ [] ∧ (kept.length : Int) < op.limit then
    scored ++ (pySlice scoreless 0 (op.limit - kept.length)).map (none, ·)
  else scored

/-- `_batch_search`, for one search. -/
def batchSearch (scoreOf : Option (String → E → σ)) (op : SearchOp)
    (candidates : List (Item × List E)) : List (Option σ × Item) :=
  if candidates.isEmpty then []
  else
    match scoreOf, op.asks with
    | some score, true => scoredSearch (score (op.query.getD "")) op candidates
    | _, _ => (pySlice candidates op.offset (op.offset + op.limit)).map fun c => (none, c.1)

/-- `search` of a store with an index; `none` is an exception of a filter. -/
def search (scoreOf : Option (String → E → σ)) (s : IndexedMemory E) (op : SearchOp) :
    Option (List (Option σ × Item)) :=
  (s.candidates op).map (batchSearch scoreOf op)

end IndexedMemory

/-! ### One page -/

namespace IndexedMemory

abbrev entrySlot (e : σ × Item) : Namespace × String := e.2.slot

/-- The loop keeps a window of the first entries of the keys it has not seen. -/
theorem pool_eq (offset limit : Nat) : ∀ (l : List (σ × Item)) (seen : List (Namespace × String))
    (kept : List (σ × Item)), pool offset limit l seen kept = kept ++
      ((((Ranking.distinctOn entrySlot l).filter fun e => entrySlot e ∉ seen).drop
        (offset - seen.length)).take (offset + limit - max offset seen.length))
  | [], seen, kept => by simp [pool, Ranking.distinctOn]
  | (score, item) :: l, seen, kept => by
    by_cases hseen : item.slot ∈ seen
    · rw [pool, if_pos hseen, pool_eq offset limit l]
      have hfilter : (Ranking.distinctOn entrySlot ((score, item) :: l)).filter
          (fun e => entrySlot e ∉ seen) =
            (Ranking.distinctOn entrySlot l).filter fun e => entrySlot e ∉ seen := by
        have hself : decide (entrySlot (score, item) ∉ seen) = false :=
          decide_eq_false fun h => h hseen
        rw [Ranking.distinctOn, List.filter_cons, hself, List.filter_filter]
        apply List.filter_congr
        intro e _
        by_cases he : entrySlot e ∈ seen
        · simp [he]
        · have hne : entrySlot e ≠ entrySlot (score, item) := fun h => he (h ▸ hseen)
          simp [he, hne]
      rw [hfilter]
    · have hfilter : (Ranking.distinctOn entrySlot ((score, item) :: l)).filter
          (fun e => entrySlot e ∉ seen) =
            (score, item) :: (Ranking.distinctOn entrySlot l).filter
              fun e => entrySlot e ∉ item.slot :: seen := by
        have hself : decide (entrySlot (score, item) ∉ seen) = true := decide_eq_true hseen
        rw [Ranking.distinctOn, List.filter_cons, hself, if_pos rfl, List.filter_filter]
        congr 1
        apply List.filter_congr
        intro e _
        simp [not_or, and_comm]
      rw [pool, if_neg hseen, hfilter]
      by_cases hbreak : (seen.length : Int) ≥ offset + limit
      · -- the page is full
        have hzero : offset + limit - max offset seen.length = 0 := by omega
        rw [if_pos hbreak, hzero, List.take_zero, List.append_nil]
      · rw [if_neg hbreak]
        by_cases hskip : (seen.length : Int) < offset
        · -- before the page
          have hdrop : offset - seen.length = (offset - (seen.length + 1)) + 1 := by omega
          have hmax : max offset (seen.length + 1) = max offset seen.length := by omega
          rw [if_pos hskip, pool_eq offset limit l, List.length_cons, hmax, hdrop,
            List.drop_succ_cons]
        · have hdrop : offset - seen.length = 0 := by omega
          have hdrop' : offset - (seen.length + 1) = 0 := by omega
          have htake : offset + limit - max offset seen.length =
              (offset + limit - max offset (seen.length + 1)) + 1 := by omega
          rw [if_neg hskip, pool_eq offset limit l, List.length_cons, hdrop, hdrop', htake,
            List.drop_zero, List.drop_zero, List.take_succ_cons, List.append_assoc]
          rfl

variable [LinearOrder σ]

/-- The entries of the items with a vector, ranked by their vectors. -/
def flatEntries (score : E → σ) (candidates : List (Item × List E)) : List (σ × Item) :=
  candidates.flatMap fun c => c.2.map fun vector => (score vector, c.1)

/-- All results with a score, best first. -/
def scoredResults (score : E → σ) (candidates : List (Item × List E)) : List (Option σ × Item) :=
  (Ranking.distinctOn entrySlot (Ranking.rank Prod.fst (flatEntries score candidates))).map
    fun e => (some e.1, e.2)

/-- All results without a score. -/
def scorelessResults (candidates : List (Item × List E)) : List (Option σ × Item) :=
  (candidates.filter fun c => c.2.isEmpty).map fun c => (none, c.1)

theorem scoredSearch_page (score : E → σ) {op : SearchOp} (candidates : List (Item × List E))
    {offset limit : Nat} (hoffset : op.offset = offset) (hlimit : op.limit = limit) :
    scoredSearch score op candidates = Ranking.filledPage (scoredResults score candidates)
      (scorelessResults candidates) limit offset := by
  have hpool : pool op.offset op.limit (Ranking.rank Prod.fst (flatEntries score candidates)) [] [] =
      ((Ranking.distinctOn entrySlot (Ranking.rank Prod.fst (flatEntries score candidates))).drop
        offset).take limit := by
    rw [hoffset, hlimit, pool_eq]
    simp
  have hscored : ((scoredResults score candidates).drop offset).take limit =
      (((Ranking.distinctOn entrySlot (Ranking.rank Prod.fst (flatEntries score candidates))).drop
        offset).take limit).map fun e => (some e.1, e.2) := by
    rw [scoredResults, List.map_take, List.map_drop]
  unfold scoredSearch Ranking.filledPage
  simp only
  rw [show (candidates.flatMap fun c => c.2.map fun vector => (score vector, c.1)) =
    flatEntries score candidates from rfl, hpool, hscored, List.length_map]
  generalize ((Ranking.distinctOn entrySlot (Ranking.rank Prod.fst
    (flatEntries score candidates))).drop offset).take limit = kept
  have hscoreless : (scorelessResults candidates : List (Option σ × Item)) =
      ((candidates.filter fun c => c.2.isEmpty).map Prod.fst).map (none, ·) := by
    rw [scorelessResults, List.map_map]
    rfl
  rw [hscoreless, hlimit]
  generalize (candidates.filter fun c => c.2.isEmpty).map Prod.fst = scoreless
  split
  · next h =>
    have hslice : pySlice scoreless 0 ((limit : Int) - kept.length) =
        scoreless.take (limit - kept.length) := by
      have hwindow := pySlice_window scoreless 0 (limit - kept.length)
      have hcast : ((0 : Nat) : Int) + ((limit - kept.length : Nat) : Int) = limit - kept.length := by
        omega
      rw [hcast] at hwindow
      exact hwindow
    rw [hslice, List.map_take]
  · next h =>
    -- nothing to fill with, or no room
    have hnone : (scoreless.map fun item => ((none : Option σ), item)).take (limit - kept.length) = [] := by
      by_cases hs : scoreless = []
      · rw [hs, List.map_nil, List.take_nil]
      · have hroom : limit - kept.length = 0 := by
          have hle : ¬(kept.length : Int) < limit := fun hlt => h ⟨hs, hlt⟩
          omega
        rw [hroom, List.take_zero]
    rw [hnone, List.append_nil]

theorem batchSearch_scored {scoreOf : Option (String → E → σ)} {score : String → E → σ} {op : SearchOp}
    (hscore : scoreOf = some score) (hasks : op.asks = true) (candidates : List (Item × List E))
    {offset limit : Nat} (hoffset : op.offset = offset) (hlimit : op.limit = limit) :
    batchSearch scoreOf op candidates = Ranking.filledPage
      (scoredResults (score (op.query.getD "")) candidates) (scorelessResults candidates) limit offset := by
  subst hscore
  rw [batchSearch]
  · cases candidates with
    | nil => simp [Ranking.filledPage, scoredResults, scorelessResults, flatEntries, Ranking.rank,
        Ranking.distinctOn]
    | cons c cs => exact scoredSearch_page _ _ hoffset hlimit
  · exact hasks

theorem batchSearch_plain {scoreOf : Option (String → E → σ)} {op : SearchOp}
    (hplain : scoreOf = none ∨ op.asks = false) (candidates : List (Item × List E))
    {offset limit : Nat} (hoffset : op.offset = offset) (hlimit : op.limit = limit) :
    batchSearch scoreOf op candidates =
      ((candidates.map fun c => ((none : Option σ), c.1)).drop offset).take limit := by
  rw [batchSearch]
  · rw [hoffset, hlimit, pySlice_window, List.map_take, List.map_drop]
    cases candidates with
    | nil => simp
    | cons c cs => rfl
  · intro score hscore hasks
    rcases hplain with h | h
    · rw [h] at hscore
      cases hscore
    · rw [h] at hasks
      cases hasks

/-! ### The whole list -/

omit [LinearOrder σ] in
theorem mem_flatEntries {score : E → σ} {candidates : List (Item × List E)} {e : σ × Item} :
    e ∈ flatEntries score candidates ↔ ∃ c ∈ candidates, ∃ v ∈ c.2, (score v, c.1) = e := by
  simp only [flatEntries, List.mem_flatMap, List.mem_map]

/-- The ranking has each item with a vector once. -/
theorem perm_scoredResults (score : E → σ) {candidates : List (Item × List E)}
    (hnodup : (candidates.map fun c => c.1.slot).Nodup) :
    ((scoredResults score candidates).map Prod.snd).Perm
      ((candidates.filter fun c => !c.2.isEmpty).map Prod.fst) := by
  have hslots : ∀ c ∈ candidates, ∀ c' ∈ candidates, c.1.slot = c'.1.slot → c = c' :=
    List.inj_on_of_nodup_map hnodup
  have hleft : ((scoredResults score candidates).map Prod.snd).Nodup := by
    have hkeys := Ranking.nodup_keys_distinctOn entrySlot (Ranking.rank Prod.fst
      (flatEntries score candidates))
    rw [scoredResults, List.map_map]
    rw [show (entrySlot : σ × Item → Namespace × String) = Item.slot ∘ Prod.snd from rfl,
      ← List.map_map] at hkeys
    exact hkeys.of_map _
  have hright : ((candidates.filter fun c => !c.2.isEmpty).map Prod.fst).Nodup := by
    rw [show (fun c : Item × List E => c.1.slot) = Item.slot ∘ Prod.fst from rfl, ← List.map_map]
      at hnodup
    exact (hnodup.of_map _).sublist (List.filter_sublist.map _)
  rw [List.perm_ext_iff_of_nodup hleft hright]
  intro item
  rw [scoredResults, List.map_map, List.mem_map, List.mem_map]
  constructor
  · intro ⟨e, he, hitem⟩
    obtain ⟨c, hc, v, hv, rfl⟩ := mem_flatEntries.mp
      ((Ranking.mem_rank _).mp (Ranking.mem_of_mem_distinctOn _ he))
    refine ⟨c, List.mem_filter.mpr ⟨hc, ?_⟩, hitem⟩
    simpa using List.ne_nil_of_mem hv
  · intro ⟨c, hc, hitem⟩
    obtain ⟨hc, hvectors⟩ := List.mem_filter.mp hc
    obtain ⟨v, hv⟩ := List.exists_mem_of_ne_nil c.2 (by simpa using hvectors)
    have hflat : (score v, c.1) ∈ Ranking.rank Prod.fst (flatEntries score candidates) :=
      (Ranking.mem_rank _).mpr (mem_flatEntries.mpr ⟨c, hc, v, hv, rfl⟩)
    obtain ⟨e, he, hslot⟩ := Ranking.exists_mem_distinctOn entrySlot hflat
    obtain ⟨c', hc', v', -, rfl⟩ := mem_flatEntries.mp
      ((Ranking.mem_rank _).mp (Ranking.mem_of_mem_distinctOn _ he))
    have hsame : c' = c := hslots c' hc' c hc hslot
    exact ⟨_, he, by rw [← hitem, ← hsame]; rfl⟩

theorem perm_results (score : E → σ) {candidates : List (Item × List E)}
    (hnodup : (candidates.map fun c => c.1.slot).Nodup) :
    ((scoredResults score candidates ++ scorelessResults candidates).map Prod.snd).Perm
      (candidates.map Prod.fst) := by
  rw [List.map_append, show (scorelessResults candidates : List (Option σ × Item)).map Prod.snd =
    (candidates.filter fun c => c.2.isEmpty).map Prod.fst from by
      rw [scorelessResults, List.map_map]; rfl]
  refine ((perm_scoredResults score hnodup).append_right _).trans ?_
  rw [← List.map_append]
  refine List.Perm.map _ ?_
  have hsplit := List.filter_append_perm (fun c : Item × List E => !c.2.isEmpty) candidates
  simpa using hsplit

/-- No two items have the same namespace and key. -/
theorem nodup_slots (store : InMemoryStore) : (store.items.map Item.slot).Nodup := by
  unfold InMemoryStore.items
  have hentry : ∀ e ∈ store.data.entries,
      e.2.values.map Item.slot = e.2.keys.map fun key => (e.1, key) := by
    intro e he
    rw [OrdDict.values, OrdDict.keys, List.map_map, List.map_map]
    apply List.map_congr_left
    intro f hf
    have hlocated := store.located e.1 e.2 (OrdDict.get?_eq_some_iff.mpr he) f.1 f.2
      (OrdDict.get?_eq_some_iff.mpr hf)
    exact Prod.ext hlocated.1 hlocated.2
  rw [List.map_flatMap, List.flatMap_congr hentry, List.nodup_flatMap]
  constructor
  · intro e _
    exact e.2.keys_nodup.map fun _ _ h => congrArg Prod.snd h
  · have hkeys : store.data.entries.Pairwise fun e e' => e.1 ≠ e'.1 :=
      List.pairwise_map.mp store.data.nodup
    refine hkeys.imp ?_
    intro e e' hne x hx hx'
    obtain ⟨k, -, rfl⟩ := List.mem_map.mp hx
    obtain ⟨k', -, heq⟩ := List.mem_map.mp hx'
    exact hne (congrArg Prod.fst heq).symm

/-! ### The pages -/

/-- The pages of `n` results, put together, are the whole list, and this has every
    matching item once. -/
def PagesPartition (scoreOf : Option (String → E → σ)) (s : IndexedMemory E) (op : SearchOp)
    (found : List Item) (n K limit : Nat) : Prop :=
  ∃ (whole : List (Option σ × Item)) (pages : Nat → List (Option σ × Item)),
    search scoreOf s { op with limit := limit, offset := 0 } = some whole ∧
    (∀ k, search scoreOf s { op with limit := n, offset := (k * n : Nat) } = some (pages k)) ∧
    (List.range K).flatMap pages = whole ∧
    (whole.map Prod.snd).Nodup ∧ (whole.map Prod.snd).Perm found

section Pages
variable {scoreOf : Option (String → E → σ)} {s : IndexedMemory E} {op : SearchOp}
  {found : List Item} {n K limit : Nat}

theorem nodup_found (hfound : s.store.filterItems op = some found) : (found.map Item.slot).Nodup := by
  rw [((s.store.filterItems_eq_some_iff).mp hfound).2]
  exact (nodup_slots s.store).sublist (List.filter_sublist.map _)

/-- What a search of a page is, with the pages as a function of the offset. -/
theorem pagesPartition_iff_of_pages (hfound : s.store.filterItems op = some found)
    {page : Nat → Nat → List (Option σ × Item)}
    (hpage : ∀ limit offset : Nat, batchSearch scoreOf { op with limit := limit, offset := offset }
      (found.map fun item => (item, if op.asks then s.vectorsFor item else [])) = page limit offset)
    (hnodup : ((page limit 0).map Prod.snd).Nodup) (hperm : ((page limit 0).map Prod.snd).Perm found) :
    PagesPartition scoreOf s op found n K limit ↔
      ((List.range K).flatMap fun k => page n (k * n)) = page limit 0 := by
  have hsearch : ∀ limit offset : Nat,
      search scoreOf s { op with limit := limit, offset := offset } = some (page limit offset) := by
    intro limit offset
    unfold search candidates
    rw [show s.store.filterItems { op with limit := limit, offset := offset } = some found from hfound,
      Option.map_some, Option.map_some, ← hpage]
    rfl
  constructor
  · intro ⟨whole, pages, hwhole, hpages, heq, _, _⟩
    have hw : page limit 0 = whole := Option.some.inj ((hsearch limit 0).symm.trans hwhole)
    have hp : pages = fun k => page n (k * n) := by
      funext k
      exact (Option.some.inj ((hsearch n (k * n)).symm.trans (hpages k))).symm
    rw [hw, ← heq, hp]
  · intro heq
    exact ⟨page limit 0, fun k => page n (k * n), hsearch limit 0, fun k => hsearch n (k * n), heq,
      hnodup, hperm⟩

theorem pagesPartition_plain (hfound : s.store.filterItems op = some found)
    (hplain : scoreOf = none ∨ op.asks = false) (hK : found.length ≤ K * n)
    (hlimit : found.length ≤ limit) : PagesPartition scoreOf s op found n K limit := by
  let all : List (Option σ × Item) := found.map fun item => (none, item)
  have hall : all.map Prod.snd = found := by
    simp only [all, List.map_map]
    exact List.map_id found
  have hlen : all.length = found.length := List.length_map _
  have hwhole : (all.drop 0).take limit = all := by
    rw [List.drop_zero]
    exact List.take_of_length_le (by omega)
  have hpage : ∀ limit offset : Nat, batchSearch scoreOf { op with limit := limit, offset := offset }
      (found.map fun item => (item, if op.asks then s.vectorsFor item else [])) =
        (all.drop offset).take limit := by
    intro limit offset
    have h := @batchSearch_plain E σ _ scoreOf { op with limit := limit, offset := offset } hplain
      (found.map fun item => (item, if op.asks then s.vectorsFor item else [])) offset limit rfl rfl
    rw [h, List.map_map]
    rfl
  refine (pagesPartition_iff_of_pages hfound hpage ?_ ?_).mpr ?_
  · rw [hwhole, hall]
    exact (nodup_found hfound).of_map _
  · rw [hwhole, hall]
  · rw [Ranking.flatMap_pages, hwhole]
    exact List.take_of_length_le (by omega)

theorem pagesPartition_scored (hfound : s.store.filterItems op = some found)
    {score : String → E → σ} (hscore : scoreOf = some score) (hasks : op.asks = true) (hn : 1 ≤ n)
    (hK : found.length ≤ K * n) (hlimit : found.length ≤ limit) :
    PagesPartition scoreOf s op found n K limit ↔ (∀ item ∈ found, s.vectorsFor item ≠ []) ∨
      K = (found.filter fun item => !(s.vectorsFor item).isEmpty).length / n + 1 := by
  let cands : List (Item × List E) := found.map fun item => (item, s.vectorsFor item)
  have hcands : (found.map fun item => (item, if op.asks then s.vectorsFor item else [])) = cands := by
    simp only [hasks, if_true, cands]
  have hitems : cands.map Prod.fst = found := by
    simp only [cands, List.map_map]
    exact List.map_id found
  have hslots : (cands.map fun c => c.1.slot).Nodup := by
    have hmap : (cands.map fun c => c.1.slot) = found.map Item.slot := by
      simp only [cands, List.map_map]
      rfl
    rw [hmap]
    exact nodup_found hfound
  let A := scoredResults (score (op.query.getD "")) cands
  let B : List (Option σ × Item) := scorelessResults cands
  have hperm : ((A ++ B).map Prod.snd).Perm found := by
    have h := perm_results (score (op.query.getD "")) hslots
    rwa [hitems] at h
  have hnodup : ((A ++ B).map Prod.snd).Nodup :=
    hperm.nodup_iff.mpr ((nodup_found hfound).of_map _)
  have hlength : A.length + B.length = found.length := by
    rw [← List.length_append, ← @List.length_map _ _ _ Prod.snd]
    exact hperm.length_eq
  have hwhole : Ranking.filledPage A B limit 0 = A ++ B := by
    rw [Ranking.filledPage, List.drop_zero, List.take_of_length_le (by omega : A.length ≤ limit),
      List.take_of_length_le (by omega)]
  have hpage : ∀ limit offset : Nat, batchSearch scoreOf { op with limit := limit, offset := offset }
      (found.map fun item => (item, if op.asks then s.vectorsFor item else [])) =
        Ranking.filledPage A B limit offset := by
    intro limit offset
    rw [hcands]
    exact @batchSearch_scored E σ _ scoreOf score { op with limit := limit, offset := offset } hscore
      hasks cands offset limit rfl rfl
  rw [pagesPartition_iff_of_pages hfound hpage (by rwa [hwhole]) (by rwa [hwhole]), hwhole,
    Ranking.flatMap_filledPage_iff hn (hnodup.of_map _) (by omega)]
  have hempty : B = [] ↔ ∀ item ∈ found, s.vectorsFor item ≠ [] := by
    simp only [B, scorelessResults, List.map_eq_nil_iff, List.filter_eq_nil_iff, cands,
      List.forall_mem_map, List.isEmpty_iff]
  have hscored : A.length = (found.filter fun item => !(s.vectorsFor item).isEmpty).length := by
    have h := (perm_scoredResults (score (op.query.getD "")) hslots).length_eq
    rw [List.length_map, List.length_map] at h
    rw [h]
    simp only [cands, List.filter_map, List.length_map]
    rfl
  rw [hempty, hscored]

/-- The pages partition the result exactly where no scores are asked for, or every
    matching item has a vector, or the paging stops with the first page that is
    not full of items with a vector. -/
theorem pagesPartition_iff (scoreOf : Option (String → E → σ)) (s : IndexedMemory E) (op : SearchOp)
    (hfound : s.store.filterItems op = some found) (hn : 1 ≤ n) (hK : found.length ≤ K * n)
    (hlimit : found.length ≤ limit) :
    PagesPartition scoreOf s op found n K limit ↔ scoreOf = none ∨ op.asks = false ∨
      (∀ item ∈ found, s.vectorsFor item ≠ []) ∨
        K = (found.filter fun item => !(s.vectorsFor item).isEmpty).length / n + 1 := by
  cases hscore : scoreOf with
  | none => exact iff_of_true (pagesPartition_plain hfound (Or.inl rfl) hK hlimit) (Or.inl rfl)
  | some score =>
    cases hasks : op.asks with
    | false =>
      exact iff_of_true (pagesPartition_plain hfound (Or.inr hasks) hK hlimit) (Or.inr (Or.inl rfl))
    | true =>
      rw [pagesPartition_scored hfound rfl hasks hn hK hlimit]
      simp

end Pages

def threeNotes : IndexedMemory Nat where
  store := ["a", "b", "c"].foldl (fun store key =>
    store.applyPut ("12:00", "12:00") ⟨["notes"], key, some .null, .default, none⟩) InMemoryStore.empty
  vectors := MemoryVectors.assign ∅ ((["notes"], "a"), "$") 7

def threeItems : List Item :=
  ["a", "b", "c"].map fun key => ⟨.null, key, ["notes"], "12:00", "12:00"⟩

def askNotes : SearchOp := { namespacePrefix := ["notes"], query := some "x" }

theorem pagesPartition_threeNotes :
    PagesPartition (some fun _ (v : Nat) => v) threeNotes askNotes threeItems 3 1 5 :=
  (pagesPartition_iff _ threeNotes askNotes rfl (by decide) (by decide) (by decide)).mpr
    (Or.inr (Or.inr (Or.inr (by decide))))

/-- Pages of one: the second and the third page both hold `b`, and none holds `c`. -/
theorem not_pagesPartition : ¬ ∀ (scoreOf : Option (String → Nat → Nat)) (s : IndexedMemory Nat)
    (op : SearchOp) (found : List Item) (n K limit : Nat), s.store.filterItems op = some found →
      1 ≤ n → found.length ≤ K * n → found.length ≤ limit →
      PagesPartition scoreOf s op found n K limit := by
  intro h
  have hpages := h (some fun _ v => v) threeNotes askNotes threeItems 1 3 3 rfl (by decide) (by decide)
    (by decide)
  have hcase := (pagesPartition_scored rfl rfl (by decide) (by decide) (by decide) (by decide)).mp hpages
  exact hcase.elim (fun hall => absurd hall (by decide)) (fun hK => absurd hK (by decide))

end IndexedMemory
end LangGraph.Stores
