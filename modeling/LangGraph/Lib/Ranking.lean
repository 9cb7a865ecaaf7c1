import Mathlib.Data.List.Sort
import Mathlib.Data.List.Nodup

/- Rankings with several entries for one key.

   `rank score l` is the stable sort from the highest score to the lowest, and
   `distinctOn key l` keeps the first entry of each key, so that
   `distinctOn key (rank score l)` has each key once, at its best score
   (`score_le_of_mem_distinctOn`). A beginning of the ranking gives a beginning
   of the keys (`distinctOn_append`). `flatMap_pages` puts pages together. -/
namespace Ranking

variable {α κ σ : Type}

section Distinct
variable [DecidableEq κ] (key : α → κ)

/-- The first entry of each key. -/
def distinctOn : List α → List α
  | [] => []
  | a :: l => a :: (distinctOn l).filter fun b => key b ≠ key a

theorem distinctOn_sublist : ∀ l : List α, (distinctOn key l).Sublist l
  | [] => .slnil
  | a :: l => (List.filter_sublist.trans (distinctOn_sublist l)).cons_cons a

theorem mem_of_mem_distinctOn {l : List α} {a : α} (h : a ∈ distinctOn key l) : a ∈ l :=
  (distinctOn_sublist key l).subset h

theorem nodup_keys_distinctOn : ∀ l : List α, ((distinctOn key l).map key).Nodup
  | [] => List.nodup_nil
  | a :: l => by
    rw [distinctOn, List.map_cons, List.nodup_cons]
    refine ⟨?_, (nodup_keys_distinctOn l).sublist (List.filter_sublist.map key)⟩
    intro h
    obtain ⟨b, hb, hkey⟩ := List.mem_map.mp h
    exact of_decide_eq_true (List.mem_filter.mp hb).2 hkey

/-- Every key keeps an entry. -/
theorem exists_mem_distinctOn : ∀ {l : List α} {a : α}, a ∈ l →
    ∃ b ∈ distinctOn key l, key b = key a
  | c :: l, a, h => by
    rw [distinctOn]
    by_cases hkey : key c = key a
    · exact ⟨c, List.mem_cons_self, hkey⟩
    · have hl : a ∈ l := (List.mem_cons.mp h).resolve_left fun e => hkey (congrArg key e).symm
      obtain ⟨b, hb, hba⟩ := exists_mem_distinctOn hl
      refine ⟨b, List.mem_cons_of_mem _ (List.mem_filter.mpr ⟨hb, decide_eq_true ?_⟩), hba⟩
      rw [hba]
      exact Ne.symm hkey

theorem mem_keys_distinctOn {l : List α} {k : κ} :
    k ∈ (distinctOn key l).map key ↔ k ∈ l.map key := by
  constructor
  · exact fun h => ((distinctOn_sublist key l).map key).subset h
  · intro h
    obtain ⟨a, ha, rfl⟩ := List.mem_map.mp h
    obtain ⟨b, hb, hba⟩ := exists_mem_distinctOn key ha
    exact List.mem_map.mpr ⟨b, hb, hba⟩

/-- What comes later adds the keys that are new. -/
theorem distinctOn_append : ∀ l l' : List α,
    distinctOn key (l ++ l') = distinctOn key l ++
      (distinctOn key l').filter fun b => key b ∉ l.map key
  | [], l' => by simp [distinctOn]
  | a :: l, l' => by
    have ih := distinctOn_append l l'
    rw [List.cons_append, distinctOn, distinctOn, ih, List.filter_append, List.filter_filter,
      List.cons_append]
    congr 2
    apply List.filter_congr
    intro b _
    simp [not_or]

/-- A beginning of the entries has the keys of a beginning. -/
theorem distinctOn_take_isPrefix (p : Nat) (l : List α) :
    distinctOn key (l.take p) <+: distinctOn key l := by
  have h := distinctOn_append key (l.take p) (l.drop p)
  rw [List.take_append_drop] at h
  rw [h]
  exact List.prefix_append _ _

end Distinct

section Rank
variable [LinearOrder σ] (score : α → σ)

/-- From the highest score to the lowest; entries of one score keep their order. -/
def rank (l : List α) : List α := l.insertionSort fun a b => score b ≤ score a

theorem perm_rank (l : List α) : (rank score l).Perm l := List.perm_insertionSort _ l

@[simp] theorem mem_rank {l : List α} {a : α} : a ∈ rank score l ↔ a ∈ l :=
  (perm_rank score l).mem_iff

theorem pairwise_rank (l : List α) : (rank score l).Pairwise fun a b => score b ≤ score a := by
  have : Std.Total fun a b : α => score b ≤ score a := ⟨fun a b => le_total (score b) (score a)⟩
  have : IsTrans α fun a b : α => score b ≤ score a := ⟨fun _ _ _ h h' => le_trans h' h⟩
  exact List.pairwise_insertionSort _ l

/-- Along a ranking the first entry of a key is its best. -/
theorem score_le_of_mem_distinctOn [DecidableEq κ] (key : α → κ) : ∀ {l : List α},
    (l.Pairwise fun a b => score b ≤ score a) → ∀ {a b : α}, a ∈ distinctOn key l → b ∈ l →
      key b = key a → score b ≤ score a
  | c :: l, h, a, b, ha, hb, hkey => by
    obtain ⟨hc, hl⟩ := List.pairwise_cons.mp h
    rw [distinctOn] at ha
    rcases List.mem_cons.mp ha with rfl | ha
    · rcases List.mem_cons.mp hb with rfl | hb
      · exact le_refl _
      · exact hc b hb
    · obtain ⟨ha, hne⟩ := List.mem_filter.mp ha
      have hne : key a ≠ key c := of_decide_eq_true hne
      rcases List.mem_cons.mp hb with rfl | hb
      · exact absurd hkey.symm hne
      · exact score_le_of_mem_distinctOn key hl ha hb hkey

end Rank

/-- A ranking is a fixed point. -/
theorem rank_eq_self [LinearOrder σ] {score : α → σ} {l : List α}
    (h : l.Pairwise fun a b => score b ≤ score a) : rank score l = l :=
  h.insertionSort_eq

section Keys
variable [DecidableEq κ] [LinearOrder σ] {key : α → κ} {score : α → σ} {l : List α}

/-- Keys that tell the entries of a list apart alike keep the same entries. -/
theorem distinctOn_congr {κ' : Type} [DecidableEq κ'] {key' : α → κ'} : ∀ {l : List α},
    (∀ a ∈ l, ∀ b ∈ l, key a = key b ↔ key' a = key' b) → distinctOn key l = distinctOn key' l
  | [], _ => rfl
  | a :: l, h => by
    have ih : distinctOn key l = distinctOn key' l := distinctOn_congr fun b hb c hc =>
      h b (List.mem_cons_of_mem _ hb) c (List.mem_cons_of_mem _ hc)
    rw [distinctOn, distinctOn, ih]
    congr 1
    apply List.filter_congr
    intro b hb
    have hab := h b (List.mem_cons_of_mem _ (mem_of_mem_distinctOn key' hb)) a List.mem_cons_self
    simp only [ne_eq, hab]

/-- The keys of `l`, each once, by their best entries from the highest score down. -/
structure IsRanking (key : α → κ) (score : α → σ) (l : List α) (ks : List κ) : Prop where
  nodup : ks.Nodup
  mem_iff : ∀ k, k ∈ ks ↔ k ∈ l.map key
  sorted : ks.Pairwise fun k k' => ∀ b ∈ l, key b = k' → ∃ a ∈ l, key a = k ∧ score b ≤ score a

theorem isRanking_distinctOn (key : α → κ) (score : α → σ) (l : List α) :
    IsRanking key score l ((distinctOn key (rank score l)).map key) where
  nodup := nodup_keys_distinctOn key _
  mem_iff k := by
    rw [mem_keys_distinctOn]
    exact ((perm_rank score l).map key).mem_iff
  sorted := by
    have hsorted := (pairwise_rank score l).sublist (distinctOn_sublist key (rank score l))
    apply List.pairwise_map.mpr
    refine List.Pairwise.imp_of_mem ?_ hsorted
    intro a a' ha ha' hle b hb hkey
    refine ⟨a, (mem_rank score).mp (mem_of_mem_distinctOn key ha), rfl, ?_⟩
    calc score b ≤ score a' :=
          score_le_of_mem_distinctOn score key (pairwise_rank score l) ha'
            ((mem_rank score).mpr hb) hkey
      _ ≤ score a := hle

omit [DecidableEq κ] in
/-- Scores that order the entries alike have the same rankings. -/
theorem IsRanking.congr {σ' : Type} [LinearOrder σ'] {score' : α → σ'}
    (hle : ∀ a b, score b ≤ score a ↔ score' b ≤ score' a) {ks : List κ}
    (h : IsRanking key score l ks) : IsRanking key score' l ks where
  nodup := h.nodup
  mem_iff := h.mem_iff
  sorted := by
    refine h.sorted.imp fun hk b hb hkey => ?_
    obtain ⟨a, ha, hka, hba⟩ := hk b hb hkey
    exact ⟨a, ha, hka, (hle a b).mp hba⟩

/-- All rankings are as long as there are keys. -/
theorem IsRanking.length_eq {ks : List κ} (h : IsRanking key score l ks) :
    ks.length = (distinctOn key l).length := by
  have hperm : ks.Perm ((distinctOn key l).map key) := by
    rw [List.perm_ext_iff_of_nodup h.nodup (nodup_keys_distinctOn key l)]
    intro k
    rw [h.mem_iff, mem_keys_distinctOn]
  rw [hperm.length_eq, List.length_map]

end Keys

/-! ### Pages -/

/-- A page of a beginning of `l` is the page of `l` exactly in length where the
    beginning reaches the end of the page. -/
theorem page_take_of_reaches {l : List α} {m offset n : Nat}
    (h : l.length ≤ offset ∨ min (offset + n) l.length ≤ m) :
    ((l.take m).drop offset).take n = (l.drop offset).take n := by
  rw [List.drop_take, List.take_take]
  by_cases hm : n ≤ m - offset
  · rw [Nat.min_eq_left hm]
  · have hlen : (l.drop offset).length ≤ m - offset := by
      rw [List.length_drop]
      omega
    rw [List.take_of_length_le (by omega), List.take_of_length_le (by omega)]

theorem reaches_of_page_length {m t offset n : Nat} (hn : 1 ≤ n)
    (h : min n (m - offset) = min n (t - offset)) : t ≤ offset ∨ min (offset + n) t ≤ m := by
  omega

/-- The first `K` pages of `n` are the first `K * n` elements. -/
theorem flatMap_pages (n : Nat) (l : List α) : ∀ K : Nat,
    ((List.range K).flatMap fun k => (l.drop (k * n)).take n) = l.take (K * n)
  | 0 => by simp
  | K + 1 => by
    rw [List.range_succ, List.flatMap_append, flatMap_pages n l K, List.flatMap_singleton,
      Nat.add_one_mul, List.take_add]

/-- The page of `l` at `offset`, filled up from the start of `rest`. -/
def filledPage (l rest : List α) (n offset : Nat) : List α :=
  (l.drop offset).take n ++ rest.take (n - ((l.drop offset).take n).length)

theorem filledPage_nil (l : List α) (n offset : Nat) :
    filledPage l [] n offset = (l.drop offset).take n := by
  rw [filledPage, List.take_nil, List.append_nil]

/-- A page before the last one of `l` is full. -/
theorem filledPage_of_full {l rest : List α} {n k : Nat} (h : k < l.length / n) :
    filledPage l rest n (k * n) = (l.drop (k * n)).take n := by
  have hle : (k + 1) * n ≤ l.length :=
    calc (k + 1) * n ≤ l.length / n * n := Nat.mul_le_mul_right n h
      _ ≤ l.length := Nat.div_mul_le_self _ _
  have hlen : ((l.drop (k * n)).take n).length = n := by
    rw [Nat.add_one_mul] at hle
    rw [List.length_take, List.length_drop]
    omega
  rw [filledPage, hlen, Nat.sub_self, List.take_zero, List.append_nil]

/-- The first page that is not full is filled. -/
theorem filledPage_of_last {l rest : List α} {n : Nat} (hn : 1 ≤ n) :
    filledPage l rest n (l.length / n * n) =
      l.drop (l.length / n * n) ++ rest.take ((l.length / n + 1) * n - l.length) := by
  have hle := Nat.div_mul_le_self l.length n
  have hlt : l.length < (l.length / n + 1) * n := by
    rw [Nat.mul_comm]
    exact Nat.lt_mul_div_succ l.length hn
  rw [Nat.add_one_mul] at hlt ⊢
  have htake : (l.drop (l.length / n * n)).take n = l.drop (l.length / n * n) := by
    apply List.take_of_length_le
    rw [List.length_drop]
    omega
  have hroom : n - (l.drop (l.length / n * n)).length = l.length / n * n + n - l.length := by
    rw [List.length_drop]
    omega
  rw [filledPage, htake, hroom]

theorem filledPage_of_past {l rest : List α} {n offset : Nat} (h : l.length ≤ offset) :
    filledPage l rest n offset = rest.take n := by
  rw [filledPage, List.drop_of_length_le h]
  simp

/-- Pages that are filled from the start of `rest` make up `l ++ rest` only if
    there is nothing to fill with, or the paging ends with the first page that is
    not full. -/
theorem flatMap_filledPage_iff {l rest : List α} {n K : Nat} (hn : 1 ≤ n)
    (hnodup : (l ++ rest).Nodup) (hK : l.length + rest.length ≤ K * n) :
    ((List.range K).flatMap fun k => filledPage l rest n (k * n)) = l ++ rest ↔
      rest = [] ∨ K = l.length / n + 1 := by
  have hfull : ((List.range (l.length / n)).flatMap fun k => filledPage l rest n (k * n)) =
      l.take (l.length / n * n) := by
    rw [← flatMap_pages n l]
    apply List.flatMap_congr
    intro k hk
    exact filledPage_of_full (List.mem_range.mp hk)
  constructor
  · intro h
    by_contra hcon
    obtain ⟨hrest, hne⟩ := not_or.mp hcon
    obtain ⟨b, rest', rfl⟩ := List.exists_cons_of_ne_nil hrest
    have hle := Nat.div_mul_le_self l.length n
    have hK' : l.length / n < K := by
      by_contra hge
      have hmul : K * n ≤ l.length / n * n := Nat.mul_le_mul_right n (by omega)
      rw [List.length_cons] at hK
      omega
    -- the last page of `l` and the one behind it both begin to fill with `b`
    have hlast : b ∈ filledPage l (b :: rest') n (l.length / n * n) := by
      have hlt : l.length < (l.length / n + 1) * n := by
        rw [Nat.mul_comm]
        exact Nat.lt_mul_div_succ l.length hn
      obtain ⟨m, hm⟩ : ∃ m, (l.length / n + 1) * n - l.length = m + 1 :=
        ⟨_, (Nat.succ_pred_eq_of_pos (by omega)).symm⟩
      rw [filledPage_of_last hn, hm, List.take_succ_cons]
      simp
    have hpast : b ∈ filledPage l (b :: rest') n ((l.length / n + 1) * n) := by
      have hlt : l.length ≤ (l.length / n + 1) * n := by
        rw [Nat.mul_comm]
        exact le_of_lt (Nat.lt_mul_div_succ l.length hn)
      obtain ⟨m, rfl⟩ : ∃ m, n = m + 1 := ⟨n - 1, by omega⟩
      rw [filledPage_of_past hlt, List.take_succ_cons]
      simp
    rw [← h] at hnodup
    have hpages := List.pairwise_iff_getElem.mp (List.nodup_flatMap.mp hnodup).2 (l.length / n)
      (l.length / n + 1) (by simpa using hK') (by rw [List.length_range]; omega) (by omega)
    simp only [List.getElem_range] at hpages
    exact hpages hlast hpast
  · intro h
    rcases h with rfl | rfl
    · simp only [filledPage_nil, List.append_nil]
      rw [flatMap_pages]
      apply List.take_of_length_le
      simpa using hK
    · have hrest : rest.take ((l.length / n + 1) * n - l.length) = rest := by
        apply List.take_of_length_le
        omega
      rw [List.range_succ, List.flatMap_append, hfull, List.flatMap_singleton,
        filledPage_of_last hn, hrest, ← List.append_assoc, List.take_append_drop]

end Ranking
