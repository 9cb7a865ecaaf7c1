import Mathlib.Order.Lattice
import Mathlib.Data.List.Nodup
import Mathlib.Data.List.Perm.Subperm
import Mathlib.Order.Defs.LinearOrder

/- Walks along parent links.

   A store maps keys to rows and each row may name a parent. `walk` follows the
   links from a cursor; its fuel is immaterial once it exceeds the number of
   rows, provided the links are acyclic (`walk_of_le`, `walk_some`). `collect`
   reads a walk from its newest row back to the nearest row that holds a value:
   the value, and the items of the rows passed, oldest row first. `scan` finds
   a walk in one pass over the rows in descending key order
   (`scan_eq_descending`). Rows that are kept in a list and name only earlier
   ones have the lineage `ofList`, which more rows do not change
   (`ofList_append`). -/
namespace Lineage

variable {κ ρ : Type}

section Walk
variable (lookup : κ → Option ρ) (parent : ρ → Option κ)

/-- The rows met from `cursor` along the parent links, nearest first. -/
def walk : Nat → Option κ → List (κ × ρ)
  | 0, _ => []
  | _ + 1, none => []
  | n + 1, some k =>
    match lookup k with
    | none => []
    | some r => (k, r) :: walk n (parent r)

/-- `rank` decreases along every link between stored rows. -/
def Ranked (rank : κ → Nat) : Prop :=
  ∀ k r p, lookup k = some r → parent r = some p → (lookup p).isSome → rank p < rank k

/-- The parent links have no cycle. -/
def Acyclic : Prop := ∃ rank : κ → Nat, Ranked lookup parent rank

end Walk

section Facts
variable {lookup : κ → Option ρ} {parent : ρ → Option κ}

@[simp] theorem walk_none (n : Nat) : walk lookup parent n none = [] := by
  cases n <;> rfl

theorem walk_succ_some {k : κ} {r : ρ} (h : lookup k = some r) (n : Nat) :
    walk lookup parent (n + 1) (some k) = (k, r) :: walk lookup parent n (parent r) := by
  simp [walk, h]

theorem walk_of_missing {k : κ} (h : lookup k = none) (n : Nat) :
    walk lookup parent n (some k) = [] := by
  cases n with
  | zero => rfl
  | succ n => simp [walk, h]

theorem lookup_of_mem_walk : ∀ {n : Nat} {c : Option κ} {e : κ × ρ},
    e ∈ walk lookup parent n c → lookup e.1 = some e.2
  | 0, _, _, h => by simp [walk] at h
  | _ + 1, none, _, h => by simp [walk] at h
  | n + 1, some k, e, h => by
    cases hk : lookup k with
    | none => simp [walk, hk] at h
    | some r =>
      rw [walk_succ_some hk] at h
      rcases List.mem_cons.mp h with rfl | h
      · exact hk
      · exact lookup_of_mem_walk h

/-- A walk that ends before its fuel does is the whole walk. -/
theorem walk_add_of_length_lt : ∀ {n : Nat} {c : Option κ},
    (walk lookup parent n c).length < n → ∀ m, walk lookup parent (n + m) c = walk lookup parent n c
  | 0, _, h, _ => by simp at h
  | n + 1, none, _, m => by simp
  | n + 1, some k, h, m => by
    cases hk : lookup k with
    | none => rw [walk_of_missing hk, walk_of_missing hk]
    | some r =>
      have hs : n + 1 + m = (n + m) + 1 := by omega
      rw [hs, walk_succ_some hk, walk_succ_some hk]
      rw [walk_succ_some hk, List.length_cons] at h
      rw [walk_add_of_length_lt (by omega) m]

theorem rank_lt_of_mem_walk {rank : κ → Nat} (hr : Ranked lookup parent rank) :
    ∀ {n : Nat} {k : κ} {r : ρ}, lookup k = some r →
      ∀ e ∈ walk lookup parent n (parent r), rank e.1 < rank k
  | 0, _, _, _, e, he => by simp [walk] at he
  | n + 1, k, r, hk, e, he => by
    cases hp : parent r with
    | none => rw [hp] at he; simp at he
    | some p =>
      rw [hp] at he
      cases hl : lookup p with
      | none => rw [walk_of_missing hl] at he; simp at he
      | some r' =>
        have hlt : rank p < rank k := hr k r p hk hp (by simp [hl])
        rw [walk_succ_some hl] at he
        rcases List.mem_cons.mp he with rfl | he
        · exact hlt
        · exact Nat.lt_trans (rank_lt_of_mem_walk hr hl e he) hlt

theorem walk_keys_nodup (h : Acyclic lookup parent) : ∀ (n : Nat) (c : Option κ),
    ((walk lookup parent n c).map Prod.fst).Nodup
  | 0, _ => by simp [walk]
  | _ + 1, none => by simp
  | n + 1, some k => by
    obtain ⟨rank, hr⟩ := h
    cases hk : lookup k with
    | none => rw [walk_of_missing hk]; exact List.nodup_nil
    | some r =>
      rw [walk_succ_some hk, List.map_cons]
      refine List.nodup_cons.mpr ⟨?_, walk_keys_nodup ⟨rank, hr⟩ n (parent r)⟩
      intro hmem
      obtain ⟨e, he, hek⟩ := List.mem_map.mp hmem
      have := rank_lt_of_mem_walk hr hk e he
      rw [hek] at this
      exact Nat.lt_irrefl _ this

/-- An acyclic walk is no longer than the list of stored keys. -/
theorem length_walk_le (h : Acyclic lookup parent) {keys : List κ}
    (hkeys : ∀ k, (lookup k).isSome → k ∈ keys) (n : Nat) (c : Option κ) :
    (walk lookup parent n c).length ≤ keys.length := by
  have hsub : (walk lookup parent n c).map Prod.fst ⊆ keys := by
    intro k hk
    obtain ⟨e, he, rfl⟩ := List.mem_map.mp hk
    exact hkeys _ (by simp [lookup_of_mem_walk he])
  have := (List.subperm_of_subset (walk_keys_nodup h n c) hsub).length_le
  rwa [List.length_map] at this

/-- Every fuel above the number of rows gives the same walk. -/
theorem walk_of_le (h : Acyclic lookup parent) {keys : List κ}
    (hkeys : ∀ k, (lookup k).isSome → k ∈ keys) {n : Nat} (hn : keys.length < n) (c : Option κ) :
    walk lookup parent n c = walk lookup parent (keys.length + 1) c := by
  obtain ⟨m, rfl⟩ := Nat.exists_eq_add_of_le (Nat.succ_le_of_lt hn)
  exact walk_add_of_length_lt (Nat.lt_succ_of_le (length_walk_le h hkeys _ c)) m

/-- With enough fuel a walk is its first row followed by the walk from the
    parent of that row. -/
theorem walk_some (h : Acyclic lookup parent) {keys : List κ}
    (hkeys : ∀ k, (lookup k).isSome → k ∈ keys) {k : κ} {r : ρ} (hk : lookup k = some r) :
    walk lookup parent (keys.length + 1) (some k) =
      (k, r) :: walk lookup parent (keys.length + 1) (parent r) := by
  rw [← walk_of_le h hkeys (n := keys.length + 1 + 1) (by omega) (some k), walk_succ_some hk]

/-- A view of every row, with the same links, walks the same keys. -/
theorem walk_map {μ : Type} (lookup' : κ → Option μ) (parent' : μ → Option κ) (f : κ → ρ → μ)
    (hl : ∀ k, lookup' k = (lookup k).map (f k)) (hp : ∀ k r, parent' (f k r) = parent r) :
    ∀ (n : Nat) (c : Option κ),
      walk lookup' parent' n c = (walk lookup parent n c).map fun e => (e.1, f e.1 e.2)
  | 0, _ => rfl
  | _ + 1, none => rfl
  | n + 1, some k => by
    have hk := hl k
    cases h : lookup k with
    | none =>
      rw [h] at hk
      rw [walk_of_missing h, walk_of_missing hk, List.map_nil]
    | some r =>
      rw [h] at hk
      rw [walk_succ_some h, walk_succ_some hk, hp, walk_map lookup' parent' f hl hp n (parent r), List.map_cons]

/-- A walk only depends on the rows it meets. -/
theorem walk_congr {lookup' : κ → Option ρ} : ∀ {n : Nat} {c : Option κ},
    (∀ k, c = some k → lookup' k = lookup k) →
    (∀ e ∈ walk lookup parent n c, ∀ p, parent e.2 = some p → lookup' p = lookup p) →
    walk lookup' parent n c = walk lookup parent n c
  | 0, _, _, _ => rfl
  | _ + 1, none, _, _ => rfl
  | n + 1, some k, hc, h => by
    have hkk := hc k rfl
    cases hk : lookup k with
    | none => rw [walk_of_missing hk, walk_of_missing (hkk.trans hk)]
    | some r =>
      rw [walk_succ_some hk] at h
      rw [walk_succ_some hk, walk_succ_some (hkk.trans hk)]
      rw [walk_congr (fun p hp => h _ (List.mem_cons_self ..) p hp)
        (fun e he => h e (List.mem_cons_of_mem _ he))]

end Facts

section Collect
variable {α σ ω : Type}

/-- The value of the nearest row that holds one, and the items of the rows up to
    and including it; the items of an older row come first. -/
def collect (value : α → Option σ) (items : α → List ω) : List α → Option σ × List ω
  | [] => (none, [])
  | a :: rest =>
    match value a with
    | some v => (some v, items a)
    | none => ((collect value items rest).1, (collect value items rest).2 ++ items a)

/-- The rows up to and including the first that holds a value. -/
def upto (value : α → Option σ) : List α → List α
  | [] => []
  | a :: rest => if (value a).isSome then [a] else a :: upto value rest

variable {value : α → Option σ} {items items' : α → List ω}

@[simp] theorem collect_nil : collect value items [] = (none, []) := rfl

theorem collect_cons_some {a : α} {v : σ} (h : value a = some v) (rest : List α) :
    collect value items (a :: rest) = (some v, items a) := by
  simp [collect, h]

theorem collect_cons_none {a : α} (h : value a = none) (rest : List α) :
    collect value items (a :: rest) =
      ((collect value items rest).1, (collect value items rest).2 ++ items a) := by
  simp [collect, h]

theorem collect_congr {value' : α → Option σ} : ∀ {l : List α},
    (∀ a ∈ l, value a = value' a) → (∀ a ∈ l, items a = items' a) →
    collect value items l = collect value' items' l
  | [], _, _ => rfl
  | a :: rest, hv, hi => by
    have ha := hv a (List.mem_cons_self ..)
    have ih := collect_congr (fun b hb => hv b (List.mem_cons_of_mem _ hb))
      (fun b hb => hi b (List.mem_cons_of_mem _ hb))
    have hia := hi a (List.mem_cons_self ..)
    cases hva : value a with
    | some v => rw [collect_cons_some hva, collect_cons_some (ha ▸ hva), hia]
    | none => rw [collect_cons_none hva, collect_cons_none (ha ▸ hva), ih, hia]

/-- The value collected does not depend on the items. -/
theorem collect_fst {ω' : Type} (items' : α → List ω') : ∀ l : List α,
    (collect value items l).1 = (collect value items' l).1
  | [] => rfl
  | a :: l => by
    cases h : value a with
    | some v => rw [collect_cons_some h, collect_cons_some h]
    | none =>
      rw [collect_cons_none h, collect_cons_none h]
      exact collect_fst items' l

/-- The items collected, row by row from the oldest. -/
theorem collect_snd : ∀ l : List α,
    (collect value items l).2 = (upto value l).reverse.flatMap items
  | [] => rfl
  | a :: l => by
    cases h : value a with
    | some v => simp [collect_cons_some h, upto, h]
    | none => simp [collect_cons_none h, upto, h, collect_snd l]

theorem collect_map {β : Type} (g : β → α) : ∀ l : List β,
    collect value items (l.map g) = collect (fun b => value (g b)) (fun b => items (g b)) l
  | [] => rfl
  | b :: l => by
    rw [List.map_cons]
    cases h : value (g b) with
    | some v => simp [collect, h]
    | none => simp [collect, h, collect_map g l]

/-- Past the rows of `l` without finding a value, the rest is what is collected
    from the older rows. -/
theorem collect_append_none : ∀ {l : List α} (rest : List α), (∀ a ∈ l, value a = none) →
    collect value items (l ++ rest) =
      ((collect value items rest).1, (collect value items rest).2 ++ (collect value items l).2)
  | [], rest, _ => by simp
  | a :: l, rest, h => by
    have ha := h a (List.mem_cons_self ..)
    have ih := collect_append_none (l := l) rest fun b hb => h b (List.mem_cons_of_mem _ hb)
    rw [List.cons_append, collect_cons_none ha, collect_cons_none ha, ih]
    simp [List.append_assoc]

/-- A value among the rows of `l` hides everything older. -/
theorem collect_append_some : ∀ {l : List α} (rest : List α), (∃ a ∈ l, (value a).isSome) →
    collect value items (l ++ rest) = collect value items l
  | [], _, h => by simp at h
  | a :: l, rest, h => by
    cases hva : value a with
    | some v => rw [List.cons_append, collect_cons_some hva, collect_cons_some hva]
    | none =>
      have hl : ∃ b ∈ l, (value b).isSome := by
        obtain ⟨b, hb, hvb⟩ := h
        rcases List.mem_cons.mp hb with rfl | hb
        · simp [hva] at hvb
        · exact ⟨b, hb, hvb⟩
      rw [List.cons_append, collect_cons_none hva, collect_cons_none hva,
        collect_append_some rest hl]

theorem collect_fst_of_none : ∀ {l : List α}, (∀ a ∈ l, value a = none) →
    (collect value items l).1 = none
  | [], _ => rfl
  | a :: l, h => by
    rw [collect_cons_none (h a (List.mem_cons_self ..))]
    exact collect_fst_of_none fun b hb => h b (List.mem_cons_of_mem _ hb)

/-- Two readings of the items that agree in number agree on a walk exactly when
    they agree on every row up to the one that holds the value, where the
    number may differ. -/
theorem collect_eq_iff (hlen : ∀ a, value a = none → (items a).length = (items' a).length) :
    ∀ l : List α, collect value items l = collect value items' l ↔
      ∀ a ∈ upto value l, items a = items' a
  | [] => by simp [upto]
  | a :: rest => by
    cases hva : value a with
    | some v => simp [collect_cons_some hva, upto, hva]
    | none =>
      have ih := collect_eq_iff hlen rest
      rw [collect_cons_none hva, collect_cons_none hva]
      simp only [upto, hva, Option.isSome_none, Bool.false_eq_true, if_false, List.forall_mem_cons,
        ← ih, Prod.mk.injEq]
      constructor
      · rintro ⟨h₁, h₂⟩
        obtain ⟨hr, ha⟩ := List.append_inj' h₂ (hlen a hva)
        exact ⟨ha, Prod.ext h₁ hr⟩
      · rintro ⟨ha, hr⟩
        rw [hr, ha]
        exact ⟨rfl, rfl⟩

/-- Nothing is collected exactly when the rows up to the value hold neither a
    value nor an item. -/
theorem collect_eq_nil_iff : ∀ l : List α, collect value items l = (none, []) ↔
    ∀ a ∈ upto value l, value a = none ∧ items a = []
  | [] => by simp [upto]
  | a :: rest => by
    cases hva : value a with
    | some v => simp [collect_cons_some hva, upto, hva]
    | none =>
      have ih := collect_eq_nil_iff rest
      rw [collect_cons_none hva]
      simp only [upto, hva, Option.isSome_none, Bool.false_eq_true, if_false, List.forall_mem_cons,
        ← ih, List.append_eq_nil_iff, Prod.ext_iff]
      tauto

theorem upto_append_some : ∀ {l : List α} (rest : List α), (∃ a ∈ l, (value a).isSome) →
    upto value (l ++ rest) = upto value l
  | [], _, h => by simp at h
  | a :: l, rest, h => by
    cases hva : value a with
    | some v => simp [upto, hva]
    | none =>
      have hl : ∃ b ∈ l, (value b).isSome := by
        obtain ⟨b, hb, hvb⟩ := h
        rcases List.mem_cons.mp hb with rfl | hb
        · simp [hva] at hvb
        · exact ⟨b, hb, hvb⟩
      simp [upto, hva, upto_append_some rest hl]

theorem upto_append_none : ∀ {l : List α} (rest : List α), (∀ a ∈ l, value a = none) →
    upto value (l ++ rest) = l ++ upto value rest
  | [], _, _ => rfl
  | a :: l, rest, h => by
    have ha := h a (List.mem_cons_self ..)
    have ih := upto_append_none (l := l) rest fun b hb => h b (List.mem_cons_of_mem _ hb)
    simp [upto, ha, ih]

theorem length_upto_le : ∀ l : List α, (upto value l).length ≤ l.length
  | [] => Nat.le_refl 0
  | a :: l => by
    have ih := length_upto_le l
    cases hva : value a <;> simp [upto, hva, ih]

/-- An item is collected from a row up to the value. -/
theorem exists_of_mem_collect {l : List α} {x : ω} (h : x ∈ (collect value items l).2) :
    ∃ a ∈ upto value l, x ∈ items a := by
  rw [collect_snd, List.mem_flatMap] at h
  obtain ⟨a, ha, hx⟩ := h
  exact ⟨a, List.mem_reverse.mp ha, hx⟩

/-- The nearest row is always collected from. -/
theorem mem_collect_head {a : α} {x : ω} (h : x ∈ items a) (rest : List α) :
    x ∈ (collect value items (a :: rest)).2 := by
  cases hv : value a with
  | some v =>
    rw [collect_cons_some hv]
    exact h
  | none =>
    rw [collect_cons_none hv]
    exact List.mem_append_right _ h

theorem mem_of_mem_upto : ∀ {l : List α} {a : α}, a ∈ upto value l → a ∈ l
  | [], _, h => h
  | b :: l, a, h => by
    unfold upto at h
    split at h
    · rw [List.mem_singleton.mp h]
      exact List.mem_cons_self ..
    · rcases List.mem_cons.mp h with rfl | h
      · exact List.mem_cons_self ..
      · exact List.mem_cons_of_mem _ (mem_of_mem_upto h)

/-- A walk that only a row with a value leads out of `N` collects from `N`. -/
theorem upto_walk_closed {κ ρ : Type} {lookup : κ → Option ρ} {parent : ρ → Option κ}
    {value : κ × ρ → Option σ} {N : κ → Prop}
    (h : ∀ k r, N k → lookup k = some r → value (k, r) = none → ∀ p, parent r = some p → N p) :
    ∀ (n : Nat) (c : Option κ), (∀ k, c = some k → N k) →
      ∀ a ∈ upto value (walk lookup parent n c), N a.1
  | 0, _, _, a, ha => absurd ha List.not_mem_nil
  | _ + 1, none, _, a, ha => absurd ha List.not_mem_nil
  | n + 1, some k, hc, a, ha => by
    cases hk : lookup k with
    | none =>
      rw [walk_of_missing hk] at ha
      exact absurd ha List.not_mem_nil
    | some r =>
      rw [walk_succ_some hk] at ha
      cases hv : value (k, r) with
      | some v =>
        simp only [upto, hv, Option.isSome_some, if_true, List.mem_singleton] at ha
        rw [ha]
        exact hc k rfl
      | none =>
        simp only [upto, hv, Option.isSome_none, Bool.false_eq_true, if_false, List.mem_cons] at ha
        rcases ha with rfl | ha
        · exact hc k rfl
        · exact upto_walk_closed h n (parent r) (h k r (hc k rfl) hk hv) a ha

/-- Reading only the first rows `l` of a walk gives all there is exactly when
    the rows up to the value that lie past `l` hold neither value nor item. -/
theorem collect_prefix_iff (value : α → Option σ) (items : α → List ω) (l rest : List α) :
    collect value items l = collect value items (l ++ rest) ↔
      ∀ a ∈ (upto value (l ++ rest)).drop l.length, value a = none ∧ items a = [] := by
  by_cases hl : ∃ a ∈ l, (value a).isSome
  · rw [collect_append_some rest hl, upto_append_some rest hl,
      List.drop_eq_nil_of_le (length_upto_le l)]
    simp
  · have hn : ∀ a ∈ l, value a = none := by
      intro a ha
      cases hva : value a with
      | none => rfl
      | some v => exact absurd ⟨a, ha, by simp [hva]⟩ hl
    rw [collect_append_none rest hn, upto_append_none rest hn, List.drop_left,
      ← collect_eq_nil_iff rest, Prod.ext_iff, collect_fst_of_none hn, Prod.ext_iff]
    simp only
    constructor
    · rintro ⟨h₁, h₂⟩
      exact ⟨h₁.symm, List.append_left_eq_self.mp h₂.symm⟩
    · rintro ⟨h₁, h₂⟩
      rw [h₁, h₂]
      exact ⟨rfl, rfl⟩

end Collect

section Lists
variable (parent : ρ → Option Nat)

/-- The rows of a list met from `cursor`. -/
def ofList (rows : List ρ) (cursor : Option Nat) : List (Nat × ρ) :=
  walk (fun i => rows[i]?) parent (rows.length + 1) cursor

/-- A row of the list names an earlier one, or none. -/
def Ordered (rows : List ρ) : Prop :=
  ∀ (i : Nat) r, rows[i]? = some r → ∀ j, parent r = some j → j < i

variable {parent} {rows : List ρ}

@[simp] theorem ofList_none : ofList parent rows none = [] := walk_none _

theorem Ordered.acyclic (h : Ordered parent rows) : Acyclic (fun i => rows[i]?) parent :=
  ⟨id, fun k r p hk hp _ => h k r hk p hp⟩

theorem ofList_some (h : Ordered parent rows) {i : Nat} {r : ρ} (hi : rows[i]? = some r) :
    ofList parent rows (some i) = (i, r) :: ofList parent rows (parent r) := by
  have hkeys : ∀ k, (rows[k]?).isSome → k ∈ List.range rows.length := by
    intro k hk
    rw [List.mem_range]
    simpa using hk
  have hwalk := walk_some h.acyclic hkeys hi
  rwa [List.length_range] at hwalk

theorem Ordered.append (h : Ordered parent rows) {r : ρ}
    (hr : ∀ j, parent r = some j → j < rows.length) : Ordered parent (rows ++ [r]) := by
  intro i r' hi j hj
  by_cases hlt : i < rows.length
  · rw [List.getElem?_append_left hlt] at hi
    exact h i r' hi j hj
  · rw [List.getElem?_append_right (Nat.le_of_not_lt hlt), List.getElem?_singleton] at hi
    split at hi
    · cases hi
      have := hr j hj
      omega
    · cases hi

/-- The lineage of a row does not change when rows are added. -/
theorem ofList_append (h : Ordered parent rows) {more : List ρ}
    (h' : Ordered parent (rows ++ more)) :
    ∀ {c : Option Nat}, (∀ j, c = some j → j < rows.length) →
      ofList parent (rows ++ more) c = ofList parent rows c := by
  suffices hs : ∀ n j, j < n → j < rows.length →
      ofList parent (rows ++ more) (some j) = ofList parent rows (some j) by
    intro c hc
    cases c with
    | none => rw [ofList_none, ofList_none]
    | some j => exact hs (j + 1) j (Nat.lt_succ_self j) (hc j rfl)
  intro n
  induction n with
  | zero => exact fun j hj => absurd hj (Nat.not_lt_zero j)
  | succ n ih =>
    intro j hj hlt
    have hrow : rows[j]? = some rows[j] := List.getElem?_eq_getElem hlt
    have hrow' : (rows ++ more)[j]? = some rows[j] := by
      rw [List.getElem?_append_left hlt, hrow]
    rw [ofList_some h hrow, ofList_some h' hrow']
    cases hp : parent rows[j] with
    | none => rw [ofList_none, ofList_none]
    | some q =>
      have hq : q < j := h j _ hrow q hp
      rw [ih q (by omega) (by omega)]

end Lists

section Descending
variable [LinearOrder κ]

/-- The part of a walk along which the keys decrease, from below `bound`. -/
def descending : κ → List (κ × ρ) → List (κ × ρ)
  | _, [] => []
  | bound, e :: l => if e.1 < bound then e :: descending e.1 l else []

theorem descending_append_rest : ∀ (bound : κ) (l : List (κ × ρ)),
    ∃ rest, l = descending bound l ++ rest
  | _, [] => ⟨[], rfl⟩
  | bound, e :: l => by
    by_cases h : e.1 < bound
    · obtain ⟨rest, hr⟩ := descending_append_rest e.1 l
      refine ⟨rest, ?_⟩
      rw [descending, if_pos h, List.cons_append, ← hr]
    · exact ⟨e :: l, by rw [descending, if_neg h, List.nil_append]⟩

/-- One pass over rows: take a row when the cursor names it, and move the
    cursor to its parent. -/
def scan (parent : ρ → Option κ) : Option κ → List (κ × ρ) → List (κ × ρ)
  | _, [] => []
  | c, (k, r) :: l => if c = some k then (k, r) :: scan parent (parent r) l else scan parent c l

/-- A pass over the stored rows below `bound`, greatest key first, takes the
    walk from the cursor as long as its keys decrease. -/
theorem scan_eq_descending {lookup : κ → Option ρ} {parent : ρ → Option κ} :
    ∀ {l : List (κ × ρ)} {bound : κ} {c : Option κ} {n : Nat},
      l.Pairwise (fun a b => b.1 < a.1) →
      (∀ k r, (k, r) ∈ l ↔ lookup k = some r ∧ k < bound) → l.length < n →
      scan parent c l = descending bound (walk lookup parent n c)
  | l, bound, none, n, _, _, _ => by
    have : ∀ l : List (κ × ρ), scan parent none l = [] := by
      intro l
      induction l with
      | nil => rfl
      | cons e l ih => simpa [scan] using ih
    simp [this, descending]
  | [], bound, some k, n, _, hmem, hn => by
    obtain ⟨n, rfl⟩ := Nat.exists_eq_succ_of_ne_zero (Nat.ne_of_gt hn)
    cases hk : lookup k with
    | none => rw [walk_of_missing hk]; rfl
    | some r =>
      have hb : ¬k < bound := fun h => by simpa using (hmem k r).mpr ⟨hk, h⟩
      rw [walk_succ_some hk, descending, if_neg hb]
      rfl
  | (k₀, r₀) :: l, bound, some k, n, hsort, hmem, hn => by
    obtain ⟨n, rfl⟩ := Nat.exists_eq_succ_of_ne_zero (Nat.ne_of_gt (Nat.zero_lt_of_lt hn))
    obtain ⟨hlt, hsort'⟩ := List.pairwise_cons.mp hsort
    have h₀ := (hmem k₀ r₀).mp (List.mem_cons_self ..)
    have hmem' : ∀ k r, (k, r) ∈ l ↔ lookup k = some r ∧ k < k₀ := by
      intro k r
      constructor
      · intro h
        exact ⟨((hmem k r).mp (List.mem_cons_of_mem _ h)).1, hlt _ h⟩
      · rintro ⟨hk, hkk⟩
        rcases List.mem_cons.mp ((hmem k r).mpr ⟨hk, lt_trans hkk h₀.2⟩) with h | h
        · cases h
          exact absurd hkk (lt_irrefl _)
        · exact h
    by_cases hkk : k = k₀
    · subst hkk
      rw [scan, if_pos rfl, walk_succ_some h₀.1, descending, if_pos h₀.2]
      rw [scan_eq_descending hsort' hmem' (Nat.lt_of_succ_lt_succ hn)]
    · rw [scan, if_neg fun h => hkk (Option.some.inj h)]
      rw [scan_eq_descending hsort' hmem' (n := n + 1) (Nat.lt_of_succ_lt hn)]
      cases hk : lookup k with
      | none => rw [walk_of_missing hk]; rfl
      | some r =>
        have hiff : k < k₀ ↔ k < bound := by
          constructor
          · intro h
            exact lt_trans h h₀.2
          · intro h
            rcases List.mem_cons.mp ((hmem k r).mpr ⟨hk, h⟩) with h' | h'
            · cases h'
              exact absurd rfl hkk
            · exact hlt _ h'
        rw [walk_succ_some hk, descending, descending]
        simp only [hiff]

end Descending

end Lineage
