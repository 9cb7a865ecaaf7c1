import Mathlib.Data.List.Sort

/- Stable sorting by a key. On a list whose elements are told apart by their
   keys the sorted list depends on the elements only, not on the order in which
   they were given (`sortBy_eq_of_perm`). -/
namespace SortBy

variable {α κ : Type} [LinearOrder κ]

/-- Python's `sorted(l, key=key)`: ascending, equal keys keep their order. -/
def sortBy (key : α → κ) (l : List α) : List α := l.insertionSort fun a b => key a ≤ key b

theorem perm_sortBy (key : α → κ) (l : List α) : (sortBy key l).Perm l :=
  List.perm_insertionSort _ l

@[simp] theorem mem_sortBy {key : α → κ} {l : List α} {a : α} : a ∈ sortBy key l ↔ a ∈ l :=
  (perm_sortBy key l).mem_iff

@[simp] theorem length_sortBy (key : α → κ) (l : List α) : (sortBy key l).length = l.length :=
  (perm_sortBy key l).length_eq

@[simp] theorem sortBy_nil (key : α → κ) : sortBy key [] = [] := rfl

theorem pairwise_sortBy (key : α → κ) (l : List α) :
    (sortBy key l).Pairwise fun a b => key a ≤ key b := by
  have : Std.Total fun a b : α => key a ≤ key b := ⟨fun a b => le_total (key a) (key b)⟩
  have : IsTrans α fun a b : α => key a ≤ key b := ⟨fun _ _ _ => le_trans⟩
  exact List.pairwise_insertionSort _ l

theorem sortBy_map {β : Type} (key : α → κ) (f : β → α) (l : List β) :
    sortBy key (l.map f) = (sortBy (fun b => key (f b)) l).map f :=
  (List.map_insertionSort _ _ f l fun _ _ _ _ => Iff.rfl).symm

/-- Without repetitions the sorted elements increase. -/
theorem pairwise_lt_sortBy {l : List κ} (h : l.Nodup) : (sortBy id l).Pairwise (· < ·) := by
  have hle := pairwise_sortBy id l
  have hne : (sortBy id l).Nodup := (perm_sortBy id l).nodup_iff.mpr h
  exact (hle.and hne).imp fun h => lt_of_le_of_ne h.1 h.2

omit [LinearOrder κ] in
/-- Two elements of a list stand in one order or in the other. -/
theorem rel_or_rel_of_pairwise {R : κ → κ → Prop} {l : List κ} (h : l.Pairwise R) {a b : κ}
    (ha : a ∈ l) (hb : b ∈ l) (hne : a ≠ b) : R a b ∨ R b a := by
  obtain ⟨i, hi, rfl⟩ := List.mem_iff_getElem.mp ha
  obtain ⟨j, hj, rfl⟩ := List.mem_iff_getElem.mp hb
  rcases lt_trichotomy i j with hij | rfl | hji
  · exact Or.inl (List.pairwise_iff_getElem.mp h i j hi hj hij)
  · exact absurd rfl hne
  · exact Or.inr (List.pairwise_iff_getElem.mp h j i hj hi hji)

/-- A list already in key order is left alone. -/
theorem sortBy_eq_self {key : α → κ} {l : List α} (h : l.Pairwise fun a b => key a ≤ key b) :
    sortBy key l = l :=
  h.insertionSort_eq

/-- Two lists with the same elements sort alike when no two of the elements
    share a key. -/
theorem sortBy_eq_of_perm {key : α → κ} {l l' : List α} (hp : l.Perm l')
    (hinj : ∀ a ∈ l, ∀ b ∈ l, key a = key b → a = b) : sortBy key l = sortBy key l' := by
  refine List.Perm.eq_of_pairwise ?_ (pairwise_sortBy key l) (pairwise_sortBy key l')
    ((perm_sortBy key l).trans (hp.trans (perm_sortBy key l').symm))
  intro a b ha hb hab hba
  have hbl : b ∈ l := hp.mem_iff.mpr (mem_sortBy.mp hb)
  exact hinj a (mem_sortBy.mp ha) b hbl (le_antisymm hab hba)

omit [LinearOrder κ] in
/-- Keys pairwise distinct along the list tell its elements apart. -/
theorem inj_of_pairwise_ne {key : α → κ} {l : List α} (h : l.Pairwise fun a b => key a ≠ key b) :
    ∀ a ∈ l, ∀ b ∈ l, key a = key b → a = b := by
  have hn : (l.map key).Nodup := List.pairwise_map.mpr h
  intro a ha b hb hab
  exact List.inj_on_of_nodup_map hn ha hb hab

/-- Where keys tell the elements apart, sorting commutes with filtering. -/
theorem sortBy_filter {key : α → κ} {l : List α} (p : α → Bool)
    (hinj : ∀ a ∈ l, ∀ b ∈ l, key a = key b → a = b) :
    sortBy key (l.filter p) = (sortBy key l).filter p := by
  have hp : (sortBy key (l.filter p)).Perm ((sortBy key l).filter p) :=
    (perm_sortBy key _).trans ((perm_sortBy key l).symm.filter p)
  refine List.Perm.eq_of_pairwise ?_ (pairwise_sortBy key _)
    ((pairwise_sortBy key l).filter p) hp
  intro a b ha hb hab hba
  have hal : a ∈ l := (List.mem_filter.mp (mem_sortBy.mp ha)).1
  have hbl : b ∈ l := mem_sortBy.mp (List.mem_filter.mp hb).1
  exact hinj a hal b hbl (le_antisymm hab hba)

/-- A sorted list is its groups of equal keys, one after the other. -/
theorem eq_of_filter_eq {key : α → κ} : ∀ {l l' : List α},
    (l.Pairwise fun a b => key a ≤ key b) → (l'.Pairwise fun a b => key a ≤ key b) →
    (∀ k, (l.filter fun a => key a = k) = l'.filter fun a => key a = k) → l = l'
  | [], [], _, _, _ => rfl
  | [], b :: l', _, _, h => by
    have hb := h (key b)
    simp at hb
  | a :: l, [], _, _, h => by
    have ha := h (key a)
    simp at ha
  | a :: l, b :: l', hl, hl', h => by
    obtain ⟨ha, hl⟩ := List.pairwise_cons.mp hl
    obtain ⟨hb, hl'⟩ := List.pairwise_cons.mp hl'
    -- each list has the other's first element, so the first keys are the smallest of both
    have hba : key b ≤ key a := by
      have hmem : a ∈ b :: l' := List.mem_of_mem_filter (p := fun c => key c = key a)
        (h (key a) ▸ List.mem_filter.mpr ⟨List.mem_cons_self, decide_eq_true rfl⟩)
      rcases List.mem_cons.mp hmem with rfl | hmem
      · exact le_refl _
      · exact hb a hmem
    have hab : key a ≤ key b := by
      have hmem : b ∈ a :: l := List.mem_of_mem_filter (p := fun c => key c = key b)
        (h (key b) ▸ List.mem_filter.mpr ⟨List.mem_cons_self, decide_eq_true rfl⟩)
      rcases List.mem_cons.mp hmem with rfl | hmem
      · exact le_refl _
      · exact ha b hmem
    have hkey : key a = key b := le_antisymm hab hba
    have hfirst := h (key a)
    simp only [List.filter_cons, hkey, decide_true, if_true, List.cons.injEq] at hfirst
    rw [hfirst.1, eq_of_filter_eq hl hl' fun k => ?_]
    have hk := h k
    simp only [List.filter_cons, hkey] at hk
    split at hk
    · exact (List.cons.inj hk).2
    · exact hk

end SortBy
