import LangGraph.Lib.OrdDict

/- A list of slots beside an index that tells at which position each key stands.

   `Indexed` is the invariant of the pair: the index and the list say the same,
   so a key stands at one position at most. A slot may have no key, as a slot that
   was cleared; the list then keeps its length, and the positions their meaning.
   The rules say what is indexed after a slot is replaced, cleared or appended, and
   that a write at the position of a key is a map over the list
   (`Indexed.set_eq_map`). -/
namespace LangGraph

variable {κ β : Type} [DecidableEq κ]

/-- The key of a slot stands in the index at the position of the slot, and nothing else does. -/
def Indexed (key : β → Option κ) (index : OrdDict κ Nat) (l : List β) : Prop :=
  ∀ k p, index.get? k = some p ↔ ∃ b, l[p]? = some b ∧ key b = some k

/-- `{key: i for i, slot in enumerate(slots, n)}`, assigned to `d`. -/
def indexFrom (key : β → Option κ) : Nat → List β → OrdDict κ Nat → OrdDict κ Nat
  | _, [], d => d
  | n, b :: l, d =>
    match key b with
    | some k => indexFrom key (n + 1) l (d.set k n)
    | none => indexFrom key (n + 1) l d

namespace Indexed
variable {key : β → Option κ} {index : OrdDict κ Nat} {l : List β}

theorem nil : Indexed key ∅ ([] : List β) := by
  intro k p
  simp

theorem none_iff (h : Indexed key index l) (k : κ) :
    index.get? k = none ↔ ∀ b ∈ l, key b ≠ some k := by
  rw [← not_iff_not, ← ne_eq, Option.ne_none_iff_exists']
  simp only [h k, not_forall, not_not]
  constructor
  · intro hex
    obtain ⟨p, b, hp, hk⟩ := hex
    exact ⟨b, List.mem_of_getElem? hp, hk⟩
  · intro hex
    obtain ⟨b, hb, hk⟩ := hex
    obtain ⟨p, hp⟩ := List.getElem?_of_mem hb
    exact ⟨p, b, hp, hk⟩

/-- Two slots with one key stand at one position. -/
theorem position (h : Indexed key index l) {k : κ} {p q : Nat} {b c : β} (hb : l[p]? = some b)
    (hc : l[q]? = some c) (hkb : key b = some k) (hkc : key c = some k) : p = q :=
  Option.some.inj (((h k p).mpr ⟨b, hb, hkb⟩).symm.trans ((h k q).mpr ⟨c, hc, hkc⟩))

/-- A new slot without a key. -/
theorem append_none (h : Indexed key index l) {b : β} (hb : key b = none) :
    Indexed key index (l ++ [b]) := by
  intro k p
  rw [h k p]
  constructor
  · intro hex
    obtain ⟨c, hp, hk⟩ := hex
    exact ⟨c, List.getElem?_append_left (List.getElem?_eq_some_iff.mp hp).1 ▸ hp, hk⟩
  · intro hex
    obtain ⟨c, hp, hk⟩ := hex
    rcases Nat.lt_or_ge p l.length with hlt | hge
    · rw [List.getElem?_append_left hlt] at hp
      exact ⟨c, hp, hk⟩
    · rw [List.getElem?_append_right hge, List.getElem?_singleton] at hp
      split at hp
      · cases hp
        rw [hb] at hk
        cases hk
      · cases hp

/-- A new slot with a new key. -/
theorem append_some (h : Indexed key index l) {b : β} {k : κ} (hb : key b = some k)
    (hnew : index.get? k = none) : Indexed key (index.set k l.length) (l ++ [b]) := by
  intro k' p
  by_cases hk : k' = k
  · subst hk
    rw [OrdDict.get?_set_self, Option.some.injEq]
    constructor
    · intro heq
      subst heq
      exact ⟨b, List.getElem?_concat_length, hb⟩
    · intro hex
      obtain ⟨c, hp, hc⟩ := hex
      rcases Nat.lt_or_ge p l.length with hlt | hge
      · rw [List.getElem?_append_left hlt] at hp
        exact absurd hc ((h.none_iff k').mp hnew c (List.mem_of_getElem? hp))
      · have hlt := (List.getElem?_eq_some_iff.mp hp).1
        rw [List.length_append, List.length_singleton] at hlt
        omega
  · rw [OrdDict.get?_set_of_ne hk, h k' p]
    constructor
    · intro hex
      obtain ⟨c, hp, hc⟩ := hex
      exact ⟨c, List.getElem?_append_left (List.getElem?_eq_some_iff.mp hp).1 ▸ hp, hc⟩
    · intro hex
      obtain ⟨c, hp, hc⟩ := hex
      rcases Nat.lt_or_ge p l.length with hlt | hge
      · rw [List.getElem?_append_left hlt] at hp
        exact ⟨c, hp, hc⟩
      · rw [List.getElem?_append_right hge, List.getElem?_singleton] at hp
        split at hp
        · cases hp
          exact absurd (Option.some.inj (hc.symm.trans hb)) hk
        · cases hp

/-- A slot that keeps its key, or one that loses it with its entry. -/
theorem set (h : Indexed key index l) {k : κ} {p : Nat} (hp : index.get? k = some p) {b : β}
    {index' : OrdDict κ Nat} (hself : index'.get? k = some p ↔ key b = some k)
    (hgone : ∀ q, index'.get? k = some q → q = p) (hb : ∀ k', key b = some k' → k' = k)
    (hother : ∀ k', k' ≠ k → index'.get? k' = index.get? k') : Indexed key index' (l.set p b) := by
  obtain ⟨c, hc, hkc⟩ := (h k p).mp hp
  have hlt := (List.getElem?_eq_some_iff.mp hc).1
  intro k' q
  by_cases hq : q = p
  · subst hq
    rw [List.getElem?_set_self hlt]
    by_cases hk : k' = k
    · subst hk
      rw [hself]
      simp
    · rw [hother k' hk, h k' q]
      constructor
      · intro hex
        obtain ⟨c', hc', hk'⟩ := hex
        cases hc.symm.trans hc'
        exact absurd (Option.some.inj (hk'.symm.trans hkc)) hk
      · intro hex
        obtain ⟨c', hc', hk'⟩ := hex
        cases hc'
        exact absurd (hb k' hk') hk
  · rw [List.getElem?_set_ne (Ne.symm hq)]
    by_cases hk : k' = k
    · subst hk
      constructor
      · exact fun hget => absurd (hgone q hget) hq
      · intro hex
        obtain ⟨c', hc', hk'⟩ := hex
        exact absurd (h.position hc' hc hk' hkc) hq
    · rw [hother k' hk, h k' q]

/-- The slot of a key is replaced by one with the same key. -/
theorem replace (h : Indexed key index l) {k : κ} {p : Nat} (hp : index.get? k = some p) {b : β}
    (hb : key b = some k) : Indexed key index (l.set p b) := by
  refine h.set hp ?_ ?_ ?_ fun _ _ => rfl
  · exact ⟨fun _ => hb, fun _ => hp⟩
  · exact fun q hq => Option.some.inj (hq.symm.trans hp)
  · exact fun k' hk' => Option.some.inj (hk'.symm.trans hb)

/-- The slot of a key is cleared, and its entry dropped. -/
theorem clear (h : Indexed key index l) {k : κ} {p : Nat} (hp : index.get? k = some p) {b : β}
    (hb : key b = none) : Indexed key (index.erase k) (l.set p b) := by
  have hnone := OrdDict.get?_erase_self index k
  refine h.set hp ?_ ?_ ?_ fun k' hk => OrdDict.get?_erase_of_ne hk index
  · rw [hnone, hb]
    simp
  · intro q hq
    rw [hnone] at hq
    cases hq
  · intro k' hk'
    rw [hb] at hk'
    cases hk'

/-- A write at the position of a key changes the slots with this key, of which there is one. -/
theorem set_eq_map (h : Indexed key index l) {k : κ} {p : Nat} (hp : index.get? k = some p) (b : β) :
    l.set p b = l.map fun c => if key c = some k then b else c := by
  obtain ⟨c, hc, hkc⟩ := (h k p).mp hp
  apply List.ext_getElem?
  intro q
  rw [List.getElem?_map]
  by_cases hq : q = p
  · subst hq
    rw [List.getElem?_set_self (List.getElem?_eq_some_iff.mp hc).1, hc, Option.map_some, if_pos hkc]
  · rw [List.getElem?_set_ne (Ne.symm hq)]
    cases hcq : l[q]? with
    | none => rfl
    | some c' =>
      rw [Option.map_some, if_neg]
      exact fun hk => hq (h.position hcq hc hk hkc)

/-- No key stands twice. -/
theorem nodup (h : Indexed key index l) : (l.filterMap key).Nodup := by
  rw [List.Nodup, List.pairwise_filterMap, List.pairwise_iff_getElem]
  intro i j hi hj hij k hk k' hk' heq
  subst heq
  have := h.position (List.getElem?_eq_getElem hi) (List.getElem?_eq_getElem hj) hk hk'
  omega

end Indexed

/-- The index of a list whose keys are distinct. -/
theorem indexed_indexFrom {key : β → Option κ} : ∀ (l pre : List β) (d : OrdDict κ Nat),
    Indexed key d pre → ((pre ++ l).filterMap key).Nodup →
      Indexed key (indexFrom key pre.length l d) (pre ++ l)
  | [], pre, d, h, _ => by
    rw [List.append_nil]
    exact h
  | b :: l, pre, d, h, hn => by
    have happ : pre ++ b :: l = pre ++ [b] ++ l := by simp
    have hlen : pre.length + 1 = (pre ++ [b]).length := by simp
    rw [happ] at hn ⊢
    unfold indexFrom
    cases hb : key b with
    | none =>
      rw [hlen]
      exact indexed_indexFrom l (pre ++ [b]) d (h.append_none hb) hn
    | some k =>
      rw [hlen]
      apply indexed_indexFrom l (pre ++ [b]) _ (h.append_some hb ?_) hn
      rw [h.none_iff]
      intro c hc hk
      rw [List.filterMap_append, List.filterMap_append, List.nodup_append, List.nodup_append] at hn
      refine hn.1.2.2 k (List.mem_filterMap.mpr ⟨c, hc, hk⟩) k ?_ rfl
      exact List.mem_filterMap.mpr ⟨b, List.mem_singleton_self b, hb⟩

end LangGraph
