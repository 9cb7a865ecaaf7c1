import Mathlib.Data.List.Basic
import Mathlib.Data.List.Induction
import Mathlib.Data.List.Nodup
import Mathlib.Data.List.Perm.Subperm

/- A finite map that remembers the order in which its keys first arrived: an
   assignment to a key that is present keeps the key's place, an assignment to
   a new key appends it, and iteration follows the places. The keys of a
   dictionary are distinct by construction (`nodup`), so a lookup is decided by
   membership of the pair (`get?_eq_some_iff`). -/
namespace OrdDictEntries

variable {κ ν : Type} [DecidableEq κ]

/-- The value of the first entry under `k`. -/
def get : List (κ × ν) → κ → Option ν
  | [], _ => none
  | (k', v) :: l, k => if k' = k then some v else get l k

/-- Assign in place, or append. -/
def set : List (κ × ν) → κ → ν → List (κ × ν)
  | [], k, v => [(k, v)]
  | (k', v') :: l, k, v => if k' = k then (k, v) :: l else (k', v') :: set l k v

theorem get_set_self : ∀ (l : List (κ × ν)) (k : κ) (v : ν), get (set l k v) k = some v
  | [], k, v => by simp [set, get]
  | (k', v') :: l, k, v => by
    by_cases h : k' = k
    · simp [set, get, h]
    · simp [set, get, h, get_set_self l k v]

theorem get_set_of_ne {k k' : κ} (h : k' ≠ k) : ∀ (l : List (κ × ν)) (v : ν),
    get (set l k v) k' = get l k'
  | [], v => by simp [set, get, Ne.symm h]
  | (k₀, v₀) :: l, v => by
    by_cases h₀ : k₀ = k
    · subst h₀
      simp [set, get, Ne.symm h]
    · simp only [set, if_neg h₀, get]
      rw [get_set_of_ne h l v]

/-- An assignment that a map of the entries does not see. -/
theorem filterMap_set {β : Type} {f : κ × ν → Option β} {k : κ} {v v' : ν} :
    ∀ {l : List (κ × ν)}, get l k = some v → f (k, v') = f (k, v) →
      (set l k v').filterMap f = l.filterMap f
  | [], h, _ => nomatch h
  | (k₀, v₀) :: l, h, hf => by
    by_cases h₀ : k₀ = k
    · subst h₀
      rw [get, if_pos rfl, Option.some.injEq] at h
      subst h
      simp only [set, if_true, List.filterMap_cons, hf]
    · rw [get, if_neg h₀] at h
      simp only [set, if_neg h₀, List.filterMap_cons, filterMap_set h hf]

theorem keys_set_of_mem {k : κ} : ∀ {l : List (κ × ν)} (v : ν), k ∈ l.map Prod.fst →
    (set l k v).map Prod.fst = l.map Prod.fst
  | [], _, h => by simp at h
  | (k₀, v₀) :: l, v, h => by
    by_cases h₀ : k₀ = k
    · simp [set, h₀]
    · have hl : k ∈ l.map Prod.fst := by
        rcases List.mem_cons.mp h with h | h
        · exact absurd h.symm h₀
        · exact h
      simp [set, h₀, keys_set_of_mem v hl]

theorem set_of_not_mem {k : κ} : ∀ {l : List (κ × ν)} (v : ν), k ∉ l.map Prod.fst →
    set l k v = l ++ [(k, v)]
  | [], _, _ => rfl
  | (k₀, v₀) :: l, v, h => by
    have h₀ : k₀ ≠ k := fun e => h (by simp [e])
    have hl : k ∉ l.map Prod.fst := fun e => h (by simp [e])
    simp [set, h₀, set_of_not_mem v hl]

theorem nodup_set {l : List (κ × ν)} (h : (l.map Prod.fst).Nodup) (k : κ) (v : ν) :
    ((set l k v).map Prod.fst).Nodup := by
  by_cases hk : k ∈ l.map Prod.fst
  · rw [keys_set_of_mem v hk]
    exact h
  · rw [set_of_not_mem v hk, List.map_append]
    refine List.Nodup.append h (List.nodup_singleton k) ?_
    intro a ha hb
    rw [List.mem_singleton.mp hb] at ha
    exact hk ha

theorem get_eq_some_iff {k : κ} {v : ν} : ∀ {l : List (κ × ν)}, (l.map Prod.fst).Nodup →
    (get l k = some v ↔ (k, v) ∈ l)
  | [], _ => by simp [get]
  | (k₀, v₀) :: l, h => by
    have hk : k₀ ∉ l.map Prod.fst := (List.nodup_cons.mp h).1
    have ih := get_eq_some_iff (k := k) (v := v) (List.nodup_cons.mp h).2
    by_cases h₀ : k₀ = k
    · subst h₀
      have hv : (k₀, v) ∉ l := fun e => hk (List.mem_map.mpr ⟨_, e, rfl⟩)
      simp [get, hv, eq_comm]
    · simp [get, h₀, ih, Ne.symm h₀]

theorem get_eq_none_iff {k : κ} : ∀ {l : List (κ × ν)}, get l k = none ↔ k ∉ l.map Prod.fst
  | [] => by simp [get]
  | (k₀, v₀) :: l => by
    by_cases h₀ : k₀ = k
    · simp [get, h₀]
    · simp [get, h₀, get_eq_none_iff (l := l), Ne.symm h₀]

theorem mem_of_get {k : κ} {v : ν} : ∀ {l : List (κ × ν)}, get l k = some v → (k, v) ∈ l
  | [], h => by simp [get] at h
  | (k₀, v₀) :: l, h => by
    by_cases h₀ : k₀ = k
    · subst h₀
      simp only [get, if_true, Option.some.injEq] at h
      rw [h]
      exact List.mem_cons_self ..
    · rw [get, if_neg h₀] at h
      exact List.mem_cons_of_mem _ (mem_of_get h)

theorem get_append (k : κ) : ∀ (l l' : List (κ × ν)), get (l ++ l') k = (get l k).or (get l' k)
  | [], _ => by simp [get]
  | (k₀, v₀) :: l, l' => by
    by_cases h : k₀ = k
    · simp [get, h]
    · simp [get, h, get_append k l l']

/-- Renaming the keys and the values of a list of entries. -/
theorem get_map {κ' ν' : Type} [DecidableEq κ'] {f : κ → κ'} (hf : Function.Injective f) (g : ν → ν')
    (k : κ) : ∀ l : List (κ × ν), get (l.map fun e => (f e.1, g e.2)) (f k) = (get l k).map g
  | [] => rfl
  | (k₀, v₀) :: l => by
    by_cases h : k₀ = k
    · simp [get, h]
    · have hne : f k₀ ≠ f k := fun e => h (hf e)
      simp [get, h, hne, get_map hf g k l]

end OrdDictEntries

/-- An insertion-ordered dictionary; `nodup` is the invariant of its entries. -/
structure OrdDict (κ ν : Type) where
  entries : List (κ × ν)
  nodup : (entries.map Prod.fst).Nodup
  deriving DecidableEq

namespace OrdDict

variable {κ ν : Type}

def empty : OrdDict κ ν := ⟨[], List.nodup_nil⟩

instance : EmptyCollection (OrdDict κ ν) := ⟨empty⟩

instance : Inhabited (OrdDict κ ν) := ⟨empty⟩

/-- The keys, in insertion order. -/
def keys (d : OrdDict κ ν) : List κ := d.entries.map Prod.fst

def values (d : OrdDict κ ν) : List ν := d.entries.map Prod.snd

/-- Keep the entries that `f` maps to a value, with that value. -/
def filterMap {μ : Type} (d : OrdDict κ ν) (f : κ → ν → Option μ) : OrdDict κ μ :=
  ⟨d.entries.filterMap fun e => (f e.1 e.2).map (e.1, ·), by
    refine d.nodup.sublist ?_
    induction d.entries with
    | nil => simp
    | cons e l ih =>
      cases h : f e.1 e.2 with
      | none => simpa [h] using ih.cons e.1
      | some v => simpa [h] using ih⟩

theorem ext {d d' : OrdDict κ ν} (h : d.entries = d'.entries) : d = d' := by
  cases d
  cases d'
  simp_all

theorem keys_nodup (d : OrdDict κ ν) : d.keys.Nodup := d.nodup

variable [DecidableEq κ]

def get? (d : OrdDict κ ν) (k : κ) : Option ν := OrdDictEntries.get d.entries k

def getD (d : OrdDict κ ν) (k : κ) (v : ν) : ν := (d.get? k).getD v

def contains (d : OrdDict κ ν) (k : κ) : Bool := (d.get? k).isSome

def set (d : OrdDict κ ν) (k : κ) (v : ν) : OrdDict κ ν :=
  ⟨OrdDictEntries.set d.entries k v, OrdDictEntries.nodup_set d.nodup k v⟩

/-- Assign the pairs of a list from left to right. -/
def setAll (d : OrdDict κ ν) (l : List (κ × ν)) : OrdDict κ ν :=
  l.foldl (fun d e => d.set e.1 e.2) d

def ofList (l : List (κ × ν)) : OrdDict κ ν := setAll empty l

@[simp] theorem get?_empty (k : κ) : (empty : OrdDict κ ν).get? k = none := rfl

@[simp] theorem get?_emptyCollection (k : κ) : (∅ : OrdDict κ ν).get? k = none := rfl

@[simp] theorem get?_set_self (d : OrdDict κ ν) (k : κ) (v : ν) : (d.set k v).get? k = some v :=
  OrdDictEntries.get_set_self d.entries k v

theorem get?_set_of_ne {k k' : κ} (h : k' ≠ k) (d : OrdDict κ ν) (v : ν) :
    (d.set k v).get? k' = d.get? k' :=
  OrdDictEntries.get_set_of_ne h d.entries v

theorem get?_set (d : OrdDict κ ν) (k k' : κ) (v : ν) :
    (d.set k v).get? k' = if k' = k then some v else d.get? k' := by
  by_cases h : k' = k
  · simp [h]
  · simp [h, get?_set_of_ne h]

theorem get?_eq_some_iff {d : OrdDict κ ν} {k : κ} {v : ν} :
    d.get? k = some v ↔ (k, v) ∈ d.entries :=
  OrdDictEntries.get_eq_some_iff d.nodup

theorem get?_eq_none_iff {d : OrdDict κ ν} {k : κ} : d.get? k = none ↔ k ∉ d.keys :=
  OrdDictEntries.get_eq_none_iff

/-- The keys in order and their values make the dictionary. -/
theorem ext_get? {d d' : OrdDict κ ν} (hkeys : d.keys = d'.keys)
    (hget : ∀ k, d.get? k = d'.get? k) : d = d' := by
  have hentries : ∀ d : OrdDict κ ν,
      d.entries = d.keys.filterMap fun k => (d.get? k).map fun v => (k, v) := by
    intro d
    rw [keys, List.filterMap_map]
    refine Eq.trans List.filterMap_some.symm (List.filterMap_congr ?_)
    intro e he
    rw [Function.comp_apply, get?_eq_some_iff.mpr he]
    rfl
  apply ext
  rw [hentries d, hentries d', hkeys]
  simp only [hget]

theorem mem_keys_iff {d : OrdDict κ ν} {k : κ} : k ∈ d.keys ↔ ∃ v, d.get? k = some v := by
  constructor
  · intro h
    obtain ⟨⟨k', v⟩, he, rfl⟩ := List.mem_map.mp h
    exact ⟨v, get?_eq_some_iff.mpr he⟩
  · rintro ⟨v, hv⟩
    exact List.mem_map.mpr ⟨_, get?_eq_some_iff.mp hv, rfl⟩

theorem mem_keys_of_isSome {d : OrdDict κ ν} (k : κ) (h : (d.get? k).isSome) : k ∈ d.keys :=
  mem_keys_iff.mpr (Option.isSome_iff_exists.mp h)

theorem contains_iff {d : OrdDict κ ν} {k : κ} : d.contains k = true ↔ k ∈ d.keys := by
  rw [contains, Option.isSome_iff_exists, mem_keys_iff]

theorem keys_set (d : OrdDict κ ν) (k : κ) (v : ν) :
    (d.set k v).keys = if k ∈ d.keys then d.keys else d.keys ++ [k] := by
  by_cases h : k ∈ d.keys
  · rw [if_pos h]
    exact OrdDictEntries.keys_set_of_mem v h
  · rw [if_neg h]
    simp only [keys, set, OrdDictEntries.set_of_not_mem v h, List.map_append, List.map_cons,
      List.map_nil]

theorem entries_set_of_not_mem {d : OrdDict κ ν} {k : κ} (h : k ∉ d.keys) (v : ν) :
    (d.set k v).entries = d.entries ++ [(k, v)] :=
  OrdDictEntries.set_of_not_mem v h

theorem filterMap_entries_set {β : Type} {d : OrdDict κ ν} {f : κ × ν → Option β} {k : κ}
    {v v' : ν} (h : d.get? k = some v) (hf : f (k, v') = f (k, v)) :
    (d.set k v').entries.filterMap f = d.entries.filterMap f :=
  OrdDictEntries.filterMap_set h hf

theorem set_get? {d : OrdDict κ ν} {k : κ} {v : ν} (h : d.get? k = some v) : d.set k v = d := by
  apply ext
  show OrdDictEntries.set d.entries k v = d.entries
  have hset : (OrdDictEntries.set d.entries k v).filterMap some = d.entries.filterMap some :=
    OrdDictEntries.filterMap_set h rfl
  rwa [List.filterMap_some, List.filterMap_some] at hset

theorem mem_keys_set {d : OrdDict κ ν} {k k' : κ} {v : ν} :
    k' ∈ (d.set k v).keys ↔ k' = k ∨ k' ∈ d.keys := by
  rw [keys_set]
  by_cases h : k ∈ d.keys
  · rw [if_pos h]
    constructor
    · exact Or.inr
    · rintro (rfl | hk)
      · exact h
      · exact hk
  · rw [if_neg h, List.mem_append, List.mem_singleton]
    exact or_comm

theorem get?_filterMap {μ : Type} (d : OrdDict κ ν) (f : κ → ν → Option μ) (k : κ) :
    (d.filterMap f).get? k = (d.get? k).bind (f k) := by
  obtain ⟨l, hl⟩ := d
  unfold get? filterMap
  simp only
  induction l with
  | nil => rfl
  | cons e l ih =>
    obtain ⟨k', v⟩ := e
    have hk : k' ∉ l.map Prod.fst := (List.nodup_cons.mp hl).1
    have ih := ih (List.nodup_cons.mp hl).2
    by_cases h : k' = k
    · subst h
      cases hf : f k' v with
      | some w => simp [OrdDictEntries.get, hf]
      | none =>
        rw [OrdDictEntries.get_eq_none_iff.mpr hk] at ih
        simpa [OrdDictEntries.get, hf] using ih
    · cases hf : f k' v with
      | some w => simpa [OrdDictEntries.get, h, hf] using ih
      | none => simpa [OrdDictEntries.get, h, hf] using ih

/-- There is one entry of a key at most. -/
theorem filter_entries_key (d : OrdDict κ ν) (k : κ) :
    d.entries.filter (fun e => e.1 = k) = (d.get? k).toList.map (k, ·) := by
  obtain ⟨l, hl⟩ := d
  unfold get?
  simp only
  induction l with
  | nil => rfl
  | cons e l ih =>
    have hk : e.1 ∉ l.map Prod.fst := (List.nodup_cons.mp hl).1
    have ih := ih (List.nodup_cons.mp hl).2
    obtain ⟨k', v⟩ := e
    by_cases h : k' = k
    · subst h
      rw [OrdDictEntries.get_eq_none_iff.mpr hk] at ih
      simp [OrdDictEntries.get, ih]
    · simp [OrdDictEntries.get, h, ih]

/-- Drop the entry of a key. -/
def erase (d : OrdDict κ ν) (k : κ) : OrdDict κ ν :=
  d.filterMap fun k' v => if k' = k then none else some v

theorem get?_erase (d : OrdDict κ ν) (k k' : κ) :
    (d.erase k).get? k' = if k' = k then none else d.get? k' := by
  rw [erase, get?_filterMap]
  split <;> cases d.get? k' <;> rfl

theorem get?_erase_self (d : OrdDict κ ν) (k : κ) : (d.erase k).get? k = none := by
  rw [get?_erase, if_pos rfl]

theorem get?_erase_of_ne {k k' : κ} (h : k' ≠ k) (d : OrdDict κ ν) :
    (d.erase k).get? k' = d.get? k' := by
  rw [get?_erase, if_neg h]

@[simp] theorem setAll_nil (d : OrdDict κ ν) : d.setAll [] = d := rfl

@[simp] theorem setAll_cons (d : OrdDict κ ν) (e : κ × ν) (l : List (κ × ν)) :
    d.setAll (e :: l) = (d.set e.1 e.2).setAll l := rfl

theorem setAll_append (d : OrdDict κ ν) (l l' : List (κ × ν)) :
    d.setAll (l ++ l') = (d.setAll l).setAll l' := by
  simp [setAll, List.foldl_append]

theorem get?_setAll_of_not_mem {k : κ} : ∀ {l : List (κ × ν)} (d : OrdDict κ ν),
    k ∉ l.map Prod.fst → (d.setAll l).get? k = d.get? k
  | [], _, _ => rfl
  | e :: l, d, h => by
    have h₁ : k ≠ e.1 := fun hk => h (by simp [hk])
    have h₂ : k ∉ l.map Prod.fst := fun hk => h (List.mem_cons_of_mem _ hk)
    rw [setAll_cons, get?_setAll_of_not_mem _ h₂, get?_set_of_ne h₁]

/-- The comprehension `{k: f k for k in l}`. -/
def tabulate (l : List κ) (f : κ → ν) : OrdDict κ ν := ofList (l.map fun k => (k, f k))

theorem get?_setAll_map (f : κ → ν) (k : κ) : ∀ (l : List κ) (d : OrdDict κ ν),
    (d.setAll (l.map fun k => (k, f k))).get? k = if k ∈ l then some (f k) else d.get? k
  | [], d => by simp
  | k' :: l, d => by
    rw [List.map_cons, setAll_cons, get?_setAll_map f k l]
    by_cases hl : k ∈ l
    · simp [hl]
    · by_cases hk : k = k'
      · subst hk
        simp [hl]
      · simp [hl, hk, get?_set_of_ne hk]

theorem get?_tabulate (l : List κ) (f : κ → ν) (k : κ) :
    (tabulate l f).get? k = if k ∈ l then some (f k) else none := by
  rw [tabulate, ofList, get?_setAll_map]
  rfl

theorem tabulate_eq_iff {l : List κ} {f g : κ → ν} :
    tabulate l f = tabulate l g ↔ ∀ k ∈ l, f k = g k := by
  constructor
  · intro h k hk
    have := congrArg (fun d => d.get? k) h
    simpa [get?_tabulate, hk] using this
  · intro h
    have hl : (l.map fun k => (k, f k)) = l.map fun k => (k, g k) :=
      List.map_congr_left fun k hk => by rw [h k hk]
    rw [tabulate, tabulate, hl]

theorem get?_setAll_of_mem {k : κ} {v : ν} : ∀ {l : List (κ × ν)} (d : OrdDict κ ν),
    (l.map Prod.fst).Nodup → (k, v) ∈ l → (d.setAll l).get? k = some v
  | [], _, _, h => by simp at h
  | e :: l, d, hn, h => by
    obtain ⟨he, hn'⟩ := List.nodup_cons.mp hn
    rw [setAll_cons]
    rcases List.mem_cons.mp h with rfl | h
    · rw [get?_setAll_of_not_mem _ he, get?_set_self]
    · exact get?_setAll_of_mem _ hn' h

/-- A key that is set gets one of the values it is set to. -/
theorem exists_get?_setAll {k : κ} : ∀ {l : List (κ × ν)} (d : OrdDict κ ν), k ∈ l.map Prod.fst →
    ∃ v, (k, v) ∈ l ∧ (d.setAll l).get? k = some v
  | [], _, h => by simp at h
  | e :: l, d, h => by
    by_cases hl : k ∈ l.map Prod.fst
    · obtain ⟨v, hv, hget⟩ := exists_get?_setAll (d.set e.1 e.2) hl
      exact ⟨v, List.mem_cons_of_mem _ hv, hget⟩
    · have hk : k = e.1 := by
        rcases List.mem_cons.mp h with hk | hk
        · exact hk
        · exact absurd hk hl
      refine ⟨e.2, by rw [hk]; exact List.mem_cons_self .., ?_⟩
      rw [setAll_cons, get?_setAll_of_not_mem _ hl, hk, get?_set_self]

theorem mem_of_get?_ofList {l : List (κ × ν)} {k : κ} {v : ν} (h : (ofList l).get? k = some v) :
    (k, v) ∈ l := by
  by_cases hk : k ∈ l.map Prod.fst
  · obtain ⟨v', hv', hget⟩ := exists_get?_setAll empty hk
    rw [ofList, hget, Option.some.injEq] at h
    rw [← h]
    exact hv'
  · rw [ofList, get?_setAll_of_not_mem _ hk] at h
    cases h

/-- A list of entries that agree where their keys do is what its dictionary holds. -/
theorem get?_ofList_eq_some_iff {l : List (κ × ν)}
    (h : ∀ e ∈ l, ∀ e' ∈ l, e.1 = e'.1 → e = e') {k : κ} {v : ν} :
    (ofList l).get? k = some v ↔ (k, v) ∈ l := by
  constructor
  · exact mem_of_get?_ofList
  · intro hmem
    obtain ⟨v', hv', hget⟩ := exists_get?_setAll empty (List.mem_map_of_mem hmem)
    rw [ofList, hget]
    exact congrArg (fun e => some e.2) (h _ hv' _ hmem rfl)

theorem entries_ofList_of_nodup {l : List (κ × ν)}
    (h : (l.map Prod.fst).Nodup) : (ofList l).entries = l := by
  have hset : ∀ (l : List (κ × ν)) (d : OrdDict κ ν), (d.keys ++ l.map Prod.fst).Nodup →
      (d.setAll l).entries = d.entries ++ l := by
    intro l
    induction l with
    | nil => intro d _; simp
    | cons e l ih =>
      intro d hd
      have hnew : e.1 ∉ d.keys := by
        intro hmem
        exact (List.nodup_append.mp hd).2.2 e.1 hmem e.1 (by simp) rfl
      rw [setAll_cons, ih, entries_set_of_not_mem hnew, List.append_assoc]
      · rfl
      · rw [keys_set, if_neg hnew]
        simpa [List.append_assoc] using hd
  have hempty : (empty : OrdDict κ ν).entries = [] := rfl
  rw [ofList, hset l empty (by simpa [keys, hempty] using h), hempty,
    List.nil_append]

theorem get?_setAll_eq_or (k : κ) : ∀ (l : List (κ × ν)) (d : OrdDict κ ν),
    (d.setAll l).get? k = ((ofList l).get? k).or (d.get? k)
  | [], _ => rfl
  | e :: l, d => by
    have hset : ∀ d' : OrdDict κ ν, (d'.set e.1 e.2).get? k = if k = e.1 then some e.2 else d'.get? k :=
      fun d' => get?_set d' e.1 k e.2
    have hempty : (ofList (e :: l)).get? k = ((ofList l).get? k).or ((empty.set e.1 e.2).get? k) :=
      get?_setAll_eq_or k l _
    rw [setAll_cons, get?_setAll_eq_or k l, hempty, hset, hset]
    by_cases hk : k = e.1
    · rw [if_pos hk, if_pos hk]
      cases (ofList l).get? k <;> rfl
    · rw [if_neg hk, if_neg hk]
      cases (ofList l).get? k <;> rfl

/-! ## Inserts that keep or replace what is stored

`insertAll replace` assigns the entries of a list from left to right, except
that a key outside `replace` keeps the value it has. The last entry decides at
a replaced key, the stored value or else the first entry at any other
(`get?_insertAll`); which keys are added, and where, does not depend on
`replace` (`keys_insertAll`). -/

def insertAll (replace : κ → Bool) (d : OrdDict κ ν) : List (κ × ν) → OrdDict κ ν
  | [] => d
  | e :: l =>
    if replace e.1 || !d.contains e.1 then insertAll replace (d.set e.1 e.2) l
    else insertAll replace d l

theorem insertAll_append (replace : κ → Bool) : ∀ (l l' : List (κ × ν)) (d : OrdDict κ ν),
    insertAll replace d (l ++ l') = insertAll replace (insertAll replace d l) l'
  | [], _, _ => rfl
  | e :: l, l', d => by
    rw [List.cons_append, insertAll, insertAll]
    split
    · exact insertAll_append replace l l' _
    · exact insertAll_append replace l l' _

theorem mem_values_iff {d : OrdDict κ ν} {v : ν} : v ∈ d.values ↔ ∃ k, d.get? k = some v := by
  constructor
  · intro h
    obtain ⟨⟨k, _⟩, he, rfl⟩ := List.mem_map.mp h
    exact ⟨k, get?_eq_some_iff.mpr he⟩
  · rintro ⟨k, hk⟩
    exact List.mem_map.mpr ⟨(k, v), get?_eq_some_iff.mp hk, rfl⟩

theorem mem_values_of_insertAll {replace : κ → Bool} {v : ν} : ∀ {l : List (κ × ν)}
    {d : OrdDict κ ν}, v ∈ (insertAll replace d l).values → v ∈ d.values ∨ v ∈ l.map Prod.snd
  | [], _, h => Or.inl h
  | e :: l, d, h => by
    rw [insertAll] at h
    split at h
    · rcases mem_values_of_insertAll h with h | h
      · obtain ⟨k, hk⟩ := mem_values_iff.mp h
        rw [get?_set] at hk
        split at hk
        · cases hk
          exact Or.inr (List.mem_cons_self ..)
        · exact Or.inl (mem_values_iff.mpr ⟨k, hk⟩)
      · exact Or.inr (List.mem_cons_of_mem _ h)
    · exact (mem_values_of_insertAll h).imp_right (List.mem_cons_of_mem _)

theorem get?_insertAll (replace : κ → Bool) (k : κ) : ∀ (l : List (κ × ν)) (d : OrdDict κ ν),
    (insertAll replace d l).get? k =
      if replace k then (OrdDictEntries.get l.reverse k).or (d.get? k)
      else (d.get? k).or (OrdDictEntries.get l k)
  | [], d => by simp [insertAll, OrdDictEntries.get]
  | (k₀, v₀) :: l, d => by
    have ih := get?_insertAll replace k l
    rw [List.reverse_cons, OrdDictEntries.get_append, insertAll]
    by_cases hk : k₀ = k
    · subst hk
      by_cases hr : replace k₀ = true
      · -- the last entry still decides, and the one assigned here is the last resort
        simp only [hr, Bool.true_or, if_true, ih, get?_set_self, OrdDictEntries.get, Option.or_assoc]
        simp
      · simp only [hr, Bool.false_or, if_false, OrdDictEntries.get, contains,
          Bool.false_eq_true]
        cases hd : d.get? k₀ with
        | none => simp [ih, hr]
        | some v => simp [ih, hr, hd]
    · have hget : ∀ v, (d.set k₀ v).get? k = d.get? k := fun v => get?_set_of_ne (Ne.symm hk) d v
      simp only [OrdDictEntries.get, if_neg hk, Option.or_none]
      split
      · rw [ih, hget]
      · rw [ih]

/-- Among the keys that meet `q`, all of them new and distinct, every entry is appended. -/
theorem filter_entries_insertAll (replace q : κ → Bool) : ∀ (l : List (κ × ν)) (d : OrdDict κ ν),
    (∀ e ∈ l, q e.1 = true → e.1 ∉ d.keys) → ((l.filter fun e => q e.1).map Prod.fst).Nodup →
      (insertAll replace d l).entries.filter (fun e => q e.1) =
        d.entries.filter (fun e => q e.1) ++ l.filter fun e => q e.1
  | [], d, _, _ => by simp [insertAll]
  | e :: l, d, hnew, hn => by
    have htail : ∀ e' ∈ l, q e'.1 = true → e'.1 ∉ d.keys :=
      fun e' he' => hnew e' (List.mem_cons_of_mem _ he')
    rw [insertAll]
    cases hq : q e.1 with
    | false =>
      rw [List.filter_cons_of_neg (by simp [hq])] at hn ⊢
      have hne : ∀ e' ∈ l, q e'.1 = true → e'.1 ∉ (d.set e.1 e.2).keys := by
        intro e' he' hq' hmem
        cases mem_keys_set.mp hmem with
        | inl heq =>
          rw [heq, hq] at hq'
          cases hq'
        | inr hold => exact htail e' he' hq' hold
      have hset : (d.set e.1 e.2).entries.filter (fun e => q e.1) =
          d.entries.filter fun e => q e.1 := by
        by_cases hk : e.1 ∈ d.keys
        · obtain ⟨v, hv⟩ := mem_keys_iff.mp hk
          have hsame : (d.set e.1 e.2).entries.filterMap (Option.guard fun e => q e.1) =
              d.entries.filterMap (Option.guard fun e => q e.1) :=
            filterMap_entries_set hv (by simp [Option.guard, hq])
          rwa [List.filterMap_eq_filter] at hsame
        · rw [entries_set_of_not_mem hk, List.filter_append,
            List.filter_cons_of_neg (by simp [hq]), List.filter_nil, List.append_nil]
      split
      · rw [filter_entries_insertAll replace q l _ hne hn, hset]
      · exact filter_entries_insertAll replace q l d htail hn
    | true =>
      have hk : e.1 ∉ d.keys := hnew e List.mem_cons_self hq
      have hcontains : d.contains e.1 = false := by
        rw [← Bool.not_eq_true, contains_iff]
        exact hk
      rw [List.filter_cons_of_pos (by simpa using hq)] at hn ⊢
      rw [List.map_cons, List.nodup_cons] at hn
      have hne : ∀ e' ∈ l, q e'.1 = true → e'.1 ∉ (d.set e.1 e.2).keys := by
        intro e' he' hq' hmem
        cases mem_keys_set.mp hmem with
        | inl heq =>
          apply hn.1
          rw [← heq]
          exact List.mem_map_of_mem (List.mem_filter.mpr ⟨he', hq'⟩)
        | inr hold => exact htail e' he' hq' hold
      rw [hcontains, Bool.not_false, Bool.or_true, if_pos rfl,
        filter_entries_insertAll replace q l _ hne hn.2, entries_set_of_not_mem hk,
        List.filter_append, List.filter_cons_of_pos (by simpa using hq), List.filter_nil,
        List.append_assoc]
      rfl

/-- The keys that a list of keys leaves: each new one at the end. -/
def addKeys (ks : List κ) (new : List κ) : List κ :=
  new.foldl (fun ks k => if k ∈ ks then ks else ks ++ [k]) ks

theorem addKeys_append (ks new new' : List κ) :
    addKeys ks (new ++ new') = addKeys (addKeys ks new) new' :=
  List.foldl_append

theorem addKeys_singleton (ks : List κ) (k : κ) :
    addKeys ks [k] = if k ∈ ks then ks else ks ++ [k] := rfl

theorem mem_addKeys {k : κ} : ∀ {new ks : List κ}, k ∈ addKeys ks new ↔ k ∈ ks ∨ k ∈ new
  | [], ks => by simp [addKeys]
  | k' :: new, ks => by
    rw [show addKeys ks (k' :: new) = addKeys (if k' ∈ ks then ks else ks ++ [k']) new from rfl,
      mem_addKeys]
    by_cases h : k' ∈ ks
    · rw [if_pos h, List.mem_cons]
      constructor
      · rintro (h' | h')
        · exact Or.inl h'
        · exact Or.inr (Or.inr h')
      · rintro (h' | rfl | h')
        · exact Or.inl h'
        · exact Or.inl h
        · exact Or.inr h'
    · rw [if_neg h, List.mem_append, List.mem_singleton, List.mem_cons, or_assoc]

/-- The first key with a property does not depend on repetitions. -/
theorem find?_addKeys (p : κ → Bool) : ∀ (new ks : List κ),
    (addKeys ks new).find? p = (ks ++ new).find? p
  | [], ks => by rw [List.append_nil, addKeys, List.foldl_nil]
  | k :: new, ks => by
    rw [show addKeys ks (k :: new) = addKeys (if k ∈ ks then ks else ks ++ [k]) new from rfl,
      find?_addKeys p new]
    by_cases h : k ∈ ks
    · rw [if_pos h, List.find?_append, List.find?_append, List.find?_cons]
      cases hp : p k with
      | false => rfl
      | true =>
        obtain ⟨k', hk'⟩ := Option.isSome_iff_exists.mp (List.find?_isSome.mpr ⟨k, h, hp⟩)
        rw [hk', Option.some_or, Option.some_or]
    · rw [if_neg h, List.append_assoc, List.singleton_append]

theorem nodup_addKeys : ∀ {new ks : List κ}, ks.Nodup → (addKeys ks new).Nodup
  | [], _, h => h
  | k :: new, ks, h => by
    show (addKeys (if k ∈ ks then ks else ks ++ [k]) new).Nodup
    apply nodup_addKeys
    split
    · exact h
    · rename_i hk
      exact List.nodup_append.mpr ⟨h, List.nodup_singleton k, fun a ha b hb =>
        fun e => hk (List.mem_singleton.mp hb ▸ e ▸ ha)⟩

/-- New keys without repetition are appended as they are. -/
theorem addKeys_of_nodup : ∀ {new ks : List κ}, (ks ++ new).Nodup → addKeys ks new = ks ++ new
  | [], ks, _ => (List.append_nil ks).symm
  | k :: new, ks, h => by
    have happ : ks ++ k :: new = ks ++ [k] ++ new := by simp
    have hk : k ∉ ks := fun hmem => (List.nodup_append.mp h).2.2 k hmem k List.mem_cons_self rfl
    show addKeys (if k ∈ ks then ks else ks ++ [k]) new = _
    rw [if_neg hk, happ]
    exact addKeys_of_nodup (happ ▸ h)

theorem keys_insertAll (replace : κ → Bool) : ∀ (l : List (κ × ν)) (d : OrdDict κ ν),
    (insertAll replace d l).keys = addKeys d.keys (l.map Prod.fst)
  | [], _ => rfl
  | e :: l, d => by
    have hstep : addKeys d.keys ((e :: l).map Prod.fst) =
        addKeys (if e.1 ∈ d.keys then d.keys else d.keys ++ [e.1]) (l.map Prod.fst) := rfl
    rw [hstep, insertAll]
    split
    · rw [keys_insertAll replace l, keys_set]
    · rename_i h
      have hmem : e.1 ∈ d.keys := by
        rw [← contains_iff]
        simp only [Bool.or_eq_true, Bool.not_eq_true', not_or, Bool.not_eq_false] at h
        exact h.2
      rw [keys_insertAll replace l, if_pos hmem]

/-- `for k, v in l: d.setdefault(k, []).append(v)` on an empty dict. -/
def group (l : List (κ × ν)) : OrdDict κ (List ν) :=
  l.foldl (fun d e => d.set e.1 (d.getD e.1 [] ++ [e.2])) ∅

theorem group_concat (l : List (κ × ν)) (e : κ × ν) :
    group (l ++ [e]) = (group l).set e.1 ((group l).getD e.1 [] ++ [e.2]) :=
  List.foldl_append

theorem getD_group (l : List (κ × ν)) (k : κ) :
    (group l).getD k [] = (l.filter fun e => e.1 = k).map Prod.snd := by
  induction l using List.reverseRecOn with
  | nil => rfl
  | append_singleton l e ih =>
    rw [group_concat, getD, get?_set, List.filter_append, List.map_append, ← ih]
    by_cases hk : k = e.1
    · simp [hk]
    · simp [hk, Ne.symm hk, getD]

theorem mem_keys_group {l : List (κ × ν)} {k : κ} : k ∈ (group l).keys ↔ k ∈ l.map Prod.fst := by
  induction l using List.reverseRecOn with
  | nil => exact Iff.rfl
  | append_singleton l e ih =>
    rw [group_concat, mem_keys_set, ih, List.map_append, List.mem_append, List.map_singleton,
      List.mem_singleton, or_comm]

theorem keys_group (l : List (κ × ν)) : (group l).keys = addKeys [] (l.map Prod.fst) := by
  induction l using List.reverseRecOn with
  | nil => rfl
  | append_singleton l e ih =>
    rw [group_concat, keys_set, ih, List.map_append, addKeys_append, List.map_singleton,
      addKeys_singleton]

/-- Distinct keys make groups of one. -/
theorem entries_group_of_nodup {l : List (κ × ν)} (h : (l.map Prod.fst).Nodup) :
    (group l).entries = l.map fun e => (e.1, [e.2]) := by
  induction l using List.reverseRecOn with
  | nil => rfl
  | append_singleton l e ih =>
    rw [List.map_append, List.nodup_append] at h
    have hkey : e.1 ∉ (group l).keys := fun hk =>
      h.2.2 e.1 (mem_keys_group.mp hk) e.1 List.mem_cons_self rfl
    rw [group_concat, entries_set_of_not_mem hkey, getD, get?_eq_none_iff.mpr hkey, ih h.1,
      List.map_append]
    rfl

theorem length_flatten_set (k : κ) (v : List ν) : ∀ (d : List (κ × List ν)),
    ((OrdDictEntries.set d k v).map Prod.snd).flatten.length +
        ((OrdDictEntries.get d k).getD []).length =
      (d.map Prod.snd).flatten.length + v.length
  | [] => by simp [OrdDictEntries.set, OrdDictEntries.get]
  | (k₀, v₀) :: d => by
    have ih := length_flatten_set k v d
    rw [OrdDictEntries.set, OrdDictEntries.get]
    split
    · simp only [List.map_cons, List.flatten_cons, List.length_append, Option.getD_some]
      omega
    · simp only [List.map_cons, List.flatten_cons, List.length_append] at ih ⊢
      omega

/-- The groups together have as many members as the list. -/
theorem length_flatten_group (l : List (κ × ν)) : (group l).values.flatten.length = l.length := by
  induction l using List.reverseRecOn with
  | nil => rfl
  | append_singleton l e ih =>
    have hset := length_flatten_set e.1 ((group l).getD e.1 [] ++ [e.2]) (group l).entries
    rw [group_concat]
    simp only [List.length_append, List.length_singleton] at hset ⊢
    have hlen : ((group l).entries.map Prod.snd).flatten.length = l.length := ih
    have hget : ((group l).getD e.1 []).length =
        ((OrdDictEntries.get (group l).entries e.1).getD []).length := rfl
    show (((OrdDictEntries.set (group l).entries e.1 _)).map Prod.snd).flatten.length = l.length + 1
    omega

/-- As many keys as members are all distinct. -/
theorem length_keys_group_iff {l : List (κ × ν)} :
    (group l).keys.length = l.length ↔ (l.map Prod.fst).Nodup := by
  constructor
  · intro h
    have hsub : (group l).keys.Subperm (l.map Prod.fst) :=
      (group l).keys_nodup.subperm fun k hk => mem_keys_group.mp hk
    have hperm := hsub.perm_of_length_le (by simp [h])
    exact hperm.nodup (group l).keys_nodup
  · intro h
    rw [keys, entries_group_of_nodup h, List.length_map, List.length_map]

/-- `{**d, **d'}` -/
def merge (d d' : OrdDict κ ν) : OrdDict κ ν := d.setAll d'.entries

theorem get?_merge (d d' : OrdDict κ ν) (k : κ) :
    (d.merge d').get? k = (d'.get? k).or (d.get? k) := by
  cases h : d'.get? k with
  | none =>
    rw [merge, get?_setAll_of_not_mem d (get?_eq_none_iff.mp h), Option.none_or]
  | some v =>
    rw [merge, get?_setAll_of_mem d d'.nodup (get?_eq_some_iff.mp h), Option.some_or]

end OrdDict

/- Keys that are paths or namespaces, and ids that may be missing. -/

instance lawfulBEq_listString : LawfulBEq (List String) := inferInstance

instance lawfulBEq_optionString : LawfulBEq (Option String) := inferInstance
