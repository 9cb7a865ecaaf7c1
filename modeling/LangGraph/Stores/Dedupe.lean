import LangGraph.Stores.MemoryFilter
import LangGraph.Stores.PutQueries

/- `_dedupe_ops` of `store/base/batch.py`.

   Correspondence (source ↔ Lean):
     `==` on operations                             ↔ `Op.pyEq`
     the loop over `values`                         ↔ `Dedupe.step`, `Dedupe.run`
     `_dedupe_ops`                                  ↔ `dedupeOps`
     `[results[ix] for ix in listen]`               ↔ `scatter`
   Operations are named tuples of 3, 6, 4 and 5 fields, so two of different
   kinds are never equal. A filter with NaN is equal to nothing here.
   `Dedupe.servedBy_run`: a read is answered through the first read that is equal
   to it, a put through the last put of its key. -/
namespace LangGraph.Stores

def SearchOp.pyEq (a b : SearchOp) : Bool :=
  a.namespacePrefix == b.namespacePrefix &&
    (match a.filter, b.filter with
      | none, none => true
      | some f, some g => Stores.pyEq (.dict f) (.dict g)
      | _, _ => false) &&
    a.limit == b.limit && a.offset == b.offset && a.query == b.query && a.refreshTtl == b.refreshTtl

/-- `==` on reads. -/
def Op.pyEq : Op → Op → Bool
  | .get a, .get b => a == b
  | .search a, .search b => a.pyEq b
  | .listNamespaces a, .listNamespaces b => a == b
  | _, _ => false

def Op.isPut : Op → Bool
  | .put _ => true
  | _ => false

theorem SearchOp.pyEq_trans {a b c : SearchOp} (h : a.pyEq b = true) (h' : b.pyEq c = true) :
    a.pyEq c = true := by
  simp only [SearchOp.pyEq, Bool.and_eq_true, beq_iff_eq] at h h' ⊢
  obtain ⟨⟨⟨⟨⟨h1, hf⟩, h2⟩, h3⟩, h4⟩, h5⟩ := h
  obtain ⟨⟨⟨⟨⟨h1', hf'⟩, h2'⟩, h3'⟩, h4'⟩, h5'⟩ := h'
  refine ⟨⟨⟨⟨⟨h1.trans h1', ?_⟩, h2.trans h2'⟩, h3.trans h3'⟩, h4.trans h4'⟩, h5.trans h5'⟩
  cases ha : a.filter with
  | none =>
    cases hb : b.filter with
    | none =>
      rw [hb] at hf'
      exact hf'
    | some g => simp [ha, hb] at hf
  | some f =>
    cases hb : b.filter with
    | none => simp [ha, hb] at hf
    | some g =>
      cases hc : c.filter with
      | none => simp [hb, hc] at hf'
      | some g' =>
        rw [ha, hb] at hf
        rw [hb, hc] at hf'
        exact Stores.pyEq_trans hf hf'

theorem Op.pyEq_trans {a b c : Op} (h : a.pyEq b = true) (h' : b.pyEq c = true) : a.pyEq c = true := by
  cases a <;> cases b <;> cases c <;> simp only [Op.pyEq, Bool.false_eq_true] at h h' ⊢
  · rw [eq_of_beq h]
    exact h'
  · exact SearchOp.pyEq_trans h h'
  · rw [eq_of_beq h]
    exact h'

@[simp] theorem Op.pyEq_put_left (p : PutOp) (op : Op) : Op.pyEq (.put p) op = false := by
  cases op <;> rfl

@[simp] theorem Op.pyEq_put_right (op : Op) (p : PutOp) : op.pyEq (.put p) = false := by
  cases op <;> rfl

/-- `(op.namespace, op.key)` -/
def PutOp.slot (op : PutOp) : Namespace × String := (op.ns, op.key)

/-- The last put of a key in a batch. -/
def lastPut (ops : List Op) (k : Namespace × String) : Option PutOp :=
  (ops.reverse.filterMap fun | .put p => some p | _ => none).find? fun p => p.slot == k

theorem lastPut_append (a b : List Op) (k : Namespace × String) :
    lastPut (a ++ b) k = (lastPut b k).or (lastPut a k) := by
  simp [lastPut, List.find?_append]

@[simp] theorem lastPut_nil (k : Namespace × String) : lastPut [] k = none := rfl

@[simp] theorem lastPut_put (p : PutOp) (k : Namespace × String) :
    lastPut [.put p] k = if p.slot = k then some p else none := by
  by_cases h : p.slot = k <;> simp [lastPut, h]

theorem lastPut_read {op : Op} (h : op.isPut = false) (k : Namespace × String) :
    lastPut [op] k = none := by
  cases op <;> first | rfl | cases h

theorem lastPut_eq_none {ops : List Op} {k : Namespace × String}
    (h : ∀ p, Op.put p ∈ ops → p.slot ≠ k) : lastPut ops k = none := by
  unfold lastPut
  rw [List.find?_eq_none]
  intro p hp
  obtain ⟨op, hop, he⟩ := List.mem_filterMap.mp hp
  rw [List.mem_reverse] at hop
  cases op with
  | put q =>
    obtain rfl := Option.some.inj he
    simpa using h q hop
  | _ => cases he

structure Dedupe where
  listen : List Nat
  dedupped : List Op
  puts : OrdDict (Namespace × String) Nat

namespace Dedupe

def start : Dedupe := ⟨[], [], ∅⟩

/-- `dedupped.index(op)`, or the place where it is appended. -/
def addRead (d : Dedupe) (op : Op) : Dedupe :=
  match d.dedupped.findIdx? fun e => e.pyEq op with
  | some i => { d with listen := d.listen ++ [i] }
  | none => { d with listen := d.listen ++ [d.dedupped.length], dedupped := d.dedupped ++ [op] }

def addPut (d : Dedupe) (p : PutOp) : Dedupe :=
  match d.puts.get? p.slot with
  | some ix => { d with listen := d.listen ++ [ix], dedupped := d.dedupped.set ix (.put p) }
  | none =>
    { listen := d.listen ++ [d.dedupped.length]
      dedupped := d.dedupped ++ [.put p]
      puts := d.puts.set p.slot d.dedupped.length }

def step (d : Dedupe) : Op → Dedupe
  | .put p => d.addPut p
  | op => d.addRead op

def run (values : List Op) : Dedupe := values.foldl step start

/-- The first read before it that is equal to it, or else the read itself. -/
def representative (before : List Op) (op : Op) : Op :=
  (before.find? fun e => e.pyEq op).getD op

/-- What the operation `op`, which comes after `before`, is answered through. -/
def ServedBy (before : List Op) (op served : Op) : Prop :=
  if op.isPut then served.isPut = true else served = representative before op

/-- The state of the loop after `values`. -/
structure Spec (values : List Op) (d : Dedupe) : Prop where
  length : d.listen.length = values.length
  served : ∀ i op, values[i]? = some op →
    ∃ ix e, d.listen[i]? = some ix ∧ d.dedupped[ix]? = some e ∧ ServedBy (values.take i) op e
  find : ∀ op, (d.dedupped.find? fun e => e.pyEq op) = values.find? fun e => e.pyEq op
  puts : ∀ k ix, d.puts.get? k = some ix ↔ ∃ p, d.dedupped[ix]? = some (.put p) ∧ p.slot = k
  lastPut : ∀ k, lastPut d.dedupped k = Stores.lastPut values k

theorem isPut_representative {before : List Op} {op : Op} (h : op.isPut = false) :
    (representative before op).isPut = false := by
  unfold representative
  cases hfind : before.find? fun e => e.pyEq op with
  | none => exact h
  | some e =>
    have heq : e.pyEq op = true := List.find?_some (p := fun e : Op => e.pyEq op) hfind
    cases e with
    | put p => simp at heq
    | _ => rfl

/-- What a put is answered through may be any put. -/
theorem ServedBy.of_isPut {before : List Op} {op e e' : Op} (h : ServedBy before op e)
    (he : e.isPut = true) (he' : e'.isPut = true) : ServedBy before op e' := by
  unfold ServedBy at h ⊢
  split
  · exact he'
  · next hop =>
    rw [if_neg hop] at h
    rw [h, isPut_representative (Bool.not_eq_true _ ▸ hop)] at he
    cases he

/-- One more operation, answered through `e`. -/
theorem Spec.served_concat {values : List Op} {d d' : Dedupe} (h : Spec values d) {op e : Op} {ix : Nat}
    (hlisten : d'.listen = d.listen ++ [ix]) (hix : d'.dedupped[ix]? = some e)
    (hserved : ServedBy values op e)
    (hkept : ∀ (j : Nat) (e : Op), d.dedupped[j]? = some e →
      d'.dedupped[j]? = some e ∨ e.isPut = true ∧ ∃ e' : Op, d'.dedupped[j]? = some e' ∧ e'.isPut = true) :
    ∀ i op', (values ++ [op])[i]? = some op' →
      ∃ ix e, d'.listen[i]? = some ix ∧ d'.dedupped[ix]? = some e ∧
        ServedBy ((values ++ [op]).take i) op' e := by
  intro i op' hi
  rcases Nat.lt_trichotomy i values.length with hlt | heq | hgt
  · rw [List.getElem?_append_left hlt] at hi
    obtain ⟨j, e₀, hj, he₀, hs⟩ := h.served i op' hi
    have hj' : d'.listen[i]? = some j := by
      rw [hlisten, List.getElem?_append_left (by rw [h.length]; exact hlt)]
      exact hj
    rw [List.take_append_of_le_length (Nat.le_of_lt hlt)]
    rcases hkept j e₀ he₀ with hsame | ⟨hput, e', he', hput'⟩
    · exact ⟨j, e₀, hj', hsame, hs⟩
    · exact ⟨j, e', hj', he', hs.of_isPut hput hput'⟩
  · subst heq
    rw [List.getElem?_append_right (Nat.le_refl _), Nat.sub_self] at hi
    obtain rfl := Option.some.inj hi
    refine ⟨ix, e, ?_, hix, ?_⟩
    · rw [hlisten, ← h.length, List.getElem?_append_right (Nat.le_refl _), Nat.sub_self]
      rfl
    · rw [List.take_left]
      exact hserved
  · rw [List.getElem?_eq_none (by rw [List.length_append, List.length_singleton]; omega)] at hi
    cases hi

theorem spec_start : Spec [] start where
  length := rfl
  served _ _ h := nomatch h
  find _ := rfl
  puts _ _ := by simp [start]
  lastPut _ := rfl

theorem step_eq_addRead (d : Dedupe) {op : Op} (h : op.isPut = false) : d.step op = d.addRead op := by
  cases op <;> first | rfl | cases h

theorem find_concat {values : List Op} {d d' : Dedupe} (h : Spec values d) {op : Op}
    (hop : d'.dedupped = d.dedupped ++ [op]) (o : Op) :
    (d'.dedupped.find? fun e => e.pyEq o) = (values ++ [op]).find? fun e => e.pyEq o := by
  rw [hop, List.find?_append, List.find?_append, h.find]

theorem Spec.addRead {values : List Op} {d : Dedupe} (h : Spec values d) {op : Op} (hop : op.isPut = false) :
    Spec (values ++ [op]) (d.addRead op) := by
  unfold Dedupe.addRead
  split
  · next i hi =>
    -- the read is merged into the entry `e`
    obtain ⟨hlt, heq, hfirst⟩ := List.findIdx?_eq_some_iff_getElem.mp hi
    have he : d.dedupped[i]? = some d.dedupped[i] := List.getElem?_eq_getElem hlt
    have hfind : (d.dedupped.find? fun e => e.pyEq op) = some d.dedupped[i] := by
      rw [List.find?_eq_bind_findIdx?_getElem?, hi]
      exact he
    refine ⟨?_, ?_, ?_, h.puts, ?_⟩
    · simp [h.length]
    · refine h.served_concat rfl he ?_ fun j e hj => Or.inl hj
      unfold ServedBy representative
      rw [if_neg (by rw [hop]; exact Bool.false_ne_true), ← h.find, hfind]
      rfl
    · intro o
      rw [List.find?_append, ← h.find]
      cases hnone : d.dedupped.find? fun e => e.pyEq o with
      | some e => rfl
      | none =>
        -- what is equal to the read is equal to the entry too
        rw [List.find?_eq_none] at hnone
        have hnot : op.pyEq o = false := by
          by_contra hyes
          rw [Bool.not_eq_false] at hyes
          exact hnone _ (List.getElem_mem hlt) (Op.pyEq_trans heq hyes)
        simp [hnot]
    · intro k
      rw [lastPut_append, lastPut_read hop, h.lastPut]
      rfl
  · next hi =>
    have hnone : ∀ e ∈ d.dedupped, e.pyEq op = false := List.findIdx?_eq_none_iff.mp hi
    refine ⟨?_, ?_, find_concat h rfl, ?_, ?_⟩
    · simp [h.length]
    · refine h.served_concat (e := op) rfl ?_ ?_ ?_
      · simp
      · unfold ServedBy representative
        rw [if_neg (by rw [hop]; exact Bool.false_ne_true), ← h.find,
          List.find?_eq_none.mpr fun e he => by rw [hnone e he]; exact Bool.false_ne_true]
        rfl
      · intro j e hj
        exact Or.inl (List.getElem?_append_left (List.getElem?_eq_some_iff.mp hj).1 ▸ hj)
    · intro k ix
      rw [h.puts]
      -- the entry at the end is no put
      refine exists_congr fun p => and_congr_left fun _ => ?_
      rw [List.getElem?_append]
      split
      · rfl
      · next hge =>
        rw [List.getElem?_eq_none (Nat.not_lt.mp hge)]
        refine iff_of_false (fun e => nomatch e) fun e => ?_
        obtain rfl := List.mem_singleton.mp (List.mem_of_getElem? e)
        cases hop
    · intro k
      rw [lastPut_append, lastPut_append, lastPut_read hop, h.lastPut]

/-- An entry that the test refuses, in the place of another one. -/
theorem find?_set_of_not {α : Type} {p : α → Bool} {a b : α} (ha : p a = false) (hb : p b = false) :
    ∀ {l : List α} {i : Nat}, l[i]? = some a → (l.set i b).find? p = l.find? p
  | [], _, h => nomatch h
  | x :: l, 0, h => by
    obtain rfl : x = a := by simpa using h
    simp [ha, hb]
  | x :: l, i + 1, h => by
    rw [List.set_cons_succ, List.find?_cons, List.find?_cons, find?_set_of_not ha hb (by simpa using h)]

/-- The put `p` in the place of the only put of its key. -/
theorem lastPut_set {values : List Op} {d : Dedupe} (h : Spec values d) {p : PutOp} {ix : Nat}
    (hix : d.puts.get? p.slot = some ix) (k : Namespace × String) :
    Stores.lastPut (d.dedupped.set ix (.put p)) k =
      (if p.slot = k then some p else none).or (Stores.lastPut d.dedupped k) := by
  obtain ⟨q, hq, hslot⟩ := (h.puts _ _).mp hix
  obtain ⟨hlt, hget⟩ := List.getElem?_eq_some_iff.mp hq
  have hsplit : d.dedupped = d.dedupped.take ix ++ [.put q] ++ d.dedupped.drop (ix + 1) := by
    rw [← hget, List.append_assoc, List.singleton_append, List.getElem_cons_drop, List.take_append_drop]
  have hset : d.dedupped.set ix (.put p) =
      d.dedupped.take ix ++ [.put p] ++ d.dedupped.drop (ix + 1) := by
    rw [List.set_eq_take_append_cons_drop, if_pos hlt, List.append_assoc, List.singleton_append]
  have hafter : Stores.lastPut (d.dedupped.drop (ix + 1)) p.slot = none := by
    refine lastPut_eq_none fun p' hp' hsame => ?_
    obtain ⟨j, hj⟩ := List.mem_iff_getElem?.mp hp'
    rw [List.getElem?_drop] at hj
    have hjx := (h.puts p.slot _).mpr ⟨p', hj, hsame⟩
    rw [hix] at hjx
    have := Option.some.inj hjx
    omega
  rw [hset]
  conv_rhs => rw [hsplit]
  simp only [lastPut_append, lastPut_put, hslot]
  by_cases hk : p.slot = k
  · subst hk
    rw [hafter]
    simp
  · simp [hk]

theorem Spec.addPut {values : List Op} {d : Dedupe} (h : Spec values d) (p : PutOp) :
    Spec (values ++ [.put p]) (d.addPut p) := by
  have hserved : ServedBy values (.put p) (.put p) := rfl
  unfold Dedupe.addPut
  split
  · next ix hix =>
    -- the put takes the place of the last one of its key
    obtain ⟨q, hq, hslot⟩ := (h.puts _ _).mp hix
    obtain ⟨hlt, _⟩ := List.getElem?_eq_some_iff.mp hq
    have hself : (d.dedupped.set ix (.put p))[ix]? = some (.put p) := by simp [hlt]
    refine ⟨?_, ?_, ?_, ?_, ?_⟩
    · simp [h.length]
    · refine h.served_concat rfl hself hserved ?_
      intro j e hj
      by_cases hji : ix = j
      · subst hji
        rw [hq] at hj
        obtain rfl := Option.some.inj hj
        exact Or.inr ⟨rfl, .put p, hself, rfl⟩
      · exact Or.inl ((List.getElem?_set_ne hji).trans hj)
    · intro o
      rw [List.find?_append, ← h.find]
      show (d.dedupped.set ix (.put p)).find? _ = _
      rw [find?_set_of_not (p := fun e : Op => e.pyEq o) (Op.pyEq_put_left q o) (Op.pyEq_put_left p o) hq]
      simp
    · intro k jx
      show d.puts.get? k = some jx ↔ ∃ p', (d.dedupped.set ix (.put p))[jx]? = some (.put p') ∧ p'.slot = k
      rw [h.puts]
      by_cases hji : ix = jx
      · subst hji
        rw [hq, hself]
        simp [hslot]
      · rw [List.getElem?_set_ne hji]
    · intro k
      rw [lastPut_append, lastPut_put, ← h.lastPut]
      exact lastPut_set h hix k
  · next hnone =>
    refine ⟨?_, ?_, find_concat h rfl, ?_, ?_⟩
    · simp [h.length]
    · refine h.served_concat (e := .put p) rfl ?_ hserved ?_
      · simp
      · intro j e hj
        exact Or.inl (List.getElem?_append_left (List.getElem?_eq_some_iff.mp hj).1 ▸ hj)
    · intro k ix
      show (d.puts.set p.slot d.dedupped.length).get? k = some ix ↔
        ∃ p', (d.dedupped ++ [Op.put p])[ix]? = some (.put p') ∧ p'.slot = k
      rw [OrdDict.get?_set, List.getElem?_append]
      by_cases hlt : ix < d.dedupped.length
      · rw [if_pos hlt]
        split
        · next hk =>
          subst hk
          refine iff_of_false (fun e => ?_) fun e => ?_
          · have := Option.some.inj e
            omega
          · rw [(h.puts _ _).mpr e] at hnone
            cases hnone
        · exact h.puts k ix
      · rw [if_neg hlt]
        -- only the place at the end is left
        have hend : ∀ p', [Op.put p][ix - d.dedupped.length]? = some (.put p') ↔
            ix = d.dedupped.length ∧ p' = p := by
          intro p'
          rw [List.getElem?_singleton]
          by_cases hz : ix - d.dedupped.length = 0
          · have hix : ix = d.dedupped.length := by omega
            simp [hix, eq_comm]
          · have hix : ix ≠ d.dedupped.length := by omega
            simp [hz, hix]
        simp only [hend]
        constructor
        · intro e
          split at e
          · next hk => exact ⟨p, ⟨(Option.some.inj e).symm, rfl⟩, hk.symm⟩
          · obtain ⟨p', hp', _⟩ := (h.puts k ix).mp e
            exact absurd (List.getElem?_eq_some_iff.mp hp').1 hlt
        · rintro ⟨p', ⟨rfl, rfl⟩, rfl⟩
          rw [if_pos rfl]
    · intro k
      rw [lastPut_append, lastPut_append, h.lastPut]

theorem Spec.step {values : List Op} {d : Dedupe} (h : Spec values d) (op : Op) :
    Spec (values ++ [op]) (d.step op) := by
  cases op with
  | put p => exact h.addPut p
  | get op => exact h.addRead rfl
  | search op => exact h.addRead rfl
  | listNamespaces op => exact h.addRead rfl

theorem spec_run (values : List Op) : Spec values (run values) := by
  induction values using List.reverseRecOn with
  | nil => exact spec_start
  | append_singleton values op ih =>
    unfold run at ih ⊢
    rw [List.foldl_append]
    exact ih.step op

end Dedupe

/-- `_dedupe_ops` -/
def dedupeOps (values : List Op) : Option (List Nat) × List Op :=
  if values.length ≤ 1 then (none, values)
  else (some (Dedupe.run values).listen, (Dedupe.run values).dedupped)

/-- `[results[ix] for ix in listen]` -/
def scatter {R : Type} (listen : Option (List Nat)) (results : List R) : List R :=
  match listen with
  | none => results
  | some listen => listen.filterMap fun ix => results[ix]?

theorem lastPut_dedupeOps (values : List Op) (k : Namespace × String) :
    lastPut (dedupeOps values).2 k = lastPut values k := by
  unfold dedupeOps
  split
  · rfl
  · exact (Dedupe.spec_run values).lastPut k

theorem getElem?_filterMap {α β : Type} {f : α → Option β} : ∀ {l : List α}, (∀ x ∈ l, (f x).isSome) →
    ∀ i : Nat, (l.filterMap f)[i]? = l[i]?.bind f
  | [], _, _ => rfl
  | x :: l, h, i => by
    rw [List.forall_mem_cons] at h
    obtain ⟨y, hy⟩ := Option.isSome_iff_exists.mp h.1
    rw [List.filterMap_cons_some hy]
    cases i with
    | zero => exact hy.symm
    | succ i => exact getElem?_filterMap h.2 i

theorem length_filterMap {α β : Type} {f : α → Option β} : ∀ {l : List α}, (∀ x ∈ l, (f x).isSome) →
    (l.filterMap f).length = l.length
  | [], _ => rfl
  | x :: l, h => by
    rw [List.forall_mem_cons] at h
    obtain ⟨y, hy⟩ := Option.isSome_iff_exists.mp h.1
    rw [List.filterMap_cons_some hy, List.length_cons, List.length_cons, length_filterMap h.2]

/-- The result of each operation, if puts have all the same result: that of the
    first read that is equal to it. -/
theorem scatter_dedupeOps {R : Type} (answer : Op → R) (hputs : ∀ p q, answer (.put p) = answer (.put q))
    (values : List Op) :
    (scatter (dedupeOps values).1 ((dedupeOps values).2.map answer)).length = values.length ∧
      ∀ i op, values[i]? = some op →
        (scatter (dedupeOps values).1 ((dedupeOps values).2.map answer))[i]? =
          some (answer (if op.isPut then op else Dedupe.representative (values.take i) op)) := by
  unfold dedupeOps
  split
  · next hlen =>
    refine ⟨by simp [scatter], ?_⟩
    intro i op hi
    have hi0 : i = 0 := by
      have := (List.getElem?_eq_some_iff.mp hi).1
      omega
    subst hi0
    show (values.map answer)[0]? = _
    rw [List.getElem?_map, hi]
    simp [Dedupe.representative]
  · have h := Dedupe.spec_run values
    generalize Dedupe.run values = d at h
    have hall : ∀ ix ∈ d.listen, ((d.dedupped.map answer)[ix]?).isSome := by
      intro ix hix
      obtain ⟨i, hi⟩ := List.mem_iff_getElem?.mp hix
      have hlt : i < values.length := by
        rw [← h.length]
        exact (List.getElem?_eq_some_iff.mp hi).1
      obtain ⟨ix', e, hix', he, _⟩ := h.served i _ (List.getElem?_eq_getElem hlt)
      obtain rfl : ix = ix' := Option.some.inj (hi.symm.trans hix')
      rw [List.getElem?_map, he]
      rfl
    refine ⟨(length_filterMap hall).trans h.length, ?_⟩
    intro i op hi
    obtain ⟨ix, e, hix, he, hserved⟩ := h.served i op hi
    show (d.listen.filterMap fun ix => (d.dedupped.map answer)[ix]?)[i]? = _
    rw [getElem?_filterMap hall, hix]
    show (d.dedupped.map answer)[ix]? = _
    rw [List.getElem?_map, he]
    unfold Dedupe.ServedBy at hserved
    split at hserved
    · next hop =>
      cases e with
      | put q =>
        cases op with
        | put p => exact congrArg some (hputs q p)
        | _ => cases hop
      | _ => cases hserved
    · next hop => rw [if_neg hop, hserved]; rfl

end LangGraph.Stores
