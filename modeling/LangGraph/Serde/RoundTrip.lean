import LangGraph.Serde.JsonPlus

/- What comes back of a value that went through the serializer. Tuples come back
   as lists. Inside a set a list cannot be an element: the constructor raises,
   `ext_hook` turns that into `None`, and the whole set is gone. So the round trip
   holds of the values whose sets have no tuple inside, at any depth. -/
namespace LangGraph.Serde

open Tree

/- ── The values and what is to come back ───────────────────────────────────── -/

@[elab_as_elim]
theorem Value.ind {P : Value → Prop} (leaf : ∀ a, P (.leaf a))
    (node : ∀ (k : Kind) (vs : List Value), (∀ v ∈ vs, P v) → P (.node k vs)) (v : Value) :
    P v :=
  Tree.ind leaf node v

/-- What one container of a value keeps: distinct hashable elements in a set,
    distinct keys in a dict. -/
def Kind.Holds (py : Python) (vs : List Value) : Kind → Prop
  | .set | .frozenset =>
    (∀ v ∈ vs, v.hashable = true) ∧ vs.Pairwise fun v w => py.eq v w = false
  | .dict keys => keys.length = vs.length ∧ keys.Nodup
  | .list | .tuple | .deque => True

def Value.WellFormed (py : Python) : Value → Prop :=
  para (fun _ => True) fun k vs ps => k.Holds py vs ∧ ∀ p ∈ ps, p

theorem Value.wellFormed_node {py : Python} {k : Kind} {vs : List Value} :
    Value.WellFormed py (.node k vs) ↔ k.Holds py vs ∧ ∀ v ∈ vs, v.WellFormed py := by
  simp only [Value.WellFormed, para_node, List.forall_mem_map]

def Kind.isSet : Kind → Bool
  | .set | .frozenset => true
  | .list | .tuple | .deque | .dict _ => false

/-- `list` for `tuple`, any other container itself. -/
def Kind.listed : Kind → Kind
  | .tuple => .list
  | k => k

/-- The value with its tuples turned into lists, set elements left as they are. -/
def Value.listed : Value → Value :=
  para .leaf fun k vs ws => if k.isSet then .node k vs else .node k.listed ws

/-- Some set or frozenset of the value has a tuple inside. -/
def Value.tupleInSet : Value → Bool :=
  para (fun _ => false) fun k vs bs => if k.isSet then vs.any Value.hasTuple else bs.any id

/-- Every int of the value is one ormsgpack packs. -/
def Value.fits (v : Value) : Bool := v.allLeaves Atom.fits

/-- Equality of values: atoms by `==`, a set in any order, a dict in any order of
    its keys. -/
inductive Same (py : Python) : Value → Value → Prop
  | refl (v : Value) : Same py v v
  | trans {u v w : Value} : Same py u v → Same py v w → Same py u w
  | atom {a b : Atom} : py.eq (.leaf a) (.leaf b) = true → Same py (.leaf a) (.leaf b)
  | set {k : Kind} {vs ws : List Value} :
      k.isSet = true → vs.Perm ws → Same py (.node k vs) (.node k ws)
  | dict {ks ls : List String} {vs ws : List Value} :
      ks.length = vs.length → ls.length = ws.length → (ks.zip vs).Perm (ls.zip ws) →
        Same py (.node (.dict ks) vs) (.node (.dict ls) ws)
  | child {k : Kind} {v w : Value} (l r : List Value) :
      Same py v w → Same py (.node k (l ++ v :: r)) (.node k (l ++ w :: r))

/-- `loads_typed(dumps_typed(v))` is `v` up to tuples outside set elements, and
    `None` only of `None`. -/
def JsonPlusSerializer.RoundTrips (py : Python) (s : JsonPlusSerializer) (v : Value) : Prop :=
  ∃ w, (s.dumpsTyped v >>= s.loadsTyped py) = .ok w ∧ Same py w.listed v.listed ∧
    (w = Value.none → v = Value.none)

@[simp] theorem Value.listed_node (k : Kind) (vs : List Value) :
    Value.listed (.node k vs) =
      if k.isSet then .node k vs else .node k.listed (vs.map Value.listed) := by
  simp only [Value.listed, para_node]

@[simp] theorem Value.listed_leaf (a : Atom) : Value.listed (.leaf a) = .leaf a := by
  simp only [Value.listed, para_leaf]

@[simp] theorem Value.tupleInSet_node (k : Kind) (vs : List Value) :
    Value.tupleInSet (.node k vs) =
      if k.isSet then vs.any Value.hasTuple else vs.any Value.tupleInSet := by
  simp only [Value.tupleInSet, para_node, List.any_map]
  rfl

@[simp] theorem Value.tupleInSet_leaf (a : Atom) : Value.tupleInSet (.leaf a) = false := by
  simp only [Value.tupleInSet, para_leaf]

@[simp] theorem Value.hasTuple_node (k : Kind) (vs : List Value) :
    Value.hasTuple (.node k vs) = (k == .tuple || vs.any Value.hasTuple) := by
  simp only [Value.hasTuple, anyNode_node]
  rfl

@[simp] theorem Value.hasTuple_leaf (a : Atom) : Value.hasTuple (.leaf a) = false := by
  simp only [Value.hasTuple, anyNode_leaf]

/- ── Tuples ────────────────────────────────────────────────────────────────── -/

theorem Value.tupleInSet_of_hasTuple {v : Value} :
    v.tupleInSet = true → v.hasTuple = true := by
  induction v using Value.ind with
  | leaf a => simp only [tupleInSet_leaf, Bool.false_eq_true, false_imp_iff]
  | node k vs ih =>
    intro h
    rw [tupleInSet_node] at h
    rw [hasTuple_node, Bool.or_eq_true]
    right
    by_cases hk : k.isSet
    · simpa only [hk, if_true] using h
    · rw [if_neg hk] at h
      obtain ⟨v, hv, hs⟩ := List.any_eq_true.mp h
      exact List.any_eq_true.mpr ⟨v, hv, ih v hv hs⟩

/-- Without a tuple there is nothing to turn into a list. -/
theorem Value.listed_of_hasTuple {v : Value} : v.hasTuple = false → v.listed = v := by
  induction v using Value.ind with
  | leaf a => exact fun _ => listed_leaf a
  | node k vs ih =>
    intro h
    rw [hasTuple_node, Bool.or_eq_false_iff] at h
    rw [listed_node]
    by_cases hk : k.isSet
    · rw [if_pos hk]
    · have hvs : vs.map listed = vs := by
        calc vs.map listed = vs.map id := List.map_congr_left fun v hv =>
              ih v hv (Bool.eq_false_iff.mpr (List.any_eq_false.mp h.2 v hv))
          _ = vs := List.map_id vs
      have hl : k.listed = k := by
        cases k <;> first | rfl | exact absurd h.1 (by decide)
      rw [if_neg hk, hvs, hl]

theorem Kind.listed_ne_tuple (k : Kind) : (k.listed == .tuple) = false := by
  cases k <;> rfl

/-- The tuples that stay are those inside sets. -/
theorem Value.hasTuple_listed {v : Value} : v.listed.hasTuple = v.tupleInSet := by
  induction v using Value.ind with
  | leaf a => simp only [listed_leaf, hasTuple_leaf, tupleInSet_leaf]
  | node k vs ih =>
    rw [listed_node, tupleInSet_node]
    by_cases hk : k.isSet
    · have ht : (k == .tuple) = false := by
        cases k <;> first | rfl | exact absurd hk (by decide)
      rw [if_pos hk, if_pos hk, hasTuple_node, ht, Bool.false_or]
    · rw [if_neg hk, if_neg hk, hasTuple_node, Kind.listed_ne_tuple, Bool.false_or,
        List.any_map]
      apply Bool.eq_iff_iff.mpr
      simp only [List.any_eq_true, Function.comp_apply]
      apply exists_congr
      intro v
      apply and_congr_right
      intro hv
      rw [ih v hv]

/-- Equal values agree on whether they have a tuple. -/
theorem Same.hasTuple {py : Python} {v w : Value} (h : Same py v w) :
    v.hasTuple = w.hasTuple := by
  induction h with
  | refl v => rfl
  | trans _ _ ihu ihv => exact ihu.trans ihv
  | atom _ => simp only [Value.hasTuple_leaf]
  | set _ hp =>
    rw [Value.hasTuple_node, Value.hasTuple_node, hp.any_eq]
  | @dict ks ls vs ws hk hl hp =>
    have hvs : ((ks.zip vs).map Prod.snd).Perm ((ls.zip ws).map Prod.snd) := hp.map _
    rw [List.map_snd_zip (Nat.le_of_eq hk.symm), List.map_snd_zip (Nat.le_of_eq hl.symm)] at hvs
    rw [Value.hasTuple_node, Value.hasTuple_node, hvs.any_eq]
    rfl
  | child l r _ ih =>
    simp only [Value.hasTuple_node, List.any_append, List.any_cons, ih]

/- ── The document of a value ───────────────────────────────────────────────── -/

/-- The document written for a value whose ints fit. -/
def document : Value → Packed :=
  para .atom fun k _ ms => packNode k ms

@[simp] theorem document_leaf (a : Atom) : document (.leaf a) = .atom a := by
  simp only [document, para_leaf]

@[simp] theorem document_node (k : Kind) (vs : List Value) :
    document (.node k vs) = packNode k (vs.map document) := by
  simp only [document, para_node]

theorem msgpackEncAll_eq {vs : List Value}
    (h : ∀ v ∈ vs, msgpackEnc v = if v.fits then .ok (document v) else .error .msgpackEncode) :
    msgpackEncAll vs =
      if vs.all Value.fits then .ok (vs.map document) else .error .msgpackEncode := by
  induction vs with
  | nil => rfl
  | cons v vs ih =>
    have hv := h v List.mem_cons_self
    have hvs := ih fun w hw => h w (List.mem_cons_of_mem v hw)
    rw [msgpackEncAll, hv, hvs, List.all_cons]
    by_cases hf : v.fits
    · by_cases hfs : vs.all Value.fits
      · simp [hf, hfs, bind, Except.bind]
      · simp [hf, hfs, bind, Except.bind]
    · simp [hf, bind, Except.bind]

/-- `_msgpack_enc` writes the document, or fails on an int that does not fit. -/
theorem msgpackEnc_eq (v : Value) :
    msgpackEnc v = if v.fits then .ok (document v) else .error .msgpackEncode := by
  induction v using Value.ind with
  | leaf a => simp only [msgpackEnc, packAtom, Value.fits, allLeaves_leaf, document_leaf]
  | node k vs ih =>
    have hall := msgpackEncAll_eq ih
    have hf : Value.fits (.node k vs) = vs.all Value.fits := by
      simp only [Value.fits, allLeaves_node]
      rfl
    rw [msgpackEnc, hall, hf, document_node]
    by_cases h : vs.all Value.fits
    · rw [if_pos h, if_pos h]; rfl
    · rw [if_neg h, if_neg h]; rfl

/- ── Reading a document ────────────────────────────────────────────────────── -/

section

variable (py : Python) (allowed : AllowedModules)

theorem unpackAll_eq_map : ∀ ms, unpackAll py allowed ms = ms.map (unpackb py allowed)
  | [] => by simp only [unpackAll, List.map_nil]
  | m :: ms => by simp only [unpackAll, List.map_cons, unpackAll_eq_map ms]

/-- What a document reads back as. -/
def readBack (v : Value) : Value := unpackb py allowed (document v)

@[simp] theorem readBack_leaf (a : Atom) : readBack py allowed (.leaf a) = .leaf a := by
  simp only [readBack, document_leaf, unpackb]

theorem unpackAll_document (vs : List Value) :
    unpackAll py allowed (vs.map document) = vs.map (readBack py allowed) := by
  rw [unpackAll_eq_map, List.map_map]
  rfl

/-- The constructors of the three container classes are always allowed. -/
theorem unpackb_constructorExt {module name : String} (ms : List Packed)
    (hs : (module, name) ∈ safeMsgpackTypes) :
    unpackb py allowed (constructorExt module name ms) =
      (construct py module name (.node .list (unpackAll py allowed ms))).getD Value.none := by
  have hc : checkAllowed allowed module name = true := by
    simp only [checkAllowed, List.contains_iff_mem.mpr hs, Bool.true_or]
  simp only [constructorExt, unpackb, unpackAll, extHook, hc, if_true]

theorem readBack_list (k : Kind) (hk : k = .list ∨ k = .tuple) (vs : List Value) :
    readBack py allowed (.node k vs) = .node .list (vs.map (readBack py allowed)) := by
  have hd : document (.node k vs) = .array (vs.map document) := by
    rw [document_node]
    cases hk with
    | inl h => rw [h]; rfl
    | inr h => rw [h]; rfl
  rw [readBack, hd, unpackb, unpackAll_document]

theorem readBack_dict (keys : List String) (vs : List Value) :
    readBack py allowed (.node (.dict keys) vs) = dictOf keys (vs.map (readBack py allowed)) := by
  rw [readBack, document_node, packNode, unpackb, unpackAll_document]

theorem readBack_deque (vs : List Value) :
    readBack py allowed (.node .deque vs) = .node .deque (vs.map (readBack py allowed)) := by
  rw [readBack, document_node, packNode,
    unpackb_constructorExt py allowed _ (by simp [safeMsgpackTypes]), unpackAll_document]
  rfl

/-- A set is built of the elements read back, and is `None` when one of them is
    unhashable. -/
theorem readBack_set {k : Kind} (hk : k.isSet = true) (vs : List Value) :
    readBack py allowed (.node k vs) =
      (hashed py k (vs.map (readBack py allowed))).getD Value.none := by
  cases k with
  | set =>
    rw [readBack, document_node, packNode,
      unpackb_constructorExt py allowed _ (by simp [safeMsgpackTypes]), unpackAll_document]
    rfl
  | frozenset =>
    rw [readBack, document_node, packNode,
      unpackb_constructorExt py allowed _ (by simp [safeMsgpackTypes]), unpackAll_document]
    rfl
  | _ => exact absurd hk (by simp [Kind.isSet])

end

/-- Elements pairwise different are all kept. -/
theorem distinct_eq_self {eq : Value → Value → Bool} {vs : List Value}
    (h : vs.Pairwise fun v w => eq v w = false) : distinct eq vs = vs := by
  induction vs with
  | nil => rfl
  | cons v vs ih =>
    have hc := List.pairwise_cons.mp h
    rw [distinct, ih hc.2]
    congr 1
    apply List.filter_eq_self.mpr
    intro w hw
    rw [hc.1 w hw]
    rfl

theorem mem_of_mem_distinct {eq : Value → Value → Bool} {w : Value} :
    ∀ {vs : List Value}, w ∈ distinct eq vs → w ∈ vs
  | v :: vs, h => by
    rw [distinct] at h
    cases List.mem_cons.mp h with
    | inl e => exact e ▸ List.mem_cons_self
    | inr h =>
      exact List.mem_cons_of_mem v (mem_of_mem_distinct (List.mem_filter.mp h).1)

/-- Distinct keys give the dict of the pairs as they stand. -/
theorem dictOf_of_nodup {keys : List String} {vs : List Value} (hl : keys.length = vs.length)
    (hn : keys.Nodup) : dictOf keys vs = .node (.dict keys) vs := by
  have hk : (keys.zip vs).map Prod.fst = keys := List.map_fst_zip (Nat.le_of_eq hl)
  have hv : (keys.zip vs).map Prod.snd = vs := List.map_snd_zip (Nat.le_of_eq hl.symm)
  have he : (OrdDict.ofList (keys.zip vs)).entries = keys.zip vs :=
    OrdDict.entries_ofList_of_nodup (hk.symm ▸ hn)
  rw [dictOf, OrdDict.keys, OrdDict.values, he, hk, hv]

/-- Without a tuple in a set, a value reads back as the value with lists for
    tuples. -/
theorem readBack_of_tupleInSet {py : Python} (allowed : AllowedModules) {v : Value} :
    v.WellFormed py → v.tupleInSet = false → readBack py allowed v = v.listed := by
  induction v using Value.ind with
  | leaf a => exact fun _ _ => readBack_leaf py allowed a
  | node k vs ih =>
    intro hw ht
    obtain ⟨hk, hvs⟩ := Value.wellFormed_node.mp hw
    rw [Value.tupleInSet_node] at ht
    by_cases hs : k.isSet
    · -- the elements have no tuple, so each reads back as it is
      rw [if_pos hs] at ht
      have hme : ∀ v ∈ vs, readBack py allowed v = v := by
        intro v hv
        have hno : v.hasTuple = false := Bool.eq_false_iff.mpr (List.any_eq_false.mp ht v hv)
        have hin : v.tupleInSet = false := by
          apply Bool.eq_false_iff.mpr
          intro h
          rw [Value.tupleInSet_of_hasTuple h] at hno
          cases hno
        rw [ih v hv (hvs v hv) hin, Value.listed_of_hasTuple hno]
      have hmap : vs.map (readBack py allowed) = vs := by
        calc vs.map (readBack py allowed) = vs.map id := List.map_congr_left hme
          _ = vs := List.map_id vs
      have hhold : (∀ v ∈ vs, v.hashable = true) ∧
          vs.Pairwise fun v w => py.eq v w = false := by
        cases k with
        | set => exact hk
        | frozenset => exact hk
        | _ => exact absurd hs (by simp [Kind.isSet])
      rw [readBack_set py allowed hs, hmap, hashed, if_pos (List.all_eq_true.mpr hhold.1),
        distinct_eq_self hhold.2, Value.listed_node, if_pos hs]
      rfl
    · rw [if_neg hs] at ht
      have hmap : vs.map (readBack py allowed) = vs.map Value.listed := by
        apply List.map_congr_left
        intro v hv
        exact ih v hv (hvs v hv) (Bool.eq_false_iff.mpr (List.any_eq_false.mp ht v hv))
      rw [Value.listed_node, if_neg hs, ← hmap]
      cases k with
      | list => exact readBack_list py allowed _ (.inl rfl) vs
      | tuple => exact readBack_list py allowed _ (.inr rfl) vs
      | deque => exact readBack_deque py allowed vs
      | dict keys =>
        rw [readBack_dict, dictOf_of_nodup (hk.1.trans (List.length_map _).symm) hk.2]
        rfl
      | set => exact absurd rfl hs
      | frozenset => exact absurd rfl hs

/-- Whatever went in, no tuple comes back. -/
theorem readBack_hasTuple {py : Python} (allowed : AllowedModules) {v : Value} :
    v.WellFormed py → (readBack py allowed v).hasTuple = false := by
  induction v using Value.ind with
  | leaf a =>
    intro _
    rw [readBack_leaf, Value.hasTuple_leaf]
  | node k vs ih =>
    intro hw
    obtain ⟨hk, hvs⟩ := Value.wellFormed_node.mp hw
    have hme : ∀ w ∈ vs.map (readBack py allowed), ¬ w.hasTuple = true := by
      intro w h
      obtain ⟨v, hv, e⟩ := List.mem_map.mp h
      rw [← e, ih v hv (hvs v hv)]
      exact Bool.false_ne_true
    have hany : (vs.map (readBack py allowed)).any Value.hasTuple = false :=
      List.any_eq_false.mpr hme
    by_cases hs : k.isSet
    · rw [readBack_set py allowed hs, hashed]
      have ht : (k == .tuple) = false := by
        cases k <;> first | rfl | exact absurd hs (by decide)
      split
      · show Value.hasTuple (.node k _) = false
        rw [Value.hasTuple_node, ht, Bool.false_or]
        exact List.any_eq_false.mpr fun w h => hme w (mem_of_mem_distinct h)
      · rfl
    · cases k with
      | list =>
        rw [readBack_list py allowed _ (.inl rfl), Value.hasTuple_node, hany]
        rfl
      | tuple =>
        rw [readBack_list py allowed _ (.inr rfl), Value.hasTuple_node, hany]
        rfl
      | deque =>
        rw [readBack_deque, Value.hasTuple_node, hany]
        rfl
      | dict keys =>
        rw [readBack_dict, dictOf_of_nodup (hk.1.trans (List.length_map _).symm) hk.2,
          Value.hasTuple_node, hany]
        rfl
      | set => exact absurd rfl hs
      | frozenset => exact absurd rfl hs

/- ── The round trip ────────────────────────────────────────────────────────── -/

theorem JsonPlusSerializer.dumpsTyped_loadsTyped (py : Python) (s : JsonPlusSerializer)
    (v : Value) :
    (s.dumpsTyped v >>= s.loadsTyped py) =
      if v.fits then .ok (readBack py s.allowedMsgpackModules v)
      else if s.pickleFallback then .ok v else .error .msgpackEncode := by
  have hgen : (v.fits → s.dumpsTyped v = .ok (.msgpack (document v))) →
      (¬v.fits → s.dumpsTyped v =
        if s.pickleFallback then .ok (.pickle v) else .error .msgpackEncode) →
      (s.dumpsTyped v >>= s.loadsTyped py) =
        if v.fits then .ok (readBack py s.allowedMsgpackModules v)
        else if s.pickleFallback then .ok v else .error .msgpackEncode := by
    intro hfits hnot
    by_cases hf : v.fits
    · rw [if_pos hf, hfits hf]
      rfl
    · rw [if_neg hf, hnot hf]
      by_cases hp : s.pickleFallback
      · simp only [hp, if_true, bind, Except.bind, loadsTyped]
      · simp only [hp, bind, Except.bind]
        rfl
  -- `None` and bytes are written under tags of their own
  cases v with
  | leaf a =>
    cases a with
    | none => rfl
    | bytes bs => rfl
    | _ =>
      apply hgen
      · intro hf
        simp only [dumpsTyped, msgpackEnc_eq, if_pos hf]
      · intro hf
        simp only [dumpsTyped, msgpackEnc_eq, if_neg hf]
  | node k vs =>
    apply hgen
    · intro hf
      simp only [dumpsTyped, msgpackEnc_eq, if_pos hf]
    · intro hf
      simp only [dumpsTyped, msgpackEnc_eq, if_neg hf]

theorem Value.eq_none_of_listed {v : Value} (h : v.listed = Value.none) : v = Value.none := by
  cases v with
  | leaf a => rwa [listed_leaf] at h
  | node k vs =>
    rw [listed_node] at h
    split at h <;> cases h

open Classical in
/-- An interpreter whose values are equal when they are the same, with no other
    class to import. -/
noncomputable def structural : Python where
  eq v w := decide (v = w)
  call _ _ _ := none
  otherExt _ _ := Value.none

end LangGraph.Serde
