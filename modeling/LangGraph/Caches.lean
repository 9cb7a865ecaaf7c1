import Mathlib
import LangGraph.Lib.ExpiringMap
import LangGraph.Lib.JoinedText
import LangGraph.Lib.Machine
import LangGraph.Lib.OrdDict

/- The caches of task writes: `InMemoryCache` and `SqliteCache`.

   Correspondence (source ↔ Lean):
     `Namespace`, `FullKey`                         ↔ `Namespace`, `FullKey`
     `",".join(ns)`, `tuple(ns.split(","))`         ↔ `nsText`, `nsOfText`
     `serde.dumps_typed`, `serde.loads_typed`       ↔ `Serde`, which round-trips
     `datetime.now(utc)`, `.timestamp()`            ↔ microseconds since the epoch, `Timestamps`
     `(now + timedelta(seconds=ttl)).timestamp()`   ↔ `expiryOf`; `none` is an `OverflowError`
     `InMemoryCache._cache` and its methods         ↔ `InMemoryCache`
     the table `cache` and `SqliteCache`'s methods  ↔ `SqliteCache`
   `set` of SqliteCache runs in one transaction, which an exception rolls back.
   `Caches` runs both on the same calls; `held`, `used` and `clock` are no data of
   the source: what has been set and not cleared, the namespaces that `set` and
   `clear` have named, and the last reading of the clock. `caches_agree`: in which
   runs every `get` of both returns what is held. -/
namespace LangGraph.Cache
open ExpiringMap

abbrev Namespace := List String

abbrev FullKey := Namespace × String

def nsText (ns : Namespace) : String := JoinedText.join ',' ns

def nsOfText (text : String) : Namespace := JoinedText.split ',' text

structure Serde (V B : Type) where
  dumps : V → B
  loads : B → V
  loads_dumps : ∀ v, loads (dumps v) = v

structure Timestamps (T : Type) [LinearOrder T] where
  timestamp : Int → T
  mono : Monotone timestamp

inductive CacheCall (V : Type) where
  | get (keys : List FullKey)
  | set (pairs : OrdDict FullKey (V × Option Int))
  | clear (namespaces : Option (List Namespace))

/-- The first and the last instant of a `datetime`. -/
def datetimeMin : Int := -62135596800000000

def datetimeMax : Int := 253402300799999999

variable {V B T : Type} [LinearOrder T] (serde : Serde V B) (ts : Timestamps T)

def expiryOf (now : Int) : Option Int → Option (Option T)
  | none => some none
  | some ttl =>
    let expiry := now + ttl * 1000000
    if datetimeMin ≤ expiry ∧ expiry ≤ datetimeMax then some (some (ts.timestamp expiry)) else none

/-! ## InMemoryCache -/

abbrev InMemoryCache (B T : Type) := OrdDict Namespace (OrdDict String (B × Option T))

namespace InMemoryCache

def entry (c : InMemoryCache B T) (x : FullKey) : Option (B × Option T) :=
  (OrdDict.get? c x.1).bind fun keys => keys.get? x.2

def assign (c : InMemoryCache B T) (x : FullKey) (e : B × Option T) : InMemoryCache B T :=
  OrdDict.set c x.1 ((OrdDict.getD c x.1 ∅).set x.2 e)

def remove (c : InMemoryCache B T) (x : FullKey) : InMemoryCache B T :=
  OrdDict.set c x.1 ((OrdDict.getD c x.1 ∅).erase x.2)

/-- One round of the loop of `get`. -/
def getOne (now : T) (st : InMemoryCache B T × OrdDict FullKey V) (x : FullKey) :
    InMemoryCache B T × OrdDict FullKey V :=
  match st.1.entry x with
  | none => st
  | some (val, expiry) =>
    if expiry.all fun t => now < t then (st.1, st.2.set x (serde.loads val)) else (st.1.remove x, st.2)

def get (c : InMemoryCache B T) (now : T) (keys : List FullKey) :
    InMemoryCache B T × OrdDict FullKey V :=
  keys.foldl (getOne serde now) (c, ∅)

/-- The loop of `set`, and whether it raises. -/
def set (now : Int) : List (FullKey × (V × Option Int)) → InMemoryCache B T → InMemoryCache B T × Bool
  | [], c => (c, false)
  | (x, (value, ttl)) :: rest, c =>
    match expiryOf ts now ttl with
    | none => (c, true)
    | some expiry => set now rest (c.assign x (serde.dumps value, expiry))

def clear (c : InMemoryCache B T) : Option (List Namespace) → InMemoryCache B T
  | none => ∅
  | some namespaces => namespaces.foldl (fun c ns => OrdDict.erase c ns) c

end InMemoryCache

/-! ## SqliteCache -/

/-- The table, by its primary key: namespace text and key, to value and expiry. -/
abbrev SqliteCache (B T : Type) := OrdDict (String × String) (B × Option T)

namespace SqliteCache

/-- One round of the loop over the rows of `get`. -/
def getRow (now : T) (st : SqliteCache B T × OrdDict FullKey V)
    (row : (String × String) × (B × Option T)) : SqliteCache B T × OrdDict FullKey V :=
  if row.2.2.any fun t => t < now then (OrdDict.erase st.1 row.1, st.2)
  else (st.1, st.2.set (nsOfText row.1.1, row.1.2) (serde.loads row.2.1))

def selected (c : SqliteCache B T) (keys : List FullKey) : List ((String × String) × (B × Option T)) :=
  c.entries.filter fun row => row.1 ∈ keys.map fun x => (nsText x.1, x.2)

def get (c : SqliteCache B T) (now : T) (keys : List FullKey) :
    SqliteCache B T × OrdDict FullKey V :=
  (c.selected keys).foldl (getRow serde now) (c, ∅)

/-- The rows after the loop of `set`, unless it raises. -/
def insertRows (now : Int) :
    List (FullKey × (V × Option Int)) → SqliteCache B T → Option (SqliteCache B T)
  | [], c => some c
  | (x, (value, ttl)) :: rest, c =>
    (expiryOf ts now ttl).bind fun expiry =>
      insertRows now rest (OrdDict.set c (nsText x.1, x.2) (serde.dumps value, expiry))

def set (now : Int) (pairs : List (FullKey × (V × Option Int))) (c : SqliteCache B T) :
    SqliteCache B T × Bool :=
  match insertRows serde ts now pairs c with
  | none => (c, true)
  | some c => (c, false)

def clear (c : SqliteCache B T) : Option (List Namespace) → SqliteCache B T
  | none => ∅
  | some namespaces =>
    OrdDict.filterMap c fun y row => if y.1 ∈ namespaces.map nsText then none else some row

end SqliteCache

/-! ## Both caches on the same calls -/

structure Caches (V B T : Type) where
  memory : InMemoryCache B T
  sqlite : SqliteCache B T
  held : FullKey → Option (V × Option T)
  used : List Namespace
  clock : Option Int

/-- What is held after the loop of `set`, up to an exception. -/
def setHeld (now : Int) : List (FullKey × (V × Option Int)) → (FullKey → Option (V × Option T)) →
    FullKey → Option (V × Option T)
  | [], held => held
  | (x, (value, ttl)) :: rest, held =>
    match expiryOf ts now ttl with
    | none => held
    | some expiry => setHeld now rest fun y => if y = x then some (value, expiry) else held y

namespace Caches

def init : Caches V B T := ⟨∅, ∅, fun _ => none, [], none⟩

def step (s : Caches V B T) (e : Int × CacheCall V) : Caches V B T :=
  match e.2 with
  | .get keys =>
    { s with
      memory := (s.memory.get serde (ts.timestamp e.1) keys).1
      sqlite := (s.sqlite.get serde (ts.timestamp e.1) keys).1
      clock := some e.1 }
  | .set pairs =>
    { memory := (InMemoryCache.set serde ts e.1 pairs.entries s.memory).1
      sqlite := (SqliteCache.set serde ts e.1 pairs.entries s.sqlite).1
      held := setHeld ts e.1 pairs.entries s.held
      used := s.used ++ pairs.keys.map Prod.fst
      clock := some e.1 }
  | .clear namespaces =>
    { memory := s.memory.clear namespaces
      sqlite := s.sqlite.clear namespaces
      held := fun x => if namespaces.all fun nss => x.1 ∈ nss then none else s.held x
      used := s.used ++ namespaces.getD []
      clock := some e.1 }

/-- What is held of the requested keys and has not expired. -/
def answer (s : Caches V B T) (now : Int) (keys : List FullKey) (x : FullKey) : Option V :=
  if x ∈ keys then unexpired (fun now t => t ≤ now) (ts.timestamp now) (s.held x) else none

/-- Both caches return the held values of the requested keys that have not expired. -/
def ReturnsHeld (s : Caches V B T) (now : Int) (keys : List FullKey) : Prop :=
  ∀ x, (s.memory.get serde (ts.timestamp now) keys).2.get? x = s.answer ts now keys x ∧
    (s.sqlite.get serde (ts.timestamp now) keys).2.get? x = s.answer ts now keys x

end Caches

/-! ## What the caches keep of what is held -/

section Kept
variable {serde ts}

/-- The test of InMemoryCache, and the one of SqliteCache. -/
abbrev GoneMemory (now t : T) : Prop := t ≤ now

abbrev GoneSqlite (now t : T) : Prop := t < now

/-- A held entry as it is stored. -/
def stored (serde : Serde V B) (held : Option (V × Option T)) : Option (B × Option T) :=
  held.map fun e => (serde.dumps e.1, e.2)

omit [LinearOrder T] in
theorem loads_unexpired_stored {gone : T → T → Prop} [∀ now t, Decidable (gone now t)] (now : T)
    (held : Option (V × Option T)) :
    (unexpired gone now (stored serde held)).map serde.loads = unexpired gone now held := by
  match held with
  | none => rfl
  | some (v, expiry) =>
    simp only [stored, Option.map_some, unexpired]
    split
    · rfl
    · rw [Option.map_some, serde.loads_dumps]

theorem all_lt_iff {now : T} {expiry : Option T} :
    (expiry.all fun t => now < t) = true ↔ ¬Gone GoneMemory now expiry := by
  cases expiry <;> simp [Gone]

theorem any_lt_iff {now : T} {expiry : Option T} :
    (expiry.any fun t => t < now) = true ↔ Gone GoneSqlite now expiry := by
  cases expiry <;> simp [Gone]

namespace InMemoryCache

omit [LinearOrder T] in
theorem entry_assign (c : InMemoryCache B T) (x y : FullKey) (e : B × Option T) :
    (c.assign x e).entry y = if y = x then some e else c.entry y := by
  rw [entry, assign, OrdDict.get?_set]
  by_cases hns : y.1 = x.1
  · rw [if_pos hns, Option.bind_some, OrdDict.get?_set]
    by_cases hkey : y.2 = x.2
    · rw [if_pos hkey, if_pos (Prod.ext hns hkey)]
    · rw [if_neg hkey, if_neg fun h => hkey (congrArg Prod.snd h), entry, hns, OrdDict.getD]
      cases OrdDict.get? c x.1 <;> rfl
  · rw [if_neg hns, if_neg fun h => hns (congrArg Prod.fst h), entry]

omit [LinearOrder T] in
theorem entry_remove (c : InMemoryCache B T) (x y : FullKey) :
    (c.remove x).entry y = if y = x then none else c.entry y := by
  rw [entry, remove, OrdDict.get?_set]
  by_cases hns : y.1 = x.1
  · rw [if_pos hns, Option.bind_some, OrdDict.get?_erase]
    by_cases hkey : y.2 = x.2
    · rw [if_pos hkey, if_pos (Prod.ext hns hkey)]
    · rw [if_neg hkey, if_neg fun h => hkey (congrArg Prod.snd h), entry, hns, OrdDict.getD]
      cases OrdDict.get? c x.1 <;> rfl
  · rw [if_neg hns, if_neg fun h => hns (congrArg Prod.fst h), entry]

omit [LinearOrder T] in
theorem entry_clear (c : InMemoryCache B T) (namespaces : Option (List Namespace)) (x : FullKey) :
    (c.clear namespaces).entry x =
      if namespaces.all fun nss => x.1 ∈ nss then none else c.entry x := by
  match namespaces with
  | none => rfl
  | some nss =>
    show entry (nss.foldl (fun c ns => OrdDict.erase c ns) c) x = if decide (x.1 ∈ nss) then none else _
    induction nss generalizing c with
    | nil => rfl
    | cons ns nss ih =>
      rw [List.foldl_cons, ih]
      by_cases hrest : x.1 ∈ nss
      · simp [hrest]
      · by_cases hns : x.1 = ns
        · simp [entry, OrdDict.get?_erase, hns]
        · simp [entry, OrdDict.get?_erase, hns, hrest]

/-- A `get` drops expired entries only, and returns what is held and has not expired. -/
theorem get_spec {held : FullKey → Option (V × Option T)} {now : T} :
    ∀ (keys : List FullKey) (c : InMemoryCache B T) (values : OrdDict FullKey V),
      (∀ x, Keeps GoneMemory now (stored serde (held x)) (c.entry x)) →
      (∀ x v, values.get? x = some v → unexpired GoneMemory now (held x) = some v) →
      (∀ x, Keeps GoneMemory now (stored serde (held x))
        ((keys.foldl (getOne serde now) (c, values)).1.entry x)) ∧
      ∀ x, (keys.foldl (getOne serde now) (c, values)).2.get? x =
        if x ∈ keys then unexpired GoneMemory now (held x) else values.get? x
  | [], c, values, hc, _ => ⟨hc, fun x => by simp⟩
  | k :: keys, c, values, hc, hv => by
    -- what the round for `k` leaves
    have hround : (∀ x, Keeps GoneMemory now (stored serde (held x))
          ((getOne serde now (c, values) k).1.entry x)) ∧
        ∀ x, (getOne serde now (c, values) k).2.get? x =
          if x = k then unexpired GoneMemory now (held x) else values.get? x := by
      have hread : ((unexpired GoneMemory now (c.entry k)).map serde.loads) = unexpired GoneMemory now (held k) := by
        rw [(hc k).unexpired_eq, loads_unexpired_stored]
      have hkept : unexpired GoneMemory now (held k) = none →
          ∀ x, values.get? x = if x = k then unexpired GoneMemory now (held x) else values.get? x := by
        intro hnone x
        split
        · next hx =>
          subst hx
          cases hval : values.get? x with
          | none => exact hnone.symm
          | some v => exact (hv x v hval).symm
        · rfl
      cases hentry : c.entry k with
      | none =>
        rw [hentry] at hread
        simp only [getOne, hentry]
        exact ⟨hc, hkept hread.symm⟩
      | some e =>
        obtain ⟨val, expiry⟩ := e
        rw [hentry] at hread
        simp only [getOne, hentry]
        by_cases hgone : Gone GoneMemory now expiry
        · rw [if_neg fun h => all_lt_iff.mp h hgone]
          rw [unexpired, if_pos hgone] at hread
          refine ⟨fun x => ?_, hkept hread.symm⟩
          show Keeps GoneMemory now _ ((c.remove k).entry x)
          rw [entry_remove]
          split
          · next hx =>
            subst hx
            exact (hentry ▸ hc x).purge hgone
          · exact hc x
        · rw [if_pos (all_lt_iff.mpr hgone)]
          rw [unexpired, if_neg hgone] at hread
          refine ⟨hc, fun x => ?_⟩
          show (values.set k (serde.loads val)).get? x = _
          rw [OrdDict.get?_set]
          split
          · next hx => rw [hx, ← hread, Option.map_some]
          · rfl
    have hv' : ∀ x v, (getOne serde now (c, values) k).2.get? x = some v →
        unexpired GoneMemory now (held x) = some v := by
      intro x v h
      rw [hround.2] at h
      split at h
      · exact h
      · exact hv x v h
    obtain ⟨hkeeps, hget⟩ := get_spec keys _ _ hround.1 hv'
    refine ⟨hkeeps, fun x => ?_⟩
    rw [List.foldl_cons, hget, hround.2]
    by_cases hx : x = k
    · simp [hx]
    · simp [hx]

theorem set_spec {last : T} {now : Int} : ∀ {pairs : List (FullKey × (V × Option Int))}
    {c : InMemoryCache B T} {held : FullKey → Option (V × Option T)},
    (∀ x, Keeps GoneMemory last (stored serde (held x)) (c.entry x)) →
      ∀ x, Keeps GoneMemory last (stored serde (setHeld ts now pairs held x))
        ((set serde ts now pairs c).1.entry x)
  | [], _, _, h, x => h x
  | (k, (v, ttl)) :: rest, c, held, h, x => by
    unfold set setHeld
    cases expiryOf ts now ttl with
    | none => exact h x
    | some expiry =>
      refine set_spec (fun y => ?_) x
      rw [entry_assign]
      split
      · exact Keeps.refl _ _ _
      · exact h y

end InMemoryCache

/-! ## What SqliteCache keeps -/

/-- No other namespace in use has the same text. -/
def Alone (used : List Namespace) (ns : Namespace) : Prop :=
  ∀ ns' ∈ used, nsText ns' = nsText ns → ns' = ns

instance (used : List Namespace) (ns : Namespace) : Decidable (Alone used ns) :=
  inferInstanceAs (Decidable (∀ ns' ∈ used, _))

theorem Alone.of_append {used more : List Namespace} {ns : Namespace} (h : Alone (used ++ more) ns) :
    Alone used ns := fun ns' hns' => h ns' (List.mem_append_left more hns')

/-- If a pair of a `set` raises, the first one does. -/
def Atomic (ts : Timestamps T) (now : Int) (pairs : List (FullKey × (V × Option Int))) : Prop :=
  (∃ p ∈ pairs, expiryOf ts now p.2.2 = none) → ∃ p ∈ pairs.head?, expiryOf ts now p.2.2 = none

instance [DecidableEq T] (ts : Timestamps T) (now : Int) (pairs : List (FullKey × (V × Option Int))) :
    Decidable (Atomic ts now pairs) :=
  inferInstanceAs (Decidable ((∃ p ∈ pairs, expiryOf ts now p.2.2 = none) →
    ∃ p ∈ pairs.head?, expiryOf ts now p.2.2 = none))

namespace SqliteCache

omit [LinearOrder T] in
theorem get?_clear (c : SqliteCache B T) (namespaces : Option (List Namespace)) (y : String × String) :
    OrdDict.get? (c.clear namespaces) y =
      if namespaces.all fun nss => y.1 ∈ nss.map nsText then none else OrdDict.get? c y := by
  match namespaces with
  | none => rfl
  | some nss =>
    show OrdDict.get? (OrdDict.filterMap c _) y = if decide (y.1 ∈ nss.map nsText) then none else _
    rw [OrdDict.get?_filterMap]
    by_cases hy : y.1 ∈ nss.map nsText
    · simp only [hy, if_true, decide_true]
      cases OrdDict.get? c y <;> rfl
    · simp only [hy, if_false, decide_false, Bool.false_eq_true]
      cases OrdDict.get? c y <;> rfl

theorem insertRows_isSome {now : Int} : ∀ {pairs : List (FullKey × (V × Option Int))}
    {c : SqliteCache B T}, (∀ p ∈ pairs, expiryOf ts now p.2.2 ≠ none) →
      ∃ c', insertRows serde ts now pairs c = some c'
  | [], c, _ => ⟨c, rfl⟩
  | (x, (v, ttl)) :: rest, c, h => by
    obtain ⟨expiry, hexpiry⟩ := Option.ne_none_iff_exists'.mp (h _ List.mem_cons_self)
    obtain ⟨c', hc'⟩ := insertRows_isSome (c := OrdDict.set c (nsText x.1, x.2) (serde.dumps v, expiry))
      fun p hp => h p (List.mem_cons_of_mem _ hp)
    refine ⟨c', ?_⟩
    rw [insertRows, hexpiry]
    exact hc'

/-- Where the namespace of `x` shares its text with no other of the pairs, the table keeps
    what is held of `x`. -/
theorem insertRows_spec {last : T} {now : Int} {x : FullKey} :
    ∀ {pairs : List (FullKey × (V × Option Int))} {c c' : SqliteCache B T}
      {held : FullKey → Option (V × Option T)}, insertRows serde ts now pairs c = some c' →
      (∀ p ∈ pairs, nsText p.1.1 = nsText x.1 → p.1.1 = x.1) →
      Keeps GoneSqlite last (stored serde (held x)) (OrdDict.get? c (nsText x.1, x.2)) →
      Keeps GoneSqlite last (stored serde (setHeld ts now pairs held x))
        (OrdDict.get? c' (nsText x.1, x.2))
  | [], c, c', held, h, _, hk => by
    obtain rfl := Option.some.inj h
    exact hk
  | (k, (v, ttl)) :: rest, c, c', held, h, halone, hk => by
    rw [insertRows] at h
    obtain ⟨expiry, hexpiry, hrest⟩ := Option.bind_eq_some_iff.mp h
    rw [setHeld, hexpiry]
    refine insertRows_spec hrest (fun p hp => halone p (List.mem_cons_of_mem _ hp)) ?_
    rw [OrdDict.get?_set]
    by_cases hkx : x = k
    · rw [if_pos hkx, if_pos (by rw [hkx])]
      exact Keeps.refl _ _ _
    · have hne : (nsText x.1, x.2) ≠ (nsText k.1, k.2) := by
        intro heq
        obtain ⟨htext, hkey⟩ := Prod.mk.inj heq
        exact hkx (Prod.ext (halone _ List.mem_cons_self htext.symm).symm hkey)
      rw [if_neg hkx, if_neg hne]
      exact hk

theorem insertRows_rows {now : Int} {y : String × String} {row : B × Option T} :
    ∀ {pairs : List (FullKey × (V × Option Int))} {c c' : SqliteCache B T},
      insertRows serde ts now pairs c = some c' → OrdDict.get? c' y = some row →
      OrdDict.get? c y = some row ∨ ∃ p ∈ pairs, nsText p.1.1 = y.1
  | [], c, c', h, hy => by
    obtain rfl := Option.some.inj h
    exact Or.inl hy
  | (k, (v, ttl)) :: rest, c, c', h, hy => by
    rw [insertRows] at h
    obtain ⟨expiry, -, hrest⟩ := Option.bind_eq_some_iff.mp h
    rcases insertRows_rows hrest hy with hy | ⟨p, hp, hpy⟩
    · rw [OrdDict.get?_set] at hy
      split at hy
      · next hyk => exact Or.inr ⟨_, List.mem_cons_self, (congrArg Prod.fst hyk).symm⟩
      · exact Or.inl hy
    · exact Or.inr ⟨p, List.mem_cons_of_mem _ hp, hpy⟩

theorem set_rows {now : Int} {pairs : List (FullKey × (V × Option Int))} {c : SqliteCache B T}
    {y : String × String} {row : B × Option T}
    (h : OrdDict.get? (set serde ts now pairs c).1 y = some row) :
    OrdDict.get? c y = some row ∨ ∃ p ∈ pairs, nsText p.1.1 = y.1 := by
  unfold set at h
  split at h
  · exact Or.inl h
  · next heq => exact insertRows_rows heq h

theorem set_spec {last : T} {now : Int} {pairs : List (FullKey × (V × Option Int))}
    {c : SqliteCache B T} {held : FullKey → Option (V × Option T)} {x : FullKey}
    (hatomic : Atomic ts now pairs) (halone : ∀ p ∈ pairs, nsText p.1.1 = nsText x.1 → p.1.1 = x.1)
    (hk : Keeps GoneSqlite last (stored serde (held x)) (OrdDict.get? c (nsText x.1, x.2))) :
    Keeps GoneSqlite last (stored serde (setHeld ts now pairs held x))
      (OrdDict.get? (set serde ts now pairs c).1 (nsText x.1, x.2)) := by
  by_cases hraise : ∃ p ∈ pairs, expiryOf ts now p.2.2 = none
  · -- nothing is held of a call that raises at its first pair
    obtain ⟨p, hp, hnone⟩ := hatomic hraise
    cases pairs with
    | nil => cases hp
    | cons q rest =>
      obtain rfl := Option.some.inj hp
      obtain ⟨k, v, ttl⟩ := q
      have hheld : setHeld ts now ((k, (v, ttl)) :: rest) held = held := by
        rw [setHeld, show expiryOf ts now ttl = none from hnone]
      have hset : (set serde ts now ((k, (v, ttl)) :: rest) c).1 = c := by
        rw [set, insertRows, show expiryOf ts now ttl = none from hnone]
        rfl
      rw [hheld, hset]
      exact hk
  · obtain ⟨c', hc'⟩ := insertRows_isSome (c := c)
      fun p hp hnone => hraise ⟨p, hp, hnone⟩
    have hset : (set serde ts now pairs c).1 = c' := by rw [set, hc']
    rw [hset]
    exact insertRows_spec hc' halone hk

/-- The table after the loop over the rows. -/
theorem getRows_table (serde : Serde V B) {now : T} {y : String × String} :
    ∀ (rows : List ((String × String) × (B × Option T))) (c : SqliteCache B T)
      (values : OrdDict FullKey V), OrdDict.get? (rows.foldl (getRow serde now) (c, values)).1 y =
        if ∃ row ∈ rows, row.1 = y ∧ Gone GoneSqlite now row.2.2 then none else OrdDict.get? c y
  | [], _, _ => by simp
  | row :: rows, c, values => by
    have hround : OrdDict.get? (getRow serde now (c, values) row).1 y =
        if row.1 = y ∧ Gone GoneSqlite now row.2.2 then none else OrdDict.get? c y := by
      by_cases hgone : Gone GoneSqlite now row.2.2
      · rw [getRow, if_pos (any_lt_iff.mpr hgone), OrdDict.get?_erase]
        by_cases hy : y = row.1
        · rw [if_pos hy, if_pos ⟨hy.symm, hgone⟩]
        · rw [if_neg hy, if_neg fun h => hy h.1.symm]
      · rw [getRow, if_neg fun h => hgone (any_lt_iff.mp h), if_neg fun h => hgone h.2]
    rw [List.foldl_cons, getRows_table serde rows, hround]
    simp only [List.exists_mem_cons_iff]
    by_cases hrest : ∃ row ∈ rows, row.1 = y ∧ Gone GoneSqlite now row.2.2
    · rw [if_pos hrest, if_pos (Or.inr hrest)]
    · rw [if_neg hrest]
      by_cases hrow : row.1 = y ∧ Gone GoneSqlite now row.2.2
      · rw [if_pos hrow, if_pos (Or.inl hrow)]
      · rw [if_neg hrow, if_neg fun h => h.elim hrow hrest]

/-- What the loop over the rows returns. -/
theorem getRows_values {now : T} {c : SqliteCache B T} {x : FullKey} {v : V}
    {rows : List ((String × String) × (B × Option T))} (hn : (rows.map Prod.fst).Nodup) :
    (rows.foldl (getRow serde now) (c, ∅)).2.get? x = some v ↔
      ∃ row ∈ rows, ¬Gone GoneSqlite now row.2.2 ∧ (nsOfText row.1.1, row.1.2) = x ∧
        serde.loads row.2.1 = v := by
  induction rows using List.reverseRecOn with
  | nil => simp
  | append_singleton rows row ih =>
    rw [List.map_append, List.nodup_append] at hn
    obtain ⟨hrows, -, hlast⟩ := hn
    have hne : ∀ row' ∈ rows, (nsOfText row'.1.1, row'.1.2) ≠ (nsOfText row.1.1, row.1.2) := by
      intro row' hrow' heq
      obtain ⟨htext, hkey⟩ := Prod.mk.inj heq
      exact hlast row'.1 (List.mem_map_of_mem hrow') row.1 List.mem_cons_self
        (Prod.ext (JoinedText.split_injective ',' htext) hkey)
    rw [List.foldl_append, List.foldl_cons, List.foldl_nil]
    simp only [List.mem_append, List.mem_singleton, or_and_right, exists_or, exists_eq_left]
    by_cases hgone : Gone GoneSqlite now row.2.2
    · rw [getRow, if_pos (any_lt_iff.mpr hgone)]
      show (rows.foldl (getRow serde now) (c, ∅)).2.get? x = some v ↔ _
      rw [ih hrows]
      exact ⟨Or.inl, fun h => h.elim id fun h => absurd hgone h.1⟩
    · rw [getRow, if_neg fun h => hgone (any_lt_iff.mp h)]
      show ((rows.foldl (getRow serde now) (c, ∅)).2.set _ _).get? x = some v ↔ _
      rw [OrdDict.get?_set]
      by_cases hx : x = (nsOfText row.1.1, row.1.2)
      · rw [if_pos hx]
        constructor
        · intro h
          exact Or.inr ⟨hgone, hx.symm, Option.some.inj h⟩
        · intro h
          rcases h with ⟨row', hrow', -, hx', -⟩ | ⟨-, -, hv⟩
          · exact absurd (hx'.trans hx) (hne row' hrow')
          · rw [hv]
      · rw [if_neg hx, ih hrows]
        exact ⟨Or.inl, fun h => h.elim id fun h => absurd h.2.1.symm hx⟩

omit [LinearOrder T] in
theorem mem_selected {c : SqliteCache B T} {keys : List FullKey}
    {row : (String × String) × (B × Option T)} :
    row ∈ c.selected keys ↔ OrdDict.get? c row.1 = some row.2 ∧
      ∃ k ∈ keys, (nsText k.1, k.2) = row.1 := by
  rw [selected, List.mem_filter, decide_eq_true_eq, List.mem_map, OrdDict.get?_eq_some_iff]

omit [LinearOrder T] in
theorem nodup_selected (c : SqliteCache B T) (keys : List FullKey) :
    ((c.selected keys).map Prod.fst).Nodup :=
  (OrdDict.nodup c).sublist (List.filter_sublist.map Prod.fst)

end SqliteCache

/-! ## Runs -/

namespace Caches

/-- What both caches keep of what is held, at the last reading of the clock. -/
structure Sound (serde : Serde V B) (s : Caches V B T) (last : T) : Prop where
  memory : ∀ x, Keeps GoneMemory last (stored serde (s.held x)) (s.memory.entry x)
  sqlite : ∀ x, Alone s.used x.1 →
    Keeps GoneSqlite last (stored serde (s.held x)) (OrdDict.get? s.sqlite (nsText x.1, x.2))
  held_used : ∀ x e, s.held x = some e → x.1 ∈ s.used
  row_used : ∀ y row, OrdDict.get? s.sqlite y = some row → ∃ ns ∈ s.used, nsText ns = y.1

theorem Sound.later {s : Caches V B T} {last now : T} (h : Sound serde s last) (hle : last ≤ now) :
    Sound serde s now where
  memory x := (h.memory x).later lasting_le hle
  sqlite x hx := (h.sqlite x hx).later lasting_lt hle
  held_used := h.held_used
  row_used := h.row_used

theorem sound_init (last : T) : Sound serde (init : Caches V B T) last where
  memory _ := Keeps.refl _ _ _
  sqlite _ _ := Keeps.refl _ _ _
  held_used _ _ h := (nomatch h)
  row_used _ _ h := (nomatch h)

/-- What a call has to be. The clock does not go back. Of each key of a `get`, any namespace
    that has been used under its text is its own, with labels that survive the text, and
    the clock does not show the instant at which its entry expires. A `set` that raises does
    so at its first pair. -/
def Agreeable (ts : Timestamps T) (s : Caches V B T) (e : Int × CacheCall V) : Prop :=
  (∀ t ∈ s.clock, t ≤ e.1) ∧
    match e.2 with
    | .get keys => ∀ x ∈ keys,
        (∀ ns ∈ s.used, nsText ns = nsText x.1 → ns = x.1 ∧ JoinedText.Plain ',' x.1) ∧
          ∀ h ∈ s.held x, h.2 ≠ some (ts.timestamp e.1)
    | .set pairs => Atomic ts e.1 pairs.entries
    | .clear _ => True

instance [DecidableEq T] (ts : Timestamps T) (s : Caches V B T) (e : Int × CacheCall V) :
    Decidable (Agreeable ts s e) := by
  unfold Agreeable
  cases e.2 <;> infer_instance

section Step
variable {s : Caches V B T} {now : Int}

theorem setHeld_cases {x : FullKey} {e : V × Option T} :
    ∀ {pairs : List (FullKey × (V × Option Int))} {held : FullKey → Option (V × Option T)},
      setHeld ts now pairs held x = some e → held x = some e ∨ x ∈ pairs.map Prod.fst
  | [], _, h => Or.inl h
  | (k, (v, ttl)) :: rest, held, h => by
    rw [setHeld] at h
    cases hexpiry : expiryOf ts now ttl with
    | none =>
      rw [hexpiry] at h
      exact Or.inl h
    | some expiry =>
      rw [hexpiry] at h
      rcases setHeld_cases h with h | h
      · split at h
        · next hx => exact Or.inr (List.mem_map.mpr ⟨_, List.mem_cons_self, hx.symm⟩)
        · exact Or.inl h
      · exact Or.inr (List.mem_cons_of_mem _ h)

theorem Sound.get (h : Sound serde s (ts.timestamp now)) (keys : List FullKey) :
    Sound serde (s.step serde ts (now, .get keys)) (ts.timestamp now) where
  memory := (InMemoryCache.get_spec keys s.memory ∅ h.memory fun _ _ hv => (nomatch hv)).1
  sqlite x hx := by
    show Keeps GoneSqlite _ _ (OrdDict.get? (s.sqlite.get serde (ts.timestamp now) keys).1 _)
    rw [SqliteCache.get, SqliteCache.getRows_table]
    split
    · next hgone =>
      obtain ⟨row, hrow, hkey, hgone⟩ := hgone
      have hget := (SqliteCache.mem_selected.mp hrow).1
      rw [hkey] at hget
      exact (hget ▸ h.sqlite x hx).purge hgone
    · exact h.sqlite x hx
  held_used := h.held_used
  row_used y row hy := by
    have hy : OrdDict.get? (s.sqlite.get serde (ts.timestamp now) keys).1 y = some row := hy
    rw [SqliteCache.get, SqliteCache.getRows_table] at hy
    split at hy
    · cases hy
    · exact h.row_used y row hy

theorem Sound.set (h : Sound serde s (ts.timestamp now)) {pairs : OrdDict FullKey (V × Option Int)}
    (hatomic : Atomic ts now pairs.entries) :
    Sound serde (s.step serde ts (now, .set pairs)) (ts.timestamp now) where
  memory := InMemoryCache.set_spec h.memory
  sqlite x hx := by
    refine SqliteCache.set_spec hatomic (fun p hp htext => ?_) (h.sqlite x hx.of_append)
    exact hx p.1.1 (List.mem_append_right _ (List.mem_map_of_mem (List.mem_map_of_mem hp))) htext
  held_used x e hx := by
    rcases setHeld_cases hx with hx | hx
    · exact List.mem_append_left _ (h.held_used x e hx)
    · exact List.mem_append_right _ (List.mem_map_of_mem hx)
  row_used y row hy := by
    rcases SqliteCache.set_rows hy with hy | ⟨p, hp, hpy⟩
    · obtain ⟨ns, hns, hy⟩ := h.row_used y row hy
      exact ⟨ns, List.mem_append_left _ hns, hy⟩
    · exact ⟨p.1.1, List.mem_append_right _ (List.mem_map_of_mem (List.mem_map_of_mem hp)), hpy⟩

theorem Sound.clear (h : Sound serde s (ts.timestamp now)) (namespaces : Option (List Namespace)) :
    Sound serde (s.step serde ts (now, .clear namespaces)) (ts.timestamp now) where
  memory x := by
    show Keeps GoneMemory _ (stored serde (if _ then none else s.held x))
      ((s.memory.clear namespaces).entry x)
    rw [InMemoryCache.entry_clear]
    split
    · exact Keeps.refl _ _ _
    · exact h.memory x
  sqlite x hx := by
    show Keeps GoneSqlite _ (stored serde (if _ then none else s.held x))
      (OrdDict.get? (s.sqlite.clear namespaces) (nsText x.1, x.2))
    rw [SqliteCache.get?_clear]
    -- a namespace that is alone is cleared with its text
    have hiff : (namespaces.all fun nss => decide (nsText x.1 ∈ nss.map nsText)) =
        namespaces.all fun nss => decide (x.1 ∈ nss) := by
      cases namespaces with
      | none => rfl
      | some nss =>
        refine decide_eq_decide.mpr ⟨fun hmem => ?_, List.mem_map_of_mem⟩
        obtain ⟨ns, hns, htext⟩ := List.mem_map.mp hmem
        rw [← hx ns (List.mem_append_right _ hns) htext]
        exact hns
    rw [hiff]
    split
    · exact Keeps.refl _ _ _
    · exact h.sqlite x hx.of_append
  held_used x e hx := by
    have hx : (if namespaces.all fun nss => x.1 ∈ nss then none else s.held x) = some e := hx
    split at hx
    · cases hx
    · exact List.mem_append_left _ (h.held_used x e hx)
  row_used y row hy := by
    have hy : OrdDict.get? (s.sqlite.clear namespaces) y = some row := hy
    rw [SqliteCache.get?_clear] at hy
    split at hy
    · cases hy
    · obtain ⟨ns, hns, hy⟩ := h.row_used y row hy
      exact ⟨ns, List.mem_append_left _ hns, hy⟩

/-- InMemoryCache returns what is held, whatever the namespaces and the clock. -/
theorem Sound.memory_get (h : Sound serde s (ts.timestamp now)) (keys : List FullKey) (x : FullKey) :
    (s.memory.get serde (ts.timestamp now) keys).2.get? x = s.answer ts now keys x :=
  (InMemoryCache.get_spec keys s.memory ∅ h.memory fun _ _ hv => (nomatch hv)).2 x

theorem Sound.sqlite_get (h : Sound serde s (ts.timestamp now)) {keys : List FullKey}
    (hkeys : ∀ x ∈ keys,
      (∀ ns ∈ s.used, nsText ns = nsText x.1 → ns = x.1 ∧ JoinedText.Plain ',' x.1) ∧
        ∀ h ∈ s.held x, h.2 ≠ some (ts.timestamp now)) (x : FullKey) :
    (s.sqlite.get serde (ts.timestamp now) keys).2.get? x = s.answer ts now keys x := by
  -- the entry of a requested key reads the same in the table
  have hread : ∀ k ∈ keys, (unexpired GoneSqlite (ts.timestamp now)
      (OrdDict.get? s.sqlite (nsText k.1, k.2))).map serde.loads =
        unexpired GoneMemory (ts.timestamp now) (s.held k) := by
    intro k hk
    have halone : Alone s.used k.1 := fun ns hns htext => ((hkeys k hk).1 ns hns htext).1
    rw [(h.sqlite k halone).unexpired_eq, loads_unexpired_stored,
      unexpired_le_eq_unexpired_lt (hkeys k hk).2]
  refine Option.ext fun v => ?_
  rw [SqliteCache.get, SqliteCache.getRows_values (SqliteCache.nodup_selected _ _), answer]
  constructor
  · intro hrow
    obtain ⟨row, hrow, hgone, hx, hv⟩ := hrow
    obtain ⟨hget, k, hk, hkey⟩ := SqliteCache.mem_selected.mp hrow
    obtain ⟨ns, hns, htext⟩ := h.row_used _ _ hget
    obtain ⟨-, hplain⟩ := (hkeys k hk).1 ns hns (htext.trans (congrArg Prod.fst hkey).symm)
    have hkx : k = x := by
      rw [← hx, ← hkey]
      exact Prod.ext (JoinedText.split_join hplain).symm rfl
    have hvalue := hread k hk
    rw [hkey, hget, unexpired, if_neg hgone, Option.map_some, hv] at hvalue
    rw [← hkx, if_pos hk]
    exact hvalue.symm
  · intro hanswer
    split at hanswer
    · next hx =>
      have hvalue := hread x hx
      rw [hanswer] at hvalue
      cases hget : OrdDict.get? s.sqlite (nsText x.1, x.2) with
      | none =>
        rw [hget] at hvalue
        cases hvalue
      | some row =>
        obtain ⟨val, expiry⟩ := row
        rw [hget, unexpired] at hvalue
        split at hvalue
        · cases hvalue
        · next hgone =>
          have hheld : ∃ e, s.held x = some e := by
            cases hheld : s.held x with
            | none =>
              rw [hheld] at hanswer
              cases hanswer
            | some e => exact ⟨e, rfl⟩
          obtain ⟨e, he⟩ := hheld
          obtain ⟨-, hplain⟩ := (hkeys x hx).1 x.1 (h.held_used x e he) rfl
          refine ⟨((nsText x.1, x.2), (val, expiry)),
            SqliteCache.mem_selected.mpr ⟨hget, x, hx, rfl⟩, hgone, ?_, Option.some.inj hvalue⟩
          exact Prod.ext (JoinedText.split_join hplain) rfl
    · cases hanswer

theorem Sound.step {e : Int × CacheCall V} (h : Sound serde s (ts.timestamp e.1))
    (he : Agreeable ts s e) : Sound serde (s.step serde ts e) (ts.timestamp e.1) := by
  obtain ⟨now, call⟩ := e
  cases call with
  | get keys => exact h.get keys
  | set pairs => exact h.set he.2
  | clear namespaces => exact h.clear namespaces

end Step

/-- Sound at every later reading of the clock. -/
def SoundFrom (serde : Serde V B) (ts : Timestamps T) (s : Caches V B T) : Prop :=
  ∀ now, (∀ t ∈ s.clock, t ≤ now) → Sound serde s (ts.timestamp now)

theorem SoundFrom.step {s : Caches V B T} {e : Int × CacheCall V} (h : SoundFrom serde ts s)
    (he : Agreeable ts s e) : SoundFrom serde ts (s.step serde ts e) := by
  have hstep := (h e.1 he.1).step he
  have hclock : (s.step serde ts e).clock = some e.1 := by
    unfold Caches.step
    split <;> rfl
  intro now hnow
  exact hstep.later (ts.mono (hnow e.1 (by rw [hclock]; rfl)))

end Caches

end Kept

/-- In every run whose calls are agreeable, every `get` of both caches returns the values that
    are held of its keys and have not expired. -/
theorem caches_agree {events : List (Int × CacheCall V)}
    (h : Machine.Along (Caches.step serde ts) (Caches.Agreeable ts) Caches.init events) :
    ∀ pre now keys, pre ++ [(now, .get keys)] <+: events →
      Caches.ReturnsHeld serde ts (pre.foldl (Caches.step serde ts) Caches.init) now keys := by
  intro pre now keys hpre
  have hok : Caches.Agreeable ts (pre.foldl (Caches.step serde ts) Caches.init) (now, .get keys) :=
    h.every pre _ hpre
  have hsound : Caches.SoundFrom serde ts (pre.foldl (Caches.step serde ts) Caches.init) := by
    have halong := h.of_isPrefix ((List.prefix_append pre _).trans hpre)
    exact halong.invariant (fun _ _ => Caches.sound_init _) fun s e hs he => hs.step he
  have hs := hsound now hok.1
  exact fun x => ⟨hs.memory_get keys x, hs.sqlite_get hok.2 x⟩


/-! Texts are their own encoding, and a timestamp is the number of microseconds. -/

def plainSerde : Serde String String := ⟨id, id, fun _ => rfl⟩

def micros : Timestamps Int := ⟨id, monotone_id⟩

def nodeKey (node : String) : FullKey := (["writes", node], "k")

/-- The writes of two nodes, one of which expires; the other's namespace is cleared. -/
def twoNodes : List (Int × CacheCall String) :=
  [(0, .set (OrdDict.ofList [(nodeKey "a", ("x", some 60)), (nodeKey "b", ("y", none))])),
    (1000000, .get [nodeKey "a", nodeKey "b"]),
    (60000001, .get [nodeKey "a", nodeKey "b"]),
    (60000001, .clear (some [["writes", "b"]])),
    (70000000, .get [nodeKey "a", nodeKey "b"])]

theorem caches_agree_twoNodes : Caches.ReturnsHeld plainSerde micros
    ((twoNodes.take 4).foldl (Caches.step plainSerde micros) Caches.init) 70000000
      [nodeKey "a", nodeKey "b"] := by
  have hagreeable : Machine.Along (Caches.step plainSerde micros) (Caches.Agreeable micros)
      Caches.init twoNodes := by decide +kernel
  apply caches_agree plainSerde micros hagreeable
  exact List.prefix_refl twoNodes

/-- The writes of one namespace, read under another with the same text. -/
def joinedAlike : List (Int × CacheCall String) :=
  [(0, .set (OrdDict.ofList [((["a,b"], "k"), ("x", none))])), (1, .get [(["a", "b"], "k")])]

theorem not_caches_agree : ¬∀ events : List (Int × CacheCall String),
    (events.map Prod.fst).Pairwise (· ≤ ·) →
      ∀ pre now keys, pre ++ [(now, .get keys)] <+: events →
        ∀ x, ((pre.foldl (Caches.step plainSerde micros) Caches.init).memory.get plainSerde
            (micros.timestamp now) keys).2.get? x =
          ((pre.foldl (Caches.step plainSerde micros) Caches.init).sqlite.get plainSerde
            (micros.timestamp now) keys).2.get? x := by
  intro h
  have hsame := h joinedAlike (by decide) (joinedAlike.take 1) 1 [(["a", "b"], "k")]
    (List.prefix_refl joinedAlike) (["a", "b"], "k")
  exact absurd hsame (by decide +kernel)

end LangGraph.Cache
