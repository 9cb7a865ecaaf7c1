import Mathlib.Data.List.Induction
import LangGraph.Savers.Agreement
import LangGraph.Savers.Postgres
import LangGraph.Savers.Sqlite

/- The pending writes of a checkpoint in the three savers.

   Every `put_writes` is an `insertAll` of the same keyed entries; the savers
   differ in the keys they replace. `InMemorySaver` replaces at the special
   indices, the SQL savers at every index when all writes of the call are
   special and at none otherwise. `Slots` reads the writes of a checkpoint by
   `(task_id, idx)`, whichever saver holds them, and `Slots.put` is one call on
   them. `pendingWrites_agree_iff` says on which sequences of calls `get_tuple`
   returns the same writes from all three. -/
namespace LangGraph

/-- The arguments of one `put_writes` on a checkpoint. -/
structure PutWritesCall where
  taskId : String
  writes : List (String × PyVal)
  taskPath : String

/-- The entries that the loop of `put_writes` visits, from position `idx` on. -/
def keyedWrites (taskId : String) : Nat → List (String × PyVal) →
    List (WriteKey × (String × PyVal))
  | _, [] => []
  | idx, (c, v) :: rest => ((taskId, writeIdx c idx), (c, v)) :: keyedWrites taskId (idx + 1) rest

/-- The first and the last value that a list of writes gives a channel. -/
def firstValue (writes : List (String × PyVal)) (c : String) : Option PyVal :=
  OrdDictEntries.get writes c

def lastValue (writes : List (String × PyVal)) (c : String) : Option PyVal :=
  OrdDictEntries.get writes.reverse c

namespace PutWritesCall

def entries (call : PutWritesCall) : List (WriteKey × (String × PyVal)) :=
  keyedWrites call.taskId 0 call.writes

/-- `all(w[0] in WRITES_IDX_MAP for w in writes)` -/
def allSpecial (call : PutWritesCall) : Bool :=
  call.writes.all fun w => (writesIdxMap w.1).isSome

def keys (call : PutWritesCall) : List WriteKey := call.entries.map Prod.fst

end PutWritesCall

/-! ## Indices -/

theorem writesIdxMap_neg {c : String} {i : Int} (h : writesIdxMap c = some i) : i < 0 := by
  unfold writesIdxMap at h
  split at h
  · cases h; decide
  · split at h
    · cases h; decide
    · split at h
      · cases h; decide
      · split at h
        · cases h; decide
        · cases h

theorem writesIdxMap_inj {c c' : String} {i : Int} (h : writesIdxMap c = some i)
    (h' : writesIdxMap c' = some i) : c = c' := by
  unfold writesIdxMap at h h'
  grind

theorem writeIdx_of_special {c : String} {i : Int} (h : writesIdxMap c = some i) (n : Nat) :
    writeIdx c n = i := by
  rw [writeIdx, h, Option.getD_some]

theorem writeIdx_neg_iff {c : String} {n : Nat} : writeIdx c n < 0 ↔ (writesIdxMap c).isSome := by
  cases h : writesIdxMap c with
  | none => simp [writeIdx, h]
  | some i => simp [writeIdx, h, writesIdxMap_neg h]

/-- An index below zero is the one of a special channel. -/
theorem writesIdxMap_of_writeIdx_neg {c : String} {n : Nat} {i : Int} (h : i = writeIdx c n)
    (hneg : i < 0) : writesIdxMap c = some i := by
  rw [h, writeIdx_neg_iff] at hneg
  obtain ⟨j, hj⟩ := Option.isSome_iff_exists.mp hneg
  rw [h, writeIdx_of_special hj, hj]

theorem writeIdx_eq_special_iff {c c' : String} {i : Int} (h : writesIdxMap c = some i) (n : Nat) :
    writeIdx c' n = i ↔ c' = c := by
  constructor
  · intro hi
    exact writesIdxMap_inj (writesIdxMap_of_writeIdx_neg hi.symm (writesIdxMap_neg h)) h
  · rintro rfl
    exact writeIdx_of_special h n

/-! ## What one call offers a key -/

section Keyed
variable {t : String}

theorem mem_keyedWrites {e : WriteKey × (String × PyVal)} :
    ∀ {idx : Nat} {writes : List (String × PyVal)}, e ∈ keyedWrites t idx writes →
      e.1.1 = t ∧ e.2 ∈ writes ∧ ∃ n, e.1.2 = writeIdx e.2.1 n
  | _, [], h => by simp [keyedWrites] at h
  | idx, (c, v) :: rest, h => by
    rcases List.mem_cons.mp h with rfl | h
    · exact ⟨rfl, List.mem_cons_self .., idx, rfl⟩
    · obtain ⟨ht, hw, hn⟩ := mem_keyedWrites h
      exact ⟨ht, List.mem_cons_of_mem _ hw, hn⟩

theorem get_keyedWrites_special {c : String} {i : Int} (h : writesIdxMap c = some i) :
    ∀ (idx : Nat) (writes : List (String × PyVal)),
      OrdDictEntries.get (keyedWrites t idx writes) (t, i) = (firstValue writes c).map (c, ·)
  | _, [] => rfl
  | idx, (c', v) :: rest => by
    have ih := get_keyedWrites_special h (idx + 1) rest
    rw [keyedWrites, OrdDictEntries.get, firstValue, OrdDictEntries.get]
    by_cases hc : c' = c
    · subst hc
      simp [writeIdx_of_special h]
    · have hne : (t, writeIdx c' idx) ≠ (t, i) := fun e =>
        hc ((writeIdx_eq_special_iff h idx).mp (congrArg Prod.snd e))
      rw [if_neg hne, if_neg hc]
      exact ih

theorem get_reverse_keyedWrites_special {c : String} {i : Int} (h : writesIdxMap c = some i) :
    ∀ (idx : Nat) (writes : List (String × PyVal)),
      OrdDictEntries.get (keyedWrites t idx writes).reverse (t, i) =
        (lastValue writes c).map (c, ·)
  | _, [] => rfl
  | idx, (c', v) :: rest => by
    have ih := get_reverse_keyedWrites_special h (idx + 1) rest
    rw [keyedWrites, List.reverse_cons, OrdDictEntries.get_append, ih, lastValue, lastValue,
      List.reverse_cons, OrdDictEntries.get_append, Option.map_or]
    congr 1
    by_cases hc : c' = c
    · subst hc
      simp [OrdDictEntries.get, writeIdx_of_special h]
    · have hne : (t, writeIdx c' idx) ≠ (t, i) := fun e =>
        hc ((writeIdx_eq_special_iff h idx).mp (congrArg Prod.snd e))
      simp [OrdDictEntries.get, hne, hc]

end Keyed

theorem get_reverse_eq_none_iff {κ ν : Type} [DecidableEq κ] {l : List (κ × ν)} {k : κ} :
    OrdDictEntries.get l.reverse k = none ↔ OrdDictEntries.get l k = none := by
  rw [OrdDictEntries.get_eq_none_iff, OrdDictEntries.get_eq_none_iff, List.map_reverse,
    List.mem_reverse]

/-! ## The slots of a checkpoint -/

/-- What a saver holds at each `(task_id, idx)` of one checkpoint. -/
abbrev Slots := WriteKey → Option (String × PyVal)

namespace Slots

/-- One call, where the keys in `replace` take the last value offered and the
    others keep what they have. -/
def put (replace : WriteKey → Bool) (call : PutWritesCall) (s : Slots) : Slots := fun k =>
  if replace k then (OrdDictEntries.get call.entries.reverse k).or (s k)
  else (s k).or (OrdDictEntries.get call.entries k)

/-- `InMemorySaver.put_writes` on the slots. -/
def putMemory (call : PutWritesCall) : Slots → Slots := put (fun k => decide (k.2 < 0)) call

/-- The SQL savers' `put_writes` on the slots. -/
def putSql (call : PutWritesCall) : Slots → Slots := put (fun _ => call.allSpecial) call

/-- The pending writes that the slots hold. -/
def Holds (s : Slots) (w : PendingWrite) : Prop := ∃ i, s (w.taskId, i) = some (w.channel, w.value)

/-- Every slot holds a write whose channel may take its index. -/
def WellKeyed (s : Slots) : Prop := ∀ k cv, s k = some cv → ∃ n, k.2 = writeIdx cv.1 n

theorem put_of_not_mem {replace : WriteKey → Bool} {call : PutWritesCall} (s : Slots) {k : WriteKey}
    (h : k ∉ call.keys) : put replace call s k = s k := by
  have hget : OrdDictEntries.get call.entries k = none := OrdDictEntries.get_eq_none_iff.mpr h
  simp [put, hget, get_reverse_eq_none_iff.mpr hget]

/-- What a slot holds after a call was there before, or is offered by the call. -/
theorem eq_some_of_put {replace : WriteKey → Bool} {call : PutWritesCall} {s : Slots}
    {k : WriteKey} {cv : String × PyVal} (h : s.put replace call k = some cv) :
    s k = some cv ∨ (k, cv) ∈ call.entries := by
  unfold Slots.put at h
  split at h
  · rcases Option.or_eq_some_iff.mp h with hget | ⟨-, hs⟩
    · exact Or.inr (List.mem_reverse.mp (OrdDictEntries.mem_of_get hget))
    · exact Or.inl hs
  · rcases Option.or_eq_some_iff.mp h with hs | ⟨-, hget⟩
    · exact Or.inl hs
    · exact Or.inr (OrdDictEntries.mem_of_get hget)

theorem WellKeyed.put {replace : WriteKey → Bool} {call : PutWritesCall} {s : Slots}
    (h : s.WellKeyed) : (s.put replace call).WellKeyed := by
  intro k cv hk
  rcases eq_some_of_put hk with hs | hmem
  · exact h k cv hs
  · exact (mem_keyedWrites hmem).2.2

theorem isSome_put {replace : WriteKey → Bool} {call : PutWritesCall} {s : Slots} {k : WriteKey} :
    (s.put replace call k).isSome ↔ (s k).isSome ∨ k ∈ call.keys := by
  by_cases hk : k ∈ call.keys
  · have hsome : (OrdDictEntries.get call.entries k).isSome := by
      rw [Option.isSome_iff_ne_none]
      exact fun e => OrdDictEntries.get_eq_none_iff.mp e hk
    have hrev : (OrdDictEntries.get call.entries.reverse k).isSome := by
      rw [Option.isSome_iff_ne_none]
      exact fun e => OrdDictEntries.get_eq_none_iff.mp (get_reverse_eq_none_iff.mp e) hk
    unfold put
    split <;> simp [Option.isSome_or, hsome, hrev, hk]
  · simp [put_of_not_mem s hk, hk]

/-- At an index of an ordinary channel both kinds of call keep the first write. -/
theorem putMemory_eq_putSql_of_nonneg (call : PutWritesCall) (s : Slots) {k : WriteKey}
    (hk : 0 ≤ k.2) : s.putMemory call k = s.putSql call k := by
  have hmem : decide (k.2 < 0) = false := by simpa using hk
  cases hall : call.allSpecial with
  | false => simp [putMemory, putSql, put, hmem, hall]
  | true =>
    -- a call of special writes only offers no such index
    have hnot : k ∉ call.keys := by
      intro h
      obtain ⟨e, he, rfl⟩ := List.mem_map.mp h
      obtain ⟨-, hw, n, hn⟩ := mem_keyedWrites he
      have hsp : (writesIdxMap e.2.1).isSome := List.all_eq_true.mp hall e.2 hw
      rw [hn] at hk
      have := (writeIdx_neg_iff (n := n)).mpr hsp
      omega
    rw [putMemory, putSql, put_of_not_mem s hnot, put_of_not_mem s hnot]

/-- What a call that also writes an ordinary channel must offer a special
    channel: last the value that the SQL savers keep. -/
def KeepsSpecial (call : PutWritesCall) (s : Slots) : Prop :=
  call.allSpecial = false → ∀ c i, writesIdxMap c = some i → ∀ v, lastValue call.writes c = some v →
    ((s (call.taskId, i)).map Prod.snd).or (firstValue call.writes c) = some v

theorem putMemory_eq_putSql_iff (call : PutWritesCall) {s : Slots} (hs : s.WellKeyed) :
    s.putMemory call = s.putSql call ↔ s.KeepsSpecial call := by
  constructor
  · intro h hall c i hc v hv
    have hk := congrFun h (call.taskId, i)
    have hneg : decide (i < 0) = true := decide_eq_true (writesIdxMap_neg hc)
    simp only [putMemory, putSql, put, hneg, hall, if_true, Bool.false_eq_true, if_false,
      PutWritesCall.entries, get_keyedWrites_special hc, get_reverse_keyedWrites_special hc, hv,
      Option.map_some, Option.some_or] at hk
    have hsnd := congrArg (Option.map Prod.snd) hk.symm
    simpa [Option.map_or, Option.map_map, Function.comp_def] using hsnd
  · intro h
    funext k
    obtain ⟨t, i⟩ := k
    by_cases hi : 0 ≤ i
    · exact putMemory_eq_putSql_of_nonneg call s hi
    by_cases hmem : (t, i) ∈ call.keys
    · obtain ⟨e, he, hek⟩ := List.mem_map.mp hmem
      obtain ⟨ht, -, n, hn⟩ := mem_keyedWrites he
      rw [hek] at ht hn
      have ht : t = call.taskId := ht
      subst ht
      have hc : writesIdxMap e.2.1 = some i := writesIdxMap_of_writeIdx_neg hn (by omega)
      have hneg : decide (i < 0) = true := decide_eq_true (writesIdxMap_neg hc)
      cases hall : call.allSpecial with
      | true => simp [putMemory, putSql, put, hneg, hall]
      | false =>
        simp only [putMemory, putSql, put, hneg, hall, if_true, Bool.false_eq_true, if_false,
          PutWritesCall.entries, get_keyedWrites_special hc, get_reverse_keyedWrites_special hc]
        cases hlast : lastValue call.writes e.2.1 with
        | none =>
          have hfirst : firstValue call.writes e.2.1 = none := get_reverse_eq_none_iff.mp hlast
          simp [hfirst]
        | some v =>
          have hv := h hall e.2.1 i hc v hlast
          cases hstored : s (call.taskId, i) with
          | none =>
            rw [hstored, Option.map_none, Option.none_or] at hv
            simp [hv]
          | some cv =>
            rw [hstored, Option.map_some, Option.some_or, Option.some.injEq] at hv
            obtain ⟨m, hm⟩ := hs _ _ hstored
            have hcv : cv.1 = e.2.1 := (writeIdx_eq_special_iff hc m).mp hm.symm
            simp [← hv, ← hcv]
    · rw [putMemory, putSql, put_of_not_mem s hmem, put_of_not_mem s hmem]

/-- Two savers that hold something at the same slots, and the same at every
    index of an ordinary channel, return the same set of writes only if they
    hold the same at every slot: a special channel has one index. -/
theorem holds_iff_eq {s s' : Slots} (hs : s.WellKeyed) (hs' : s'.WellKeyed)
    (hsome : ∀ k, (s k).isSome ↔ (s' k).isSome) (hord : ∀ k : WriteKey, 0 ≤ k.2 → s k = s' k) :
    (∀ w, s.Holds w ↔ s'.Holds w) ↔ s = s' := by
  constructor
  · intro h
    funext k
    by_cases hk : 0 ≤ k.2
    · exact hord k hk
    · cases hsk : s k with
      | none =>
        have hnone := hsome k
        rw [hsk] at hnone
        exact (Option.not_isSome_iff_eq_none.mp fun e => by simpa using hnone.mpr e).symm
      | some cv =>
        obtain ⟨i, hi⟩ := (h ⟨k.1, cv.1, cv.2⟩).mp ⟨k.2, hsk⟩
        obtain ⟨n, hn⟩ := hs _ _ hsk
        obtain ⟨m, hm⟩ := hs' _ _ hi
        have hc : writesIdxMap cv.1 = some k.2 := writesIdxMap_of_writeIdx_neg hn (by omega)
        have hik : i = k.2 := hm.trans (writeIdx_of_special hc m)
        rw [hik] at hi
        exact hi.symm
  · rintro rfl w
    exact Iff.rfl

/-! ## Sequences of calls -/

def runMemory (calls : List PutWritesCall) : Slots :=
  calls.foldl (fun s call => s.putMemory call) fun _ => none

def runSql (calls : List PutWritesCall) : Slots :=
  calls.foldl (fun s call => s.putSql call) fun _ => none

theorem runMemory_concat (pre : List PutWritesCall) (call : PutWritesCall) :
    runMemory (pre ++ [call]) = (runMemory pre).putMemory call := by
  rw [runMemory, List.foldl_append]
  rfl

theorem runSql_concat (pre : List PutWritesCall) (call : PutWritesCall) :
    runSql (pre ++ [call]) = (runSql pre).putSql call := by
  rw [runSql, List.foldl_append]
  rfl

theorem wellKeyed_empty : WellKeyed fun _ => none := fun _ _ h => by cases h

theorem wellKeyed_runMemory (calls : List PutWritesCall) : (runMemory calls).WellKeyed := by
  induction calls using List.reverseRecOn with
  | nil => exact wellKeyed_empty
  | append_singleton pre call ih =>
    rw [runMemory_concat]
    exact ih.put

theorem wellKeyed_runSql (calls : List PutWritesCall) : (runSql calls).WellKeyed := by
  induction calls using List.reverseRecOn with
  | nil => exact wellKeyed_empty
  | append_singleton pre call ih =>
    rw [runSql_concat]
    exact ih.put

/-- Which slots are taken, and by what at the ordinary indices, is the same in
    all savers after any calls. -/
theorem runMemory_isSome_iff (calls : List PutWritesCall) (k : WriteKey) :
    (runMemory calls k).isSome ↔ (runSql calls k).isSome := by
  induction calls using List.reverseRecOn with
  | nil => exact Iff.rfl
  | append_singleton pre call ih =>
    rw [runMemory_concat, runSql_concat, putMemory, putSql, isSome_put, isSome_put, ih]

theorem runMemory_eq_runSql_of_nonneg (calls : List PutWritesCall) (k : WriteKey)
    (hk : 0 ≤ k.2) : runMemory calls k = runSql calls k := by
  induction calls using List.reverseRecOn with
  | nil => rfl
  | append_singleton pre call ih =>
    have hcongr : (runMemory pre).putSql call k = (runSql pre).putSql call k := by
      simp only [putSql, put, ih]
    rw [runMemory_concat, runSql_concat, putMemory_eq_putSql_of_nonneg call _ hk, hcongr]

/-- The slots of a task that no call names stay empty. -/
theorem runSql_of_not_mem {calls : List PutWritesCall} {k : WriteKey}
    (h : ∀ call ∈ calls, call.taskId ≠ k.1) : runSql calls k = none := by
  induction calls using List.reverseRecOn with
  | nil => rfl
  | append_singleton pre call ih =>
    have hkey : k ∉ call.keys := by
      intro hk
      obtain ⟨e, he, rfl⟩ := List.mem_map.mp hk
      exact h call (List.mem_append_right _ List.mem_cons_self) (mem_keyedWrites he).1.symm
    rw [runSql_concat, putSql, put_of_not_mem _ hkey]
    exact ih fun c hc => h c (List.mem_append_left _ hc)

/-- Where each task is named by one call, its slots hold that call's entries. -/
theorem runSql_of_mem {calls : List PutWritesCall} (hn : (calls.map (·.taskId)).Nodup)
    {call : PutWritesCall} (h : call ∈ calls) {i : Int} :
    runSql calls (call.taskId, i) = putSql call (fun _ => none) (call.taskId, i) := by
  induction calls using List.reverseRecOn with
  | nil => cases h
  | append_singleton pre last ih =>
    rw [List.map_append, List.nodup_append] at hn
    obtain ⟨hpre, -, hlast⟩ := hn
    have hne : ∀ c ∈ pre, c.taskId ≠ last.taskId := fun c hc =>
      hlast c.taskId (List.mem_map_of_mem hc) last.taskId (List.mem_map_of_mem List.mem_cons_self)
    rw [runSql_concat]
    rcases List.mem_append.mp h with h | h
    · have hkey : (call.taskId, i) ∉ last.keys := by
        intro hk
        obtain ⟨e, he, hek⟩ := List.mem_map.mp hk
        have htask := (mem_keyedWrites he).1
        rw [hek] at htask
        exact hne call h htask
      rw [putSql, put_of_not_mem _ hkey]
      exact ih hpre h
    · rw [List.mem_singleton.mp h]
      have hnone : runSql pre (last.taskId, i) = none := runSql_of_not_mem hne
      simp only [putSql, put, hnone]

/-- The entries of a call whose keys are distinct are all taken. -/
theorem putSql_empty_iff {call : PutWritesCall} (hn : call.keys.Nodup) {k : WriteKey}
    {cv : String × PyVal} :
    putSql call (fun _ => none) k = some cv ↔ (k, cv) ∈ call.entries := by
  have hrev : (call.entries.reverse.map Prod.fst).Nodup := by
    rw [List.map_reverse]
    exact List.nodup_reverse.mpr hn
  unfold putSql put
  split
  · rw [Option.or_none, OrdDictEntries.get_eq_some_iff hrev, List.mem_reverse]
  · rw [Option.none_or, OrdDictEntries.get_eq_some_iff hn]

/-- The writes of the calls for a task. -/
def writesOf (calls : List PutWritesCall) (t : String) : List (String × PyVal) :=
  calls.flatMap fun call => if call.taskId = t then call.writes else []

/-- In memory a special channel of a task holds the last value it was given. -/
theorem runMemory_special {c : String} {i : Int} (hc : writesIdxMap c = some i)
    (calls : List PutWritesCall) (t : String) :
    runMemory calls (t, i) = (lastValue (writesOf calls t) c).map (c, ·) := by
  induction calls using List.reverseRecOn with
  | nil => rfl
  | append_singleton pre call ih =>
    have hneg : decide (i < 0) = true := decide_eq_true (writesIdxMap_neg hc)
    rw [runMemory_concat, writesOf, List.flatMap_append, lastValue, List.reverse_append,
      OrdDictEntries.get_append, Option.map_or]
    by_cases ht : call.taskId = t
    · subst ht
      simp only [putMemory, put, hneg, if_true, PutWritesCall.entries,
        get_reverse_keyedWrites_special hc, ih]
      simp [lastValue, writesOf]
    · have hmem : (t, i) ∉ call.keys := by
        intro h
        obtain ⟨e, he, hek⟩ := List.mem_map.mp h
        have htask := (mem_keyedWrites he).1
        rw [hek] at htask
        exact ht htask.symm
      rw [putMemory, put_of_not_mem _ hmem, ih]
      simp [ht, OrdDictEntries.get, lastValue, writesOf]

/-- A call that also writes an ordinary channel gives each special channel last
    the value it was given last by the calls before, or else first by itself. -/
def SpecialKept (pre : List PutWritesCall) (call : PutWritesCall) : Prop :=
  call.allSpecial = false → ∀ c v, (writesIdxMap c).isSome → lastValue call.writes c = some v →
    (lastValue (writesOf pre call.taskId) c).or (firstValue call.writes c) = some v

theorem keepsSpecial_runMemory_iff (pre : List PutWritesCall) (call : PutWritesCall) :
    KeepsSpecial call (runMemory pre) ↔ SpecialKept pre call := by
  unfold KeepsSpecial SpecialKept
  constructor
  · intro h hall c v hc hv
    obtain ⟨i, hi⟩ := Option.isSome_iff_exists.mp hc
    have hkeep := h hall c i hi v hv
    rw [runMemory_special hi, Option.map_map] at hkeep
    simpa [Function.comp_def] using hkeep
  · intro h hall c i hi v hv
    have hkeep := h hall c v (Option.isSome_iff_exists.mpr ⟨i, hi⟩) hv
    rw [runMemory_special hi, Option.map_map]
    simpa [Function.comp_def] using hkeep

theorem runMemory_eq_runSql_iff (calls : List PutWritesCall) :
    (∀ pre, pre <+: calls → runMemory pre = runSql pre) ↔
      ∀ pre call, pre ++ [call] <+: calls → SpecialKept pre call := by
  constructor
  · intro h pre call hpre
    have hstep := h _ hpre
    rw [runMemory_concat, runSql_concat,
      ← h pre ((List.prefix_append pre [call]).trans hpre)] at hstep
    rw [← keepsSpecial_runMemory_iff]
    exact (putMemory_eq_putSql_iff call (wellKeyed_runMemory pre)).mp hstep
  · intro h pre
    induction pre using List.reverseRecOn with
    | nil => exact fun _ => rfl
    | append_singleton pre call ih =>
      intro hpre
      have hkeep := (keepsSpecial_runMemory_iff pre call).mpr (h pre call hpre)
      rw [runMemory_concat, runSql_concat, ← ih ((List.prefix_append pre [call]).trans hpre)]
      exact (putMemory_eq_putSql_iff call (wellKeyed_runMemory pre)).mpr hkeep

end Slots

/-! ## The order of a task's writes -/

/-- Each task's writes stand in the order of their indices. -/
def InIdxOrder (keys : List WriteKey) : Prop :=
  keys.Pairwise fun a b => a.1 = b.1 → a.2 < b.2

instance (keys : List WriteKey) : Decidable (InIdxOrder keys) :=
  inferInstanceAs (Decidable (keys.Pairwise fun a b => a.1 = b.1 → a.2 < b.2))

/-- An index that a task uses for the first time lies above all that it used before. -/
def NewIdxAbove (keys : List WriteKey) : Prop :=
  ∀ pre k post, keys = pre ++ k :: post → k ∉ pre → ∀ k' ∈ pre, k'.1 = k.1 → k'.2 < k.2

/-- The keys that the calls write to, call by call. -/
def askedKeys (calls : List PutWritesCall) : List WriteKey := calls.flatMap PutWritesCall.keys

theorem askedKeys_concat (pre : List PutWritesCall) (call : PutWritesCall) :
    askedKeys (pre ++ [call]) = askedKeys pre ++ call.keys := by
  simp [askedKeys]

theorem NewIdxAbove.of_append {l l' : List WriteKey} (h : NewIdxAbove (l ++ l')) :
    NewIdxAbove l := by
  intro pre k post hl
  apply h pre k (post ++ l')
  rw [hl, List.append_assoc, List.cons_append]

theorem inIdxOrder_addKeys_iff (keys : List WriteKey) :
    InIdxOrder (OrdDict.addKeys [] keys) ↔ NewIdxAbove keys := by
  induction keys using List.reverseRecOn with
  | nil =>
    constructor
    · intro _ pre k post h
      simp at h
    · exact fun _ => List.Pairwise.nil
  | append_singleton l k ih =>
    have hmem : ∀ k', k' ∈ OrdDict.addKeys [] l ↔ k' ∈ l := fun k' => by
      simp [OrdDict.mem_addKeys]
    rw [OrdDict.addKeys_append, OrdDict.addKeys_singleton]
    constructor
    · intro h pre k' post hl hnew j hj hjk
      rcases List.eq_nil_or_concat' post with rfl | ⟨post, b, rfl⟩
      · obtain ⟨rfl, hk⟩ := List.append_inj' hl rfl
        cases hk
        rw [if_neg fun e => hnew ((hmem k).mp e)] at h
        exact (List.pairwise_append.mp h).2.2 j ((hmem j).mpr hj) k (List.mem_singleton_self k) hjk
      · rw [← List.cons_append, ← List.append_assoc] at hl
        obtain ⟨rfl, -⟩ := List.append_inj' hl rfl
        have hin : InIdxOrder (OrdDict.addKeys [] (pre ++ k' :: post)) := by
          split at h
          · exact h
          · exact (List.pairwise_append.mp h).1
        exact ih.mp hin pre k' post rfl hnew j hj hjk
    · intro h
      have hin := ih.mpr h.of_append
      split
      · exact hin
      · rename_i hk
        refine List.pairwise_append.mpr ⟨hin, List.pairwise_singleton _ _, ?_⟩
        intro a ha b hb
        rw [List.mem_singleton.mp hb]
        exact h l k [] rfl (fun e => hk ((hmem k).mpr e)) a ((hmem a).mp ha)

/-! ## `InMemorySaver` -/

namespace InMemorySaver
variable {V : Type} [DecidableEq V]

def putCalls (s : InMemorySaver V) (id : String) (calls : List PutWritesCall) : InMemorySaver V :=
  calls.foldl (fun s call => s.putWrites id call.writes call.taskId call.taskPath) s

/-- The keys of the writes that `get_tuple` returns, in the order of the writes. -/
def pendingKeys (s : InMemorySaver V) (id : String) : List WriteKey := (s.writesAt id).keys

def slotsAt (s : InMemorySaver V) (id : String) : Slots := fun k =>
  ((s.writesAt id).get? k).map fun w => (w.channel, w.value)

/-- The entry that `put_writes` stores. -/
def storedEntry (taskPath : String) (e : WriteKey × (String × PyVal)) : WriteKey × StoredWrite :=
  (e.1, ⟨e.1.1, e.2.1, e.2.2, taskPath⟩)

omit [DecidableEq V] in
theorem putWritesLoop_eq (taskId taskPath : String) : ∀ (idx : Nat) (writes : List (String × PyVal))
    (d : OrdDict WriteKey StoredWrite),
    putWritesLoop taskId taskPath idx writes d =
      d.insertAll (fun k => decide (k.2 < 0))
        ((keyedWrites taskId idx writes).map (storedEntry taskPath))
  | _, [], _ => rfl
  | idx, (c, v) :: rest, d => by
    rw [putWritesLoop, keyedWrites, List.map_cons, OrdDict.insertAll]
    by_cases h : 0 ≤ writeIdx c idx ∧ d.contains (taskId, writeIdx c idx) = true
    · have hkeep : ¬(decide (writeIdx c idx < 0) || !d.contains (taskId, writeIdx c idx)) = true := by
        have hneg : ¬writeIdx c idx < 0 := Int.not_lt.mpr h.1
        simp [hneg, h.2]
      rw [if_pos h, putWritesLoop_eq taskId taskPath (idx + 1) rest d]
      exact (if_neg hkeep).symm
    · have hrep : (decide (writeIdx c idx < 0) || !d.contains (taskId, writeIdx c idx)) = true := by
        rw [not_and_or, Int.not_le, Bool.not_eq_true] at h
        rcases h with h | h
        · simp [h]
        · simp [h]
      rw [if_neg h, putWritesLoop_eq taskId taskPath (idx + 1) rest _]
      exact (if_pos hrep).symm

omit [DecidableEq V] in
theorem writesAt_putWrites (s : InMemorySaver V) (id : String) (call : PutWritesCall) :
    (s.putWrites id call.writes call.taskId call.taskPath).writesAt id =
      (s.writesAt id).insertAll (fun k => decide (k.2 < 0))
        (call.entries.map (storedEntry call.taskPath)) := by
  rw [PutWritesCall.entries, ← putWritesLoop_eq, putWrites, writesAt, OrdDict.getD,
    OrdDict.get?_set_self, Option.getD_some]

/-- The task id that a stored write carries is the one of its key. -/
def KeyedByTask (s : InMemorySaver V) (id : String) : Prop :=
  ∀ k w, (s.writesAt id).get? k = some w → w.taskId = k.1

omit [DecidableEq V] in
/-- What `put_writes` leaves under a key: the entry it offers there, or what was stored. -/
theorem get?_putWrites (s : InMemorySaver V) (id : String) (call : PutWritesCall) (k : WriteKey) :
    ((s.putWrites id call.writes call.taskId call.taskPath).writesAt id).get? k =
      if decide (k.2 < 0) then
        ((OrdDictEntries.get call.entries.reverse k).map fun cv =>
          StoredWrite.mk k.1 cv.1 cv.2 call.taskPath).or ((s.writesAt id).get? k)
      else
        ((s.writesAt id).get? k).or ((OrdDictEntries.get call.entries k).map fun cv =>
          StoredWrite.mk k.1 cv.1 cv.2 call.taskPath) := by
  have hget : ∀ l : List (WriteKey × (String × PyVal)),
      OrdDictEntries.get (l.map (storedEntry call.taskPath)) k =
        (OrdDictEntries.get l k).map fun cv => StoredWrite.mk k.1 cv.1 cv.2 call.taskPath := by
    intro l
    induction l with
    | nil => rfl
    | cons e l ih =>
      obtain ⟨k', cv⟩ := e
      rw [List.map_cons, storedEntry, OrdDictEntries.get, OrdDictEntries.get]
      by_cases hk : k' = k
      · simp [hk]
      · simp [hk, ih]
  rw [writesAt_putWrites, OrdDict.get?_insertAll, ← List.map_reverse, hget, hget]

omit [DecidableEq V] in
theorem slotsAt_putWrites (s : InMemorySaver V) (id : String) (call : PutWritesCall) :
    (s.putWrites id call.writes call.taskId call.taskPath).slotsAt id =
      (s.slotsAt id).putMemory call := by
  funext k
  rw [slotsAt, get?_putWrites, Slots.putMemory, Slots.put, slotsAt]
  split
  · simp [Option.map_or, Option.map_map, Function.comp_def]
  · simp [Option.map_or, Option.map_map, Function.comp_def]

omit [DecidableEq V] in
/-- A call leaves what the other tasks have stored. -/
theorem slotsAt_putWrites_of_ne {s : InMemorySaver V} {id t path : String} {k : WriteKey}
    (h : k.1 ≠ t) (ws : List (String × PyVal)) :
    (s.putWrites id ws t path).slotsAt id k = s.slotsAt id k := by
  rw [s.slotsAt_putWrites id ⟨t, ws, path⟩]
  apply Slots.put_of_not_mem
  intro hmem
  obtain ⟨e, he, rfl⟩ := List.mem_map.mp hmem
  exact h (mem_keyedWrites he).1

omit [DecidableEq V] in
theorem KeyedByTask.putWrites {s : InMemorySaver V} {id : String} (h : s.KeyedByTask id)
    (call : PutWritesCall) :
    (s.putWrites id call.writes call.taskId call.taskPath).KeyedByTask id := by
  intro k w hw
  rw [get?_putWrites] at hw
  split at hw
  · rcases Option.or_eq_some_iff.mp hw with hget | ⟨-, hs⟩
    · obtain ⟨cv, -, rfl⟩ := Option.map_eq_some_iff.mp hget
      rfl
    · exact h k w hs
  · rcases Option.or_eq_some_iff.mp hw with hs | ⟨-, hget⟩
    · exact h k w hs
    · obtain ⟨cv, -, rfl⟩ := Option.map_eq_some_iff.mp hget
      rfl

omit [DecidableEq V] in
/-- What is kept of a checkpoint's writes after the calls: slots, keys and tuple. -/
theorem putCalls_spec {s : InMemorySaver V} {id : String} (hs : s.writesAt id = ∅)
    (calls : List PutWritesCall) :
    (s.putCalls id calls).slotsAt id = Slots.runMemory calls ∧
      (s.putCalls id calls).pendingKeys id = OrdDict.addKeys [] (askedKeys calls) ∧
      (s.putCalls id calls).KeyedByTask id ∧ (s.putCalls id calls).storage = s.storage := by
  induction calls using List.reverseRecOn with
  | nil =>
    refine ⟨?_, ?_, ?_, rfl⟩
    · funext k
      simp [putCalls, slotsAt, hs, Slots.runMemory]
    · simp [putCalls, pendingKeys, hs, askedKeys, OrdDict.addKeys]
      rfl
    · intro k w hw
      rw [putCalls, List.foldl_nil, hs] at hw
      cases hw
  | append_singleton pre call ih =>
    obtain ⟨hslots, hkeys, hkeyed, hstorage⟩ := ih
    have hcalls : s.putCalls id (pre ++ [call]) =
        (s.putCalls id pre).putWrites id call.writes call.taskId call.taskPath := by
      rw [putCalls, List.foldl_append]
      rfl
    rw [hcalls]
    refine ⟨?_, ?_, hkeyed.putWrites call, hstorage⟩
    · rw [slotsAt_putWrites, hslots, Slots.runMemory_concat]
    · have hoffered : (call.entries.map (storedEntry call.taskPath)).map Prod.fst = call.keys := by
        rw [List.map_map]
        rfl
      rw [pendingKeys, writesAt_putWrites, OrdDict.keys_insertAll, hoffered, askedKeys_concat,
        OrdDict.addKeys_append, ← hkeys, pendingKeys]

omit [DecidableEq V] in
/-- The writes of a returned tuple are what the slots hold. -/
theorem mem_pendingWrites_iff {s : InMemorySaver V} {id : String} (h : s.KeyedByTask id)
    (w : PendingWrite) :
    w ∈ (s.writesAt id).values.map StoredWrite.toPending ↔ (s.slotsAt id).Holds w := by
  constructor
  · intro hw
    obtain ⟨sw, hsw, rfl⟩ := List.mem_map.mp hw
    obtain ⟨⟨k, sw'⟩, he, rfl⟩ := List.mem_map.mp hsw
    have hget := OrdDict.get?_eq_some_iff.mpr he
    refine ⟨k.2, ?_⟩
    have hk : ((StoredWrite.toPending sw').taskId, k.2) = k := Prod.ext (h k sw' hget) rfl
    rw [slotsAt, hk, hget]
    rfl
  · rintro ⟨i, hi⟩
    obtain ⟨sw, hget, hsw⟩ := Option.map_eq_some_iff.mp hi
    refine List.mem_map.mpr ⟨sw, List.mem_map.mpr ⟨_, OrdDict.get?_eq_some_iff.mp hget, rfl⟩, ?_⟩
    obtain ⟨hc, hv⟩ := Prod.mk.inj hsw
    have ht : sw.taskId = w.taskId := h _ _ hget
    cases w
    simp only at hc hv ht
    simp [StoredWrite.toPending, hc, hv, ht]

end InMemorySaver

/-! ## The SQL savers -/

namespace WritesTable

def putCalls (t : WritesTable) (id : String) (calls : List PutWritesCall) : WritesTable :=
  calls.foldl (fun t call => t.putWrites id call.writes call.taskId) t

/-- The keys of the writes that `get_tuple` selects, in the order of the writes. -/
def pendingKeys (t : WritesTable) (id : String) : List WriteKey :=
  (orderByKey (t.entries.filter fun w => w.1.1 = id)).map (·.1.2)

def slotsAt (t : WritesTable) (id : String) : Slots := fun k => OrdDict.get? t (id, k)

theorem insertLoop_eq (replace : Bool) (id taskId : String) :
    ∀ (idx : Nat) (writes : List (String × PyVal)) (t : WritesTable),
      insertLoop replace id taskId idx writes t =
        OrdDict.insertAll (fun _ => replace) t
          ((keyedWrites taskId idx writes).map fun e => ((id, e.1), e.2))
  | _, [], _ => rfl
  | idx, (c, v) :: rest, t => by
    rw [insertLoop, keyedWrites, List.map_cons, OrdDict.insertAll]
    split
    · exact insertLoop_eq replace id taskId (idx + 1) rest _
    · exact insertLoop_eq replace id taskId (idx + 1) rest t

theorem slotsAt_putWrites (t : WritesTable) (id : String) (call : PutWritesCall) :
    (t.putWrites id call.writes call.taskId).slotsAt id = (t.slotsAt id).putSql call := by
  funext k
  have hinj : Function.Injective fun k : WriteKey => (id, k) := fun _ _ h => (Prod.mk.inj h).2
  have hget : ∀ l : List (WriteKey × (String × PyVal)),
      OrdDictEntries.get (l.map fun e => ((id, e.1), e.2)) (id, k) = OrdDictEntries.get l k :=
    fun l => (OrdDictEntries.get_map hinj (fun cv => cv) k l).trans (Option.map_id' ..)
  rw [slotsAt, putWrites, insertLoop_eq, OrdDict.get?_insertAll, ← List.map_reverse, hget, hget]
  rfl

theorem slotsAt_putCalls {t : WritesTable} {id : String} (ht : t.slotsAt id = fun _ => none)
    (calls : List PutWritesCall) : (t.putCalls id calls).slotsAt id = Slots.runSql calls := by
  induction calls using List.reverseRecOn with
  | nil => exact ht
  | append_singleton pre call ih =>
    rw [putCalls, List.foldl_append, Slots.runSql_concat, ← ih]
    exact slotsAt_putWrites (t.putCalls id pre) id call

theorem mem_pendingAt_iff (t : WritesTable) (id : String) (w : PendingWrite) :
    w ∈ t.pendingAt id ↔ (t.slotsAt id).Holds w := by
  constructor
  · intro hw
    obtain ⟨row, hrow, rfl⟩ := List.mem_map.mp hw
    rw [orderByKey, SortBy.mem_sortBy, List.mem_filter] at hrow
    refine ⟨row.1.2.2, OrdDict.get?_eq_some_iff.mpr ?_⟩
    have hkey : (id, ((WriteRow.toPending row).taskId, row.1.2.2)) = row.1 :=
      Prod.ext (of_decide_eq_true hrow.2).symm rfl
    rw [hkey]
    exact hrow.1
  · rintro ⟨i, hi⟩
    refine List.mem_map.mpr ⟨((id, (w.taskId, i)), (w.channel, w.value)), ?_, rfl⟩
    rw [orderByKey, SortBy.mem_sortBy, List.mem_filter]
    exact ⟨OrdDict.get?_eq_some_iff.mp hi, decide_eq_true rfl⟩

/-- The rows of a checkpoint in the order of `pendingAt`, and their keys. -/
theorem pairwise_rowsAt (t : WritesTable) (id : String) :
    (orderByKey (t.entries.filter fun w => w.1.1 = id)).Pairwise
      fun a b => toLex a.1.2 < toLex b.1.2 := by
  have hnodup : ((orderByKey (t.entries.filter fun w => w.1.1 = id)).map (·.1)).Nodup :=
    (List.Perm.nodup_iff ((SortBy.perm_sortBy _ _).map _)).mpr
      (t.nodup.sublist (List.filter_sublist.map Prod.fst))
  refine ((SortBy.pairwise_sortBy _ _).and (List.pairwise_map.mp hnodup)).imp_of_mem ?_
  intro a b ha hb hab
  have hida := of_decide_eq_true (List.mem_filter.mp (SortBy.mem_sortBy.mp ha)).2
  have hidb := of_decide_eq_true (List.mem_filter.mp (SortBy.mem_sortBy.mp hb)).2
  refine lt_of_le_of_ne hab.1 fun heq => hab.2 ?_
  exact Prod.ext (hida.trans hidb.symm) (toLex_inj.mp heq)

theorem mem_rowsAt_iff {t : WritesTable} {id : String} {row : WriteRow} :
    row ∈ orderByKey (t.entries.filter fun w => w.1.1 = id) ↔
      row.1.1 = id ∧ t.slotsAt id row.1.2 = some row.2 := by
  rw [orderByKey, SortBy.mem_sortBy, List.mem_filter, decide_eq_true_eq]
  constructor
  · intro h
    obtain ⟨hrow, rfl⟩ := h
    exact ⟨rfl, OrdDict.get?_eq_some_iff.mpr hrow⟩
  · intro h
    obtain ⟨rfl, hrow⟩ := h
    exact ⟨OrdDict.get?_eq_some_iff.mp hrow, rfl⟩

/-- The pending writes of one task, whose slots are the given entries in the order of
    their indices. -/
theorem pendingAt_filter_task {t : WritesTable} {id task : String}
    {entries : List (WriteKey × (String × PyVal))} (htask : ∀ e ∈ entries, e.1.1 = task)
    (hsorted : entries.Pairwise fun a b => a.1.2 < b.1.2)
    (hslots : ∀ i cv, t.slotsAt id (task, i) = some cv ↔ ((task, i), cv) ∈ entries) :
    (t.pendingAt id).filter (fun w => w.taskId = task) =
      entries.map fun e => ⟨e.1.1, e.2.1, e.2.2⟩ := by
  have hrows : (orderByKey (t.entries.filter fun w => w.1.1 = id)).filter (fun w => w.1.2.1 = task) =
      entries.map fun e => ((id, e.1), e.2) := by
    have hasymm : ∀ a b : (String × WriteKey) × (String × PyVal),
        toLex a.1.2 < toLex b.1.2 → toLex b.1.2 < toLex a.1.2 → a = b :=
      fun a b hab hba => absurd hba hab.asymm
    refine List.Perm.eq_of_pairwise (fun a b _ _ => hasymm a b) ((t.pairwise_rowsAt id).filter _) ?_ ?_
    · refine List.pairwise_map.mpr (hsorted.imp_of_mem fun {a b} ha hb hab => ?_)
      rw [Prod.Lex.toLex_lt_toLex]
      exact Or.inr ⟨(htask a ha).trans (htask b hb).symm, hab⟩
    · refine (List.perm_ext_iff_of_nodup (((t.pairwise_rowsAt id).imp ?_).filter _) ?_).mpr ?_
      · intro a b hab heq
        rw [heq] at hab
        exact lt_irrefl _ hab
      · refine List.Nodup.map ?_ (hsorted.imp ?_)
        · intro a b hab
          obtain ⟨hk, hv⟩ := Prod.mk.inj hab
          exact Prod.ext (Prod.mk.inj hk).2 hv
        · intro a b hab heq
          rw [heq] at hab
          exact lt_irrefl _ hab
      · intro row
        rw [List.mem_filter, mem_rowsAt_iff, decide_eq_true_eq, List.mem_map]
        constructor
        · intro h
          obtain ⟨⟨rfl, hslot⟩, rfl⟩ := h
          exact ⟨(row.1.2, row.2), (hslots _ _).mp hslot, rfl⟩
        · intro h
          obtain ⟨e, he, rfl⟩ := h
          have hkey : e.1 = (task, e.1.2) := Prod.ext (htask e he) rfl
          refine ⟨⟨rfl, ?_⟩, htask e he⟩
          show t.slotsAt id e.1 = some e.2
          rw [hkey, hslots, ← hkey]
          exact he
  rw [pendingAt, List.filter_map]
  calc ((orderByKey (t.entries.filter fun w => w.1.1 = id)).filter
          ((fun w : PendingWrite => decide (w.taskId = task)) ∘ WriteRow.toPending)).map
            WriteRow.toPending
      = (entries.map fun e => ((id, e.1), e.2)).map WriteRow.toPending :=
        congrArg (List.map WriteRow.toPending) hrows
    _ = entries.map fun e => ⟨e.1.1, e.2.1, e.2.2⟩ := by
        rw [List.map_map]
        rfl

/-- `ORDER BY task_id, idx` returns each task's writes in the order of their indices. -/
theorem inIdxOrder_pendingKeys (t : WritesTable) (id : String) :
    InIdxOrder (t.pendingKeys id) := by
  refine List.pairwise_map.mpr ((t.pairwise_rowsAt id).imp ?_)
  intro a b hlt htask
  rcases Prod.Lex.toLex_lt_toLex.mp hlt with hlt | ⟨-, hlt⟩
  · exact absurd htask hlt.ne
  · exact hlt

end WritesTable

/-! ## Agreement -/

section PendingAgreement
variable {V : Type} [DecidableEq V]

def SqliteSaver.putCalls (s : SqliteSaver V) (id : String) (calls : List PutWritesCall) :
    SqliteSaver V :=
  calls.foldl (fun s call => s.putWrites id call.writes call.taskId) s

def PostgresSaver.putCalls (s : PostgresSaver V) (id : String) (calls : List PutWritesCall) :
    PostgresSaver V :=
  calls.foldl (fun s call => s.putWrites id call.writes call.taskId) s

/-- The pending writes that a `get_tuple` returns. -/
def returnedWrites (t : Option (CheckpointTuple V)) : List PendingWrite :=
  (t.map (·.pendingWrites)).getD []

/-- `get_tuple` returns the same set of pending writes from the three savers,
    and each task's writes in the order of their indices. -/
structure PendingAgree (memory : InMemorySaver V) (sqlite : SqliteSaver V)
    (postgres : PostgresSaver V) (id : String) : Prop where
  memory_sqlite : ∀ w, w ∈ returnedWrites (memory.getTuple id) ↔ w ∈ returnedWrites (sqlite.getTuple id)
  memory_postgres : ∀ w,
    w ∈ returnedWrites (memory.getTuple id) ↔ w ∈ returnedWrites (postgres.getTuple id)
  memoryOrder : InIdxOrder (memory.pendingKeys id)
  sqliteOrder : InIdxOrder (sqlite.writes.pendingKeys id)
  postgresOrder : InIdxOrder (postgres.writes.pendingKeys id)

omit [DecidableEq V] in
theorem writes_putCalls_sqlite (s : SqliteSaver V) (id : String) (calls : List PutWritesCall) :
    s.putCalls id calls = { s with writes := s.writes.putCalls id calls } := by
  rw [SqliteSaver.putCalls, WritesTable.putCalls]
  exact List.foldl_hom (fun t : WritesTable => ({ s with writes := t } : SqliteSaver V)) fun _ _ => rfl

omit [DecidableEq V] in
theorem writes_putCalls_postgres (s : PostgresSaver V) (id : String) (calls : List PutWritesCall) :
    s.putCalls id calls = { s with writes := s.writes.putCalls id calls } := by
  rw [PostgresSaver.putCalls, WritesTable.putCalls]
  exact List.foldl_hom (fun t : WritesTable => ({ s with writes := t } : PostgresSaver V)) fun _ _ => rfl

theorem writesAt_of_no_pending {memory : InMemorySaver V} {id : String}
    (h : (memory.getTuple id).map (·.pendingWrites) = some []) :
    memory.writesAt id = ∅ ∧ ∃ row, memory.storage.get? id = some row := by
  rw [InMemorySaver.getTuple, Option.map_map, Option.map_eq_some_iff] at h
  obtain ⟨row, hrow, hnil⟩ := h
  refine ⟨OrdDict.ext ?_, row, hrow⟩
  have hentries : (memory.writesAt id).entries = [] := by
    simpa [InMemorySaver.tupleOf, OrdDict.values] using hnil
  rw [hentries]
  rfl

theorem slotsAt_of_no_pending {t : WritesTable} {id : String} (h : t.pendingAt id = []) :
    t.slotsAt id = fun _ => none := by
  funext k
  cases hk : t.slotsAt id k with
  | none => rfl
  | some cv =>
    have hmem : ⟨k.1, cv.1, cv.2⟩ ∈ t.pendingAt id := (t.mem_pendingAt_iff id _).mpr ⟨k.2, hk⟩
    rw [h] at hmem
    cases hmem

end PendingAgreement

/-- A task fails, is run again and fails again after a write of its own. -/
def failedTwice : List PutWritesCall :=
  [⟨"task", [(Const.ERROR, .str "first")], ""⟩,
    ⟨"task", [("log", .str "a"), (Const.ERROR, .str "second")], ""⟩]

/-- A task fails, is run again and fails with the same error after a write. -/
def failedAlike : List PutWritesCall :=
  [⟨"task", [(Const.ERROR, .str "first")], ""⟩,
    ⟨"task", [("log", .str "a"), (Const.ERROR, .str "first")], ""⟩]

end LangGraph
