import Mathlib.Data.Prod.Lex
import Mathlib.Algebra.Order.Group.Int
import LangGraph.Lib.Lineage
import LangGraph.Algo

/- The saver contract of `checkpoint/base/__init__.py`.

   Correspondence (source ↔ Lean):
     `PendingWrite`, `CheckpointTuple`              ↔ `PendingWrite`, `CheckpointTuple V`
     `WRITES_IDX_MAP.get(c, idx)`                   ↔ `writeIdx`
     `BaseCheckpointSaver.get_delta_channel_history` ↔ `defaultHistory`
   A saver is modelled for one thread and one namespace, so a config is the id
   of a checkpoint. The loop over parents carries fuel; `Lineage.walk_of_le`
   shows that any fuel above the number of stored checkpoints gives the same
   walk when the parent links are acyclic (on a cycle the source does not end).
   `defaultHistory_spec`: what the loop returns for a channel is
   `Lineage.collect` over the walk from the target's parent. -/
namespace LangGraph

structure PendingWrite where
  taskId : String
  channel : String
  value : PyVal
  deriving DecidableEq

/-- `CheckpointMetadata`, as far as the runtime reads it back. -/
structure Metadata where
  source : String
  step : Int
  /-- `counters_since_delta_snapshot`: updates and supersteps. -/
  counters : OrdDict String (Nat × Nat)

structure CheckpointTuple (V : Type) where
  checkpoint : Checkpoint V
  metadata : Metadata
  parentId : Option String
  pendingWrites : List PendingWrite

structure DeltaChannelHistory where
  writes : List PendingWrite
  seed : Option PyVal
  deriving DecidableEq

/-- `WRITES_IDX_MAP` -/
def writesIdxMap : String → Option Int := fun c =>
  if c = Const.ERROR then some (-1)
  else if c = Const.SCHEDULED then some (-2)
  else if c = Const.INTERRUPT then some (-3)
  else if c = Const.RESUME then some (-4)
  else none

def writeIdx (c : String) (idx : Nat) : Int := (writesIdxMap c).getD idx

/-- The order of `(task_id, idx)` keys. -/
abbrev WriteKey := String × Int

section History
variable {V : Type}

/-- The state of the loop of `get_delta_channel_history`. -/
structure HistoryWalk where
  collectedByCh : OrdDict String (List PendingWrite)
  seedByCh : OrdDict String PyVal
  remaining : List String

def HistoryWalk.init (channels : List String) : HistoryWalk :=
  ⟨OrdDict.tabulate channels fun _ => [], ∅, channels.dedup⟩

/-- `collected_by_ch[ch].append(write)` for the writes of a list to channels that remain. -/
def HistoryWalk.collectWrites (st : HistoryWalk) (writes : List PendingWrite) : HistoryWalk :=
  { st with
    collectedByCh := writes.foldl
      (fun d w =>
        if st.remaining.contains w.channel then
          d.set w.channel (d.getD w.channel [] ++ [w])
        else d)
      st.collectedByCh }

/-- `seed_by_ch[ch] = …` for the channels of a list that have a value. -/
def assignSeeds (value : String → Option PyVal) (channels : List String)
    (seeds : OrdDict String PyVal) : OrdDict String PyVal :=
  channels.foldl
    (fun d ch => match value ch with
      | some v => d.set ch v
      | none => d)
    seeds

/-- `seed_by_ch[ch] = …; remaining.discard(ch)` for the channels that have a value. -/
def HistoryWalk.takeSeeds (st : HistoryWalk) (value : String → Option PyVal) : HistoryWalk :=
  { st with
    seedByCh := assignSeeds value st.remaining st.seedByCh
    remaining := st.remaining.filter fun ch => (value ch).isNone }

def HistoryWalk.result (st : HistoryWalk) (channels : List String) :
    OrdDict String DeltaChannelHistory :=
  OrdDict.tabulate channels fun ch =>
    ⟨(st.collectedByCh.getD ch []).reverse, st.seedByCh.get? ch⟩

/-- The `while cursor_config is not None and remaining` loop. -/
def defaultWalk (getTuple : String → Option (CheckpointTuple V)) :
    Nat → Option String → HistoryWalk → HistoryWalk
  | 0, _, st => st
  | _ + 1, none, st => st
  | n + 1, some cursor, st =>
    if st.remaining.isEmpty then st
    else
      match getTuple cursor with
      | none => st
      | some tup =>
        let st := st.collectWrites tup.pendingWrites.reverse
        let st := st.takeSeeds tup.checkpoint.channelValues.get?
        defaultWalk getTuple n tup.parentId st

/-- `BaseCheckpointSaver.get_delta_channel_history` -/
def defaultHistory (getTuple : String → Option (CheckpointTuple V)) (fuel : Nat)
    (target : String) (channels : List String) : OrdDict String DeltaChannelHistory :=
  let cursor := (getTuple target).bind (·.parentId)
  (defaultWalk getTuple fuel cursor (HistoryWalk.init channels)).result channels

/-! ## What the walk returns for one channel -/

/-- The writes of a list to one channel. -/
def writesTo (ch : String) (writes : List PendingWrite) : List PendingWrite :=
  writes.filter fun w => w.channel = ch

def toHistory (h : Option PyVal × List PendingWrite) : DeltaChannelHistory := ⟨h.2, h.1⟩

theorem toHistory_inj {h h' : Option PyVal × List PendingWrite} :
    toHistory h = toHistory h' ↔ h = h' := by
  simp [toHistory, Prod.ext_iff, and_comm]

theorem get?_assignSeeds (value : String → Option PyVal) (ch : String) :
    ∀ (channels : List String) (seeds : OrdDict String PyVal),
      (assignSeeds value channels seeds).get? ch =
        if ch ∈ channels ∧ (value ch).isSome then value ch else seeds.get? ch
  | [], seeds => by simp [assignSeeds]
  | c :: l, seeds => by
    rw [assignSeeds, List.foldl_cons, ← assignSeeds, get?_assignSeeds value ch l]
    by_cases hl : ch ∈ l ∧ (value ch).isSome
    · rw [if_pos hl, if_pos ⟨List.mem_cons_of_mem _ hl.1, hl.2⟩]
    · rw [if_neg hl]
      by_cases hc : ch = c
      · subst hc
        cases hv : value ch with
        | none => simp
        | some v => simp
      · have hcons : ¬(ch ∈ c :: l ∧ (value ch).isSome) := by
          rintro ⟨hm, hs⟩
          exact hl ⟨(List.mem_cons.mp hm).resolve_left hc, hs⟩
        rw [if_neg hcons]
        cases hv : value c with
        | none => rfl
        | some v => exact OrdDict.get?_set_of_ne hc seeds v

namespace HistoryWalk

@[simp] theorem remaining_collectWrites (st : HistoryWalk) (ws : List PendingWrite) :
    (st.collectWrites ws).remaining = st.remaining := rfl

@[simp] theorem seedByCh_collectWrites (st : HistoryWalk) (ws : List PendingWrite) :
    (st.collectWrites ws).seedByCh = st.seedByCh := rfl

@[simp] theorem collectedByCh_takeSeeds (st : HistoryWalk) (value : String → Option PyVal) :
    (st.takeSeeds value).collectedByCh = st.collectedByCh := rfl

theorem mem_remaining_takeSeeds {st : HistoryWalk} {value : String → Option PyVal} {ch : String} :
    ch ∈ (st.takeSeeds value).remaining ↔ ch ∈ st.remaining ∧ value ch = none := by
  simp [takeSeeds, List.mem_filter]

theorem collected_collectWrites (st : HistoryWalk) (ch : String) (ws : List PendingWrite) :
    (st.collectWrites ws).collectedByCh.getD ch [] =
      st.collectedByCh.getD ch [] ++ if ch ∈ st.remaining then writesTo ch ws else [] := by
  unfold collectWrites
  simp only
  generalize st.collectedByCh = d
  induction ws generalizing d with
  | nil => simp [writesTo]
  | cons w ws ih =>
    rw [List.foldl_cons, ih]
    by_cases hw : w.channel ∈ st.remaining
    · by_cases hch : w.channel = ch
      · subst hch
        simp [hw, OrdDict.getD, writesTo]
      · simp [hw, OrdDict.getD, writesTo, hch, OrdDict.get?_set_of_ne (Ne.symm hch)]
    · by_cases hch : w.channel = ch
      · subst hch
        simp [hw]
      · simp [hw, writesTo, hch]

theorem seed_takeSeeds (st : HistoryWalk) (value : String → Option PyVal) (ch : String) :
    (st.takeSeeds value).seedByCh.get? ch =
      if ch ∈ st.remaining ∧ (value ch).isSome then value ch else st.seedByCh.get? ch :=
  get?_assignSeeds value ch st.remaining st.seedByCh

/-- A channel that no longer remains is left alone by later rows. -/
theorem visit_done {st : HistoryWalk} {ch : String} (h : ch ∉ st.remaining)
    (ws : List PendingWrite) (value : String → Option PyVal) :
    ch ∉ ((st.collectWrites ws).takeSeeds value).remaining ∧
      ((st.collectWrites ws).takeSeeds value).collectedByCh.getD ch [] =
        st.collectedByCh.getD ch [] ∧
      ((st.collectWrites ws).takeSeeds value).seedByCh.get? ch = st.seedByCh.get? ch := by
  refine ⟨fun hm => h (mem_remaining_takeSeeds.mp hm).1, ?_, ?_⟩
  · rw [collectedByCh_takeSeeds, collected_collectWrites, if_neg h, List.append_nil]
  · rw [seed_takeSeeds, remaining_collectWrites, if_neg fun hm => h hm.1, seedByCh_collectWrites]

end HistoryWalk

/-- The rows the default walk reads: `get_tuple` along `parent_config`. -/
abbrev tupleWalk (getTuple : String → Option (CheckpointTuple V)) (fuel : Nat)
    (cursor : Option String) : List (String × CheckpointTuple V) :=
  Lineage.walk getTuple (·.parentId) fuel cursor

/-- Value and writes of a channel in a tuple. -/
def tupleValue (ch : String) (e : String × CheckpointTuple V) : Option PyVal :=
  e.2.checkpoint.channelValues.get? ch

def tupleWrites (ch : String) (e : String × CheckpointTuple V) : List PendingWrite :=
  writesTo ch e.2.pendingWrites

theorem defaultWalk_done {getTuple : String → Option (CheckpointTuple V)} {ch : String} :
    ∀ {fuel : Nat} {cursor : Option String} {st : HistoryWalk}, ch ∉ st.remaining →
      (defaultWalk getTuple fuel cursor st).collectedByCh.getD ch [] =
          st.collectedByCh.getD ch [] ∧
        (defaultWalk getTuple fuel cursor st).seedByCh.get? ch = st.seedByCh.get? ch
  | 0, _, _, _ => ⟨rfl, rfl⟩
  | _ + 1, none, _, _ => ⟨rfl, rfl⟩
  | n + 1, some c, st, h => by
    unfold defaultWalk
    split
    · exact ⟨rfl, rfl⟩
    · cases ht : getTuple c with
      | none => exact ⟨rfl, rfl⟩
      | some tup =>
        obtain ⟨h₁, h₂, h₃⟩ := HistoryWalk.visit_done h tup.pendingWrites.reverse
          tup.checkpoint.channelValues.get?
        exact ⟨(defaultWalk_done h₁).1.trans h₂, (defaultWalk_done h₁).2.trans h₃⟩

theorem defaultWalk_spec {getTuple : String → Option (CheckpointTuple V)} {ch : String} :
    ∀ {fuel : Nat} {cursor : Option String} {st : HistoryWalk}, ch ∈ st.remaining →
      st.seedByCh.get? ch = none →
      (defaultWalk getTuple fuel cursor st).collectedByCh.getD ch [] =
          st.collectedByCh.getD ch [] ++
            (Lineage.collect (tupleValue ch) (tupleWrites ch)
              (tupleWalk getTuple fuel cursor)).2.reverse ∧
        (defaultWalk getTuple fuel cursor st).seedByCh.get? ch =
          (Lineage.collect (tupleValue ch) (tupleWrites ch) (tupleWalk getTuple fuel cursor)).1
  | 0, _, _, _, hs => ⟨by simp [defaultWalk, Lineage.walk], by simp [defaultWalk, Lineage.walk, hs]⟩
  | _ + 1, none, _, _, hs => ⟨by simp [defaultWalk], by simp [defaultWalk, hs]⟩
  | n + 1, some c, st, h, hs => by
    have hne : st.remaining.isEmpty = false := by
      cases hr : st.remaining with
      | nil => simp [hr] at h
      | cons _ _ => rfl
    cases ht : getTuple c with
    | none =>
      rw [tupleWalk, Lineage.walk_of_missing ht]
      simp [defaultWalk, hne, ht, hs]
    | some tup =>
      rw [tupleWalk, Lineage.walk_succ_some ht]
      simp only [defaultWalk, hne, ht, Bool.false_eq_true, if_false]
      have hw : (writesTo ch tup.pendingWrites.reverse) =
          (tupleWrites ch (c, tup)).reverse := by
        simp [tupleWrites, writesTo, List.filter_reverse]
      cases hv : tupleValue ch (c, tup) with
      | some v =>
        have hv' : tup.checkpoint.channelValues.get? ch = some v := hv
        have hdone : ch ∉ ((st.collectWrites tup.pendingWrites.reverse).takeSeeds
            tup.checkpoint.channelValues.get?).remaining := by
          rw [HistoryWalk.mem_remaining_takeSeeds, hv']
          simp
        obtain ⟨hc, hd⟩ := defaultWalk_done hdone
        rw [Lineage.collect_cons_some hv, hc, hd, HistoryWalk.collectedByCh_takeSeeds,
          HistoryWalk.collected_collectWrites, if_pos h, hw, HistoryWalk.seed_takeSeeds, hv']
        simp [h]
      | none =>
        have hv' : tup.checkpoint.channelValues.get? ch = none := hv
        have hrem : ch ∈ ((st.collectWrites tup.pendingWrites.reverse).takeSeeds
            tup.checkpoint.channelValues.get?).remaining :=
          HistoryWalk.mem_remaining_takeSeeds.mpr ⟨h, hv'⟩
        have hseed : ((st.collectWrites tup.pendingWrites.reverse).takeSeeds
            tup.checkpoint.channelValues.get?).seedByCh.get? ch = none := by
          rw [HistoryWalk.seed_takeSeeds, hv']
          simpa using hs
        obtain ⟨hc, hd⟩ := defaultWalk_spec hrem hseed
        rw [Lineage.collect_cons_none hv, hc, hd, HistoryWalk.collectedByCh_takeSeeds,
          HistoryWalk.collected_collectWrites, if_pos h, hw]
        simp [List.append_assoc]

/-- The history of a channel is what `collect` reads from the walk that starts at
    the parent of the target. -/
theorem defaultHistory_spec (getTuple : String → Option (CheckpointTuple V)) (fuel : Nat)
    (target : String) (channels : List String) :
    defaultHistory getTuple fuel target channels =
      OrdDict.tabulate channels fun ch =>
        toHistory (Lineage.collect (tupleValue ch) (tupleWrites ch)
          (tupleWalk getTuple fuel ((getTuple target).bind (·.parentId)))) := by
  unfold defaultHistory HistoryWalk.result
  rw [OrdDict.tabulate_eq_iff]
  intro ch hch
  have hrem : ch ∈ (HistoryWalk.init channels).remaining := List.mem_dedup.mpr hch
  obtain ⟨hc, hs⟩ := defaultWalk_spec hrem rfl
  have hinit : (HistoryWalk.init channels).collectedByCh.getD ch [] = [] := by
    simp [HistoryWalk.init, OrdDict.getD, OrdDict.get?_tabulate, hch]
  rw [hc, hs, hinit]
  simp [toHistory]

end History

end LangGraph
