import LangGraph.Lib.Machine
import LangGraph.LoopWrites

/- The list of pending writes in memory against the one in the saver.

   A call of `put_writes` leaves the task's new list in memory, while the saver
   keeps what it holds at an index it does not replace. `Reuses` says when the
   two end up alike: the list gives a special channel once, it uses every index
   that the saver holds for the task, and at the indices that are not special
   the writes held are the ones it has there. `storedWrites_match_iff`: memory
   and saver hold the same writes after every call exactly when every call
   reuses what it finds. `UntrackedValue`s are left out of the comparison: they
   stay in memory by design (`untrackedWrite_not_stored`). -/
namespace LangGraph

/-- The keyed entries of a list of writes that replaces those held for the task. -/
structure Reuses (held new : List (WriteKey × (String × PyVal))) : Prop where
  once : ((new.filter fun e => e.1.2 < 0).map Prod.fst).Nodup
  covers : ∀ e ∈ held, e.1 ∈ new.map Prod.fst
  same : ((held.filter fun e => 0 ≤ e.1.2).map Prod.snd).Perm
    ((new.filter fun e => 0 ≤ e.1.2 ∧ e.1 ∈ held.map Prod.fst).map Prod.snd)

instance (held new : List (WriteKey × (String × PyVal))) : Decidable (Reuses held new) :=
  decidable_of_iff
    (((new.filter fun e => e.1.2 < 0).map Prod.fst).Nodup ∧
      (∀ e ∈ held, e.1 ∈ new.map Prod.fst) ∧
      ((held.filter fun e => 0 ≤ e.1.2).map Prod.snd).Perm
        ((new.filter fun e => 0 ≤ e.1.2 ∧ e.1 ∈ held.map Prod.fst).map Prod.snd))
    ⟨fun ⟨h₁, h₂, h₃⟩ => ⟨h₁, h₂, h₃⟩, fun h => ⟨h.once, h.covers, h.same⟩⟩

/-! ## Keyed entries -/

section Keyed
variable {t : String}

/-- Positions are used once. -/
theorem nodup_ordinary_keyedWrites : ∀ (idx : Nat) (writes : List (String × PyVal)),
    (((keyedWrites t idx writes).filter fun e => 0 ≤ e.1.2).map Prod.fst).Nodup ∧
      ∀ e ∈ (keyedWrites t idx writes), 0 ≤ e.1.2 → (idx : Int) ≤ e.1.2
  | _, [] => by simp [keyedWrites]
  | idx, (c, v) :: rest => by
    obtain ⟨hn, hle⟩ := nodup_ordinary_keyedWrites (idx + 1) rest
    have hhead : 0 ≤ writeIdx c idx → writeIdx c idx = (idx : Int) := by
      intro h
      cases hc : writesIdxMap c with
      | none => rw [writeIdx, hc, Option.getD_none]
      | some i =>
        rw [writeIdx_of_special hc] at h
        exact absurd (writesIdxMap_neg hc) (Int.not_lt.mpr h)
    refine ⟨?_, ?_⟩
    · rw [keyedWrites, List.filter_cons]
      split
      · rename_i h
        have hidx := hhead (of_decide_eq_true h)
        refine List.nodup_cons.mpr ⟨?_, hn⟩
        intro hmem
        obtain ⟨e, he, hek⟩ := List.mem_map.mp hmem
        obtain ⟨he, hpos⟩ := List.mem_filter.mp he
        have hlow := hle e he (of_decide_eq_true hpos)
        rw [hek, show ((t, writeIdx c idx) : WriteKey).2 = writeIdx c idx from rfl, hidx] at hlow
        omega
      · exact hn
    · intro e he hpos
      rcases List.mem_cons.mp he with rfl | he
      · exact (hhead hpos).ge
      · have := hle e he hpos
        omega

theorem nodup_keyedWrites {idx : Nat} {writes : List (String × PyVal)}
    (h : (((keyedWrites t idx writes).filter fun e => e.1.2 < 0).map Prod.fst).Nodup) :
    ((keyedWrites t idx writes).map Prod.fst).Nodup := by
  have hsplit := (List.filter_append_perm (fun e : WriteKey × (String × PyVal) => decide (0 ≤ e.1.2))
    (keyedWrites t idx writes)).map Prod.fst
  have hneg : ((keyedWrites t idx writes).filter fun e => !decide (0 ≤ e.1.2)) =
      (keyedWrites t idx writes).filter fun e => e.1.2 < 0 :=
    List.filter_congr fun e _ => by rw [← decide_not]; exact decide_eq_decide.mpr Int.not_le
  rw [hneg, List.map_append] at hsplit
  refine hsplit.nodup_iff.mp (List.nodup_append.mpr
    ⟨(nodup_ordinary_keyedWrites idx writes).1, h, ?_⟩)
  rintro a ha b hb rfl
  obtain ⟨e, he, rfl⟩ := List.mem_map.mp ha
  obtain ⟨e', he', hee'⟩ := List.mem_map.mp hb
  have hpos : 0 ≤ e.1.2 := of_decide_eq_true (List.mem_filter.mp he).2
  have hlt : e'.1.2 < 0 := of_decide_eq_true (List.mem_filter.mp he').2
  rw [hee'] at hlt
  omega

theorem map_snd_keyedWrites (t : String) : ∀ (idx : Nat) (writes : List (String × PyVal)),
    (keyedWrites t idx writes).map Prod.snd = writes
  | _, [] => rfl
  | idx, (c, v) :: rest => by
    rw [keyedWrites, List.map_cons, map_snd_keyedWrites t (idx + 1) rest]

/-- With distinct keys it does not matter from which end a key is looked up. -/
theorem get_reverse_of_nodup {κ ν : Type} [DecidableEq κ] {l : List (κ × ν)}
    (h : (l.map Prod.fst).Nodup) (k : κ) :
    OrdDictEntries.get l.reverse k = OrdDictEntries.get l k := by
  apply Option.ext
  intro v
  have hr : (l.reverse.map Prod.fst).Nodup := by
    rw [List.map_reverse]
    exact List.nodup_reverse.mpr h
  rw [OrdDictEntries.get_eq_some_iff hr, OrdDictEntries.get_eq_some_iff h, List.mem_reverse]

end Keyed

/-! ## What the saver holds for a task -/

namespace InMemorySaver
variable {V : Type}

/-- The keyed writes of a checkpoint. -/
def keyedAt (s : InMemorySaver V) (id : String) : List (WriteKey × (String × PyVal)) :=
  (s.writesAt id).entries.map fun e => (e.1, (e.2.channel, e.2.value))

def heldBy (s : InMemorySaver V) (id t : String) : List (WriteKey × (String × PyVal)) :=
  (s.keyedAt id).filter fun e => e.1.1 = t

theorem nodup_keyedAt (s : InMemorySaver V) (id : String) :
    ((s.keyedAt id).map Prod.fst).Nodup := by
  have hkeys : (s.keyedAt id).map Prod.fst = (s.writesAt id).keys := by
    rw [keyedAt, List.map_map]
    rfl
  rw [hkeys]
  exact (s.writesAt id).keys_nodup

theorem nodup_heldBy (s : InMemorySaver V) (id t : String) :
    ((s.heldBy id t).map Prod.fst).Nodup :=
  (s.nodup_keyedAt id).sublist (List.filter_sublist.map _)

theorem mem_keyedAt {s : InMemorySaver V} {id : String} {k : WriteKey} {cv : String × PyVal} :
    (k, cv) ∈ s.keyedAt id ↔ s.slotsAt id k = some cv := by
  rw [slotsAt, Option.map_eq_some_iff]
  constructor
  · intro h
    obtain ⟨⟨k', w⟩, he, hkv⟩ := List.mem_map.mp h
    obtain ⟨rfl, rfl⟩ := Prod.mk.inj hkv
    exact ⟨w, OrdDict.get?_eq_some_iff.mpr he, rfl⟩
  · rintro ⟨w, hw, rfl⟩
    exact List.mem_map.mpr ⟨_, OrdDict.get?_eq_some_iff.mp hw, rfl⟩

theorem mem_heldBy {s : InMemorySaver V} {id t : String} {k : WriteKey} {cv : String × PyVal} :
    (k, cv) ∈ s.heldBy id t ↔ k.1 = t ∧ s.slotsAt id k = some cv := by
  rw [heldBy, List.mem_filter, mem_keyedAt, decide_eq_true_iff]
  exact and_comm

theorem mem_keys_heldBy {s : InMemorySaver V} {id t : String} {k : WriteKey} :
    k ∈ (s.heldBy id t).map Prod.fst ↔ k.1 = t ∧ (s.slotsAt id k).isSome := by
  rw [List.mem_map, Option.isSome_iff_exists]
  constructor
  · rintro ⟨⟨k', cv⟩, he, rfl⟩
    obtain ⟨ht, hk⟩ := mem_heldBy.mp he
    exact ⟨ht, cv, hk⟩
  · rintro ⟨ht, cv, hk⟩
    exact ⟨(k, cv), mem_heldBy.mpr ⟨ht, hk⟩, rfl⟩

section Put
variable (s : InMemorySaver V) (id t : String) (ws : List (String × PyVal)) (path : String)

theorem keys_heldBy_putWrites (k : WriteKey) :
    k ∈ ((s.putWrites id ws t path).heldBy id t).map Prod.fst ↔
      k ∈ (s.heldBy id t).map Prod.fst ∨ k ∈ (keyedWrites t 0 ws).map Prod.fst := by
  have hslots := s.slotsAt_putWrites id ⟨t, ws, path⟩
  rw [mem_keys_heldBy, mem_keys_heldBy, hslots, Slots.putMemory, Slots.isSome_put]
  constructor
  · rintro ⟨ht, h | h⟩
    · exact Or.inl ⟨ht, h⟩
    · exact Or.inr h
  · rintro (⟨ht, h⟩ | h)
    · exact ⟨ht, Or.inl h⟩
    · obtain ⟨e, he, rfl⟩ := List.mem_map.mp h
      exact ⟨(mem_keyedWrites he).1, Or.inr h⟩

/-- Where the new writes have distinct keys: kept is what has another index, or
    one of an ordinary channel; added is what is special, or has a new index. -/
theorem heldBy_putWrites_perm (hn : ((keyedWrites t 0 ws).map Prod.fst).Nodup) :
    ((s.putWrites id ws t path).heldBy id t).Perm
      (((s.heldBy id t).filter fun e =>
          0 ≤ e.1.2 ∨ e.1 ∉ (keyedWrites t 0 ws).map Prod.fst) ++
        (keyedWrites t 0 ws).filter fun e => e.1.2 < 0 ∨ e.1 ∉ (s.heldBy id t).map Prod.fst) := by
  have hslots := s.slotsAt_putWrites id ⟨t, ws, path⟩
  refine (List.perm_ext_iff_of_nodup (nodup_heldBy ..).of_map ?_).mpr ?_
  · refine List.nodup_append.mpr
      ⟨((s.nodup_heldBy id t).of_map).filter _, (hn.of_map).filter _, ?_⟩
    rintro ⟨k, cv⟩ ha ⟨k', cv'⟩ hb he
    obtain ⟨rfl, rfl⟩ := Prod.mk.inj he
    obtain ⟨ha, hka⟩ := List.mem_filter.mp ha
    obtain ⟨hb, hkb⟩ := List.mem_filter.mp hb
    rcases of_decide_eq_true hkb with hneg | hout
    · rcases of_decide_eq_true hka with hpos | hout
      · exact absurd hneg (Int.not_lt.mpr hpos)
      · exact hout (List.mem_map.mpr ⟨_, hb, rfl⟩)
    · exact hout (List.mem_map.mpr ⟨_, ha, rfl⟩)
  · rintro ⟨k, cv⟩
    rw [List.mem_append, List.mem_filter, List.mem_filter, decide_eq_true_iff, decide_eq_true_iff,
      mem_heldBy, mem_heldBy, hslots, Slots.putMemory, Slots.put, PutWritesCall.entries,
      get_reverse_of_nodup hn]
    have hnew : OrdDictEntries.get (keyedWrites t 0 ws) k = some cv ↔ (k, cv) ∈ keyedWrites t 0 ws :=
      OrdDictEntries.get_eq_some_iff hn
    have hout : OrdDictEntries.get (keyedWrites t 0 ws) k = none ↔
        k ∉ (keyedWrites t 0 ws).map Prod.fst := OrdDictEntries.get_eq_none_iff
    have htask : (k, cv) ∈ keyedWrites t 0 ws → k.1 = t := fun h => (mem_keyedWrites h).1
    by_cases hk : k.2 < 0
    · have hpos : ¬0 ≤ k.2 := Int.not_le.mpr hk
      rw [if_pos (decide_eq_true hk), Option.or_eq_some_iff, hnew, hout]
      constructor
      · rintro ⟨ht, h | ⟨h, hs⟩⟩
        · exact Or.inr ⟨h, Or.inl hk⟩
        · exact Or.inl ⟨⟨ht, hs⟩, Or.inr h⟩
      · rintro (⟨⟨ht, hs⟩, h | h⟩ | ⟨h, -⟩)
        · exact absurd h hpos
        · exact ⟨ht, Or.inr ⟨h, hs⟩⟩
        · exact ⟨htask h, Or.inl h⟩
    · have hheld : k.1 = t → (k ∉ (s.heldBy id t).map Prod.fst ↔ s.slotsAt id k = none) := by
        intro ht
        rw [mem_keys_heldBy, Option.isSome_iff_ne_none]
        simp [ht]
      rw [if_neg (fun h => hk (of_decide_eq_true h)), Option.or_eq_some_iff, hnew]
      constructor
      · rintro ⟨ht, h | ⟨hs, h⟩⟩
        · exact Or.inl ⟨⟨ht, h⟩, Or.inl (Int.not_lt.mp hk)⟩
        · exact Or.inr ⟨h, Or.inr ((hheld ht).mpr hs)⟩
      · rintro (⟨⟨ht, hs⟩, -⟩ | ⟨h, hneg | hnot⟩)
        · exact ⟨ht, Or.inl hs⟩
        · exact absurd hneg hk
        · exact ⟨htask h, Or.inr ⟨(hheld (htask h)).mp hnot, h⟩⟩

/-- A special channel has one place among the writes held for a task. -/
theorem length_heldBy_special_le (hkeyed : (s.slotsAt id).WellKeyed) {c : String} {i : Int}
    (hc : writesIdxMap c = some i) :
    ((s.heldBy id t).filter fun e => e.2.1 = c).length ≤ 1 := by
  have hone : ∀ e ∈ (s.heldBy id t).filter (fun e => e.2.1 = c), e.1 = (t, i) := by
    rintro ⟨k, cv⟩ he
    obtain ⟨he, hcv⟩ := List.mem_filter.mp he
    obtain ⟨ht, hs⟩ := mem_heldBy.mp he
    obtain ⟨n, hn⟩ := hkeyed k cv hs
    rw [show cv.1 = c from of_decide_eq_true hcv, writeIdx_of_special hc] at hn
    exact Prod.ext ht hn
  have hn : (((s.heldBy id t).filter fun e => e.2.1 = c).map Prod.fst).Nodup :=
    (s.nodup_heldBy id t).sublist (List.filter_sublist.map _)
  have hsub : (((s.heldBy id t).filter fun e => e.2.1 = c).map Prod.fst) ⊆ [(t, i)] := by
    intro k hk
    obtain ⟨e, he, rfl⟩ := List.mem_map.mp hk
    rw [hone e he]
    exact List.mem_singleton_self _
  rw [← List.length_map Prod.fst]
  exact hn.length_le_of_subset hsub

theorem wellKeyed_putWrites (hkeyed : (s.slotsAt id).WellKeyed) :
    ((s.putWrites id ws t path).slotsAt id).WellKeyed := by
  rw [s.slotsAt_putWrites id ⟨t, ws, path⟩]
  exact hkeyed.put

/-- If the saver ends up with the list, the list gives no special channel twice. -/
theorem once_of_heldBy_perm (hkeyed : (s.slotsAt id).WellKeyed)
    (hp : (((s.putWrites id ws t path).heldBy id t).map Prod.snd).Perm ws) :
    (((keyedWrites t 0 ws).filter fun e => e.1.2 < 0).map Prod.fst).Nodup := by
  rw [List.nodup_iff_count_le_one]
  intro k
  by_cases hmem : k ∈ ((keyedWrites t 0 ws).filter fun e => e.1.2 < 0).map Prod.fst
  · obtain ⟨e, he, rfl⟩ := List.mem_map.mp hmem
    obtain ⟨he, hneg⟩ := List.mem_filter.mp he
    obtain ⟨-, -, n, hn⟩ := mem_keyedWrites he
    have hc : writesIdxMap e.2.1 = some e.1.2 :=
      writesIdxMap_of_writeIdx_neg hn (of_decide_eq_true hneg)
    -- whatever sits at that key is a write to the same channel
    have hchan : ∀ e' ∈ keyedWrites t 0 ws, (e'.1 == e.1) = true →
        decide (e'.2.1 = e.2.1) = true := by
      intro e' he' hkey
      obtain ⟨-, -, m, hm⟩ := mem_keyedWrites he'
      rw [eq_of_beq hkey] at hm
      exact decide_eq_true ((writeIdx_eq_special_iff hc m).mp hm.symm)
    calc List.count e.1 (((keyedWrites t 0 ws).filter fun e => e.1.2 < 0).map Prod.fst)
        ≤ List.count e.1 ((keyedWrites t 0 ws).map Prod.fst) :=
          (List.filter_sublist.map _).count_le _
      _ = (keyedWrites t 0 ws).countP fun e' => e'.1 == e.1 := by
          rw [List.count, List.countP_map]
          rfl
      _ ≤ (keyedWrites t 0 ws).countP fun e' => decide (e'.2.1 = e.2.1) :=
          List.countP_mono_left hchan
      _ = ws.countP fun w => decide (w.1 = e.2.1) := by
          conv => rhs; rw [← map_snd_keyedWrites t 0 ws, List.countP_map]
          rfl
      _ = (((s.putWrites id ws t path).heldBy id t).map Prod.snd).countP
            fun w => decide (w.1 = e.2.1) := (hp.countP_eq _).symm
      _ = (((s.putWrites id ws t path).heldBy id t).filter fun e' => e'.2.1 = e.2.1).length := by
          rw [List.countP_map, List.countP_eq_length_filter]
          rfl
      _ ≤ 1 := length_heldBy_special_le _ id t (s.wellKeyed_putWrites id t ws path hkeyed) hc
  · rw [List.count_eq_zero_of_not_mem hmem]
    exact Nat.zero_le 1

/-- After the call the saver holds, up to order, the new list for the task
    exactly when the list reuses what the saver held. -/
theorem heldBy_putWrites_perm_iff (hkeyed : (s.slotsAt id).WellKeyed) :
    (((s.putWrites id ws t path).heldBy id t).map Prod.snd).Perm ws ↔
      Reuses (s.heldBy id t) (keyedWrites t 0 ws) := by
  have hrest : ∀ e : WriteKey × (String × PyVal),
      (!decide (e.1.2 < 0 ∨ e.1 ∉ (s.heldBy id t).map Prod.fst)) =
        decide (0 ≤ e.1.2 ∧ e.1 ∈ (s.heldBy id t).map Prod.fst) := by
    intro e
    rw [← decide_not]
    apply decide_eq_decide.mpr
    rw [not_or, not_not, Int.not_lt]
  -- the new entries: those that are added, and those at an index that is kept
  have hsplit := (List.filter_append_perm (fun e : WriteKey × (String × PyVal) =>
    decide (e.1.2 < 0 ∨ e.1 ∉ (s.heldBy id t).map Prod.fst)) (keyedWrites t 0 ws)).map Prod.snd
  rw [map_snd_keyedWrites, List.map_append, List.filter_congr fun e _ => hrest e] at hsplit
  -- what is kept when no index of the task is left out
  have hkept : (∀ e ∈ s.heldBy id t, e.1 ∈ (keyedWrites t 0 ws).map Prod.fst) →
      ((s.heldBy id t).filter fun e => 0 ≤ e.1.2 ∨ e.1 ∉ (keyedWrites t 0 ws).map Prod.fst) =
        (s.heldBy id t).filter fun e => 0 ≤ e.1.2 := by
    intro hcovers
    refine List.filter_congr fun e he => decide_eq_decide.mpr ?_
    rw [or_iff_left (not_not.mpr (hcovers e he))]
  constructor
  · intro hp
    have hone := s.once_of_heldBy_perm id t ws path hkeyed hp
    have hn := nodup_keyedWrites hone
    have hcovers : ∀ e ∈ s.heldBy id t, e.1 ∈ (keyedWrites t 0 ws).map Prod.fst := by
      have hsub : (keyedWrites t 0 ws).map Prod.fst ⊆
          ((s.putWrites id ws t path).heldBy id t).map Prod.fst :=
        fun k hk => (s.keys_heldBy_putWrites id t ws path k).mpr (Or.inr hk)
      have hlen : (((s.putWrites id ws t path).heldBy id t).map Prod.fst).length ≤
          ((keyedWrites t 0 ws).map Prod.fst).length := by
        have hnew := congrArg List.length (map_snd_keyedWrites t 0 ws)
        have hnext := hp.length_eq
        rw [List.length_map] at hnew hnext
        rw [List.length_map, List.length_map, hnew, hnext]
      have hperm := (List.subperm_of_subset hn hsub).perm_of_length_le hlen
      intro e he
      rw [hperm.mem_iff]
      exact (s.keys_heldBy_putWrites id t ws path e.1).mpr (Or.inl (List.mem_map_of_mem he))
    refine ⟨hone, hcovers, ?_⟩
    have hall := ((s.heldBy_putWrites_perm id t ws path hn).map Prod.snd).symm.trans
      (hp.trans hsplit.symm)
    rw [hkept hcovers, List.map_append] at hall
    exact (List.perm_append_left_iff _).mp (List.perm_append_comm.trans hall)
  · intro h
    have hn := nodup_keyedWrites h.once
    refine ((s.heldBy_putWrites_perm id t ws path hn).map Prod.snd).trans ?_
    rw [hkept h.covers, List.map_append]
    exact (List.perm_append_comm.trans (h.same.append_left _)).trans hsplit

end Put

end InMemorySaver

/-! ## The list in memory -/

/-- Two lists are alike up to order when they are inside and outside of `p`. -/
theorem perm_iff_filter {α : Type} (p : α → Bool) {l l' : List α} :
    l.Perm l' ↔ (l.filter p).Perm (l'.filter p) ∧
      (l.filter fun a => !p a).Perm (l'.filter fun a => !p a) := by
  constructor
  · exact fun h => ⟨h.filter _, h.filter _⟩
  · rintro ⟨h, h'⟩
    exact ((List.filter_append_perm p l).symm.trans (h.append h')).trans (List.filter_append_perm p l')

namespace PendingLoop
variable {V : Type}

/-- A pending write as it is saved. -/
def savedWrite (l : PendingLoop V) (w : PendingWrite) : Option PendingWrite :=
  (l.saveable (w.channel, w.value)).map fun cv => ⟨w.taskId, cv.1, cv.2⟩

/-- Memory and saver hold the same writes, up to order, but for what is not saved. -/
def Match (l : PendingLoop V) : Prop :=
  (l.checkpointPendingWrites.filterMap l.savedWrite).Perm l.storedWrites

instance (l : PendingLoop V) : Decidable l.Match :=
  inferInstanceAs (Decidable ((l.checkpointPendingWrites.filterMap l.savedWrite).Perm l.storedWrites))

/-- The stored writes carry the task of their key, at an index of their channel. -/
structure WellStored (l : PendingLoop V) : Prop where
  byTask : l.saver.KeyedByTask l.checkpointId
  wellKeyed : (l.saver.slotsAt l.checkpointId).WellKeyed

/-- The task's list finds in the saver what it replaces in memory. -/
def ReusesStored (l : PendingLoop V) (taskId : String) (writes : List (String × PyVal)) : Prop :=
  writes = [] ∨
    Reuses (l.saver.heldBy l.checkpointId taskId)
      (keyedWrites taskId 0 (l.writesToSave taskId (dedupSpecial writes)))

def keyedPending (e : WriteKey × (String × PyVal)) : PendingWrite := ⟨e.1.1, e.2.1, e.2.2⟩

theorem storedWrites_eq {l : PendingLoop V} (h : l.WellStored) :
    l.storedWrites = (l.saver.keyedAt l.checkpointId).map keyedPending := by
  rw [storedWrites, OrdDict.values, InMemorySaver.keyedAt, List.map_map, List.map_map]
  apply List.map_congr_left
  intro e he
  have ht := h.byTask e.1 e.2 (OrdDict.get?_eq_some_iff.mpr he)
  simp [InMemorySaver.StoredWrite.toPending, keyedPending, ht]

theorem filterMap_pendingOf (l : PendingLoop V) (t : String) (ws : List (String × PyVal)) :
    (pendingOf t ws).filterMap l.savedWrite = pendingOf t (ws.filterMap l.saveable) := by
  induction ws with
  | nil => rfl
  | cons w ws ih =>
    rw [pendingOf, List.map_cons, List.filterMap_cons, List.filterMap_cons, savedWrite]
    cases l.saveable w with
    | none => exact ih
    | some cv => exact congrArg (⟨t, cv.1, cv.2⟩ :: ·) ih

theorem taskId_savedWrite {l : PendingLoop V} {w w' : PendingWrite}
    (h : l.savedWrite w = some w') : w'.taskId = w.taskId := by
  obtain ⟨cv, -, rfl⟩ := Option.map_eq_some_iff.mp h
  rfl

/-- Saving keeps the writes of each task apart. -/
theorem filter_filterMap_savedWrite (l : PendingLoop V) (p : String → Bool) (ws : List PendingWrite) :
    (ws.filterMap l.savedWrite).filter (fun w => p w.taskId) =
      (ws.filter fun w => p w.taskId).filterMap l.savedWrite := by
  induction ws with
  | nil => rfl
  | cons w ws ih =>
    rw [List.filterMap_cons, List.filter_cons]
    cases hw : l.savedWrite w with
    | none =>
      rw [ih]
      split
      · rw [List.filterMap_cons, hw]
      · rfl
    | some w' =>
      rw [List.filter_cons, taskId_savedWrite hw, ih]
      split
      · rw [List.filterMap_cons, hw]
      · rfl

/-! ## One call -/

section Call
variable (l : PendingLoop V) (t : String) (ws : List (String × PyVal)) (path : String)

theorem putWrites_of_ne_nil (hws : ws ≠ []) :
    l.putWrites t ws path =
      { l with
        checkpointPendingWrites := l.remaining t ++ pendingOf t (dedupSpecial ws)
        saver := if l.durability = .exit then l.saver
          else l.saver.putWrites l.checkpointId (l.writesToSave t (dedupSpecial ws)) t path } := by
  rw [putWrites, if_neg (by simpa using hws)]

theorem filter_remaining_of_ne :
    (l.remaining t).filter (fun w => !decide (w.taskId = t)) =
      l.checkpointPendingWrites.filter fun w => !decide (w.taskId = t) := by
  unfold remaining
  split
  · rw [List.filter_filter]
    refine List.filter_congr fun w _ => ?_
    by_cases hw : w.taskId = t <;> simp [hw]
  · rw [List.filter_filter]
    refine List.filter_congr fun w _ => ?_
    by_cases hw : w.taskId = t <;> simp [hw]

theorem filter_pendingOf : (pendingOf t ws).filter (fun w => w.taskId = t) = pendingOf t ws := by
  apply List.filter_eq_self.mpr
  intro w hw
  obtain ⟨cv, -, rfl⟩ := List.mem_map.mp hw
  exact decide_eq_true rfl

theorem filter_pendingOf_ne :
    (pendingOf t ws).filter (fun w => !decide (w.taskId = t)) = [] := by
  apply List.filter_eq_nil_iff.mpr
  intro w hw
  obtain ⟨cv, -, rfl⟩ := List.mem_map.mp hw
  simp

/-- The task's part of the list after the call. -/
theorem filter_next_self :
    (l.remaining t ++ pendingOf t ws).filter (fun w => w.taskId = t) =
      pendingOf t (l.merged t ws) := by
  rw [List.filter_append, filter_pendingOf, merged]
  split
  · rw [pendingOf, pendingOf, List.map_append, List.map_map]
    congr 1
    refine ((List.map_congr_left ?_).trans (List.map_id _)).symm
    intro w hw
    have ht : w.taskId = t := of_decide_eq_true (List.mem_filter.mp hw).2
    simp [← ht]
  · rename_i hnull
    rw [remaining, if_neg hnull, List.filter_filter]
    have hnone : (l.checkpointPendingWrites.filter fun w =>
        decide (w.taskId = t) && decide (w.taskId ≠ t)) = [] := by
      apply List.filter_eq_nil_iff.mpr
      intro w _
      by_cases hw : w.taskId = t <;> simp [hw]
    rw [hnone, List.nil_append]

/-- The saver's writes of the task, and of the others. -/
theorem filter_keyedPending (s : List (WriteKey × (String × PyVal))) (p : String → Bool) :
    (s.map keyedPending).filter (fun w => p w.taskId) =
      (s.filter fun e => p e.1.1).map keyedPending := by
  rw [List.filter_map]
  rfl

theorem storedWrites_self (h : l.WellStored) :
    l.storedWrites.filter (fun w => w.taskId = t) =
      pendingOf t ((l.saver.heldBy l.checkpointId t).map Prod.snd) := by
  rw [storedWrites_eq h, filter_keyedPending _ (fun t' => decide (t' = t)), pendingOf, List.map_map]
  apply List.map_congr_left
  intro e he
  have ht : e.1.1 = t := of_decide_eq_true (List.mem_filter.mp he).2
  simp [keyedPending, ← ht]

theorem WellStored.putWrites {l : PendingLoop V} (h : l.WellStored) (t : String)
    (ws : List (String × PyVal)) (path : String) : (l.putWrites t ws path).WellStored := by
  by_cases hws : ws = []
  · rw [hws]
    exact h
  · rw [putWrites_of_ne_nil l t ws path hws]
    split
    · exact ⟨h.byTask, h.wellKeyed⟩
    · exact ⟨h.byTask.putWrites ⟨t, _, path⟩, l.saver.wellKeyed_putWrites _ t _ path h.wellKeyed⟩

/-- The call leaves what the saver holds for the other tasks. -/
theorem storedWrites_other (h : l.WellStored) :
    ((l.putWrites t ws path).storedWrites.filter fun w => !decide (w.taskId = t)).Perm
      (l.storedWrites.filter fun w => !decide (w.taskId = t)) := by
  rw [storedWrites_eq (h.putWrites t ws path), storedWrites_eq h,
    filter_keyedPending _ (fun t' => !decide (t' = t)),
    filter_keyedPending _ (fun t' => !decide (t' = t))]
  apply List.Perm.map
  refine (List.perm_ext_iff_of_nodup
    ((InMemorySaver.nodup_keyedAt ..).of_map.filter _)
    ((InMemorySaver.nodup_keyedAt ..).of_map.filter _)).mpr ?_
  rintro ⟨k, cv⟩
  rw [List.mem_filter, List.mem_filter, InMemorySaver.mem_keyedAt, InMemorySaver.mem_keyedAt]
  refine and_congr_left ?_
  intro hk
  by_cases hws : ws = []
  · rw [hws]
    rfl
  · rw [putWrites_of_ne_nil l t ws path hws]
    split
    · rfl
    · have hmem : k ∉ (PutWritesCall.mk t (l.writesToSave t (dedupSpecial ws)) path).keys := by
        intro h
        obtain ⟨e, he, hek⟩ := List.mem_map.mp h
        have htask := (mem_keyedWrites he).1
        rw [hek] at htask
        simp [htask] at hk
      have hput := l.saver.slotsAt_putWrites l.checkpointId
        ⟨t, l.writesToSave t (dedupSpecial ws), path⟩
      rw [show ((l.saver.putWrites l.checkpointId (l.writesToSave t (dedupSpecial ws)) t
        path).slotsAt l.checkpointId k) = l.saver.slotsAt l.checkpointId k from by
          rw [hput, Slots.putMemory, Slots.put_of_not_mem _ hmem]]

/-- From matching lists a call ends with matching lists exactly when it reuses
    what it finds. -/
theorem match_putWrites_iff (hd : l.durability ≠ .exit) (hs : l.WellStored) (hm : l.Match) :
    (l.putWrites t ws path).Match ↔ l.ReusesStored t ws := by
  by_cases hws : ws = []
  · rw [hws]
    exact ⟨fun _ => Or.inl rfl, fun _ => hm⟩
  have hnext := putWrites_of_ne_nil l t ws path hws
  have hsaved : (l.putWrites t ws path).savedWrite = l.savedWrite := by
    rw [hnext]
    rfl
  have hlist : (l.putWrites t ws path).checkpointPendingWrites =
      l.remaining t ++ pendingOf t (dedupSpecial ws) := by
    rw [hnext]
  -- the other tasks match as before
  have hother : (((l.putWrites t ws path).checkpointPendingWrites.filterMap l.savedWrite).filter
        fun w => !decide (w.taskId = t)).Perm
      ((l.putWrites t ws path).storedWrites.filter fun w => !decide (w.taskId = t)) := by
    refine List.Perm.trans ?_ (l.storedWrites_other t ws path hs).symm
    rw [filter_filterMap_savedWrite l (fun t' => !decide (t' = t)), hlist, List.filter_append,
      filter_pendingOf_ne, List.append_nil, filter_remaining_of_ne,
      ← filter_filterMap_savedWrite l (fun t' => !decide (t' = t))]
    exact hm.filter _
  have hself : ((l.putWrites t ws path).checkpointPendingWrites.filterMap l.savedWrite).filter
        (fun w => w.taskId = t) = pendingOf t (l.writesToSave t (dedupSpecial ws)) := by
    rw [filter_filterMap_savedWrite l (fun t' => decide (t' = t)), hlist, filter_next_self,
      filterMap_pendingOf]
    rfl
  have hheld : (l.putWrites t ws path).saver.heldBy (l.putWrites t ws path).checkpointId t =
      (l.saver.putWrites l.checkpointId (l.writesToSave t (dedupSpecial ws)) t path).heldBy
        l.checkpointId t := by
    rw [hnext, if_neg hd]
  have hinj : Function.Injective fun w : String × PyVal => PendingWrite.mk t w.1 w.2 := by
    rintro ⟨c, v⟩ ⟨c', v'⟩ h
    cases h
    rfl
  rw [Match, hsaved, perm_iff_filter fun w => decide (w.taskId = t), and_iff_left hother, hself,
    storedWrites_self _ t (hs.putWrites t ws path), hheld, pendingOf, pendingOf,
    List.map_perm_map_iff hinj, List.perm_comm,
    l.saver.heldBy_putWrites_perm_iff l.checkpointId t _ path hs.wellKeyed, ReusesStored,
    or_iff_right hws]

end Call

/-! ## Sequences of calls -/

instance (l : PendingLoop V) (t : String) (ws : List (String × PyVal)) :
    Decidable (l.ReusesStored t ws) :=
  inferInstanceAs (Decidable (_ ∨ _))

/-! ## The end of a process -/

/-- The writes of the task in the list. -/
def listOf (l : PendingLoop V) (t : String) : List (String × PyVal) :=
  (l.checkpointPendingWrites.filter fun w => w.taskId = t).map fun w => (w.channel, w.value)

theorem mem_listOf {l : PendingLoop V} {t : String} {cv : String × PyVal} :
    cv ∈ l.listOf t ↔ ⟨t, cv.1, cv.2⟩ ∈ l.checkpointPendingWrites := by
  constructor
  · intro h
    obtain ⟨w, hw, rfl⟩ := List.mem_map.mp h
    obtain ⟨hw, ht⟩ := List.mem_filter.mp hw
    rw [← of_decide_eq_true ht]
    exact hw
  · intro h
    exact List.mem_map.mpr ⟨_, List.mem_filter.mpr ⟨h, decide_eq_true rfl⟩, rfl⟩

/-- One call for each of several tasks: a key sees the call of its task. -/
theorem slotsAt_foldl_putWrites {id : String} {ws : String → List (String × PyVal)}
    {paths : String → String} : ∀ {ts : List String} {s : InMemorySaver V}, ts.Nodup →
      ∀ k, (ts.foldl (fun s t => s.putWrites id (ws t) t (paths t)) s).slotsAt id k =
        if k.1 ∈ ts then (s.slotsAt id).putMemory ⟨k.1, ws k.1, paths k.1⟩ k else s.slotsAt id k
  | [], _, _, _ => rfl
  | t :: ts, s, hn, k => by
    obtain ⟨ht, hn⟩ := List.nodup_cons.mp hn
    rw [List.foldl_cons, slotsAt_foldl_putWrites hn k]
    by_cases hk : k.1 = t
    · subst hk
      rw [if_neg ht, if_pos (List.mem_cons_self ..), s.slotsAt_putWrites id ⟨k.1, ws k.1, paths k.1⟩]
    · have hmem : k.1 ∈ t :: ts ↔ k.1 ∈ ts := by simp [hk]
      have hput : (s.putWrites id (ws t) t (paths t)).slotsAt id k = s.slotsAt id k :=
        InMemorySaver.slotsAt_putWrites_of_ne hk (ws t)
      simp only [hmem, hput, Slots.putMemory, Slots.put]

theorem nodup_pendingTasks (l : PendingLoop V) : l.pendingTasks.Nodup :=
  OrdDict.nodup_addKeys List.nodup_nil

/-- `_put_pending_writes` is one call for each task, with its writes of the list. -/
theorem slotsAt_putPendingWrites (l : PendingLoop V) (taskPaths : String → String) (k : WriteKey) :
    (l.putPendingWrites taskPaths).saver.slotsAt l.checkpointId k =
      (l.saver.slotsAt l.checkpointId).putMemory ⟨k.1, l.listOf k.1, taskPaths k.1⟩ k := by
  show (l.pendingTasks.foldl (fun s t => s.putWrites l.checkpointId (l.listOf t) t (taskPaths t))
    l.saver).slotsAt l.checkpointId k = _
  rw [slotsAt_foldl_putWrites l.nodup_pendingTasks k]
  by_cases hk : k.1 ∈ l.pendingTasks
  · rw [if_pos hk]
  · -- a task with no write in the list puts none
    have hnil : l.listOf k.1 = [] := by
      apply List.eq_nil_iff_forall_not_mem.mpr
      intro cv hcv
      exact hk (OrdDict.mem_addKeys.mpr (Or.inr (List.mem_map_of_mem (mem_listOf.mp hcv))))
    rw [if_neg hk, hnil, Slots.putMemory, Slots.put_of_not_mem]
    exact List.not_mem_nil

theorem WellStored.putPendingWrites {l : PendingLoop V} (h : l.WellStored)
    (taskPaths : String → String) : (l.putPendingWrites taskPaths).WellStored := by
  refine ⟨?_, ?_⟩
  · show (l.pendingTasks.foldl (fun s t => s.putWrites l.checkpointId (l.listOf t) t (taskPaths t))
      l.saver).KeyedByTask l.checkpointId
    refine List.foldlRecOn (motive := fun s : InMemorySaver V => s.KeyedByTask l.checkpointId)
      l.pendingTasks _ h.byTask ?_
    intro s hs t _
    exact hs.putWrites ⟨t, _, taskPaths t⟩
  · intro k cv hk
    rw [show (l.putPendingWrites taskPaths).saver.slotsAt (l.putPendingWrites taskPaths).checkpointId k
      = _ from l.slotsAt_putPendingWrites taskPaths k] at hk
    exact h.wellKeyed.put k cv hk

/-- What happens to a loop at one checkpoint: a task puts writes, or another
    process takes over. -/
inductive PendingStep where
  | put (taskId : String) (writes : List (String × PyVal)) (taskPath : String)
  | reload

def step (l : PendingLoop V) : PendingStep → PendingLoop V
  | .put t ws path => l.putWrites t ws path
  | .reload => l.reload

def run (l : PendingLoop V) (steps : List PendingStep) : PendingLoop V := steps.foldl step l

/-- The condition on a step. -/
def Keeps (l : PendingLoop V) : PendingStep → Prop
  | .put t ws _ => l.ReusesStored t ws
  | .reload => True

instance (l : PendingLoop V) : ∀ s, Decidable (l.Keeps s)
  | .put t ws _ => inferInstanceAs (Decidable (l.ReusesStored t ws))
  | .reload => inferInstanceAs (Decidable True)

theorem sanitize_idem (channels : OrdDict String Channel) (v : PyVal) :
    sanitizeUntrackedValuesInSend channels (sanitizeUntrackedValuesInSend channels v) =
      sanitizeUntrackedValuesInSend channels v := by
  fun_cases sanitizeUntrackedValuesInSend channels v with
  | case1 node entries => rw [sanitizeUntrackedValuesInSend, List.filter_filter]; simp
  | case2 v h => rw [sanitizeUntrackedValuesInSend.eq_2 _ _ h]

theorem saveable_idem {l : PendingLoop V} {w w' : String × PyVal} (h : l.saveable w = some w') :
    l.saveable w' = some w' := by
  unfold saveable at h ⊢
  split at h
  · rename_i hany
    rw [if_pos hany]
    split at h
    · cases h
    · rename_i hspec
      split at h
      · rename_i htasks
        cases h
        rw [if_neg hspec, if_pos htasks, sanitize_idem]
      · rename_i htasks
        cases h
        rw [if_neg hspec, if_neg htasks]
  · rename_i hany
    cases h
    rw [if_neg hany]

/-- What the saver returns is saved as it is. -/
theorem match_reload {l : PendingLoop V} (h : l.Match) : l.reload.Match := by
  have hfix : ∀ w ∈ l.storedWrites, l.savedWrite w = some w := by
    intro w hw
    obtain ⟨w₀, -, hw₀⟩ := List.mem_filterMap.mp (h.mem_iff.mpr hw)
    obtain ⟨cv, hcv, rfl⟩ := Option.map_eq_some_iff.mp hw₀
    rw [savedWrite, saveable_idem hcv, Option.map_some]
  have hself : l.storedWrites.filterMap l.savedWrite = l.storedWrites := by
    rw [List.filterMap_congr hfix, List.filterMap_some]
  exact List.Perm.of_eq hself

theorem WellStored.step {l : PendingLoop V} (h : l.WellStored) : ∀ s, (l.step s).WellStored
  | .put t ws path => h.putWrites t ws path
  | .reload => ⟨h.byTask, h.wellKeyed⟩

theorem durability_step (l : PendingLoop V) : ∀ s, (l.step s).durability = l.durability
  | .put t ws path => by
    rw [PendingLoop.step, PendingLoop.putWrites]
    split <;> rfl
  | .reload => rfl

theorem wellStored_of_writesAt {l : PendingLoop V} (h : l.saver.writesAt l.checkpointId = ∅) :
    l.WellStored := by
  constructor
  · intro k w hw
    rw [h] at hw
    cases hw
  · intro k cv hk
    rw [InMemorySaver.slotsAt, h] at hk
    cases hk

/-- From a checkpoint without writes on, memory and saver match after every step
    exactly when every call reuses what it finds. -/
theorem storedWrites_match_iff {l : PendingLoop V} (hd : l.durability ≠ .exit)
    (hmem : l.checkpointPendingWrites = []) (hsaver : l.saver.writesAt l.checkpointId = ∅)
    (steps : List PendingStep) :
    (∀ pre, pre <+: steps → (l.run pre).Match) ↔
      ∀ pre s, pre ++ [s] <+: steps → (l.run pre).Keeps s := by
  apply Machine.foldl_prefix_iff (I := fun l => l.durability ≠ .exit ∧ l.WellStored)
  · exact ⟨hd, wellStored_of_writesAt hsaver⟩
  · intro l s ⟨hd, hw⟩
    exact ⟨by rwa [durability_step], hw.step s⟩
  · rw [Match, storedWrites, hmem, hsaver]
    exact List.Perm.nil
  · intro l s ⟨hd, hw⟩ hm
    cases s with
    | put t ws path => exact l.match_putWrites_iff t ws path hd hw hm
    | reload => exact ⟨fun _ => trivial, fun _ => match_reload hm⟩

end PendingLoop

/-! ## Runs -/

/-- A loop at a checkpoint without writes, in a graph with a plain and an
    untracked channel. -/
def freshLoop : PendingLoop ℕ where
  specs := OrdDict.ofList [("log", .lastValue ⟨"log", none⟩),
    ("tmp", .untrackedValue ⟨"tmp", false, none⟩)]
  channels := OrdDict.ofList [("log", .lastValue ⟨"log", none⟩),
    ("tmp", .untrackedValue ⟨"tmp", false, none⟩)]
  durability := .sync
  checkpointId := "1"
  checkpointPendingWrites := []
  saver := InMemorySaver.empty.put none (logCheckpoint "1" 1 []) sampleMetadata ∅

/-- A resume, an interrupt, the same resume with a goto, another process and a
    task that finishes. -/
def resumedSteps : List PendingLoop.PendingStep :=
  [.put Const.NULL_TASK_ID [(Const.RESUME, .str "yes")] "",
    .put "asks" [(Const.INTERRUPT, .str "sure?")] "",
    .put Const.NULL_TASK_ID [("log", .str "go"), (Const.RESUME, .str "yes")] "",
    .reload,
    .put "writes" [("log", .str "a"), ("tmp", .str "b")] ""]

theorem storedWrites_resumedSteps : (freshLoop.run resumedSteps).Match :=
  (PendingLoop.storedWrites_match_iff (by decide) rfl rfl resumedSteps).mpr
    (Machine.Along.every (by decide +kernel)) resumedSteps (List.prefix_refl _)

/-- A goto after a resume drops the resume value in memory only. -/
example : ¬(freshLoop.run [.put Const.NULL_TASK_ID [(Const.RESUME, .str "yes")] "",
    .put Const.NULL_TASK_ID [("log", .str "go")] ""]).Match := by
  decide +kernel

/-- A write to an `UntrackedValue` is kept in memory and not saved. -/
theorem untrackedWrite_not_stored :
    ¬((freshLoop.putWrites "writes" [("tmp", .str "b")] "").checkpointPendingWrites.Perm
      (freshLoop.putWrites "writes" [("tmp", .str "b")] "").storedWrites) := by
  decide +kernel

end LangGraph
