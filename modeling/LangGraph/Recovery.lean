import LangGraph.Runner
import LangGraph.StoredWrites

/- What a resumed run finds of the tasks that failed.

   The tasks of one checkpoint are executed by one process after another, each
   of which starts from the writes that the saver returns. What is saved is
   never deleted: a task has an `ERROR` entry once an execution of it raised, and
   has writes to apply again once an execution of it saved any (`recorded_runExecution`,
   `recorded_history`). `failedTasks_rerun_iff`: every task with an `ERROR` entry
   is run again exactly when none of them ever saved a write. -/
namespace LangGraph

/-- One execution of a task, up to its commit. -/
structure Commit where
  taskId : String
  taskPath : String
  retries : PyVal → Nat → Bool
  maxAttempts : Nat
  node : Nat → Attempt

/-- The attempt that the execution ends with. -/
def Commit.attempt (c : Commit) : Attempt := runWithRetry c.retries c.node c.maxAttempts 0

/-- The tasks that one process executes, in the order of their commits. -/
abbrev Execution := List Commit

namespace PendingLoop
variable {V : Type}

/-- No error handler applies. -/
def runExecution (l : PendingLoop V) (exec : Execution) : PendingLoop V :=
  exec.foldl (fun l c => l.commit c.taskId none c.attempt c.taskPath) l

/-- The process ends, and another one loads the checkpoint: in the durability
    "exit" the writes are saved then. -/
def restart (l : PendingLoop V) (taskPaths : String → String) : PendingLoop V :=
  (if l.durability = .exit then l.putPendingWrites taskPaths else l).reload

def runHistory (l : PendingLoop V) (history : List (Execution × (String → String))) :
    PendingLoop V :=
  history.foldl (fun l e => (l.runExecution e.1).restart e.2) l

/-- The writes of a commit, as they are saved. -/
def savedOf (l : PendingLoop V) (c : Commit) : List (String × PyVal) :=
  match commitWrites none c.attempt with
  | none => []
  | some writes => if l.durability = .exit then writes else writes.filterMap l.saveable

end PendingLoop

/-! ## Indices of a kind -/

/-- A kind of index that the channel of a write decides. -/
structure IdxKind where
  holds : Int → Prop
  channel : ∀ c n m, holds (writeIdx c n) ↔ holds (writeIdx c m)

namespace IdxKind

/-- The write is one of the kind, wherever it stands. -/
def Has (q : IdxKind) (c : String) : Prop := q.holds (writeIdx c 0)

/-- The index of an error. -/
def error : IdxKind where
  holds i := i = -1
  channel c n m := by
    cases h : writesIdxMap c with
    | none => simp [writeIdx, h]
    | some i => simp [writeIdx, h]

/-- The indices of the channels that a resumed run applies again. -/
def applied : IdxKind where
  holds i := 0 ≤ i ∨ i = -2
  channel c n m := by
    cases h : writesIdxMap c with
    | none => simp [writeIdx, h]
    | some i => simp [writeIdx, h]

theorem error_has_iff {c : String} : error.Has c ↔ c = Const.ERROR := by
  have h : writesIdxMap Const.ERROR = some (-1) := rfl
  exact writeIdx_eq_special_iff h 0

theorem applied_has_iff {c : String} :
    applied.Has c ↔ c ∉ [Const.ERROR, Const.INTERRUPT, Const.RESUME] := by
  have herror : writesIdxMap Const.ERROR = some (-1) := rfl
  have hinterrupt : writesIdxMap Const.INTERRUPT = some (-3) := rfl
  have hresume : writesIdxMap Const.RESUME = some (-4) := rfl
  rw [List.mem_cons, List.mem_cons, List.mem_singleton, ← writeIdx_eq_special_iff herror 0,
    ← writeIdx_eq_special_iff hinterrupt 0, ← writeIdx_eq_special_iff hresume 0]
  have hrange : 0 ≤ writeIdx c 0 ∨ writeIdx c 0 = -1 ∨ writeIdx c 0 = -2 ∨ writeIdx c 0 = -3 ∨
      writeIdx c 0 = -4 := by
    unfold writeIdx writesIdxMap
    split
    · simp
    · split
      · simp
      · split
        · simp
        · split <;> simp
  show (0 ≤ writeIdx c 0 ∨ writeIdx c 0 = -2) ↔ _
  omega

end IdxKind

/-! ## What is recorded for a task -/

/-- Some slot of the task has an index of the kind. -/
def Slots.HasAt (s : Slots) (t : String) (q : IdxKind) : Prop := ∃ i, q.holds i ∧ (s (t, i)).isSome

theorem Slots.hasAt_putMemory {s : Slots} {call : PutWritesCall} {t : String} {q : IdxKind} :
    (s.putMemory call).HasAt t q ↔
      s.HasAt t q ∨ call.taskId = t ∧ ∃ w ∈ call.writes, q.Has w.1 := by
  have hkeys : (∃ i, q.holds i ∧ (t, i) ∈ call.keys) ↔
      call.taskId = t ∧ ∃ w ∈ call.writes, q.Has w.1 := by
    constructor
    · rintro ⟨i, hi, hmem⟩
      obtain ⟨e, he, hek⟩ := List.mem_map.mp hmem
      obtain ⟨ht, hw, n, hn⟩ := mem_keyedWrites he
      rw [hek] at ht hn
      have hi' : i = writeIdx e.2.1 n := hn
      rw [hi', q.channel _ n 0] at hi
      exact ⟨ht.symm, e.2, hw, hi⟩
    · rintro ⟨rfl, w, hw, hq⟩
      obtain ⟨e, he, rfl⟩ : ∃ e ∈ call.entries, e.2 = w := by
        rw [← map_snd_keyedWrites call.taskId 0 call.writes] at hw
        exact List.mem_map.mp hw
      obtain ⟨ht, -, n, hn⟩ := mem_keyedWrites he
      refine ⟨e.1.2, ?_, List.mem_map.mpr ⟨e, he, Prod.ext ht rfl⟩⟩
      rw [hn, q.channel _ n 0]
      exact hq
  rw [← hkeys]
  constructor
  · rintro ⟨i, hi, hsome⟩
    rcases Slots.isSome_put.mp hsome with h | h
    · exact Or.inl ⟨i, hi, h⟩
    · exact Or.inr ⟨i, hi, h⟩
  · rintro (⟨i, hi, h⟩ | ⟨i, hi, h⟩)
    · exact ⟨i, hi, Slots.isSome_put.mpr (Or.inl h)⟩
    · exact ⟨i, hi, Slots.isSome_put.mpr (Or.inr h)⟩

namespace PendingLoop
variable {V : Type}

/-- The saver holds a write of the kind for the task. -/
def Stored (l : PendingLoop V) (t : String) (q : IdxKind) : Prop :=
  (l.saver.slotsAt l.checkpointId).HasAt t q

/-- The list in memory has one. -/
def InList (l : PendingLoop V) (t : String) (q : IdxKind) : Prop :=
  ∃ w ∈ l.checkpointPendingWrites, w.taskId = t ∧ q.Has w.channel

/-- The saver holds it, or will when the process ends. -/
def Recorded (l : PendingLoop V) (t : String) (q : IdxKind) : Prop :=
  l.Stored t q ∨ l.durability = .exit ∧ l.InList t q

theorem mem_storedWrites_iff {l : PendingLoop V} (h : l.WellStored) (w : PendingWrite) :
    w ∈ l.storedWrites ↔ (l.saver.slotsAt l.checkpointId).Holds w :=
  InMemorySaver.mem_pendingWrites_iff h.byTask w

/-- A stored write of the kind is one that the saver returns. -/
theorem stored_iff {l : PendingLoop V} (h : l.WellStored) {t : String} {q : IdxKind} :
    l.Stored t q ↔ ∃ w ∈ l.storedWrites, w.taskId = t ∧ q.Has w.channel := by
  constructor
  · rintro ⟨i, hi, hsome⟩
    obtain ⟨cv, hcv⟩ := Option.isSome_iff_exists.mp hsome
    obtain ⟨n, hn⟩ := h.wellKeyed _ _ hcv
    refine ⟨⟨t, cv.1, cv.2⟩, (mem_storedWrites_iff h _).mpr ⟨i, hcv⟩, rfl, ?_⟩
    have hn' : i = writeIdx cv.1 n := hn
    rw [hn', q.channel _ n 0] at hi
    exact hi
  · rintro ⟨w, hw, rfl, hq⟩
    obtain ⟨i, hi⟩ := (mem_storedWrites_iff h w).mp hw
    obtain ⟨n, hn⟩ := h.wellKeyed _ _ hi
    have hn' : i = writeIdx w.channel n := hn
    refine ⟨i, ?_, Option.isSome_iff_exists.mpr ⟨_, hi⟩⟩
    rw [hn', q.channel _ n 0]
    exact hq

/-! ## One commit -/

theorem channel_of_saveable {l : PendingLoop V} {w w' : String × PyVal}
    (h : l.saveable w = some w') : w'.1 = w.1 := by
  unfold saveable at h
  split at h
  · split at h
    · cases h
    · split at h <;> cases h <;> rfl
  · cases h
    rfl

/-- Whether a write is saved depends on its channel. -/
theorem isSome_saveable_congr (l : PendingLoop V) {w w' : String × PyVal} (h : w.1 = w'.1) :
    (l.saveable w).isSome = (l.saveable w').isSome := by
  unfold saveable
  rw [h]
  split
  · split
    · rfl
    · split <;> rfl
  · rfl

theorem exists_mem_dedupSpecial {P : String → Prop} {ws : List (String × PyVal)} :
    (∃ w ∈ dedupSpecial ws, P w.1) ↔ ∃ w ∈ ws, P w.1 := by
  unfold dedupSpecial
  split
  · have hkeys : ∀ c, c ∈ (OrdDict.ofList ws).keys ↔ c ∈ ws.map Prod.fst := by
      intro c
      constructor
      · intro hc
        by_contra hout
        obtain ⟨v, hv⟩ := OrdDict.mem_keys_iff.mp hc
        rw [OrdDict.ofList, OrdDict.get?_setAll_of_not_mem _ hout] at hv
        cases hv
      · intro hc
        obtain ⟨v, -, hv⟩ := OrdDict.exists_get?_setAll OrdDict.empty hc
        exact OrdDict.mem_keys_iff.mpr ⟨v, hv⟩
    constructor
    · rintro ⟨w, hw, hp⟩
      obtain ⟨w', hw', hk⟩ := List.mem_map.mp ((hkeys w.1).mp (List.mem_map_of_mem hw))
      exact ⟨w', hw', hk ▸ hp⟩
    · rintro ⟨w, hw, hp⟩
      obtain ⟨w', hw', hk⟩ := List.mem_map.mp ((hkeys w.1).mpr (List.mem_map_of_mem hw))
      exact ⟨w', hw', hk ▸ hp⟩
  · exact Iff.rfl

theorem exists_mem_saveable {l : PendingLoop V} {P : String → Prop} {ws : List (String × PyVal)} :
    (∃ w ∈ ws.filterMap l.saveable, P w.1) ↔ ∃ w ∈ ws, (l.saveable w).isSome ∧ P w.1 := by
  constructor
  · rintro ⟨w, hw, hp⟩
    obtain ⟨w₀, hw₀, hs⟩ := List.mem_filterMap.mp hw
    exact ⟨w₀, hw₀, by rw [hs]; rfl, channel_of_saveable hs ▸ hp⟩
  · rintro ⟨w, hw, hs, hp⟩
    obtain ⟨w', hw'⟩ := Option.isSome_iff_exists.mp hs
    exact ⟨w', List.mem_filterMap.mpr ⟨w, hw, hw'⟩, (channel_of_saveable hw').symm ▸ hp⟩

theorem WellStored.commit {l : PendingLoop V} (h : l.WellStored) (t : String)
    (handler : Option String) (a : Attempt) (path : String) :
    (l.commit t handler a path).WellStored := by
  unfold PendingLoop.commit
  split
  · exact h
  · exact h.putWrites t _ path

section Put
variable {l : PendingLoop V} {t : String} {ws : List (String × PyVal)} {path : String}

theorem inList_putWrites_self (hnull : t ≠ Const.NULL_TASK_ID) (hws : ws ≠ []) (q : IdxKind) :
    (l.putWrites t ws path).InList t q ↔ ∃ w ∈ ws, q.Has w.1 := by
  rw [putWrites_of_ne_nil l t ws path hws, InList, ← exists_mem_dedupSpecial (P := q.Has)]
  constructor
  · rintro ⟨w, hw, ht, hq⟩
    rcases List.mem_append.mp hw with hw | hw
    · rw [remaining, if_neg hnull, List.mem_filter] at hw
      exact absurd ht (of_decide_eq_true hw.2)
    · obtain ⟨cv, hcv, rfl⟩ := List.mem_map.mp hw
      exact ⟨cv, hcv, hq⟩
  · rintro ⟨cv, hcv, hq⟩
    exact ⟨⟨t, cv.1, cv.2⟩, List.mem_append_right _ (List.mem_map_of_mem hcv), rfl, hq⟩

theorem inList_putWrites_of_ne (hnull : t ≠ Const.NULL_TASK_ID) {t' : String} (ht : t' ≠ t)
    (q : IdxKind) : (l.putWrites t ws path).InList t' q ↔ l.InList t' q := by
  by_cases hws : ws = []
  · rw [hws]
    rfl
  rw [putWrites_of_ne_nil l t ws path hws, InList, InList]
  constructor
  · rintro ⟨w, hw, hwt, hq⟩
    rcases List.mem_append.mp hw with hw | hw
    · rw [remaining, if_neg hnull, List.mem_filter] at hw
      exact ⟨w, hw.1, hwt, hq⟩
    · obtain ⟨cv, -, rfl⟩ := List.mem_map.mp hw
      exact absurd hwt.symm ht
  · rintro ⟨w, hw, hwt, hq⟩
    refine ⟨w, List.mem_append_left _ ?_, hwt, hq⟩
    rw [remaining, if_neg hnull, List.mem_filter]
    exact ⟨hw, decide_eq_true (hwt ▸ ht)⟩

theorem stored_putWrites (hd : l.durability ≠ .exit) (hnull : t ≠ Const.NULL_TASK_ID)
    (t' : String) (q : IdxKind) :
    (l.putWrites t ws path).Stored t' q ↔
      l.Stored t' q ∨ t = t' ∧ ∃ w ∈ ws.filterMap l.saveable, q.Has w.1 := by
  by_cases hws : ws = []
  · subst hws
    simp [putWrites]
  have hsaved : l.writesToSave t (dedupSpecial ws) = (dedupSpecial ws).filterMap l.saveable := by
    rw [writesToSave, merged, if_neg hnull]
  rw [putWrites_of_ne_nil l t ws path hws, Stored, if_neg hd, hsaved,
    l.saver.slotsAt_putWrites l.checkpointId ⟨t, (dedupSpecial ws).filterMap l.saveable, path⟩,
    Slots.hasAt_putMemory, exists_mem_saveable, exists_mem_saveable]
  refine or_congr_right (and_congr_right fun _ => ?_)
  -- whether a write of a channel is saved does not depend on its value
  have hchan : ∀ w : String × PyVal, (l.saveable w).isSome ∧ q.Has w.1 ↔
      (l.saveable (w.1, .none)).isSome ∧ q.Has w.1 := fun w => by
    rw [show (l.saveable w).isSome = (l.saveable (w.1, .none)).isSome from
      isSome_saveable_congr l rfl]
  simp only [hchan]
  exact exists_mem_dedupSpecial (P := fun c => (l.saveable (c, .none)).isSome ∧ q.Has c)

theorem stored_putWrites_exit (hd : l.durability = .exit) (t' : String) (q : IdxKind) :
    (l.putWrites t ws path).Stored t' q ↔ l.Stored t' q := by
  by_cases hws : ws = []
  · rw [hws]
    rfl
  rw [putWrites_of_ne_nil l t ws path hws, Stored, if_pos hd]
  rfl

end Put

/-- A commit of a task whose list was loaded records what it saves. -/
theorem recorded_commit {l : PendingLoop V} {c : Commit} (hnull : c.taskId ≠ Const.NULL_TASK_ID)
    (hload : ∀ q, l.InList c.taskId q → l.Stored c.taskId q) (t : String) (q : IdxKind) :
    (l.commit c.taskId none c.attempt c.taskPath).Recorded t q ↔
      l.Recorded t q ∨ c.taskId = t ∧ ∃ w ∈ l.savedOf c, q.Has w.1 := by
  unfold commit savedOf
  cases hws : commitWrites none c.attempt with
  | none => simp
  | some ws =>
    by_cases hd : l.durability = .exit
    · have hd' : (l.putWrites c.taskId ws c.taskPath).durability = .exit := by
        rw [← hd]
        exact durability_step l (.put c.taskId ws c.taskPath)
      simp only [Recorded, hd', hd, true_and, stored_putWrites_exit hd, if_true]
      by_cases ht : t = c.taskId
      · subst ht
        by_cases hnil : ws = []
        · subst hnil
          simp [putWrites]
        · rw [inList_putWrites_self hnull hnil, or_iff_left_of_imp (hload q)]
          simp
      · rw [inList_putWrites_of_ne hnull ht]
        simp [Ne.symm ht]
    · have hd' : (l.putWrites c.taskId ws c.taskPath).durability ≠ .exit := by
        rw [show (l.putWrites c.taskId ws c.taskPath).durability = l.durability from
          durability_step l (.put c.taskId ws c.taskPath)]
        exact hd
      simp only [Recorded, hd', hd, false_and, or_false, if_false, stored_putWrites hd hnull]

/-! ## One process after another -/

/-- Every write of the list is one that the saver returns. -/
def Loaded (l : PendingLoop V) (t : String) : Prop := ∀ q, l.InList t q → l.Stored t q

theorem durability_commit (l : PendingLoop V) (t : String) (handler : Option String) (a : Attempt)
    (path : String) : (l.commit t handler a path).durability = l.durability := by
  unfold commit
  split
  · rfl
  · rename_i ws _
    exact durability_step l (.put t ws path)

theorem saveable_putWrites (l : PendingLoop V) (t : String) (ws : List (String × PyVal))
    (path : String) : (l.putWrites t ws path).saveable = l.saveable := by
  rw [putWrites]
  split <;> rfl

theorem saveable_commit (l : PendingLoop V) (t : String) (handler : Option String) (a : Attempt)
    (path : String) : (l.commit t handler a path).saveable = l.saveable := by
  unfold commit
  split
  · rfl
  · exact l.saveable_putWrites t _ path

theorem savedOf_commit (l : PendingLoop V) (t : String) (handler : Option String) (a : Attempt)
    (path : String) (c : Commit) : (l.commit t handler a path).savedOf c = l.savedOf c := by
  rw [savedOf, savedOf, durability_commit, saveable_commit]

/-- A commit leaves the lists of the other tasks as they were loaded. -/
theorem Loaded.commit {l : PendingLoop V} {c : Commit} {t : String} (h : l.Loaded t)
    (hnull : c.taskId ≠ Const.NULL_TASK_ID) (ht : t ≠ c.taskId) :
    (l.commit c.taskId none c.attempt c.taskPath).Loaded t := by
  intro q
  unfold PendingLoop.commit
  split
  · exact h q
  · rename_i ws _
    rw [inList_putWrites_of_ne hnull ht]
    intro hin
    by_cases hd : l.durability = .exit
    · exact (stored_putWrites_exit hd t q).mpr (h q hin)
    · exact (stored_putWrites hd hnull t q).mpr (Or.inl (h q hin))

/-- What a process records: what was recorded, and what its commits save. -/
theorem recorded_runExecution : ∀ {exec : Execution} {l : PendingLoop V},
    (exec.map (·.taskId)).Nodup → (∀ c ∈ exec, c.taskId ≠ Const.NULL_TASK_ID) →
    (∀ c ∈ exec, l.Loaded c.taskId) → ∀ t q,
      (l.runExecution exec).Recorded t q ↔
        l.Recorded t q ∨ ∃ c ∈ exec, c.taskId = t ∧ ∃ w ∈ l.savedOf c, q.Has w.1
  | [], l, _, _, _, t, q => by simp [runExecution]
  | c :: exec, l, hn, hnull, hload, t, q => by
    obtain ⟨hc, hn⟩ := List.nodup_cons.mp hn
    have hc₀ : c.taskId ≠ Const.NULL_TASK_ID := hnull c (List.mem_cons_self ..)
    have hloadc : l.Loaded c.taskId := hload c (List.mem_cons_self ..)
    have hrest : ∀ c' ∈ exec, (l.commit c.taskId none c.attempt c.taskPath).Loaded c'.taskId := by
      intro c' hc'
      have hne : c'.taskId ≠ c.taskId := fun e => hc (List.mem_map.mpr ⟨c', hc', e⟩)
      exact (hload c' (List.mem_cons_of_mem _ hc')).commit hc₀ hne
    have ih := recorded_runExecution hn (fun c' hc' => hnull c' (List.mem_cons_of_mem _ hc')) hrest
      t q
    rw [runExecution, List.foldl_cons, ← runExecution, ih, recorded_commit hc₀ hloadc, or_assoc]
    simp only [savedOf_commit, List.mem_cons, exists_eq_or_imp]

/-- At the end of the process all of the list is saved. -/
theorem stored_putPendingWrites (l : PendingLoop V) (taskPaths : String → String) (t : String)
    (q : IdxKind) :
    (l.putPendingWrites taskPaths).Stored t q ↔ l.Stored t q ∨ l.InList t q := by
  have hslots : (l.putPendingWrites taskPaths).Stored t q ↔
      ((l.saver.slotsAt l.checkpointId).putMemory ⟨t, l.listOf t, taskPaths t⟩).HasAt t q := by
    show (∃ i, q.holds i ∧ ((l.putPendingWrites taskPaths).saver.slotsAt l.checkpointId
      (t, i)).isSome) ↔ _
    simp only [slotsAt_putPendingWrites]
    exact Iff.rfl
  have hlist : (∃ cv ∈ l.listOf t, q.Has cv.1) ↔ l.InList t q := by
    constructor
    · intro ⟨cv, hcv, hq⟩
      exact ⟨_, mem_listOf.mp hcv, rfl, hq⟩
    · intro ⟨w, hw, ht, hq⟩
      exact ⟨(w.channel, w.value), mem_listOf.mpr (ht ▸ hw), hq⟩
  rw [hslots, Slots.hasAt_putMemory, and_iff_right rfl, hlist]
  exact Iff.rfl

theorem WellStored.restart {l : PendingLoop V} (h : l.WellStored) (taskPaths : String → String) :
    (l.restart taskPaths).WellStored := by
  unfold PendingLoop.restart
  split
  · exact (h.putPendingWrites taskPaths).step .reload
  · exact h.step .reload

/-- The next process starts from all that was recorded. -/
theorem stored_restart {l : PendingLoop V} (taskPaths : String → String) (t : String)
    (q : IdxKind) : (l.restart taskPaths).Stored t q ↔ l.Recorded t q := by
  unfold restart Recorded
  split
  · rename_i hd
    rw [show (l.putPendingWrites taskPaths).reload.Stored t q ↔
      (l.putPendingWrites taskPaths).Stored t q from Iff.rfl, stored_putPendingWrites,
      and_iff_right hd]
  · rename_i hd
    simp only [hd, false_and, or_false]
    exact Iff.rfl

theorem checkpointPendingWrites_restart (l : PendingLoop V) (taskPaths : String → String) :
    (l.restart taskPaths).checkpointPendingWrites = (l.restart taskPaths).storedWrites := by
  unfold restart
  split <;> rfl

theorem inList_restart {l : PendingLoop V} (h : l.WellStored) (taskPaths : String → String)
    (t : String) (q : IdxKind) :
    (l.restart taskPaths).InList t q ↔ (l.restart taskPaths).Stored t q := by
  rw [stored_iff (h.restart taskPaths), InList, checkpointPendingWrites_restart]

theorem WellStored.runExecution {l : PendingLoop V} (h : l.WellStored) (exec : Execution) :
    (l.runExecution exec).WellStored := by
  unfold PendingLoop.runExecution
  induction exec generalizing l with
  | nil => exact h
  | cons c exec ih => exact ih (h.commit c.taskId none c.attempt c.taskPath)

/-- What is left of the loop's parameters by an execution and a restart. -/
theorem savedOf_runExecution (l : PendingLoop V) (exec : Execution) (c : Commit) :
    (l.runExecution exec).savedOf c = l.savedOf c := by
  unfold runExecution
  induction exec generalizing l with
  | nil => rfl
  | cons c' exec ih => rw [List.foldl_cons, ih, savedOf_commit]

theorem savedOf_restart (l : PendingLoop V) (taskPaths : String → String) (c : Commit) :
    (l.restart taskPaths).savedOf c = l.savedOf c := by
  unfold restart
  split <;> rfl

/-- After a history the saver holds what the commits of all its executions saved. -/
theorem stored_runHistory : ∀ {history : List (Execution × (String → String))} {l : PendingLoop V},
    l.WellStored → (∀ t q, l.InList t q ↔ l.Stored t q) →
    (∀ e ∈ history, (e.1.map (·.taskId)).Nodup) →
    (∀ e ∈ history, ∀ c ∈ e.1, c.taskId ≠ Const.NULL_TASK_ID) → ∀ t q,
      (l.runHistory history).Stored t q ↔
        l.Stored t q ∨ ∃ e ∈ history, ∃ c ∈ e.1, c.taskId = t ∧ ∃ w ∈ l.savedOf c, q.Has w.1
  | [], l, _, _, _, _, t, q => by simp [runHistory]
  | e :: history, l, hw, hlist, hids, hnull, t, q => by
    have hwe : (l.runExecution e.1).WellStored := hw.runExecution e.1
    have ih := stored_runHistory (hwe.restart e.2) (inList_restart hwe e.2)
      (fun e' he' => hids e' (List.mem_cons_of_mem _ he'))
      (fun e' he' => hnull e' (List.mem_cons_of_mem _ he')) t q
    have hexec := recorded_runExecution (hids e (List.mem_cons_self ..))
      (hnull e (List.mem_cons_self ..)) (fun c _ q => (hlist c.taskId q).mp) t q
    have hrec : l.Recorded t q ↔ l.Stored t q :=
      or_iff_left_of_imp fun h => (hlist t q).mp h.2
    rw [runHistory, List.foldl_cons, ← runHistory, ih, stored_restart, hexec, hrec, or_assoc]
    simp only [savedOf_restart, savedOf_runExecution, List.mem_cons, exists_eq_or_imp]

theorem wellStored_runHistory {history : List (Execution × (String → String))}
    {l : PendingLoop V} (h : l.WellStored) (hlist : l.checkpointPendingWrites = l.storedWrites) :
    (l.runHistory history).WellStored ∧
      (l.runHistory history).checkpointPendingWrites = (l.runHistory history).storedWrites := by
  unfold runHistory
  induction history generalizing l with
  | nil => exact ⟨h, hlist⟩
  | cons e history ih =>
    exact ih ((h.runExecution e.1).restart e.2) (checkpointPendingWrites_restart _ e.2)

/-! ## What holds of every entry -/

/-- Every write of the list and of the saver meets `P`, which may depend on its task. -/
def Everywhere (P : String → String × PyVal → Prop) (l : PendingLoop V) : Prop :=
  (∀ w ∈ l.checkpointPendingWrites, P w.taskId (w.channel, w.value)) ∧
    ∀ k cv, l.saver.slotsAt l.checkpointId k = some cv → P k.1 cv

theorem mem_of_mem_dedupSpecial {ws : List (String × PyVal)} {w : String × PyVal}
    (h : w ∈ dedupSpecial ws) : w ∈ ws := by
  unfold dedupSpecial at h
  split at h
  · have hget : (OrdDict.ofList ws).get? w.1 = some w.2 := OrdDict.get?_eq_some_iff.mpr h
    by_cases hk : w.1 ∈ ws.map Prod.fst
    · obtain ⟨v, hv, hget'⟩ := OrdDict.exists_get?_setAll OrdDict.empty hk
      rw [OrdDict.ofList, hget', Option.some.injEq] at hget
      rw [hget] at hv
      exact hv
    · rw [OrdDict.ofList, OrdDict.get?_setAll_of_not_mem _ hk] at hget
      cases hget
  · exact h

theorem Everywhere.putWrites {P : String → String × PyVal → Prop} {l : PendingLoop V}
    (h : l.Everywhere P) {t : String} {ws : List (String × PyVal)} {path : String}
    (hws : ∀ w ∈ ws, P t w) (hsave : ∀ w w', l.saveable w = some w' → P t w → P t w') :
    (l.putWrites t ws path).Everywhere P := by
  by_cases hnil : ws = []
  · rw [hnil]
    exact h
  rw [putWrites_of_ne_nil l t ws path hnil]
  have hremaining : ∀ w ∈ l.remaining t, P w.taskId (w.channel, w.value) := by
    intro w hw
    unfold remaining at hw
    split at hw <;> exact h.1 w (List.mem_filter.mp hw).1
  refine ⟨?_, ?_⟩
  · intro w hw
    rcases List.mem_append.mp hw with hw | hw
    · exact hremaining w hw
    · obtain ⟨cv, hcv, rfl⟩ := List.mem_map.mp hw
      exact hws cv (mem_of_mem_dedupSpecial hcv)
  · intro k cv hk
    split at hk
    · exact h.2 k cv hk
    · simp only [l.saver.slotsAt_putWrites l.checkpointId
        ⟨t, l.writesToSave t (dedupSpecial ws), path⟩] at hk
      rcases Slots.eq_some_of_put hk with hold | hmem
      · exact h.2 k cv hold
      · obtain ⟨ht, hsaved, -⟩ := mem_keyedWrites hmem
        obtain ⟨w, hw, hs⟩ := List.mem_filterMap.mp hsaved
        have hmerged : P t w := by
          unfold merged at hw
          split at hw
          · rcases List.mem_append.mp hw with hw | hw
            · obtain ⟨w', hw', rfl⟩ := List.mem_map.mp hw
              obtain ⟨hw', htask⟩ := List.mem_filter.mp hw'
              rw [← of_decide_eq_true htask]
              exact hremaining w' hw'
            · exact hws w (mem_of_mem_dedupSpecial hw)
          · exact hws w (mem_of_mem_dedupSpecial hw)
        rw [show k.1 = t from ht]
        exact hsave w cv hs hmerged

theorem Everywhere.commit {P : String → String × PyVal → Prop} {l : PendingLoop V}
    (h : l.Everywhere P) {c : Commit}
    (hws : ∀ w ∈ (commitWrites none c.attempt).getD [], P c.taskId w)
    (hsave : ∀ t w w', l.saveable w = some w' → P t w → P t w') :
    (l.commit c.taskId none c.attempt c.taskPath).Everywhere P := by
  unfold PendingLoop.commit
  split
  · exact h
  · rename_i ws heq
    rw [heq, Option.getD_some] at hws
    exact h.putWrites hws (hsave c.taskId)

theorem Everywhere.runExecution {P : String → String × PyVal → Prop} {exec : Execution} :
    ∀ {l : PendingLoop V}, l.Everywhere P →
      (∀ c ∈ exec, ∀ w ∈ (commitWrites none c.attempt).getD [], P c.taskId w) →
      (∀ t w w', l.saveable w = some w' → P t w → P t w') → (l.runExecution exec).Everywhere P := by
  unfold PendingLoop.runExecution
  induction exec with
  | nil => exact fun h _ _ => h
  | cons c exec ih =>
    intro l h hws hsave
    refine ih (h.commit (hws c (List.mem_cons_self ..)) hsave)
      (fun c' hc' => hws c' (List.mem_cons_of_mem _ hc')) ?_
    rw [saveable_commit]
    exact hsave

/-- A process passes on what it has. -/
theorem Everywhere.restart {P : String → String × PyVal → Prop} {l : PendingLoop V}
    (hw : l.WellStored) (h : l.Everywhere P) (taskPaths : String → String) :
    (l.restart taskPaths).Everywhere P := by
  have hslots : ∀ k cv, (l.restart taskPaths).saver.slotsAt (l.restart taskPaths).checkpointId k =
      some cv → P k.1 cv := by
    unfold PendingLoop.restart
    split
    · intro k cv hk
      rw [show (l.putPendingWrites taskPaths).reload.saver.slotsAt
        (l.putPendingWrites taskPaths).reload.checkpointId k = _ from
        l.slotsAt_putPendingWrites taskPaths k] at hk
      rcases Slots.eq_some_of_put hk with hold | hmem
      · exact h.2 k cv hold
      · exact h.1 _ (mem_listOf.mp (mem_keyedWrites hmem).2.1)
    · exact h.2
  refine ⟨?_, hslots⟩
  intro w hmem
  rw [checkpointPendingWrites_restart] at hmem
  obtain ⟨i, hi⟩ := (mem_storedWrites_iff (hw.restart taskPaths) w).mp hmem
  exact hslots _ _ hi

/-! ## Nothing names an error handler -/

/-- No write of the list or of the saver marks a task as routed to a handler. -/
def Unrouted (l : PendingLoop V) : Prop :=
  (∀ w ∈ l.checkpointPendingWrites, w.channel ≠ Const.ERROR_SOURCE_NODE) ∧
    ∀ k cv, l.saver.slotsAt l.checkpointId k = some cv → cv.1 ≠ Const.ERROR_SOURCE_NODE

theorem mem_commitWrites {a : Attempt} {ws : List (String × PyVal)}
    (h : commitWrites none a = some ws)
    (ha : ∀ w ∈ a.appended, w.1 ≠ Const.ERROR_SOURCE_NODE) :
    ∀ w ∈ ws, w.1 ≠ Const.ERROR_SOURCE_NODE := by
  have herror : Const.ERROR ≠ Const.ERROR_SOURCE_NODE := by decide
  have hinterrupt : Const.INTERRUPT ≠ Const.ERROR_SOURCE_NODE := by decide
  have hno : Const.NO_WRITES ≠ Const.ERROR_SOURCE_NODE := by decide
  unfold commitWrites at h
  intro w hw
  split at h
  · cases h
    rcases List.mem_append.mp hw with hw | hw
    · exact ha w hw
    · rw [List.mem_singleton.mp hw]
      exact herror
  · split at h
    · cases h
    · cases h
      rcases List.mem_cons.mp hw with rfl | hw
      · exact hinterrupt
      · exact ha w (List.mem_filter.mp hw).1
  · cases h
  · cases h
    simp only [Option.map_none, Option.toList_none, List.append_nil, List.mem_append,
      List.mem_singleton] at hw
    rcases hw with hw | rfl
    · exact ha w hw
    · exact herror
  · split at h
    · cases h
      rw [List.mem_singleton.mp hw]
      exact hno
    · cases h
      exact ha w hw

theorem unrouted_runExecution {exec : Execution} {l : PendingLoop V} (h : l.Unrouted)
    (hsrc : ∀ c ∈ exec, ∀ w ∈ c.attempt.appended, w.1 ≠ Const.ERROR_SOURCE_NODE) :
    (l.runExecution exec).Unrouted := by
  refine Everywhere.runExecution (P := fun _ cv => cv.1 ≠ Const.ERROR_SOURCE_NODE) h ?_ ?_
  · intro c hc w hw
    cases heq : commitWrites none c.attempt with
    | none =>
      rw [heq] at hw
      cases hw
    | some ws =>
      rw [heq] at hw
      exact mem_commitWrites heq (hsrc c hc) w hw
  · intro t w w' hs hw
    rw [channel_of_saveable hs]
    exact hw

theorem unrouted_restart {l : PendingLoop V} (hw : l.WellStored) (h : l.Unrouted)
    (taskPaths : String → String) : (l.restart taskPaths).Unrouted :=
  Everywhere.restart (P := fun _ cv => cv.1 ≠ Const.ERROR_SOURCE_NODE) hw h taskPaths

theorem unrouted_runHistory {history : List (Execution × (String → String))} :
    ∀ {l : PendingLoop V}, l.WellStored → l.Unrouted →
      (∀ e ∈ history, ∀ c ∈ e.1, ∀ w ∈ c.attempt.appended, w.1 ≠ Const.ERROR_SOURCE_NODE) →
      (l.runHistory history).Unrouted := by
  unfold runHistory
  induction history with
  | nil => exact fun _ h _ => h
  | cons e history ih =>
    intro l hw h hsrc
    have hexec := unrouted_runExecution h (hsrc e (List.mem_cons_self ..))
    exact ih ((hw.runExecution e.1).restart e.2) (unrouted_restart (hw.runExecution e.1) hexec e.2)
      fun e' he' => hsrc e' (List.mem_cons_of_mem _ he')

/-! ## Failed tasks -/

/-- The pending writes of the task contain an `ERROR` entry. -/
def Failed (l : PendingLoop V) (taskId : String) : Prop :=
  ∃ e, ⟨taskId, Const.ERROR, e⟩ ∈ l.checkpointPendingWrites

theorem failed_iff {l : PendingLoop V} {t : String} : l.Failed t ↔ l.InList t .error := by
  constructor
  · rintro ⟨e, he⟩
    exact ⟨_, he, rfl, IdxKind.error_has_iff.mpr rfl⟩
  · rintro ⟨w, hw, rfl, hq⟩
    have hc : w.channel = Const.ERROR := IdxKind.error_has_iff.mp hq
    refine ⟨w.value, ?_⟩
    rw [← hc]
    exact hw

theorem reapplied_eq_nil_iff {l : PendingLoop V} (h : l.Unrouted) {t : String} :
    reapplied l.checkpointPendingWrites t = [] ↔ ¬l.InList t .applied := by
  rw [reapplied, List.map_eq_nil_iff, List.filter_eq_nil_iff]
  constructor
  · rintro hnil ⟨w, hw, ht, hq⟩
    have hout := IdxKind.applied_has_iff.mp hq
    refine hnil w hw (decide_eq_true ⟨ht, ?_⟩)
    have hsrc := h.1 w hw
    simp only [controlSignals, List.mem_cons, List.not_mem_nil, or_false, not_or] at hout ⊢
    exact ⟨hout.1, hsrc, hout.2.1, hout.2.2⟩
  · intro hin w hw hcond
    obtain ⟨ht, hctl⟩ := of_decide_eq_true hcond
    refine hin ⟨w, hw, ht, IdxKind.applied_has_iff.mpr ?_⟩
    simp only [controlSignals, List.mem_cons, List.not_mem_nil, or_false, not_or] at hctl ⊢
    exact ⟨hctl.1, hctl.2.2.1, hctl.2.2.2⟩

/-- A task without writes of its own is run unless it gets some back. -/
theorem mem_toRun_iff {l : PendingLoop V} {isReplaying : Bool} {tasks : List Task}
    (htasks : ∀ t ∈ tasks, t.writes = []) {t : Task} (ht : t ∈ tasks) :
    t ∈ l.toRun isReplaying tasks ↔
      isReplaying = true ∨ reapplied l.checkpointPendingWrites t.id = [] := by
  rw [toRun, tick, List.mem_filter]
  cases isReplaying with
  | true => simp [ht, htasks t ht]
  | false =>
    simp only [Bool.false_eq_true, if_false, false_or, reapplyWrites, List.mem_map]
    constructor
    · rintro ⟨⟨t', ht', he⟩, hnil⟩
      have hwrites : t.writes = reapplied l.checkpointPendingWrites t.id := by
        rw [← he]
        simp [htasks t' ht']
      rw [← hwrites]
      exact htasks t ht
    · intro hnil
      refine ⟨⟨t, ht, ?_⟩, by simp [htasks t ht]⟩
      rw [hnil, List.append_nil]

/-- Some execution of the task saves a write that a resumed run applies again. -/
def SavesWrites (l : PendingLoop V) (history : List (Execution × (String → String)))
    (taskId : String) : Prop :=
  ∃ e ∈ history, ∃ c ∈ e.1, c.taskId = taskId ∧
    ∃ w ∈ l.savedOf c, w.1 ∉ [Const.ERROR, Const.INTERRUPT, Const.RESUME]

instance (l : PendingLoop V) (history : List (Execution × (String → String))) (taskId : String) :
    Decidable (l.SavesWrites history taskId) :=
  inferInstanceAs (Decidable (∃ e ∈ history, ∃ c ∈ e.1, _ ∧ ∃ w ∈ l.savedOf c, _))

/-- Every task that failed at the checkpoint is run again exactly when none of
    these tasks ever saved a write there that is applied again. -/
theorem failedTasks_rerun_iff {l : PendingLoop V} {history : List (Execution × (String → String))}
    (hmem : l.checkpointPendingWrites = []) (hsaver : l.saver.writesAt l.checkpointId = ∅)
    (hids : ∀ e ∈ history, (e.1.map (·.taskId)).Nodup)
    (hnull : ∀ e ∈ history, ∀ c ∈ e.1, c.taskId ≠ Const.NULL_TASK_ID)
    (hsrc : ∀ e ∈ history, ∀ c ∈ e.1, ∀ w ∈ c.attempt.appended, w.1 ≠ Const.ERROR_SOURCE_NODE)
    (isReplaying : Bool) :
    (∀ tasks : List Task, (∀ t ∈ tasks, t.writes = []) → ∀ t ∈ tasks,
        (l.runHistory history).Failed t.id → t ∈ (l.runHistory history).toRun isReplaying tasks) ↔
      isReplaying = true ∨
        ∀ e ∈ history, ∀ c ∈ e.1, (∃ w ∈ l.savedOf c, w.1 = Const.ERROR) →
          ¬l.SavesWrites history c.taskId := by
  have hwell := wellStored_of_writesAt hsaver
  have hnone : l.storedWrites = [] := by
    rw [storedWrites, hsaver]
    rfl
  have hlist : ∀ t q, l.InList t q ↔ l.Stored t q := fun t q => by
    rw [stored_iff hwell, InList, hmem, hnone]
  have hempty : ∀ t q, ¬l.Stored t q := fun t q => by
    rw [← hlist, InList, hmem]
    simp
  have hun : l.Unrouted := by
    refine ⟨by simp [hmem], ?_⟩
    intro k cv hk
    rw [InMemorySaver.slotsAt, hsaver] at hk
    cases hk
  have hend : (l.runHistory history).WellStored ∧
      (l.runHistory history).checkpointPendingWrites = (l.runHistory history).storedWrites :=
    wellStored_runHistory hwell (hmem.trans hnone.symm)
  have hrouted := unrouted_runHistory hwell hun hsrc
  -- what the last process finds is what some commit saved
  have hfind : ∀ t q, (l.runHistory history).InList t q ↔
      ∃ e ∈ history, ∃ c ∈ e.1, c.taskId = t ∧ ∃ w ∈ l.savedOf c, q.Has w.1 := fun t q => by
    rw [InList, hend.2, ← stored_iff hend.1, stored_runHistory hwell hlist hids hnull,
      or_iff_right (hempty t q)]
  constructor
  · intro h
    by_cases hrep : isReplaying = true
    · exact Or.inl hrep
    refine Or.inr fun e he c hc hw => ?_
    rintro ⟨e', he', c', hc', hid, w, hw', hout⟩
    let t : Task := ⟨"", .none, [], [], c.taskId, []⟩
    have hfailed : (l.runHistory history).Failed c.taskId := by
      obtain ⟨w₀, hw₀, herr⟩ := hw
      exact failed_iff.mpr ((hfind _ _).mpr
        ⟨e, he, c, hc, rfl, w₀, hw₀, IdxKind.error_has_iff.mpr herr⟩)
    have hrun := h [t] (fun t' ht' => by rw [List.mem_singleton.mp ht']) t
      (List.mem_singleton_self t) hfailed
    rcases (mem_toRun_iff (fun t' ht' => by rw [List.mem_singleton.mp ht'])
      (List.mem_singleton_self t)).mp hrun with hrep' | hnil
    · exact hrep hrep'
    · exact (reapplied_eq_nil_iff hrouted).mp hnil ((hfind _ _).mpr
        ⟨e', he', c', hc', hid, w, hw', IdxKind.applied_has_iff.mpr hout⟩)
  · rintro (hrep | h) tasks htasks t ht hfailed
    · exact (mem_toRun_iff htasks ht).mpr (Or.inl hrep)
    · refine (mem_toRun_iff htasks ht).mpr (Or.inr ((reapplied_eq_nil_iff hrouted).mpr ?_))
      intro happ
      obtain ⟨e, he, c, hc, hid, w, hw, herr⟩ := (hfind _ _).mp (failed_iff.mp hfailed)
      obtain ⟨e', he', c', hc', hid', w', hw', hq⟩ := (hfind _ _).mp happ
      exact h e he c hc ⟨w, hw, IdxKind.error_has_iff.mp herr⟩
        ⟨e', he', c', hc', hid'.trans hid.symm, w', hw', IdxKind.applied_has_iff.mp hq⟩

end PendingLoop

/-! ## Runs -/

/-- A task that always appends and ends alike, and is not retried. -/
def plainCommit (taskId : String) (appended : List (String × PyVal)) (outcome : Outcome) : Commit :=
  ⟨taskId, "", fun _ _ => false, 0, fun _ => ⟨appended, outcome⟩⟩

/-- A task is retried and fails in its second attempt, another one succeeds; the
    next process runs the task once more. -/
def retriedHistory : List (Execution × (String → String)) :=
  [([⟨"fails", "", fun _ n => decide (n < 2), 2, fun n =>
        if n = 0 then ⟨[("log", .str "a")], .error (.str "first")⟩ else ⟨[], .error (.str "second")⟩⟩,
      plainCommit "writes" [("log", .str "b")] .ok], fun _ => ""),
    ([plainCommit "fails" [("tmp", .str "c")] (.error (.str "third"))], fun _ => "")]

def failedTask : Task := ⟨"node", .none, [], [], "fails", []⟩

theorem failedTasks_retriedHistory :
    (freshLoop.runHistory retriedHistory).Failed "fails" ∧
      failedTask ∈ (freshLoop.runHistory retriedHistory).toRun false [failedTask] := by
  have hfailed : (freshLoop.runHistory retriedHistory).Failed "fails" :=
    ⟨.str "third", by decide +kernel⟩
  have hrerun : ∀ tasks : List Task, (∀ t ∈ tasks, t.writes = []) → ∀ t ∈ tasks,
      (freshLoop.runHistory retriedHistory).Failed t.id →
        t ∈ (freshLoop.runHistory retriedHistory).toRun false tasks :=
    (PendingLoop.failedTasks_rerun_iff rfl rfl (by decide) (by decide) (by decide +kernel) false).mpr
      (Or.inr (by decide +kernel))
  exact ⟨hfailed, hrerun [failedTask] (by simp [failedTask]) failedTask
    (List.mem_singleton_self _) hfailed⟩

/-- A task whose state update is written before its branch raises. -/
def partialHistory : List (Execution × (String → String)) :=
  [([plainCommit "task" [("log", .str "a")] (.error (.str "boom"))], fun _ => "")]

/-- Its write is applied again, and it does not run again. -/
theorem failedTasks_partialHistory :
    ¬∀ tasks : List Task, (∀ t ∈ tasks, t.writes = []) → ∀ t ∈ tasks,
      (freshLoop.runHistory partialHistory).Failed t.id →
        t ∈ (freshLoop.runHistory partialHistory).toRun false tasks := by
  intro h
  let t : Task := ⟨"node", .none, [], [], "task", []⟩
  have hrun := h [t] (by simp [t]) t (List.mem_singleton_self t)
    ⟨.str "boom", by decide +kernel⟩
  have hnil := (PendingLoop.mem_toRun_iff (by simp [t]) (List.mem_singleton_self t)).mp hrun
  revert hnil
  decide +kernel

end LangGraph
