import Mathlib.Algebra.BigOperators.Group.Finset.Basic
import LangGraph.Recovery

/- Which interrupts a plain resume value could answer.

   Correspondence (source ↔ Lean):
     `_pending_interrupts` (pregel/_loop.py)         ↔ `pendingInterrupts`, `pendingResumes`,
                                                        `hangingInterrupts`
     the check in `_first` on a plain value          ↔ `RefusesPlain`
     one invocation at the checkpoint                ↔ `Invocation`: what `_first` puts for the
                                                        null task, the commits, and the end
   What the `interrupt()` calls of an execution leave behind is a `RESUME` write for those
   that had an answer, and the `GraphInterrupt` of the one that had none. The interrupts
   of a subgraph reach the outer task as one tuple, its answers stay in the subgraph.
   `refusesPlain_iff_waiting_iff`: the check counts the tasks that stopped and never had an
   answer of their own; it refuses the value exactly when two tasks wait, as long as the
   two counts are on the same side of two. -/
namespace LangGraph

/-- `value[0].id` -/
def firstId (idOf : PyVal → String) : PyVal → Option String
  | .tuple (i :: _) | .list (i :: _) => some (idOf i)
  | _ => none

/-- `pending_interrupts`: the interrupt of every task. -/
def pendingInterrupts (idOf : PyVal → String) (ws : List PendingWrite) : OrdDict String String :=
  OrdDict.ofList (ws.filterMap fun w =>
    if w.channel = Const.INTERRUPT then (firstId idOf w.value).map (w.taskId, ·) else none)

/-- `pending_resumes` -/
def pendingResumes (ws : List PendingWrite) : List String :=
  (ws.filter fun w => w.channel = Const.RESUME).map fun w => w.taskId

/-- `_pending_interrupts` -/
def hangingInterrupts (idOf : PyVal → String) (ws : List PendingWrite) : Finset String :=
  let interrupts := pendingInterrupts idOf ws
  let resumed := (pendingResumes ws).filterMap interrupts.get?
  (interrupts.values.filter fun id => id ∉ resumed).toFinset

/-- `_first` raises on a plain resume value. -/
def RefusesPlain (idOf : PyVal → String) (ws : List PendingWrite) : Prop :=
  1 < (hangingInterrupts idOf ws).card

instance (idOf : PyVal → String) (ws : List PendingWrite) : Decidable (RefusesPlain idOf ws) :=
  inferInstanceAs (Decidable (_ < _))

/-! ## Hanging interrupts -/

section Hanging
variable {idOf : PyVal → String} {ws : List PendingWrite}

theorem mem_pendingResumes {t : String} :
    t ∈ pendingResumes ws ↔ ∃ w ∈ ws, w.taskId = t ∧ w.channel = Const.RESUME := by
  rw [pendingResumes, List.mem_map]
  constructor
  · rintro ⟨w, hw, rfl⟩
    obtain ⟨hw, hc⟩ := List.mem_filter.mp hw
    exact ⟨w, hw, rfl, of_decide_eq_true hc⟩
  · rintro ⟨w, hw, rfl, hc⟩
    exact ⟨w, List.mem_filter.mpr ⟨hw, decide_eq_true hc⟩, rfl⟩

/-- The entry of a task is the id of one of its interrupts. -/
theorem exists_of_pendingInterrupts {t id : String}
    (h : (pendingInterrupts idOf ws).get? t = some id) :
    ∃ w ∈ ws, w.taskId = t ∧ w.channel = Const.INTERRUPT ∧ firstId idOf w.value = some id := by
  by_cases hk : t ∈ (ws.filterMap fun w => if w.channel = Const.INTERRUPT then
      (firstId idOf w.value).map (w.taskId, ·) else none).map Prod.fst
  · obtain ⟨v, hv, hget⟩ := OrdDict.exists_get?_setAll OrdDict.empty hk
    rw [pendingInterrupts, OrdDict.ofList, hget, Option.some.injEq] at h
    obtain ⟨w, hw, hent⟩ := List.mem_filterMap.mp hv
    split at hent
    · rename_i hc
      obtain ⟨id', hid, hpair⟩ := Option.map_eq_some_iff.mp hent
      obtain ⟨rfl, rfl⟩ := Prod.mk.inj hpair
      rw [h] at hid
      exact ⟨w, hw, rfl, hc, hid⟩
    · cases hent
  · rw [pendingInterrupts, OrdDict.ofList, OrdDict.get?_setAll_of_not_mem _ hk] at h
    cases h

theorem mem_keys_pendingInterrupts {t : String} :
    t ∈ (pendingInterrupts idOf ws).keys ↔
      ∃ w ∈ ws, w.taskId = t ∧ w.channel = Const.INTERRUPT ∧ (firstId idOf w.value).isSome := by
  rw [OrdDict.mem_keys_iff]
  constructor
  · rintro ⟨id, hid⟩
    obtain ⟨w, hw, ht, hc, hfirst⟩ := exists_of_pendingInterrupts hid
    exact ⟨w, hw, ht, hc, by rw [hfirst]; rfl⟩
  · rintro ⟨w, hw, rfl, hc, hfirst⟩
    obtain ⟨id, hid⟩ := Option.isSome_iff_exists.mp hfirst
    have hmem : w.taskId ∈ (ws.filterMap fun w => if w.channel = Const.INTERRUPT then
        (firstId idOf w.value).map (w.taskId, ·) else none).map Prod.fst := by
      refine List.mem_map.mpr ⟨(w.taskId, id), List.mem_filterMap.mpr ⟨w, hw, ?_⟩, rfl⟩
      rw [if_pos hc, hid, Option.map_some]
    obtain ⟨v, -, hget⟩ := OrdDict.exists_get?_setAll OrdDict.empty hmem
    exact ⟨v, hget⟩

/-- Where the tasks have different ids, an id hangs for each task that has an interrupt
    and no resume value. -/
theorem card_hangingInterrupts (h : ∀ t t' id, (pendingInterrupts idOf ws).get? t = some id →
    (pendingInterrupts idOf ws).get? t' = some id → t = t') :
    (hangingInterrupts idOf ws).card =
      ((pendingInterrupts idOf ws).keys.toFinset.filter fun t => t ∉ pendingResumes ws).card := by
  have himage : hangingInterrupts idOf ws =
      ((pendingInterrupts idOf ws).keys.toFinset.filter fun t => t ∉ pendingResumes ws).image
        fun t => ((pendingInterrupts idOf ws).get? t).getD "" := by
    ext id
    rw [hangingInterrupts, List.mem_toFinset, List.mem_filter, decide_eq_true_iff, Finset.mem_image]
    constructor
    · rintro ⟨hval, hout⟩
      obtain ⟨⟨t, id'⟩, he, rfl⟩ := List.mem_map.mp hval
      have hget : (pendingInterrupts idOf ws).get? t = some id' := OrdDict.get?_eq_some_iff.mpr he
      refine ⟨t, Finset.mem_filter.mpr ⟨List.mem_toFinset.mpr (OrdDict.mem_keys_iff.mpr ⟨_, hget⟩),
        fun hres => hout (List.mem_filterMap.mpr ⟨t, hres, hget⟩)⟩, ?_⟩
      rw [hget]
      rfl
    · rintro ⟨t, ht, rfl⟩
      obtain ⟨hkey, hres⟩ := Finset.mem_filter.mp ht
      obtain ⟨id, hget⟩ := OrdDict.mem_keys_iff.mp (List.mem_toFinset.mp hkey)
      rw [hget, Option.getD_some]
      refine ⟨List.mem_map.mpr ⟨_, OrdDict.get?_eq_some_iff.mp hget, rfl⟩, fun hin => ?_⟩
      obtain ⟨t', hres', hget'⟩ := List.mem_filterMap.mp hin
      rw [h t t' id hget hget'] at hres
      exact hres hres'
  rw [himage]
  apply Finset.card_image_of_injOn
  intro t ht t' ht' he
  obtain ⟨id, hget⟩ := OrdDict.mem_keys_iff.mp (List.mem_toFinset.mp (Finset.mem_filter.mp ht).1)
  obtain ⟨id', hget'⟩ := OrdDict.mem_keys_iff.mp (List.mem_toFinset.mp (Finset.mem_filter.mp ht').1)
  simp only [hget, hget', Option.getD_some] at he
  rw [he] at hget
  exact h t t' id' hget hget'

end Hanging

/-! ## Invocations at a checkpoint -/

/-- What the tasks do at a checkpoint between two loads of it: what `_first` puts for the
    null task, and the commits. -/
structure Invocation where
  input : List (String × PyVal)
  commits : Execution
  taskPaths : String → String

def PendingLoop.invoke {V : Type} (l : PendingLoop V) (i : Invocation) : PendingLoop V :=
  ((l.putWrites Const.NULL_TASK_ID i.input "").runExecution i.commits).restart i.taskPaths

def PendingLoop.invokeAll {V : Type} (l : PendingLoop V) (history : List Invocation) :
    PendingLoop V :=
  history.foldl PendingLoop.invoke l

/-- The `interrupt()` calls that an execution stops at: its own, or those of the tasks
    of its subgraphs. -/
def stoppedAt (a : Attempt) : List PyVal :=
  match a.outcome with
  | .interrupt interrupts => interrupts
  | _ => []

/-- The commit saves an answer that the task has been given. -/
def HasAnswer (a : Attempt) : Prop :=
  ∃ w ∈ (commitWrites none a).getD [], w.1 = Const.RESUME

instance (a : Attempt) : Decidable (HasAnswer a) :=
  inferInstanceAs (Decidable (∃ w ∈ (commitWrites none a).getD [], w.1 = Const.RESUME))

namespace Invocation

/-- The executions of a task, in order. -/
def commitsOf (history : List Invocation) (t : String) : List Commit :=
  (history.flatMap fun i => i.commits).filter fun c => c.taskId = t

def tasks (history : List Invocation) : Finset String :=
  ((history.flatMap fun i => i.commits).map fun c => c.taskId).toFinset

/-- What the last execution of the task stopped at. -/
def waitingAt (history : List Invocation) (t : String) : List PyVal :=
  match (commitsOf history t).getLast? with
  | some c => stoppedAt c.attempt
  | none => []

/-- The tasks, also those of subgraphs, that are stopped at an `interrupt()` call. -/
def waiting (history : List Invocation) : ℕ :=
  ∑ t ∈ tasks history, (waitingAt history t).length

/-- The task has stopped at an interrupt in the superstep, and none of its executions
    had an answer of its own. -/
def Unanswered (history : List Invocation) (t : String) : Prop :=
  (∃ c ∈ commitsOf history t, stoppedAt c.attempt ≠ []) ∧
    ∀ c ∈ commitsOf history t, ¬ HasAnswer c.attempt

instance (history : List Invocation) (t : String) : Decidable (Unanswered history t) :=
  inferInstanceAs (Decidable (_ ∧ _))

def unanswered (history : List Invocation) : ℕ := ((tasks history).filter (Unanswered history)).card

/-- A history of a superstep: an invocation commits a task once, tasks do not write to
    the reserved channel of interrupts, and the ids of the interrupts of two tasks, which
    are hashes of their namespaces, differ. -/
structure Sound (idOf : PyVal → String) (history : List Invocation) : Prop where
  once : ∀ i ∈ history, (i.commits.map fun c => c.taskId).Nodup
  null : ∀ i ∈ history, ∀ c ∈ i.commits, c.taskId ≠ Const.NULL_TASK_ID
  input : ∀ i ∈ history, ∀ w ∈ i.input, w.1 ≠ Const.INTERRUPT
  appended : ∀ i ∈ history, ∀ c ∈ i.commits, ∀ w ∈ c.attempt.appended, w.1 ≠ Const.INTERRUPT
  ids : ∀ i ∈ history, ∀ j ∈ history, ∀ c ∈ i.commits, ∀ d ∈ j.commits,
    ∀ x ∈ stoppedAt c.attempt, ∀ y ∈ stoppedAt d.attempt, idOf x = idOf y → c.taskId = d.taskId

end Invocation

/-! ## What the invocations store -/

/-- The index of a special channel. -/
def IdxKind.special (i : Int) (hi : i < 0) : IdxKind where
  holds j := j = i
  channel c n m := by
    cases h : writesIdxMap c with
    | none =>
      simp only [writeIdx, h, Option.getD_none]
      omega
    | some j => simp [writeIdx, h]

theorem IdxKind.special_has_iff {c c' : String} {i : Int} (hi : i < 0)
    (h : writesIdxMap c = some i) : (IdxKind.special i hi).Has c' ↔ c' = c :=
  writeIdx_eq_special_iff h 0

namespace PendingLoop
variable {V : Type} {l : PendingLoop V}

/-- The null task puts nothing into the entries of another one. -/
theorem inList_putNull {t : String} (ht : t ≠ Const.NULL_TASK_ID) (ws : List (String × PyVal))
    (path : String) (q : IdxKind) :
    (l.putWrites Const.NULL_TASK_ID ws path).InList t q ↔ l.InList t q := by
  by_cases hws : ws = []
  · rw [hws]
    rfl
  rw [putWrites_of_ne_nil l _ ws path hws]
  constructor
  · rintro ⟨w, hw, hwt, hq⟩
    rcases List.mem_append.mp hw with hw | hw
    · rw [remaining, if_pos rfl] at hw
      exact ⟨w, (List.mem_filter.mp hw).1, hwt, hq⟩
    · obtain ⟨cv, -, rfl⟩ := List.mem_map.mp hw
      exact absurd hwt.symm ht
  · rintro ⟨w, hw, hwt, hq⟩
    refine ⟨w, List.mem_append_left _ ?_, hwt, hq⟩
    rw [remaining, if_pos rfl, List.mem_filter]
    have hne : w.taskId ≠ Const.NULL_TASK_ID := by
      rw [hwt]
      exact ht
    exact ⟨hw, by simp [hne]⟩

theorem stored_putNull {t : String} (ht : t ≠ Const.NULL_TASK_ID) (ws : List (String × PyVal))
    (path : String) (q : IdxKind) :
    (l.putWrites Const.NULL_TASK_ID ws path).Stored t q ↔ l.Stored t q := by
  by_cases hws : ws = []
  · rw [hws]
    rfl
  rw [putWrites_of_ne_nil l _ ws path hws, Stored]
  split
  · rfl
  · rw [l.saver.slotsAt_putWrites l.checkpointId
      ⟨Const.NULL_TASK_ID, l.writesToSave Const.NULL_TASK_ID (dedupSpecial ws), path⟩,
      Slots.hasAt_putMemory]
    exact or_iff_left fun h => ht h.1.symm

theorem savedOf_putWrites (l : PendingLoop V) (t : String) (ws : List (String × PyVal))
    (path : String) (c : Commit) : (l.putWrites t ws path).savedOf c = l.savedOf c := by
  have hd : (l.putWrites t ws path).durability = l.durability := durability_step l (.put t ws path)
  rw [savedOf, savedOf, saveable_putWrites, hd]

theorem savedOf_invoke (l : PendingLoop V) (i : Invocation) (c : Commit) :
    (l.invoke i).savedOf c = l.savedOf c := by
  rw [invoke, savedOf_restart, savedOf_runExecution, savedOf_putWrites]

theorem WellStored.invoke (h : l.WellStored) (i : Invocation) : (l.invoke i).WellStored :=
  ((h.putWrites _ i.input "").runExecution i.commits).restart i.taskPaths

/-- The next invocation starts from what has been stored. -/
theorem inList_invoke (h : l.WellStored) (i : Invocation) (t : String) (q : IdxKind) :
    (l.invoke i).InList t q ↔ (l.invoke i).Stored t q :=
  inList_restart ((h.putWrites _ i.input "").runExecution i.commits) i.taskPaths t q

theorem stored_invoke {i : Invocation}
    (hload : ∀ t, t ≠ Const.NULL_TASK_ID → ∀ q, l.InList t q → l.Stored t q)
    (honce : (i.commits.map fun c => c.taskId).Nodup)
    (hnull : ∀ c ∈ i.commits, c.taskId ≠ Const.NULL_TASK_ID) {t : String}
    (ht : t ≠ Const.NULL_TASK_ID) (q : IdxKind) :
    (l.invoke i).Stored t q ↔
      l.Stored t q ∨ ∃ c ∈ i.commits, c.taskId = t ∧ ∃ w ∈ l.savedOf c, q.Has w.1 := by
  have hput : ∀ t, t ≠ Const.NULL_TASK_ID → ∀ q,
      (l.putWrites Const.NULL_TASK_ID i.input "").InList t q →
        (l.putWrites Const.NULL_TASK_ID i.input "").Stored t q := by
    intro t ht q hin
    rw [inList_putNull ht] at hin
    exact (stored_putNull ht ..).mpr (hload t ht q hin)
  rw [invoke, stored_restart, recorded_runExecution honce hnull
    (fun c hc q => hput c.taskId (hnull c hc) q) t q, Recorded, stored_putNull ht, inList_putNull ht]
  simp only [savedOf_putWrites]
  refine or_congr_left (or_iff_left_of_imp ?_)
  exact fun hin => hload t ht q hin.2

/-- After all invocations a task has what its commits saved. -/
theorem stored_invokeAll : ∀ {history : List Invocation} {l : PendingLoop V}, l.WellStored →
    (∀ t, t ≠ Const.NULL_TASK_ID → ∀ q, l.InList t q → l.Stored t q) →
    (∀ i ∈ history, (i.commits.map fun c => c.taskId).Nodup) →
    (∀ i ∈ history, ∀ c ∈ i.commits, c.taskId ≠ Const.NULL_TASK_ID) →
    ∀ t, t ≠ Const.NULL_TASK_ID → ∀ q, (l.invokeAll history).Stored t q ↔
      l.Stored t q ∨
        ∃ c ∈ Invocation.commitsOf history t, ∃ w ∈ l.savedOf c, q.Has w.1
  | [], l, _, _, _, _, t, _, q => by simp [invokeAll, Invocation.commitsOf]
  | i :: history, l, hw, hload, honce, hnull, t, ht, q => by
    have ih := stored_invokeAll (hw.invoke i)
      (fun t _ q => (inList_invoke hw i t q).mp)
      (fun j hj => honce j (List.mem_cons_of_mem _ hj))
      (fun j hj => hnull j (List.mem_cons_of_mem _ hj)) t ht q
    rw [invokeAll, List.foldl_cons, ← invokeAll, ih,
      stored_invoke hload (honce i (List.mem_cons_self ..)) (hnull i (List.mem_cons_self ..)) ht,
      or_assoc]
    simp only [savedOf_invoke, Invocation.commitsOf, List.flatMap_cons, List.filter_append,
      List.mem_append, List.mem_filter, decide_eq_true_eq]
    refine or_congr_right ?_
    constructor
    · rintro (⟨c, hc, hct, hq⟩ | ⟨c, hc, hq⟩)
      · exact ⟨c, Or.inl ⟨hc, hct⟩, hq⟩
      · exact ⟨c, Or.inr hc, hq⟩
    · rintro ⟨c, ⟨hc, hct⟩ | hc, hq⟩
      · exact Or.inl ⟨c, hc, hct, hq⟩
      · exact Or.inr ⟨c, hc, hq⟩

theorem saveable_invoke (l : PendingLoop V) (i : Invocation) :
    (l.invoke i).saveable = l.saveable := by
  have hexec : ∀ (exec : Execution) (l : PendingLoop V),
      (l.runExecution exec).saveable = l.saveable := by
    intro exec
    unfold runExecution
    induction exec with
    | nil => exact fun _ => rfl
    | cons c exec ih =>
      intro l
      rw [List.foldl_cons, ih, saveable_commit]
  have hrestart : ∀ l : PendingLoop V, (l.restart i.taskPaths).saveable = l.saveable := by
    intro l
    unfold restart
    split <;> rfl
  rw [invoke, hrestart, hexec, saveable_putWrites]

theorem wellStored_invokeAll {history : List Invocation} {l : PendingLoop V} (h : l.WellStored)
    (hlist : l.checkpointPendingWrites = l.storedWrites) :
    (l.invokeAll history).WellStored ∧
      (l.invokeAll history).checkpointPendingWrites = (l.invokeAll history).storedWrites := by
  unfold invokeAll
  induction history generalizing l with
  | nil => exact ⟨h, hlist⟩
  | cons i history ih => exact ih (h.invoke i) (checkpointPendingWrites_restart _ i.taskPaths)

/-- What the null task and every commit put is everywhere what `P` says. -/
theorem Everywhere.invokeAll {P : String → String × PyVal → Prop} {history : List Invocation} :
    ∀ {l : PendingLoop V}, l.WellStored → l.Everywhere P →
      (∀ i ∈ history, ∀ w ∈ i.input, P Const.NULL_TASK_ID w) →
      (∀ i ∈ history, ∀ c ∈ i.commits, ∀ w ∈ (commitWrites none c.attempt).getD [], P c.taskId w) →
      (∀ t w w', l.saveable w = some w' → P t w → P t w') → (l.invokeAll history).Everywhere P := by
  unfold PendingLoop.invokeAll
  induction history with
  | nil => exact fun _ h _ _ _ => h
  | cons i history ih =>
    intro l hw h hinput hcommits hsave
    have hput : (l.putWrites Const.NULL_TASK_ID i.input "").Everywhere P :=
      h.putWrites (hinput i (List.mem_cons_self ..)) (hsave Const.NULL_TASK_ID)
    have hexec := hput.runExecution (hcommits i (List.mem_cons_self ..))
      (by rw [saveable_putWrites]; exact hsave)
    refine ih (hw.invoke i) (hexec.restart ((hw.putWrites _ i.input "").runExecution i.commits)
      i.taskPaths) (fun j hj => hinput j (List.mem_cons_of_mem _ hj))
      (fun j hj => hcommits j (List.mem_cons_of_mem _ hj)) ?_
    rw [saveable_invoke]
    exact hsave

end PendingLoop

/-! ## What a commit says of its task -/

theorem interrupt_of_commitWrites {a : Attempt} {w : String × PyVal}
    (happ : ∀ w ∈ a.appended, w.1 ≠ Const.INTERRUPT) (hw : w ∈ (commitWrites none a).getD [])
    (hc : w.1 = Const.INTERRUPT) : stoppedAt a ≠ [] ∧ w.2 = .tuple (stoppedAt a) := by
  have herror : Const.ERROR ≠ Const.INTERRUPT := by decide
  have hno : Const.NO_WRITES ≠ Const.INTERRUPT := by decide
  unfold commitWrites at hw
  unfold stoppedAt
  cases ho : a.outcome with
  | ok =>
    simp only [ho, Option.getD_some] at hw
    split at hw
    · rw [List.mem_singleton.mp hw] at hc
      exact absurd hc hno
    · exact absurd hc (happ w hw)
  | cancelled e =>
    simp only [ho, Option.getD_some] at hw
    rcases List.mem_append.mp hw with hw | hw
    · exact absurd hc (happ w hw)
    · rw [List.mem_singleton.mp hw] at hc
      exact absurd hc herror
  | interrupt interrupts =>
    simp only [ho] at hw
    split at hw
    · cases hw
    · rename_i hne
      rcases List.mem_cons.mp hw with rfl | hw
      · exact ⟨by simpa using hne, rfl⟩
      · exact absurd hc (happ w (List.mem_filter.mp hw).1)
  | bubbleUp =>
    simp only [ho] at hw
    cases hw
  | error e =>
    simp only [ho, Option.getD_some, Option.map_none, Option.toList_none, List.append_nil] at hw
    rcases List.mem_append.mp hw with hw | hw
    · exact absurd hc (happ w hw)
    · rw [List.mem_singleton.mp hw] at hc
      exact absurd hc herror

theorem exists_interrupt_iff {a : Attempt} (happ : ∀ w ∈ a.appended, w.1 ≠ Const.INTERRUPT) :
    (∃ w ∈ (commitWrites none a).getD [], w.1 = Const.INTERRUPT) ↔ stoppedAt a ≠ [] := by
  constructor
  · rintro ⟨w, hw, hc⟩
    exact (interrupt_of_commitWrites happ hw hc).1
  · intro h
    unfold stoppedAt at h
    split at h
    · rename_i interrupts ho
      refine ⟨(Const.INTERRUPT, .tuple interrupts), ?_, rfl⟩
      rw [commitWrites, ho]
      simp [h]
    · exact absurd rfl h

namespace PendingLoop
variable {V : Type} {l : PendingLoop V}

/-- No special channel is an `UntrackedValue`. -/
def SavesSpecial (l : PendingLoop V) : Prop :=
  ∀ c, isSpecial c = true → (l.specs.get? c).any Channel.isUntracked = false

theorem saveable_of_special (h : l.SavesSpecial) {w : String × PyVal} (hw : isSpecial w.1 = true) :
    l.saveable w = some w := by
  have htasks : w.1 ≠ Const.TASKS := by
    intro he
    rw [he] at hw
    exact absurd hw (by decide)
  unfold saveable
  rw [h w.1 hw, if_neg Bool.false_ne_true, if_neg htasks]
  split <;> rfl

theorem exists_savedOf_iff (h : l.SavesSpecial) (c : Commit) {ch : String}
    (hch : isSpecial ch = true) :
    (∃ w ∈ l.savedOf c, w.1 = ch) ↔ ∃ w ∈ (commitWrites none c.attempt).getD [], w.1 = ch := by
  unfold savedOf
  cases commitWrites none c.attempt with
  | none => simp
  | some ws =>
    simp only [Option.getD_some]
    split
    · rfl
    · rw [exists_mem_saveable (P := fun c => c = ch)]
      constructor
      · rintro ⟨w, hw, -, hc⟩
        exact ⟨w, hw, hc⟩
      · rintro ⟨w, hw, hc⟩
        refine ⟨w, hw, ?_, hc⟩
        rw [saveable_of_special h (hc ▸ hch)]
        rfl

section Check
variable {idOf : PyVal → String} {history : List Invocation}

theorem mem_commitsOf {t : String} {c : Commit} :
    c ∈ Invocation.commitsOf history t ↔ (∃ i ∈ history, c ∈ i.commits) ∧ c.taskId = t := by
  rw [Invocation.commitsOf, List.mem_filter, List.mem_flatMap, decide_eq_true_iff]

/-- The list of the next process has what the commits of the task have saved. -/
theorem inList_invokeAll (hmem : l.checkpointPendingWrites = [])
    (hsaver : l.saver.writesAt l.checkpointId = ∅) (hs : Invocation.Sound idOf history)
    {t : String} (ht : t ≠ Const.NULL_TASK_ID) (q : IdxKind) :
    (l.invokeAll history).InList t q ↔
      ∃ c ∈ Invocation.commitsOf history t, ∃ w ∈ l.savedOf c, q.Has w.1 := by
  have hwell := wellStored_of_writesAt hsaver
  have hnone : l.storedWrites = [] := by
    rw [storedWrites, hsaver]
    rfl
  have hend : (l.invokeAll history).WellStored ∧
      (l.invokeAll history).checkpointPendingWrites = (l.invokeAll history).storedWrites :=
    wellStored_invokeAll hwell (hmem.trans hnone.symm)
  have hempty : ∀ t q, ¬l.InList t q := fun t q => by simp [InList, hmem]
  have hstored : ¬l.Stored t q := by
    rw [stored_iff hwell, hnone]
    simp
  rw [InList, hend.2, ← stored_iff hend.1, stored_invokeAll hwell
    (fun t _ q hin => absurd hin (hempty t q)) hs.once hs.null t ht q, or_iff_right hstored]

/-- The list has a write of a special channel for a task when a commit of the task puts one. -/
theorem exists_special_invokeAll (hmem : l.checkpointPendingWrites = [])
    (hsaver : l.saver.writesAt l.checkpointId = ∅) (hspec : l.SavesSpecial)
    (hs : Invocation.Sound idOf history) {t : String} (ht : t ≠ Const.NULL_TASK_ID) (ch : String)
    {i : Int} (hch : writesIdxMap ch = some i) :
    (∃ w ∈ (l.invokeAll history).checkpointPendingWrites, w.taskId = t ∧ w.channel = ch) ↔
      ∃ c ∈ Invocation.commitsOf history t, ∃ w ∈ (commitWrites none c.attempt).getD [], w.1 = ch := by
  have hin := inList_invokeAll hmem hsaver hs ht (.special i (writesIdxMap_neg hch))
  simp only [InList, IdxKind.special_has_iff (writesIdxMap_neg hch) hch] at hin
  have hspecial : isSpecial ch = true := by
    rw [isSpecial, hch]
    rfl
  rw [hin]
  exact exists_congr fun c => and_congr_right fun _ => exists_savedOf_iff hspec c hspecial

/-- An interrupt in the list is what an execution of its task has stopped at. -/
theorem interrupt_of_invokeAll (hmem : l.checkpointPendingWrites = [])
    (hsaver : l.saver.writesAt l.checkpointId = ∅) (hspec : l.SavesSpecial)
    (hs : Invocation.Sound idOf history) :
    ∀ w ∈ (l.invokeAll history).checkpointPendingWrites, w.channel = Const.INTERRUPT →
      ∃ c ∈ Invocation.commitsOf history w.taskId,
        stoppedAt c.attempt ≠ [] ∧ w.value = .tuple (stoppedAt c.attempt) := by
  let P : String → String × PyVal → Prop := fun t cv => cv.1 = Const.INTERRUPT →
    ∃ c ∈ Invocation.commitsOf history t, stoppedAt c.attempt ≠ [] ∧ cv.2 = .tuple (stoppedAt c.attempt)
  have hstart : l.Everywhere P := by
    refine ⟨by simp [hmem], ?_⟩
    intro k cv hk
    rw [InMemorySaver.slotsAt, hsaver] at hk
    cases hk
  have hall : (l.invokeAll history).Everywhere P := by
    refine hstart.invokeAll (wellStored_of_writesAt hsaver) ?_ ?_ ?_
    · exact fun i hi w hw hc => absurd hc (hs.input i hi w hw)
    · intro i hi c hc w hw hint
      exact ⟨c, mem_commitsOf.mpr ⟨⟨i, hi, hc⟩, rfl⟩,
        interrupt_of_commitWrites (hs.appended i hi c hc) hw hint⟩
    · intro t w w' hsave hw hc
      have hspecial : isSpecial w.1 = true := by
        rw [← channel_of_saveable hsave, hc]
        rfl
      rw [saveable_of_special hspec hspecial, Option.some.injEq] at hsave
      rw [← hsave] at hc ⊢
      exact hw hc
  exact hall.1

theorem taskId_ne_null (hs : Invocation.Sound idOf history) {t : String} {c : Commit}
    (hc : c ∈ Invocation.commitsOf history t) : t ≠ Const.NULL_TASK_ID := by
  obtain ⟨⟨i, hi, hci⟩, rfl⟩ := mem_commitsOf.mp hc
  exact hs.null i hi c hci

theorem mem_keys_invokeAll (hmem : l.checkpointPendingWrites = [])
    (hsaver : l.saver.writesAt l.checkpointId = ∅) (hspec : l.SavesSpecial)
    (hs : Invocation.Sound idOf history) (t : String) :
    t ∈ (pendingInterrupts idOf (l.invokeAll history).checkpointPendingWrites).keys ↔
      ∃ c ∈ Invocation.commitsOf history t, stoppedAt c.attempt ≠ [] := by
  have hfirst : ∀ {xs : List PyVal}, xs ≠ [] → (firstId idOf (.tuple xs)).isSome := by
    intro xs hxs
    cases xs with
    | nil => exact absurd rfl hxs
    | cons x xs => rfl
  rw [mem_keys_pendingInterrupts]
  constructor
  · rintro ⟨w, hw, rfl, hc, -⟩
    obtain ⟨c, hmemc, hne, -⟩ := interrupt_of_invokeAll hmem hsaver hspec hs w hw hc
    exact ⟨c, hmemc, hne⟩
  · rintro ⟨c, hc, hne⟩
    obtain ⟨⟨i, hi, hci⟩, -⟩ := mem_commitsOf.mp hc
    have hput := (exists_interrupt_iff (hs.appended i hi c hci)).mpr hne
    obtain ⟨w, hw, rfl, hch⟩ := (exists_special_invokeAll hmem hsaver hspec hs
      (taskId_ne_null hs hc) Const.INTERRUPT rfl).mpr ⟨c, hc, hput⟩
    obtain ⟨c', -, hne', hval⟩ := interrupt_of_invokeAll hmem hsaver hspec hs w hw hch
    exact ⟨w, hw, rfl, hch, by rw [hval]; exact hfirst hne'⟩

/-- The check counts the tasks that stopped and were never given an answer. -/
theorem card_hangingInterrupts_invokeAll (hmem : l.checkpointPendingWrites = [])
    (hsaver : l.saver.writesAt l.checkpointId = ∅) (hspec : l.SavesSpecial)
    (hs : Invocation.Sound idOf history) :
    (hangingInterrupts idOf (l.invokeAll history).checkpointPendingWrites).card =
      Invocation.unanswered history := by
  -- an id belongs to one task
  have hinj : ∀ t t' id,
      (pendingInterrupts idOf (l.invokeAll history).checkpointPendingWrites).get? t = some id →
      (pendingInterrupts idOf (l.invokeAll history).checkpointPendingWrites).get? t' = some id →
        t = t' := by
    have hid : ∀ t id,
        (pendingInterrupts idOf (l.invokeAll history).checkpointPendingWrites).get? t = some id →
          ∃ i ∈ history, ∃ c ∈ i.commits, c.taskId = t ∧ ∃ x ∈ stoppedAt c.attempt, idOf x = id := by
      intro t id hget
      obtain ⟨w, hw, rfl, hc, hfirst⟩ := exists_of_pendingInterrupts hget
      obtain ⟨c, hmemc, hne, hval⟩ := interrupt_of_invokeAll hmem hsaver hspec hs w hw hc
      obtain ⟨⟨i, hi, hci⟩, ht⟩ := mem_commitsOf.mp hmemc
      obtain ⟨x, xs, hx⟩ := List.exists_cons_of_ne_nil hne
      rw [hval, hx] at hfirst
      exact ⟨i, hi, c, hci, ht, x, by simp [hx], Option.some.inj hfirst⟩
    intro t t' id hget hget'
    obtain ⟨i, hi, c, hc, rfl, x, hx, hxid⟩ := hid t id hget
    obtain ⟨j, hj, d, hd, rfl, y, hy, hyid⟩ := hid t' id hget'
    exact hs.ids i hi j hj c hc d hd x hx y hy (hxid.trans hyid.symm)
  rw [card_hangingInterrupts hinj, Invocation.unanswered]
  congr 1
  ext t
  rw [Finset.mem_filter, Finset.mem_filter, List.mem_toFinset,
    mem_keys_invokeAll hmem hsaver hspec hs, Invocation.Unanswered]
  have htasks : ∀ {c}, c ∈ Invocation.commitsOf history t → t ∈ Invocation.tasks history := by
    intro c hc
    obtain ⟨⟨i, hi, hci⟩, rfl⟩ := mem_commitsOf.mp hc
    exact List.mem_toFinset.mpr
      (List.mem_map.mpr ⟨c, List.mem_flatMap.mpr ⟨i, hi, hci⟩, rfl⟩)
  have hresumed : ∀ {c}, c ∈ Invocation.commitsOf history t →
      (t ∉ pendingResumes (l.invokeAll history).checkpointPendingWrites ↔
        ∀ c ∈ Invocation.commitsOf history t, ¬HasAnswer c.attempt) := by
    intro c hc
    rw [mem_pendingResumes, exists_special_invokeAll hmem hsaver hspec hs (taskId_ne_null hs hc)
      Const.RESUME rfl]
    exact not_exists.trans (forall_congr' fun c => not_and)
  constructor
  · rintro ⟨⟨c, hc, hne⟩, hres⟩
    exact ⟨htasks hc, ⟨c, hc, hne⟩, (hresumed hc).mp hres⟩
  · rintro ⟨-, ⟨c, hc, hne⟩, hall⟩
    exact ⟨⟨c, hc, hne⟩, (hresumed hc).mpr hall⟩

end Check

end PendingLoop

/-- After any invocations at a checkpoint a plain value is refused exactly when two tasks
    wait for one, if and only if the tasks that wait and the tasks that stopped without an
    answer of their own are both fewer than two, or both at least two. -/
theorem refusesPlain_iff_waiting_iff {V : Type} {l : PendingLoop V} {idOf : PyVal → String}
    {history : List Invocation} (hmem : l.checkpointPendingWrites = [])
    (hsaver : l.saver.writesAt l.checkpointId = ∅) (hspec : l.SavesSpecial)
    (hs : Invocation.Sound idOf history) :
    (RefusesPlain idOf (l.invokeAll history).checkpointPendingWrites ↔
        2 ≤ Invocation.waiting history) ↔
      Invocation.waiting history < 2 ∧ Invocation.unanswered history < 2 ∨
        2 ≤ Invocation.waiting history ∧ 2 ≤ Invocation.unanswered history := by
  rw [RefusesPlain, PendingLoop.card_hangingInterrupts_invokeAll hmem hsaver hspec hs]
  omega

/-! ## Two tasks -/

/-- An `Interrupt`: its id, and its value. -/
def interruptOf (id value : String) : PyVal := .tuple [.str id, .str value]

def interruptId : PyVal → String
  | .tuple (.str id :: _) => id
  | _ => ""

/-- Two tasks reach their first `interrupt()` call. -/
def firstStop : Invocation :=
  ⟨[], [plainCommit "a" [] (.interrupt [interruptOf "a" "first?"]),
    plainCommit "b" [] (.interrupt [interruptOf "b" "first?"])], fun _ => ""⟩

theorem savesSpecial_freshLoop : freshLoop.SavesSpecial := by
  intro c hc
  have hkeys : ∀ c ∈ freshLoop.specs.keys, isSpecial c = false := by decide
  have hout : c ∉ freshLoop.specs.keys := by
    intro hmem
    rw [hkeys c hmem] at hc
    exact absurd hc Bool.false_ne_true
  rw [OrdDict.get?_eq_none_iff.mpr hout]
  rfl

theorem refusesPlain_firstStop :
    RefusesPlain interruptId (freshLoop.invokeAll [firstStop]).checkpointPendingWrites := by
  have hsound : Invocation.Sound interruptId [firstStop] :=
    { once := by decide
      null := by decide
      input := by decide
      appended := by decide
      ids := by decide }
  refine ((refusesPlain_iff_waiting_iff rfl rfl savesSpecial_freshLoop hsound).mpr (Or.inr ⟨?_, ?_⟩)).mpr ?_
  · decide +kernel
  · decide +kernel
  · decide +kernel

/-- Both get an answer by its id, and stop at their second `interrupt()` call. -/
def secondStop : Invocation :=
  ⟨[], [plainCommit "a" [(Const.RESUME, .list [.str "x"])] (.interrupt [interruptOf "a" "second?"]),
    plainCommit "b" [(Const.RESUME, .list [.str "y"])] (.interrupt [interruptOf "b" "second?"])],
    fun _ => ""⟩

/-- Two tasks wait, and a plain value is accepted. -/
theorem not_refusesPlain_secondStop :
    ¬(RefusesPlain interruptId
        (freshLoop.invokeAll [firstStop, secondStop]).checkpointPendingWrites ↔
      2 ≤ Invocation.waiting [firstStop, secondStop]) := by
  decide +kernel

/-- A task that was stopped in a subgraph of it has finished, the other one still waits:
    the value could go to one task only, and it is refused. -/
example : RefusesPlain interruptId (freshLoop.invokeAll [firstStop,
      ⟨[], [plainCommit "a" [("log", .str "done")] .ok,
        plainCommit "b" [] (.interrupt [interruptOf "b" "first?"])], fun _ => ""⟩]).checkpointPendingWrites ∧
    Invocation.waiting [firstStop, ⟨[], [plainCommit "a" [("log", .str "done")] .ok,
        plainCommit "b" [] (.interrupt [interruptOf "b" "first?"])], fun _ => ""⟩] = 1 := by
  decide +kernel

end LangGraph
