import Mathlib.Data.List.Pairwise
import LangGraph.Lib.TextOrder
import LangGraph.TaskOrder
import LangGraph.Savers.PendingWrites

/- The writes to DeltaChannels of a run with `durability="exit"`.

   Correspondence (source ↔ Lean):
     a task id, `NULL_TASK_ID`                         ↔ `Uuid`, `Uuid.null`
     `exit_delta_task_id` (pregel/_checkpoint.py)      ↔ `exitDeltaTaskId`
     `isinstance(self.specs.get(ch), DeltaChannel)`    ↔ `delta ch`
     `_exit_delta_writes`, as `_first` and
       `after_tick` fill it (pregel/_loop.py)          ↔ `ExitRun.exitDeltaWrites`
     `_put_exit_delta_writes`                          ↔ `putExitDeltaWrites`; the channels that
                                                          take a snapshot are `snapshot`
   The order in which the run applies the writes is `ExitRun.applied`: the writes
   of the null task and the input in `_first`, then superstep by superstep what
   `apply_writes` takes, the tasks sorted by their paths. `followsLive_iff` says
   on which runs the SQL savers give the stored writes back in this order. -/
namespace LangGraph

/-! ## The id of a stored write -/

def isHexDigit (c : Char) : Bool := c.isDigit || decide ('a' ≤ c ∧ c ≤ 'f')

/-- The 32 hex digits of a UUID. -/
structure Uuid where
  hex : List Char
  length_hex : hex.length = 32
  isHexDigit_hex : ∀ c ∈ hex, isHexDigit c = true
  deriving DecidableEq

namespace Uuid

/-- The last four groups of the text, each after its hyphen. -/
def tail (u : Uuid) : List Char :=
  let rest := u.hex.drop 8
  '-' :: rest.take 4 ++ '-' :: (rest.drop 4).take 4 ++ '-' :: (rest.drop 8).take 4 ++
    '-' :: rest.drop 12

def str (u : Uuid) : String := String.ofList (u.hex.take 8 ++ u.tail)

def null : Uuid where
  hex := List.replicate 32 '0'
  length_hex := List.length_replicate
  isHexDigit_hex := fun c hc => by rw [List.eq_of_mem_replicate hc]; rfl

example : null.str = Const.NULL_TASK_ID := by decide

theorem length_tail (u : Uuid) : u.tail.length = 28 := by
  simp [tail, u.length_hex]

end Uuid

/-- The text is the one of a UUID, in the form of five groups. -/
def IsUuidText (s : String) : Prop := ∃ u : Uuid, u.str = s

/-- `f"{step:08d}"` -/
def pad8 (step : Int) : String :=
  let digits := toString step.natAbs
  let zeros (width : Nat) := String.ofList (List.replicate (width - digits.length) '0')
  if step < 0 then "-" ++ zeros 7 ++ digits else zeros 8 ++ digits

/-- `exit_delta_task_id`: the first group of the id, of eight digits, is replaced. -/
def exitDeltaTaskId (step : Int) (taskId : String) : String :=
  pad8 step ++ String.ofList (taskId.toList.drop 8)

theorem length_zeroPad_eq_iff {w n : Nat} (hw : 0 < w) :
    (zeroPad w n).length = w ↔ n < 10 ^ w := by
  rw [← Nat.length_toDigits_le_iff (by decide) hw, zeroPad, List.length_append,
    List.length_replicate]
  omega

theorem toList_pad8 (n : Nat) : (pad8 n).toList = zeroPad 8 n := by
  rw [pad8, if_neg (by omega), Int.natAbs_natCast, String.toList_append, String.toList_ofList,
    Nat.toString_eq_repr, Nat.repr]
  simp [zeroPad]

theorem mem_pad8_negSucc (n : Nat) : '-' ∈ (pad8 (Int.negSucc n)).toList := by
  rw [pad8, if_pos (Int.negSucc_lt_zero n), String.toList_append, String.toList_append]
  exact List.mem_append_left _ (List.mem_append_left _ (by decide))

theorem toList_exitDeltaTaskId (n : Int) (u : Uuid) :
    (exitDeltaTaskId n u.str).toList = (pad8 n).toList ++ u.tail := by
  have hlen : (u.hex.take 8).length = 8 := by rw [List.length_take, u.length_hex]; rfl
  rw [exitDeltaTaskId, Uuid.str, String.toList_append, String.toList_ofList, String.toList_ofList,
    List.drop_left' hlen]

theorem pad8_lt_iff {m n : Int} (hm : 0 ≤ m ∧ m < 10 ^ 8) (hn : 0 ≤ n ∧ n < 10 ^ 8) :
    (pad8 m).toList < (pad8 n).toList ↔ m < n := by
  obtain ⟨m, rfl⟩ := Int.eq_ofNat_of_zero_le hm.1
  obtain ⟨n, rfl⟩ := Int.eq_ofNat_of_zero_le hn.1
  have hlm : (zeroPad 8 m).length = 8 := (length_zeroPad_eq_iff (by decide)).mpr (by omega)
  have hln : (zeroPad 8 n).length = 8 := (length_zeroPad_eq_iff (by decide)).mpr (by omega)
  rw [toList_pad8, toList_pad8, TextOrder.lt_iff_ofDigitChars_lt (hlm.trans hln.symm)
    (fun c hc => isDigit_of_mem_zeroPad hc) (fun c hc => isDigit_of_mem_zeroPad hc),
    ofDigitChars_zeroPad, ofDigitChars_zeroPad]
  omega

theorem length_pad8 {n : Int} (hn : 0 ≤ n ∧ n < 10 ^ 8) : (pad8 n).toList.length = 8 := by
  obtain ⟨n, rfl⟩ := Int.eq_ofNat_of_zero_le hn.1
  rw [toList_pad8]
  exact (length_zeroPad_eq_iff (by decide)).mpr (by omega)

theorem pad8_inj {m n : Int} (hm : 0 ≤ m ∧ m < 10 ^ 8) (hn : 0 ≤ n ∧ n < 10 ^ 8)
    (h : (pad8 m).toList = (pad8 n).toList) : m = n := by
  have hmn : ¬m < n := by
    rw [← pad8_lt_iff hm hn, h]
    exact lt_irrefl _
  have hnm : ¬n < m := by
    rw [← pad8_lt_iff hn hm, h]
    exact lt_irrefl _
  omega

/-- The ids sort by the step and then by the last four groups of the task's id. -/
theorem exitDeltaTaskId_lt_iff {m n : Int} {u v : Uuid} (hm : 0 ≤ m ∧ m < 10 ^ 8)
    (hn : 0 ≤ n ∧ n < 10 ^ 8) :
    exitDeltaTaskId m u.str < exitDeltaTaskId n v.str ↔ m < n ∨ m = n ∧ u.tail < v.tail := by
  have hlen : (pad8 m).toList.length = (pad8 n).toList.length :=
    (length_pad8 hm).trans (length_pad8 hn).symm
  rw [String.lt_iff_toList_lt, toList_exitDeltaTaskId, toList_exitDeltaTaskId,
    TextOrder.append_lt_append_iff hlen, pad8_lt_iff hm hn]
  have hstep : (pad8 m).toList = (pad8 n).toList ↔ m = n :=
    ⟨pad8_inj hm hn, fun h => congrArg (fun n => (pad8 n).toList) h⟩
  rw [hstep]

/-- The step has eight digits exactly where the id is a UUID. -/
theorem isUuidText_exitDeltaTaskId {n : Int} {u : Uuid} :
    IsUuidText (exitDeltaTaskId n u.str) ↔ 0 ≤ n ∧ n < 10 ^ 8 := by
  constructor
  · intro h
    obtain ⟨v, hv⟩ := h
    have hv := congrArg String.toList hv
    rw [toList_exitDeltaTaskId, Uuid.str, String.toList_ofList] at hv
    have hlen : (v.hex.take 8).length = (pad8 n).toList.length := by
      have h := congrArg List.length hv
      rw [List.length_append, List.length_append, v.length_tail, u.length_tail] at h
      omega
    have hhex : v.hex.take 8 = (pad8 n).toList := (List.append_inj hv hlen).1
    cases n with
    | ofNat n =>
      rw [List.length_take, v.length_hex, Int.ofNat_eq_natCast, toList_pad8] at hlen
      have hn := (length_zeroPad_eq_iff (w := 8) (by decide)).mp hlen.symm
      rw [Int.ofNat_eq_natCast]
      omega
    | negSucc n =>
      -- the sign is not a hex digit
      have hmem : '-' ∈ v.hex.take 8 := by
        rw [hhex]
        exact mem_pad8_negSucc n
      exact absurd (v.isHexDigit_hex '-' (List.mem_of_mem_take hmem)) (by decide)
  · intro hn
    have hlen := length_pad8 hn
    have hhex : ∀ c ∈ (pad8 n).toList, isHexDigit c = true := by
      obtain ⟨n, rfl⟩ := Int.eq_ofNat_of_zero_le hn.1
      intro c hc
      rw [toList_pad8] at hc
      rw [isHexDigit, isDigit_of_mem_zeroPad hc, Bool.true_or]
    refine ⟨⟨(pad8 n).toList ++ u.hex.drop 8, ?_, ?_⟩, String.toList_injective ?_⟩
    · rw [List.length_append, List.length_drop, hlen, u.length_hex]
    · intro c hc
      rcases List.mem_append.mp hc with hc | hc
      · exact hhex c hc
      · exact u.isHexDigit_hex c (List.mem_of_mem_drop hc)
    · rw [toList_exitDeltaTaskId, Uuid.str, String.toList_ofList]
      simp only [Uuid.tail]
      rw [List.take_left' hlen, List.drop_left' hlen]

/-! ## The accumulated writes -/

/-- A write of a task, or of the null task. -/
structure LoopWrite where
  taskId : Uuid
  channel : String
  value : PyVal

/-- An entry of `_exit_delta_writes`. -/
structure ExitDeltaWrite extends LoopWrite where
  step : Int

namespace ExitDeltaWrite

def exitId (w : ExitDeltaWrite) : String := exitDeltaTaskId w.step w.taskId.str

def toPending (w : ExitDeltaWrite) : PendingWrite := ⟨w.exitId, w.channel, w.value⟩

def key (w : ExitDeltaWrite) : Int × Uuid := (w.step, w.taskId)

end ExitDeltaWrite

/-- The `put_writes` of the writes, grouped by step and task. -/
def exitCalls (pending : List ExitDeltaWrite) : List PutWritesCall :=
  (OrdDict.group (pending.map fun w => (w.key, (w.channel, w.value)))).entries.map fun g =>
    ⟨exitDeltaTaskId g.1.1 g.1.2.str, g.2, ""⟩

/-- `_put_exit_delta_writes`, on the table of a SQL saver. -/
def putExitDeltaWrites (snapshot : String → Bool) (t : WritesTable) (anchor : String)
    (exitDeltaWrites : List ExitDeltaWrite) : WritesTable :=
  t.putCalls anchor (exitCalls (exitDeltaWrites.filter fun w => !snapshot w.channel))

structure FinishedTask extends TaskWrites where
  id : Uuid

def FinishedTask.loopWrites (t : FinishedTask) : List LoopWrite :=
  t.writes.map fun w => ⟨t.id, w.1, w.2⟩

section Run
variable {delta : String → Bool}

/-- The writes to DeltaChannels, with the step. -/
def captured (delta : String → Bool) (step : Int) (writes : List LoopWrite) : List ExitDeltaWrite :=
  (writes.filter fun w => delta w.channel).map fun w => ⟨w, step⟩

/-- A superstep at `after_tick`: its tasks, and `checkpoint_pending_writes`, which
    has the writes of each task in their order, the tasks as they came to finish. -/
structure FinishedStep (delta : String → Bool) where
  tasks : List FinishedTask
  pending : List LoopWrite
  nodup : (tasks.map (·.id)).Nodup
  ne_null : ∀ t ∈ tasks, t.id ≠ Uuid.null
  agree : ∀ t ∈ tasks, (pending.filter fun w => delta w.channel).filter (fun w => w.taskId = t.id) =
    t.loopWrites.filter fun w => delta w.channel
  known : ∀ w ∈ pending, delta w.channel → w.taskId = Uuid.null ∨ ∃ t ∈ tasks, t.id = w.taskId

/-- What `apply_writes` takes of the tasks. -/
def FinishedStep.applied (s : FinishedStep delta) (step : Int) : List ExitDeltaWrite :=
  (SortBy.sortBy (fun t => t.toTaskWrites.sortKey) s.tasks).flatMap fun t =>
    captured delta step t.loopWrites

/-- The writes of the null task, which `_first` has applied. -/
def FinishedStep.nullWrites (s : FinishedStep delta) : List LoopWrite :=
  s.pending.filter fun w => w.taskId = Uuid.null

/-- A run: the number of its first step, the input, whether `_first` saves a fork of
    the loaded checkpoint, and the supersteps. Only the pending writes that `_first`
    finds or makes of a `Command` are the null task's. -/
structure ExitRun (delta : String → Bool) where
  step : Int
  inputWrites : List (String × PyVal)
  forks : Bool
  supersteps : List (FinishedStep delta)
  ne_null : ∀ s ∈ supersteps.tail, ∀ w ∈ s.pending, delta w.channel → w.taskId ≠ Uuid.null

namespace ExitRun

/-- `_first` saves a checkpoint, and counts the step up, after an input and for a fork. -/
def firstTick (r : ExitRun delta) : Int :=
  if r.inputWrites.isEmpty && !r.forks then r.step else r.step + 1

def inputLoopWrites (r : ExitRun delta) : List LoopWrite :=
  r.inputWrites.map fun w => ⟨Uuid.null, w.1, w.2⟩

def ticks (f : FinishedStep delta → Int → List ExitDeltaWrite) :
    Int → List (FinishedStep delta) → List ExitDeltaWrite
  | _, [] => []
  | step, s :: rest => f s step ++ ticks f (step + 1) rest

/-- `_exit_delta_writes` -/
def exitDeltaWrites (r : ExitRun delta) : List ExitDeltaWrite :=
  captured delta r.step r.inputLoopWrites ++
    ticks (fun s step => captured delta step s.pending) r.firstTick r.supersteps

/-- The same writes in the order in which the run applies them. -/
def applied (r : ExitRun delta) : List ExitDeltaWrite :=
  captured delta r.firstTick (r.supersteps.head?.elim [] FinishedStep.nullWrites) ++
    (captured delta r.step r.inputLoopWrites ++
      ticks FinishedStep.applied r.firstTick r.supersteps)

end ExitRun

/-! ## The writes of one step and task -/

/-- In a list with distinct keys only the element with the key contributes. -/
theorem flatMap_eq_of_unique {α β κ : Type} {key : α → κ} {f : α → List β} {a : α} {l : List α}
    (hn : (l.map key).Nodup) (ha : a ∈ l) (hf : ∀ b ∈ l, key b ≠ key a → f b = []) :
    l.flatMap f = f a := by
  obtain ⟨pre, post, rfl⟩ := List.append_of_mem ha
  rw [List.map_append, List.map_cons, List.nodup_append, List.nodup_cons] at hn
  obtain ⟨-, ⟨hpost, -⟩, hpre⟩ := hn
  have hbefore : pre.flatMap f = [] := by
    refine List.flatMap_eq_nil_iff.mpr fun b hb => hf b (List.mem_append_left _ hb) ?_
    exact hpre (key b) (List.mem_map_of_mem hb) (key a) List.mem_cons_self
  have hafter : post.flatMap f = [] := by
    refine List.flatMap_eq_nil_iff.mpr fun b hb => ?_
    refine hf b (List.mem_append_right _ (List.mem_cons_of_mem a hb)) fun heq => hpost ?_
    rw [← heq]
    exact List.mem_map_of_mem hb
  rw [List.flatMap_append, List.flatMap_cons, hbefore, hafter, List.nil_append, List.append_nil]

theorem captured_filter_key (delta : String → Bool) (step : Int) (writes : List LoopWrite)
    (n : Int) (id : Uuid) :
    (captured delta step writes).filter (fun w => w.key = (n, id)) =
      if step = n then
        ((writes.filter fun w => delta w.channel).filter fun w => w.taskId = id).map fun w => ⟨w, step⟩
      else [] := by
  rw [captured, List.filter_map]
  split
  · next hn =>
    refine congrArg _ (List.filter_congr fun w _ => ?_)
    simp [ExitDeltaWrite.key, hn]
  · next hn =>
    rw [List.filter_eq_nil_iff.mpr fun w _ => ?_, List.map_nil]
    simp [ExitDeltaWrite.key, hn]

theorem FinishedTask.taskId_loopWrites {t : FinishedTask} {w : LoopWrite} (h : w ∈ t.loopWrites) :
    w.taskId = t.id := by
  obtain ⟨cv, -, rfl⟩ := List.mem_map.mp h
  rfl

theorem FinishedTask.captured_filter_of_ne {t : FinishedTask} {id : Uuid} (h : t.id ≠ id)
    (step n : Int) : (captured delta step t.loopWrites).filter (fun w => w.key = (n, id)) = [] := by
  rw [captured_filter_key, List.filter_eq_nil_iff.mpr fun w hw => ?_, List.map_nil, ite_self]
  rw [decide_eq_true_eq, t.taskId_loopWrites (List.mem_of_mem_filter hw)]
  exact h

namespace FinishedStep
variable (s : FinishedStep delta)

/-- The order in which the tasks finish does not show in the writes of one task. -/
theorem filter_applied {id : Uuid} (hid : id ≠ Uuid.null) (step n : Int) :
    (s.applied step).filter (fun w => w.key = (n, id)) =
      (captured delta step s.pending).filter fun w => w.key = (n, id) := by
  have hn : ((SortBy.sortBy (fun t => t.toTaskWrites.sortKey) s.tasks).map (·.id)).Nodup :=
    (List.Perm.nodup_iff ((SortBy.perm_sortBy _ _).map _)).mpr s.nodup
  rw [applied, List.filter_flatMap, captured_filter_key]
  by_cases ht : ∃ t ∈ s.tasks, t.id = id
  · obtain ⟨t, ht, rfl⟩ := ht
    rw [flatMap_eq_of_unique hn (SortBy.mem_sortBy.mpr ht)
        fun b _ hb => FinishedTask.captured_filter_of_ne hb step n,
      captured_filter_key, s.agree t ht]
    refine if_congr Iff.rfl (congrArg _ (List.filter_eq_self.mpr fun w hw => ?_)) rfl
    exact decide_eq_true (t.taskId_loopWrites (List.mem_of_mem_filter hw))
  · have hnone : (s.pending.filter fun w => delta w.channel).filter (fun w => w.taskId = id) = [] := by
      refine List.filter_eq_nil_iff.mpr fun w hw hwid => ?_
      obtain ⟨hw, hdelta⟩ := List.mem_filter.mp hw
      rw [← of_decide_eq_true hwid] at hid ht
      exact (s.known w hw hdelta).elim hid ht
    rw [hnone, List.map_nil, ite_self]
    refine List.flatMap_eq_nil_iff.mpr fun t htm => FinishedTask.captured_filter_of_ne ?_ step n
    exact fun h => ht ⟨t, SortBy.mem_sortBy.mp htm, h⟩

theorem filter_applied_null (step n : Int) :
    (s.applied step).filter (fun w => w.key = (n, Uuid.null)) = [] := by
  rw [applied, List.filter_flatMap]
  refine List.flatMap_eq_nil_iff.mpr fun t ht => FinishedTask.captured_filter_of_ne ?_ step n
  exact s.ne_null t (SortBy.mem_sortBy.mp ht)

theorem filter_nullWrites_of_ne {id : Uuid} (hid : id ≠ Uuid.null) (step n : Int) :
    (captured delta step s.nullWrites).filter (fun w => w.key = (n, id)) = [] := by
  rw [captured_filter_key, List.filter_eq_nil_iff.mpr fun w hw hwid => ?_, List.map_nil, ite_self]
  have hnull := (List.mem_filter.mp (List.mem_of_mem_filter hw)).2
  rw [of_decide_eq_true hwid] at hnull
  exact hid (of_decide_eq_true hnull)

theorem filter_nullWrites (step n : Int) :
    (captured delta step s.nullWrites).filter (fun w => w.key = (n, Uuid.null)) =
      (captured delta step s.pending).filter fun w => w.key = (n, Uuid.null) := by
  rw [captured_filter_key, captured_filter_key, nullWrites, List.filter_filter, List.filter_filter,
    List.filter_filter]
  refine if_congr Iff.rfl (congrArg _ (List.filter_congr fun w _ => ?_)) rfl
  cases decide (w.taskId = Uuid.null) <;> simp

end FinishedStep

namespace ExitRun

theorem ticks_filter_congr {f g : FinishedStep delta → Int → List ExitDeltaWrite}
    {p : ExitDeltaWrite → Bool} : ∀ (step : Int) (l : List (FinishedStep delta)),
    (∀ s ∈ l, ∀ n, (f s n).filter p = (g s n).filter p) →
      (ticks f step l).filter p = (ticks g step l).filter p
  | _, [], _ => rfl
  | step, s :: l, h => by
    rw [ticks, ticks, List.filter_append, List.filter_append, h s List.mem_cons_self step,
      ticks_filter_congr (step + 1) l fun s' hs' => h s' (List.mem_cons_of_mem s hs')]

theorem ticks_filter_nil {f : FinishedStep delta → Int → List ExitDeltaWrite}
    {p : ExitDeltaWrite → Bool} (step : Int) (l : List (FinishedStep delta))
    (h : ∀ s ∈ l, ∀ n, (f s n).filter p = []) : (ticks f step l).filter p = [] := by
  rw [ticks_filter_congr (g := fun _ _ => []) step l h]
  induction l generalizing step with
  | nil => rfl
  | cons s l ih => exact ih (step + 1) fun s' hs' => h s' (List.mem_cons_of_mem s hs')

theorem inputWrites_filter_of_ne (r : ExitRun delta) {id : Uuid} (hid : id ≠ Uuid.null) (n : Int) :
    (captured delta r.step r.inputLoopWrites).filter (fun w => w.key = (n, id)) = [] := by
  rw [captured_filter_key, List.filter_eq_nil_iff.mpr fun w hw hwid => ?_, List.map_nil, ite_self]
  obtain ⟨cv, -, rfl⟩ := List.mem_map.mp (List.mem_of_mem_filter hw)
  exact hid (of_decide_eq_true hwid).symm

/-- The pending writes of the null task are the first superstep's. -/
theorem filter_ticks_null (r : ExitRun delta) (n : Int) :
    (ticks (fun s step => captured delta step s.pending) r.firstTick r.supersteps).filter
        (fun w => w.key = (n, Uuid.null)) =
      (captured delta r.firstTick (r.supersteps.head?.elim [] FinishedStep.nullWrites)).filter
        fun w => w.key = (n, Uuid.null) := by
  have hnull := r.ne_null
  cases hs : r.supersteps with
  | nil => rfl
  | cons s rest =>
    rw [hs] at hnull
    rw [ticks, List.filter_append, ticks_filter_nil _ rest fun s' hs' m => ?_, List.append_nil]
    · exact (s.filter_nullWrites r.firstTick n).symm
    · rw [captured_filter_key, List.filter_eq_nil_iff.mpr fun w hw hwid => ?_, List.map_nil, ite_self]
      obtain ⟨hw, hdelta⟩ := List.mem_filter.mp hw
      exact hnull s' hs' w hw hdelta (of_decide_eq_true hwid)

/-- The accumulated writes of a step and task are those that the run applies, in their order. -/
theorem filter_key (r : ExitRun delta) (k : Int × Uuid) :
    r.exitDeltaWrites.filter (fun w => w.key = k) = r.applied.filter fun w => w.key = k := by
  obtain ⟨n, id⟩ := k
  rw [exitDeltaWrites, applied, List.filter_append, List.filter_append, List.filter_append]
  by_cases hid : id = Uuid.null
  · subst hid
    rw [filter_ticks_null, ticks_filter_nil r.firstTick r.supersteps
        fun s _ m => s.filter_applied_null m n, List.append_nil]
    -- an input counts the step up, so that only one of the two parts has the step
    by_cases hempty : r.inputWrites = []
    · have hnil : r.inputLoopWrites = [] := by rw [inputLoopWrites, hempty, List.map_nil]
      rw [hnil]
      exact (List.append_nil _).symm
    · have htick : r.firstTick = r.step + 1 := by simp [firstTick, hempty]
      by_cases hn : r.step = n
      · have hnone : (captured delta r.firstTick
            (r.supersteps.head?.elim [] FinishedStep.nullWrites)).filter
              (fun w => w.key = (n, Uuid.null)) = [] := by
          rw [captured_filter_key, if_neg (by omega)]
        rw [hnone, List.append_nil, List.nil_append]
      · have hnone : (captured delta r.step r.inputLoopWrites).filter
              (fun w => w.key = (n, Uuid.null)) = [] := by
          rw [captured_filter_key, if_neg hn]
        rw [hnone, List.append_nil, List.nil_append]
  · have hhead : (captured delta r.firstTick
        (r.supersteps.head?.elim [] FinishedStep.nullWrites)).filter (fun w => w.key = (n, id)) = [] := by
      cases r.supersteps with
      | nil => rfl
      | cons s rest => exact s.filter_nullWrites_of_ne hid r.firstTick n
    rw [r.inputWrites_filter_of_ne hid, hhead, List.nil_append, List.nil_append, List.nil_append,
      ticks_filter_congr r.firstTick r.supersteps fun s _ m => (s.filter_applied hid m n).symm]

end ExitRun

end Run

/-! ## The order of the stored writes -/

namespace ExitDeltaWrite

/-- The step, and then the last four groups of the task's id, put `a` before `b`. -/
def Before (a b : ExitDeltaWrite) : Prop :=
  a.step < b.step ∨ a.step = b.step ∧ a.taskId.tail < b.taskId.tail

/-- `b` may follow `a`: its id is greater, or it is a later write of the same task and
    step, to which no special channel gives a smaller index. -/
def Precedes (a b : ExitDeltaWrite) : Prop :=
  a.Before b ∨ a.key = b.key ∧
    ∀ j ∈ writesIdxMap b.channel, ∃ i ∈ writesIdxMap a.channel, i < j

instance : DecidableRel Precedes := fun a b =>
  inferInstanceAs (Decidable ((a.step < b.step ∨ a.step = b.step ∧ a.taskId.tail < b.taskId.tail) ∨
    a.key = b.key ∧ ∀ j ∈ writesIdxMap b.channel, ∃ i ∈ writesIdxMap a.channel, i < j))

def InRange (w : ExitDeltaWrite) : Prop := 0 ≤ w.step ∧ w.step < 10 ^ 8

instance : DecidablePred InRange := fun w => inferInstanceAs (Decidable (0 ≤ w.step ∧ w.step < 10 ^ 8))

theorem exitId_lt_iff {a b : ExitDeltaWrite} (ha : a.InRange) (hb : b.InRange) :
    a.exitId < b.exitId ↔ a.Before b := exitDeltaTaskId_lt_iff ha hb

theorem exitId_eq_of_key {a b : ExitDeltaWrite} (h : a.key = b.key) : a.exitId = b.exitId := by
  obtain ⟨hstep, hid⟩ := Prod.mk.inj h
  rw [exitId, exitId, hstep, hid]

theorem Precedes.exitId_le {a b : ExitDeltaWrite} (ha : a.InRange) (hb : b.InRange)
    (h : a.Precedes b) : a.exitId ≤ b.exitId := by
  rcases h with h | ⟨h, -⟩
  · exact ((exitId_lt_iff ha hb).mpr h).le
  · exact (exitId_eq_of_key h).le

end ExitDeltaWrite

open ExitDeltaWrite

theorem le_of_mem_keyedWrites {t : String} {e : WriteKey × (String × PyVal)} :
    ∀ {idx : Nat} {writes : List (String × PyVal)}, e ∈ keyedWrites t idx writes →
      ∃ n, idx ≤ n ∧ e.1.2 = writeIdx e.2.1 n
  | _, [], h => by simp [keyedWrites] at h
  | idx, (c, v) :: rest, h => by
    rcases List.mem_cons.mp h with rfl | h
    · exact ⟨idx, le_refl _, rfl⟩
    · obtain ⟨n, hn, he⟩ := le_of_mem_keyedWrites h
      exact ⟨n, by omega, he⟩

theorem writeIdx_lt {c c' : String} {m n : Nat} (hmn : m < n)
    (h : ∀ j, writesIdxMap c' = some j → ∃ i, writesIdxMap c = some i ∧ i < j) :
    writeIdx c m < writeIdx c' n := by
  cases hc' : writesIdxMap c' with
  | some j =>
    obtain ⟨i, hi, hij⟩ := h j hc'
    rw [writeIdx_of_special hi, writeIdx_of_special hc']
    exact hij
  | none =>
    have hn : writeIdx c' n = n := by rw [writeIdx, hc', Option.getD_none]
    cases hc : writesIdxMap c with
    | some i =>
      have hneg := writesIdxMap_neg hc
      rw [writeIdx_of_special hc, hn]
      omega
    | none =>
      rw [hn, writeIdx, hc, Option.getD_none]
      omega

theorem pairwise_keyedWrites {t : String} : ∀ {idx : Nat} {writes : List (String × PyVal)},
    (writes.Pairwise fun a b => ∀ j, writesIdxMap b.1 = some j →
      ∃ i, writesIdxMap a.1 = some i ∧ i < j) →
    (keyedWrites t idx writes).Pairwise fun a b => a.1.2 < b.1.2
  | _, [], _ => List.Pairwise.nil
  | idx, (c, v) :: rest, h => by
    obtain ⟨hfirst, hrest⟩ := List.pairwise_cons.mp h
    refine List.pairwise_cons.mpr ⟨fun e he => ?_, pairwise_keyedWrites hrest⟩
    obtain ⟨n, hn, heq⟩ := le_of_mem_keyedWrites he
    rw [heq]
    exact writeIdx_lt (by omega) (hfirst e.2 (mem_keyedWrites he).2.1)

theorem map_keyedWrites (t : String) : ∀ (idx : Nat) (writes : List (String × PyVal)),
    (keyedWrites t idx writes).map (fun e => (⟨e.1.1, e.2.1, e.2.2⟩ : PendingWrite)) =
      writes.map fun w => ⟨t, w.1, w.2⟩
  | _, [] => rfl
  | idx, (c, v) :: rest => by
    rw [keyedWrites, List.map_cons, map_keyedWrites t (idx + 1) rest, List.map_cons]

section Stored
variable {t : WritesTable} {anchor : String} {pending applied : List ExitDeltaWrite}

/-- The calls, one for each step and task, with that task's writes in their order. -/
theorem mem_exitCalls (hfilter : ∀ k, pending.filter (fun w => w.key = k) =
      applied.filter fun w => w.key = k) {call : PutWritesCall} (h : call ∈ exitCalls pending) :
    ∃ w ∈ applied, call = ⟨w.exitId,
      (applied.filter fun w' => w'.key = w.key).map fun w' => (w'.channel, w'.value), ""⟩ := by
  obtain ⟨g, hg, rfl⟩ := List.mem_map.mp h
  have hkey := OrdDict.mem_keys_group.mp (List.mem_map_of_mem hg)
  rw [List.map_map] at hkey
  obtain ⟨w, hw, hwk⟩ := List.mem_map.mp hkey
  have hwk : w.key = g.1 := hwk
  have hget := OrdDict.getD_group (pending.map fun w => (w.key, (w.channel, w.value))) g.1
  rw [OrdDict.getD, OrdDict.get?_eq_some_iff.mpr hg, Option.getD_some, List.filter_map,
    List.map_map] at hget
  have hmem : w ∈ applied := List.mem_of_mem_filter (p := fun w' => w'.key = w.key)
    (hfilter w.key ▸ List.mem_filter.mpr ⟨hw, decide_eq_true rfl⟩)
  refine ⟨w, hmem, ?_⟩
  rw [hget, exitId, ← hfilter, hwk, ← show (w.step, w.taskId) = g.1 from hwk]
  rfl

theorem exists_exitCall (hfilter : ∀ k, pending.filter (fun w => w.key = k) =
      applied.filter fun w => w.key = k) {w : ExitDeltaWrite} (h : w ∈ applied) :
    ∃ call ∈ exitCalls pending, call.taskId = w.exitId := by
  have hmem : w ∈ pending := List.mem_of_mem_filter (p := fun w' => w'.key = w.key)
    ((hfilter w.key).symm ▸ List.mem_filter.mpr ⟨h, decide_eq_true rfl⟩)
  have hkey : w.key ∈ (pending.map fun w => (w.key, (w.channel, w.value))).map Prod.fst := by
    rw [List.map_map]
    exact List.mem_map_of_mem hmem
  obtain ⟨g, hg, hgk⟩ := List.mem_map.mp (OrdDict.mem_keys_group.mpr hkey)
  refine ⟨_, List.mem_map_of_mem hg, ?_⟩
  show exitDeltaTaskId g.1.1 g.1.2.str = w.exitId
  rw [hgk]
  rfl

theorem nodup_exitCalls (hfilter : ∀ k, pending.filter (fun w => w.key = k) =
      applied.filter fun w => w.key = k)
    (hdistinct : ∀ a ∈ applied, ∀ b ∈ applied, a.exitId = b.exitId → a.key = b.key) :
    ((exitCalls pending).map (·.taskId)).Nodup := by
  rw [exitCalls, List.map_map]
  have hmem : ∀ g ∈ (OrdDict.group (pending.map fun w => (w.key, (w.channel, w.value)))).entries,
      ∃ w ∈ applied, w.key = g.1 := by
    intro g hg
    have hkey := OrdDict.mem_keys_group.mp (List.mem_map_of_mem hg)
    rw [List.map_map] at hkey
    obtain ⟨w, hw, hwk⟩ := List.mem_map.mp hkey
    refine ⟨w, List.mem_of_mem_filter (p := fun w' => w'.key = w.key) ?_, hwk⟩
    exact hfilter w.key ▸ List.mem_filter.mpr ⟨hw, decide_eq_true rfl⟩
  refine List.Nodup.map_on (fun g hg g' hg' heq => ?_) (OrdDict.nodup _).of_map
  obtain ⟨w, hw, hwk⟩ := hmem g hg
  obtain ⟨w', hw', hwk'⟩ := hmem g' hg'
  refine List.inj_on_of_nodup_map (OrdDict.nodup _) hg hg' ?_
  rw [← hwk, ← hwk']
  apply hdistinct w hw w' hw'
  show exitDeltaTaskId w.key.1 w.key.2.str = exitDeltaTaskId w'.key.1 w'.key.2.str
  rw [hwk, hwk']
  exact heq

/-- What the rows of a checkpoint say of their order. -/
theorem pairwise_pendingAt {t : WritesTable} {id : String} (ht : (t.slotsAt id).WellKeyed) :
    (t.pendingAt id).Pairwise fun a b => a.taskId < b.taskId ∨ a.taskId = b.taskId ∧
      ∀ j, writesIdxMap b.channel = some j → ∃ i, writesIdxMap a.channel = some i ∧ i < j := by
  refine List.pairwise_map.mpr ((t.pairwise_rowsAt id).imp_of_mem ?_)
  intro a b ha hb hab
  rcases Prod.Lex.toLex_lt_toLex.mp hab with hlt | ⟨htask, hlt⟩
  · exact Or.inl hlt
  · refine Or.inr ⟨htask, fun j hj => ?_⟩
    obtain ⟨m, hm⟩ := ht _ _ (WritesTable.mem_rowsAt_iff.mp ha).2
    obtain ⟨n, hn⟩ := ht _ _ (WritesTable.mem_rowsAt_iff.mp hb).2
    have hbj : b.1.2.2 = j := hn.trans (writeIdx_of_special hj n)
    have hneg := writesIdxMap_neg hj
    exact ⟨a.1.2.2, writesIdxMap_of_writeIdx_neg hm (by omega), by omega⟩

/-- Where every write may follow the ones before it, the ids tell steps and tasks apart. -/
theorem key_eq_of_exitId_eq (hrange : ∀ w ∈ applied, w.InRange)
    (hprec : applied.Pairwise Precedes) :
    ∀ a ∈ applied, ∀ b ∈ applied, a.exitId = b.exitId → a.key = b.key := by
  have hpair : applied.Pairwise fun a b => a.exitId = b.exitId → a.key = b.key := by
    refine hprec.imp_of_mem fun {a b} ha hb hab heq => ?_
    rcases hab with hlt | ⟨hkey, -⟩
    · exact absurd heq ((exitId_lt_iff (hrange a ha) (hrange b hb)).mpr hlt).ne
    · exact hkey
  intro a ha b hb
  exact hpair.forall_of_forall_of_flip (fun _ _ _ => rfl)
    (hpair.imp fun h heq => (h heq.symm).symm) ha hb

/-- Along the writes of one step and task no index decreases. -/
theorem pairwise_filter_key (hprec : applied.Pairwise Precedes) (k : Int × Uuid) :
    ((applied.filter fun w => w.key = k).map fun w => (w.channel, w.value)).Pairwise fun a b =>
      ∀ j, writesIdxMap b.1 = some j → ∃ i, writesIdxMap a.1 = some i ∧ i < j := by
  refine List.pairwise_map.mpr ((hprec.filter _).imp_of_mem fun {a b} ha hb hab => ?_)
  have hak := of_decide_eq_true (List.mem_filter.mp ha).2
  have hbk := of_decide_eq_true (List.mem_filter.mp hb).2
  rcases hab with hlt | ⟨-, hidx⟩
  · obtain ⟨hstep, hid⟩ := Prod.mk.inj (hak.trans hbk.symm)
    rcases hlt with hlt | ⟨-, hlt⟩
    · omega
    · rw [hid] at hlt
      exact absurd hlt (lt_irrefl _)
  · exact hidx

/-- The stored writes of one id are those that the run applied under it. -/
theorem filter_pendingAt (ht : t.slotsAt anchor = fun _ => none)
    (hfilter : ∀ k, pending.filter (fun w => w.key = k) = applied.filter fun w => w.key = k)
    (hrange : ∀ w ∈ applied, w.InRange) (hprec : applied.Pairwise Precedes) (x : String) :
    ((t.putCalls anchor (exitCalls pending)).pendingAt anchor).filter (fun w => w.taskId = x) =
      (applied.map toPending).filter fun w => w.taskId = x := by
  have hdistinct := key_eq_of_exitId_eq hrange hprec
  have hslots := WritesTable.slotsAt_putCalls ht (exitCalls pending)
  by_cases hx : ∃ call ∈ exitCalls pending, call.taskId = x
  · obtain ⟨call, hcall, rfl⟩ := hx
    obtain ⟨w, hw, heq⟩ := mem_exitCalls hfilter hcall
    have hsorted : call.entries.Pairwise fun a b => a.1.2 < b.1.2 := by
      rw [heq]
      exact pairwise_keyedWrites (pairwise_filter_key hprec w.key)
    have hkeys : call.keys.Nodup := by
      refine List.pairwise_map.mpr (hsorted.imp fun {a b} hab hk => ?_)
      rw [hk] at hab
      exact lt_irrefl _ hab
    have hstored : ∀ i cv, (t.putCalls anchor (exitCalls pending)).slotsAt anchor (call.taskId, i) =
        some cv ↔ ((call.taskId, i), cv) ∈ call.entries := by
      intro i cv
      rw [hslots, Slots.runSql_of_mem (nodup_exitCalls hfilter hdistinct) hcall,
        Slots.putSql_empty_iff hkeys]
    refine (WritesTable.pendingAt_filter_task (fun e he => (mem_keyedWrites he).1) hsorted
      hstored).trans ((map_keyedWrites call.taskId 0 call.writes).trans ?_)
    rw [heq, List.filter_map, List.map_map]
    have hsame : (applied.filter fun w' => w'.key = w.key) =
        applied.filter ((fun p : PendingWrite => decide (p.taskId = w.exitId)) ∘ toPending) := by
      refine List.filter_congr fun w' hw' => decide_eq_decide.mpr ?_
      exact ⟨exitId_eq_of_key, hdistinct w' hw' w hw⟩
    rw [← hsame]
    refine List.map_congr_left fun w' hw' => ?_
    have hid := exitId_eq_of_key (of_decide_eq_true (List.mem_filter.mp hw').2)
    rw [toPending, hid]
    rfl
  · have hnone : ∀ i cv, (t.putCalls anchor (exitCalls pending)).slotsAt anchor (x, i) =
        some cv ↔ ((x, i), cv) ∈ ([] : List (WriteKey × (String × PyVal))) := by
      intro i cv
      rw [hslots, Slots.runSql_of_not_mem fun call hc heq => hx ⟨call, hc, heq⟩]
      exact ⟨fun h => (nomatch h), fun h => (nomatch h)⟩
    have hnil : ∀ e ∈ ([] : List (WriteKey × (String × PyVal))), e.1.1 = x := by simp
    rw [WritesTable.pendingAt_filter_task hnil List.Pairwise.nil hnone, List.map_nil]
    refine (List.filter_eq_nil_iff.mpr fun p hp hpx => ?_).symm
    obtain ⟨w, hw, rfl⟩ := List.mem_map.mp hp
    obtain ⟨call, hcall, hid⟩ := exists_exitCall hfilter hw
    exact hx ⟨call, hcall, hid.trans (of_decide_eq_true hpx)⟩

/-- The stored writes come back as they were applied exactly where every id is a UUID, and
    no write has an id or an index before those of the writes applied before it. -/
theorem pendingAt_exitCalls_iff (ht : t.slotsAt anchor = fun _ => none)
    (hfilter : ∀ k, pending.filter (fun w => w.key = k) = applied.filter fun w => w.key = k) :
    ((∀ w ∈ applied, IsUuidText w.exitId) ∧
      (∀ a ∈ applied, ∀ b ∈ applied, a.exitId = b.exitId → a.key = b.key) ∧
      (t.putCalls anchor (exitCalls pending)).pendingAt anchor = applied.map toPending) ↔
      (∀ w ∈ applied, w.InRange) ∧ applied.Pairwise Precedes := by
  constructor
  · intro h
    obtain ⟨huuid, hdistinct, horder⟩ := h
    have hrange : ∀ w ∈ applied, w.InRange := fun w hw => isUuidText_exitDeltaTaskId.mp (huuid w hw)
    refine ⟨hrange, ?_⟩
    have hkeyed : ((t.putCalls anchor (exitCalls pending)).slotsAt anchor).WellKeyed := by
      rw [WritesTable.slotsAt_putCalls ht]
      exact Slots.wellKeyed_runSql _
    have hpair := pairwise_pendingAt hkeyed
    rw [horder] at hpair
    refine (List.pairwise_map.mp hpair).imp_of_mem fun {a b} ha hb hab => ?_
    rcases hab with hlt | ⟨heq, hidx⟩
    · exact Or.inl ((exitId_lt_iff (hrange a ha) (hrange b hb)).mp hlt)
    · exact Or.inr ⟨hdistinct a ha b hb heq, hidx⟩
  · intro h
    obtain ⟨hrange, hprec⟩ := h
    refine ⟨fun w hw => isUuidText_exitDeltaTaskId.mpr (hrange w hw),
      key_eq_of_exitId_eq hrange hprec, ?_⟩
    refine @SortBy.eq_of_filter_eq _ _ _ PendingWrite.taskId _ _ ?_ ?_
      (filter_pendingAt ht hfilter hrange hprec)
    · refine List.pairwise_map.mpr ((WritesTable.pairwise_rowsAt _ anchor).imp fun {a b} hab => ?_)
      rcases Prod.Lex.toLex_lt_toLex.mp hab with hlt | ⟨heq, -⟩
      · exact hlt.le
      · exact heq.le
    · refine List.pairwise_map.mpr (hprec.imp_of_mem fun {a b} ha hb hab => ?_)
      exact hab.exitId_le (hrange a ha) (hrange b hb)

end Stored

/-! ## Every run -/

section Follows
variable {delta : String → Bool} (r : ExitRun delta) (snapshot : String → Bool) {t : WritesTable}
  {anchor : String}

/-- The writes that are stored, in the order in which the run applies them. -/
def ExitRun.stored : List ExitDeltaWrite := r.applied.filter fun w => !snapshot w.channel

/-- Every stored write has an id that is a UUID and that no other step or task has, and
    `ORDER BY task_id, idx` returns the writes as the run applied them. -/
structure FollowsLive (t : WritesTable) (anchor : String) : Prop where
  uuid : ∀ w ∈ r.stored snapshot, IsUuidText (exitDeltaTaskId w.step w.taskId.str)
  distinct : ∀ a ∈ r.stored snapshot, ∀ b ∈ r.stored snapshot,
    exitDeltaTaskId a.step a.taskId.str = exitDeltaTaskId b.step b.taskId.str →
      (a.step, a.taskId) = (b.step, b.taskId)
  order : (putExitDeltaWrites snapshot t anchor r.exitDeltaWrites).pendingAt anchor =
    (r.stored snapshot).map fun w => ⟨exitDeltaTaskId w.step w.taskId.str, w.channel, w.value⟩

theorem ExitRun.filter_stored (k : Int × Uuid) :
    (r.exitDeltaWrites.filter fun w => !snapshot w.channel).filter (fun w => w.key = k) =
      (r.stored snapshot).filter fun w => w.key = k := by
  rw [ExitRun.stored, List.filter_comm, r.filter_key k, List.filter_comm]

end Follows

/-- A UUID that repeats one digit. -/
def Uuid.repeated (c : Char) (h : isHexDigit c = true) : Uuid :=
  ⟨List.replicate 32 c, List.length_replicate, fun _ hd => (List.mem_replicate.mp hd).2 ▸ h⟩

/-- Two nodes append to a DeltaChannel in the first superstep after an input to
    another channel; `b` finishes first. -/
def twoAppends : ExitRun fun c => c = "log" where
  step := -1
  inputWrites := [("start", .int 1)]
  forks := false
  supersteps := [
    { tasks := [⟨⟨[.str Const.PULL, .str "b"], "b", [("log", .int 2)], ["branch:to:b"]⟩,
                  Uuid.repeated 'b' (by decide)⟩,
                ⟨⟨[.str Const.PULL, .str "a"], "a", [("log", .int 1), ("log", .int 3)], ["branch:to:a"]⟩,
                  Uuid.repeated 'a' (by decide)⟩]
      pending := [⟨Uuid.repeated 'b' (by decide), "log", .int 2⟩,
                  ⟨Uuid.repeated 'a' (by decide), "log", .int 1⟩,
                  ⟨Uuid.repeated 'a' (by decide), "log", .int 3⟩]
      nodup := by decide
      ne_null := by simp; decide
      agree := List.forall_mem_cons.mpr ⟨rfl, List.forall_mem_singleton.mpr rfl⟩
      known := by simp }]
  ne_null := by simp

/-- The first input of a thread, in its step -1. -/
def firstInput : ExitRun fun c => c = "messages" where
  step := -1
  inputWrites := [("messages", .str "hi")]
  forks := false
  supersteps := []
  ne_null := by simp

end LangGraph
