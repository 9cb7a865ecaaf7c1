import LangGraph.Lib.Machine
import LangGraph.Recovery
import Mathlib.Data.List.Infix

/- The resume value of `Command(resume=v)` in one superstep.

   Correspondence (source ↔ Lean):
     the list object `checkpoint_pending_writes`,
       and those it was before                       ↔ `ResumedLoop.lists`, by their number
     `_scratchpad` (pregel/_algo.py)                 ↔ `scratchpad`
     `get_null_resume(True)`                         ↔ `getNullResume`
     `interrupt` (types.py)                          ↔ `ResumedLoop.interrupt`
     `prepare_single_task`, `accept_push`            ↔ `ResumeEvent.prepare`
     `put_writes`, the next invocation with None     ↔ `ResumeEvent.putWrites`, `.restart`
   A scratchpad keeps the list it was made from; `put_writes` makes a new list and
   `get_null_resume` removes the value from the scratchpad's. Tasks of subgraphs have
   scratchpads without a null resume of their own and ask the one of the outer task.
   The superstep is resumed by a plain value, so there is no resume map.
   `nullResume_once_iff`: at most one `interrupt()` call gets the value exactly when all
   that ask for it do so through one list. -/
namespace LangGraph

def isNullResume (w : PendingWrite) : Bool :=
  w.taskId = Const.NULL_TASK_ID && w.channel = Const.RESUME

/-- `null_resume_write` comes with the number of the list it is in; a scratchpad that
    found none has its parent's. -/
structure Scratchpad where
  resume : List PyVal
  interruptCounter : Nat
  nullResume : Option (Nat × PendingWrite)

/-- `_scratchpad` on the list with the number `list`. -/
def scratchpad (parent : Option Scratchpad) (list : Nat) (pendingWrites : List PendingWrite)
    (taskId : String) : Scratchpad where
  resume :=
    match pendingWrites.find? fun w => w.taskId = taskId ∧ w.channel = Const.RESUME with
    | some ⟨_, _, .list values⟩ => values
    | some w => [w.value]
    | none => []
  interruptCounter := 0
  nullResume := ((pendingWrites.find? isNullResume).map (list, ·)).or (parent.bind (·.nullResume))

/-- What a call of `interrupt()` does. -/
inductive Answer where
  | own (value : PyVal)
  | global (value : PyVal)
  | graphInterrupt
  | assertionError

/-- The loop of a resumed superstep: the lists that came before the one in the loop, the
    scratchpads of the tasks, and what `get_null_resume` has returned from which list. -/
structure ResumedLoop (V : Type) where
  loop : PendingLoop V
  retired : List (List PendingWrite)
  scratchpads : OrdDict String Scratchpad
  answers : List (Nat × PyVal)

inductive ResumeEvent where
  | prepare (taskId : String) (parent : Option String)
  /-- A task of a subgraph, with the answers that the subgraph has stored for it. -/
  | prepareNested (taskId parent : String) (resume : List PyVal)
  | interrupt (taskId : String)
  | putWrites (taskId : String) (writes : List (String × PyVal)) (taskPath : String)
  | restart (taskPaths : String → String)

def ResumeEvent.taskId : ResumeEvent → Option String
  | .prepare t _ | .prepareNested t _ _ | .interrupt t | .putWrites t _ _ => some t
  | .restart _ => none

namespace ResumedLoop
variable {V : Type}

def lists (s : ResumedLoop V) : List (List PendingWrite) :=
  s.retired ++ [s.loop.checkpointPendingWrites]

def listAt (s : ResumedLoop V) (i : Nat) : List PendingWrite := s.lists[i]?.getD []

/-- Changes lists in place. -/
def mapLists (s : ResumedLoop V) (f : Nat → List PendingWrite → List PendingWrite) :
    ResumedLoop V :=
  { s with
    retired := s.retired.mapIdx f
    loop := { s.loop with
      checkpointPendingWrites := f s.retired.length s.loop.checkpointPendingWrites } }

/-- `get_null_resume(True)` -/
def getNullResume (s : ResumedLoop V) (p : Scratchpad) : PyVal × ResumedLoop V :=
  match p.nullResume with
  | none => (.none, s)
  | some (i, w) =>
    if w ∈ s.listAt i then (w.value, s.mapLists fun j l => if j = i then l.erase w else l)
    else (.none, s)

/-- `scratchpad.resume.append(v)`; a list of answers that came from a pending write is
    the one in that write. -/
def appendResume (s : ResumedLoop V) (taskId : String) (p : Scratchpad) (v : PyVal) :
    ResumedLoop V :=
  s.mapLists fun _ l => l.map fun w =>
    if w.taskId = taskId ∧ w.channel = Const.RESUME ∧ w.value = .list p.resume then
      { w with value := .list (p.resume ++ [v]) }
    else w

def setScratchpad (s : ResumedLoop V) (taskId : String) (p : Scratchpad) : ResumedLoop V :=
  { s with scratchpads := s.scratchpads.set taskId p }

/-- `interrupt` in a task with the scratchpad `p`. -/
def interrupt (s : ResumedLoop V) (taskId : String) (p : Scratchpad) : Answer × ResumedLoop V :=
  let counted := { p with interruptCounter := p.interruptCounter + 1 }
  match p.resume[p.interruptCounter]? with
  | some v => (.own v, s.setScratchpad taskId counted)
  | none =>
    let (v, s') := s.getNullResume p
    if v = .none then (.graphInterrupt, s'.setScratchpad taskId counted)
    else if p.resume.length = p.interruptCounter then
      (.global v, (s'.appendResume taskId p v).setScratchpad taskId
        { counted with resume := p.resume ++ [v] })
    else (.assertionError, s'.setScratchpad taskId counted)

/-- The answers with the one that `get_null_resume` has given in this call. -/
def logged (p : Scratchpad) (answers : List (Nat × PyVal)) : Answer → List (Nat × PyVal)
  | .global v => answers ++ (p.nullResume.map fun e => (e.1, v)).toList
  | _ => answers

def step (s : ResumedLoop V) : ResumeEvent → ResumedLoop V
  | .prepare t parent => s.setScratchpad t
      (scratchpad (parent.bind s.scratchpads.get?) s.retired.length
        s.loop.checkpointPendingWrites t)
  | .prepareNested t parent resume => s.setScratchpad t
      ⟨resume, 0, (s.scratchpads.get? parent).bind (·.nullResume)⟩
  | .interrupt t =>
    match s.scratchpads.get? t with
    | none => s
    | some p => { (s.interrupt t p).2 with answers := logged p s.answers (s.interrupt t p).1 }
  | .putWrites t writes path =>
    if writes.isEmpty then s
    else { s with loop := s.loop.putWrites t writes path, retired := s.lists }
  | .restart paths =>
    { s with loop := s.loop.restart paths, retired := s.lists, scratchpads := ∅ }

def run (s : ResumedLoop V) (events : List ResumeEvent) : ResumedLoop V := events.foldl step s

/-- `_first` with a command that resumes with `v`, as far as the pending writes go. -/
def resumedWith (l : PendingLoop V) (before after : List (String × PyVal)) (v : PyVal) :
    ResumedLoop V :=
  ⟨l.putWrites Const.NULL_TASK_ID (before ++ (Const.RESUME, v) :: after) "", [], ∅, []⟩

end ResumedLoop

/-! ## The null resumes of a list -/

/-- The values that a list of writes gives a channel. -/
def valuesOf (c : String) (ws : List (String × PyVal)) : List PyVal :=
  (ws.filter fun w => w.1 = c).map Prod.snd

/-- The values of the null-task `RESUME` entries. -/
def nullResumes (ws : List PendingWrite) : List PyVal :=
  (ws.filter isNullResume).map fun w => w.value

theorem isNullResume_iff {w : PendingWrite} :
    isNullResume w = true ↔ w.taskId = Const.NULL_TASK_ID ∧ w.channel = Const.RESUME := by
  simp [isNullResume]

theorem mem_nullResumes {ws : List PendingWrite} {v : PyVal} :
    v ∈ nullResumes ws ↔ ⟨Const.NULL_TASK_ID, Const.RESUME, v⟩ ∈ ws := by
  rw [nullResumes, List.mem_map]
  constructor
  · rintro ⟨⟨t, c, v⟩, hw, rfl⟩
    obtain ⟨hw, hnull⟩ := List.mem_filter.mp hw
    obtain ⟨rfl, rfl⟩ := isNullResume_iff.mp hnull
    exact hw
  · intro hw
    exact ⟨_, List.mem_filter.mpr ⟨hw, isNullResume_iff.mpr ⟨rfl, rfl⟩⟩, rfl⟩

theorem mem_iff_of_isNullResume {ws : List PendingWrite} {w : PendingWrite}
    (h : isNullResume w = true) : w ∈ ws ↔ w.value ∈ nullResumes ws := by
  obtain ⟨t, c, v⟩ := w
  obtain ⟨rfl, rfl⟩ := isNullResume_iff.mp h
  exact mem_nullResumes.symm

theorem nullResumes_append (a b : List PendingWrite) :
    nullResumes (a ++ b) = nullResumes a ++ nullResumes b := by
  simp [nullResumes]

theorem nullResumes_pendingOf_null (ws : List (String × PyVal)) :
    nullResumes (pendingOf Const.NULL_TASK_ID ws) = valuesOf Const.RESUME ws := by
  induction ws with
  | nil => rfl
  | cons w ws ih =>
    rw [nullResumes, valuesOf, pendingOf] at ih
    by_cases hc : w.1 = Const.RESUME <;>
      simp [nullResumes, valuesOf, pendingOf, isNullResume, hc, ih]

theorem nullResumes_pendingOf_of_ne {t : String} (h : t ≠ Const.NULL_TASK_ID)
    (ws : List (String × PyVal)) : nullResumes (pendingOf t ws) = [] := by
  rw [nullResumes, List.map_eq_nil_iff, List.filter_eq_nil_iff]
  intro w hw hnull
  obtain ⟨cv, -, rfl⟩ := List.mem_map.mp hw
  exact h (isNullResume_iff.mp hnull).1

/-- A list without two of them has lost all after one is removed. -/
theorem nullResumes_erase {ws : List PendingWrite} {w : PendingWrite} (hw : isNullResume w = true)
    (hone : (nullResumes ws).length ≤ 1) (hmem : w ∈ ws) : nullResumes (ws.erase w) = [] := by
  have hfilter : w ∈ ws.filter isNullResume := List.mem_filter.mpr ⟨hmem, hw⟩
  rw [nullResumes, List.length_map] at hone
  rw [nullResumes, ← List.erase_filter, List.map_eq_nil_iff, ← List.length_eq_zero_iff,
    List.length_erase_of_mem hfilter]
  omega

/-- The answers in the entries of a task are none of them. -/
theorem nullResumes_map {ws : List PendingWrite} {f : PendingWrite → PendingWrite}
    (hf : ∀ w ∈ ws, isNullResume w = true → f w = w)
    (hf' : ∀ w, isNullResume (f w) = isNullResume w) : nullResumes (ws.map f) = nullResumes ws := by
  rw [nullResumes, nullResumes, List.filter_map, List.map_map]
  have hsame : ws.filter (isNullResume ∘ f) = ws.filter isNullResume :=
    List.filter_congr fun w _ => hf' w
  rw [hsame]
  apply List.map_congr_left
  intro w hw
  obtain ⟨hw, hnull⟩ := List.mem_filter.mp hw
  rw [Function.comp_apply, hf w hw hnull]

theorem find?_isNullResume {ws : List PendingWrite} {w : PendingWrite}
    (h : ws.find? isNullResume = some w) : isNullResume w = true ∧ w ∈ ws :=
  ⟨List.find?_some h, List.mem_of_find?_eq_some h⟩

/-! ## The null resume in the saver -/

theorem getLast?_valuesOf (ws : List (String × PyVal)) (c : String) :
    lastValue ws c = (valuesOf c ws).getLast? := by
  have hget : ∀ l : List (String × PyVal), OrdDictEntries.get l c = (valuesOf c l).head? := by
    intro l
    induction l with
    | nil => rfl
    | cons w l ih =>
      rw [OrdDictEntries.get]
      by_cases hc : w.1 = c <;> simp_all [valuesOf]
  rw [lastValue, hget, valuesOf, valuesOf, List.filter_reverse, List.map_reverse, List.head?_reverse]

theorem valuesOf_dedupSpecial {ws : List (String × PyVal)} {c : String} {v : PyVal}
    (h : valuesOf c ws = [v]) : valuesOf c (dedupSpecial ws) = [v] := by
  unfold dedupSpecial
  split
  · have hmem : ∀ {u : PyVal}, (c, u) ∈ ws → u = v := by
      intro u hu
      have : u ∈ valuesOf c ws :=
        List.mem_map.mpr ⟨(c, u), List.mem_filter.mpr ⟨hu, decide_eq_true rfl⟩, rfl⟩
      rw [h, List.mem_singleton] at this
      exact this
    have hkey : c ∈ ws.map Prod.fst := by
      have : v ∈ valuesOf c ws := by rw [h]; exact List.mem_singleton_self v
      obtain ⟨w, hw, -⟩ := List.mem_map.mp this
      obtain ⟨hw, hc⟩ := List.mem_filter.mp hw
      rw [← of_decide_eq_true hc]
      exact List.mem_map_of_mem hw
    obtain ⟨u, hu, hget⟩ := OrdDict.exists_get?_setAll OrdDict.empty hkey
    rw [hmem hu] at hget
    have hentry : (c, v) ∈ (OrdDict.ofList ws).entries := OrdDict.get?_eq_some_iff.mp hget
    have hone : ∀ e ∈ (OrdDict.ofList ws).entries, e.1 = c ↔ e = (c, v) := by
      intro e he
      constructor
      · intro hec
        have hsome : (OrdDict.ofList ws).get? e.1 = some e.2 := OrdDict.get?_eq_some_iff.mpr he
        rw [hec, show (OrdDict.ofList ws).get? c = some v from hget, Option.some.injEq] at hsome
        exact Prod.ext hec hsome.symm
      · rintro rfl
        rfl
    have hnodup : (OrdDict.ofList ws).entries.Nodup := (OrdDict.ofList ws).keys_nodup.of_map
    have hfilter : (OrdDict.ofList ws).entries.filter (fun w => w.1 = c) = [(c, v)] := by
      have hcongr : (OrdDict.ofList ws).entries.filter (fun w => w.1 = c) =
          (OrdDict.ofList ws).entries.filter fun e => e = (c, v) := by
        apply List.filter_congr
        intro e he
        rw [decide_eq_decide]
        exact hone e he
      rw [hcongr, List.filter_eq, List.count_eq_one_of_mem hnodup hentry]
      rfl
    rw [valuesOf, hfilter, List.map_singleton]
  · exact h

namespace PendingLoop
variable {V : Type}

/-- The slot of the null resume in the saver. -/
def savedResume (l : PendingLoop V) : Option (String × PyVal) :=
  l.saver.slotsAt l.checkpointId (Const.NULL_TASK_ID, -4)

theorem writesIdxMap_resume : writesIdxMap Const.RESUME = some (-4) := rfl

/-- A reload finds the null resume of the saver. -/
theorem nullResumes_storedWrites {l : PendingLoop V} (h : l.WellStored) :
    nullResumes l.storedWrites = (l.savedResume.map Prod.snd).toList := by
  have hchan : ∀ {cv : String × PyVal} {i : Int},
      l.saver.slotsAt l.checkpointId (Const.NULL_TASK_ID, i) = some cv →
        (i = -4 ↔ cv.1 = Const.RESUME) := by
    intro cv i hs
    obtain ⟨n, hn⟩ := h.wellKeyed _ _ hs
    rw [show i = writeIdx cv.1 n from hn]
    exact writeIdx_eq_special_iff writesIdxMap_resume n
  have hmem : ∀ v, v ∈ nullResumes l.storedWrites ↔ l.savedResume = some (Const.RESUME, v) := by
    intro v
    rw [mem_nullResumes, mem_storedWrites_iff h]
    constructor
    · rintro ⟨i, hi⟩
      have hidx : i = -4 := (hchan hi).mpr rfl
      rw [hidx] at hi
      exact hi
    · intro hs
      exact ⟨-4, hs⟩
  have hlen : (nullResumes l.storedWrites).length ≤ 1 := by
    have hheld := l.saver.length_heldBy_special_le l.checkpointId Const.NULL_TASK_ID h.wellKeyed
      writesIdxMap_resume
    have hsplit : nullResumes l.storedWrites =
        nullResumes (l.storedWrites.filter fun w => w.taskId = Const.NULL_TASK_ID) := by
      rw [nullResumes, nullResumes, List.filter_filter]
      congr 1
      apply List.filter_congr
      intro w _
      by_cases ht : w.taskId = Const.NULL_TASK_ID <;> simp [isNullResume, ht]
    rw [hsplit, storedWrites_self _ _ h, nullResumes_pendingOf_null, valuesOf, List.filter_map,
      List.length_map, List.length_map]
    exact hheld
  cases hs : l.savedResume with
  | none =>
    rw [Option.map_none, Option.toList_none, List.eq_nil_iff_forall_not_mem]
    intro v hv
    rw [hmem, hs] at hv
    cases hv
  | some cv =>
    have hcv : cv.1 = Const.RESUME := (hchan hs).mp rfl
    have hv : cv.2 ∈ nullResumes l.storedWrites := by
      rw [hmem, hs, ← hcv]
    obtain ⟨a, b, hab⟩ := List.append_of_mem hv
    rw [hab, List.length_append, List.length_cons] at hlen
    rw [hab, List.eq_nil_of_length_eq_zero (show a.length = 0 by omega),
      List.eq_nil_of_length_eq_zero (show b.length = 0 by omega)]
    rfl

/-- A call of another task leaves the null resume where it is. -/
theorem nullResumes_putWrites {l : PendingLoop V} {t : String} (ht : t ≠ Const.NULL_TASK_ID)
    (ws : List (String × PyVal)) (path : String) :
    nullResumes (l.putWrites t ws path).checkpointPendingWrites =
      nullResumes l.checkpointPendingWrites := by
  by_cases hws : ws = []
  · rw [hws]
    rfl
  · rw [putWrites_of_ne_nil l t ws path hws, nullResumes_append, nullResumes_pendingOf_of_ne ht,
      List.append_nil, remaining, if_neg ht, nullResumes, nullResumes, List.filter_filter]
    congr 1
    apply List.filter_congr
    intro w _
    by_cases hnull : isNullResume w = true
    · have hne : w.taskId ≠ t := by
        rw [(isNullResume_iff.mp hnull).1]
        exact Ne.symm ht
      simp [hnull, hne]
    · simp [hnull]

theorem savedResume_putWrites {l : PendingLoop V} {t : String} (ht : t ≠ Const.NULL_TASK_ID)
    (ws : List (String × PyVal)) (path : String) :
    (l.putWrites t ws path).savedResume = l.savedResume := by
  by_cases hws : ws = []
  · rw [hws]
    rfl
  · rw [putWrites_of_ne_nil l t ws path hws, savedResume]
    split
    · rfl
    · exact InMemorySaver.slotsAt_putWrites_of_ne (Ne.symm ht) _

/-- A call of the null task stores the resume value it gives last. -/
theorem savedResume_saverPut_null {s : InMemorySaver V} {id path : String}
    {ws : List (String × PyVal)} {v : PyVal} (h : valuesOf Const.RESUME ws = [v]) :
    (s.putWrites id ws Const.NULL_TASK_ID path).slotsAt id (Const.NULL_TASK_ID, -4) =
      some (Const.RESUME, v) := by
  rw [s.slotsAt_putWrites id ⟨Const.NULL_TASK_ID, ws, path⟩, Slots.putMemory, Slots.put,
    if_pos (by decide), PutWritesCall.entries, get_reverse_keyedWrites_special writesIdxMap_resume,
    getLast?_valuesOf, h]
  rfl

theorem valuesOf_nullWrites (ws : List PendingWrite) :
    valuesOf Const.RESUME ((ws.filter fun w => w.taskId = Const.NULL_TASK_ID).map fun w =>
      (w.channel, w.value)) = nullResumes ws := by
  rw [valuesOf, List.filter_map, List.filter_filter, List.map_map, nullResumes]
  congr 1
  apply List.filter_congr
  intro w _
  simp [isNullResume, Bool.and_comm]

/-- A channel that is none of the graph's is saved as it is. -/
theorem valuesOf_filterMap_saveable {l : PendingLoop V} {c : String} (hc : c ≠ Const.TASKS)
    (hspec : (l.specs.get? c).any Channel.isUntracked = false) (ws : List (String × PyVal)) :
    valuesOf c (ws.filterMap l.saveable) = valuesOf c ws := by
  have hsave : ∀ w : String × PyVal, w.1 = c → l.saveable w = some w := by
    rintro w rfl
    simp [saveable, hspec, hc]
  induction ws with
  | nil => rfl
  | cons w ws ih =>
    rw [valuesOf, valuesOf] at ih
    rw [List.filterMap_cons]
    by_cases hw : w.1 = c
    · rw [hsave w hw]
      simp [valuesOf, hw, ih]
    · cases hs : l.saveable w with
      | none => simp [valuesOf, hw, ih]
      | some w' =>
        have hw' : w'.1 ≠ c := by
          rw [channel_of_saveable hs]
          exact hw
        simp [valuesOf, hw, hw', ih]

/-- At the end of the process a null resume in the list is saved. -/
theorem savedResume_putPendingWrites {l : PendingLoop V} {v : PyVal}
    (h : nullResumes l.checkpointPendingWrites = [v]) (taskPaths : String → String) :
    (l.putPendingWrites taskPaths).savedResume = some (Const.RESUME, v) := by
  have hvalues : valuesOf Const.RESUME (l.listOf Const.NULL_TASK_ID) = [v] := by
    rw [← h]
    exact valuesOf_nullWrites l.checkpointPendingWrites
  show (l.putPendingWrites taskPaths).saver.slotsAt l.checkpointId (Const.NULL_TASK_ID, -4) = _
  rw [slotsAt_putPendingWrites, ← l.saver.slotsAt_putWrites l.checkpointId
    ⟨Const.NULL_TASK_ID, l.listOf Const.NULL_TASK_ID, taskPaths Const.NULL_TASK_ID⟩]
  exact savedResume_saverPut_null hvalues

/-- As long as the list has the value, the next process finds it. -/
theorem nullResumes_restart {l : PendingLoop V} {v : PyVal} (hw : l.WellStored)
    (hlist : nullResumes l.checkpointPendingWrites = [v])
    (hsaved : l.durability ≠ .exit → l.savedResume = some (Const.RESUME, v))
    (taskPaths : String → String) :
    nullResumes (l.restart taskPaths).checkpointPendingWrites = [v] := by
  have hstored : (l.restart taskPaths).savedResume = some (Const.RESUME, v) := by
    unfold restart
    split
    · exact savedResume_putPendingWrites hlist taskPaths
    · rename_i hd
      exact hsaved hd
  rw [checkpointPendingWrites_restart, nullResumes_storedWrites (hw.restart taskPaths), hstored]
  rfl

end PendingLoop

namespace ResumedLoop
variable {V : Type} {s : ResumedLoop V}

/-! ## Lists -/

theorem lists_length (s : ResumedLoop V) : s.lists.length = s.retired.length + 1 := by
  simp [lists]

theorem listAt_current (s : ResumedLoop V) :
    s.listAt s.retired.length = s.loop.checkpointPendingWrites := by
  simp [listAt, lists]

/-- Lists change in place; a number that no list has yet stays free. -/
theorem listAt_mapLists (s : ResumedLoop V) {f : Nat → List PendingWrite → List PendingWrite}
    (hf : ∀ i, f i [] = []) (i : Nat) : (s.mapLists f).listAt i = f i (s.listAt i) := by
  have hlists : (s.mapLists f).lists = s.lists.mapIdx f := by
    simp [lists, mapLists, List.mapIdx_append]
  rw [listAt, listAt, hlists, List.getElem?_mapIdx]
  cases s.lists[i]? with
  | none => exact (hf i).symm
  | some l => rfl

/-- A new list leaves the ones before it, and comes after them. -/
theorem listAt_retire {s' : ResumedLoop V} (h : s'.retired = s.lists) (i : Nat) :
    s'.listAt i = if i = s.lists.length then s'.loop.checkpointPendingWrites else s.listAt i := by
  rw [listAt, lists, h]
  by_cases hi : i = s.lists.length
  · simp [hi]
  · rw [if_neg hi, listAt]
    rcases Nat.lt_or_gt_of_ne hi with hlt | hgt
    · rw [List.getElem?_append_left hlt]
    · rw [List.getElem?_eq_none (by simp; omega), List.getElem?_eq_none (by omega)]

/-- Answers appended to the entry of a task are no null resumes. -/
theorem nullResumes_appendResume (s : ResumedLoop V) {t : String} (ht : t ≠ Const.NULL_TASK_ID)
    (p : Scratchpad) (v : PyVal) (i : Nat) :
    nullResumes ((s.appendResume t p v).listAt i) = nullResumes (s.listAt i) := by
  rw [appendResume, listAt_mapLists _ (fun _ => rfl)]
  apply nullResumes_map
  · intro w _ hw
    rw [if_neg]
    rintro ⟨htask, -⟩
    rw [(isNullResume_iff.mp hw).1] at htask
    exact ht htask.symm
  · intro w
    by_cases hw : w.taskId = t ∧ w.channel = Const.RESUME ∧ w.value = .list p.resume
    · rw [if_pos hw]
      simp [isNullResume]
    · rw [if_neg hw]

/-! ## The invariant -/

/-- The null resumes that a list holds. -/
def held (s : ResumedLoop V) (i : Nat) : List PyVal := nullResumes (s.listAt i)

/-- What the steps of the superstep keep. A list holds at most one null resume, `v` until
    the first answer; a scratchpad that found one in its list still finds it there, or it
    was worth nothing, or the list has answered. -/
structure Sound (v : PyVal) (s : ResumedLoop V) : Prop where
  stored : s.loop.WellStored
  saved : s.loop.durability ≠ .exit → s.loop.savedResume = some (Const.RESUME, v)
  single : ∀ i, (s.held i).length ≤ 1
  task : ∀ t p, s.scratchpads.get? t = some p → t ≠ Const.NULL_TASK_ID
  null : ∀ t p i w, s.scratchpads.get? t = some p → p.nullResume = some (i, w) →
    isNullResume w = true ∧ i < s.lists.length
  counted : ∀ t p i w, s.scratchpads.get? t = some p → p.nullResume = some (i, w) →
    w.value ∈ s.held i → p.interruptCounter ≤ p.resume.length
  kept : ∀ t p i w, s.scratchpads.get? t = some p → p.nullResume = some (i, w) →
    w.value ∈ s.held i ∨ w.value = .none ∨ i ∈ s.answers.map Prod.fst
  spent : ∀ i ∈ s.answers.map Prod.fst, i < s.lists.length ∧ s.held i = []
  nodup : (s.answers.map Prod.fst).Nodup
  first : ∀ a ∈ s.answers.head?, a.2 = v
  fresh : s.answers = [] → s.held s.retired.length = [v] ∧ ∀ t p i w,
    s.scratchpads.get? t = some p → p.nullResume = some (i, w) → w.value = v

theorem eq_of_mem_held {v : PyVal} (h : s.Sound v) {i : Nat} {a b : PyVal} (ha : a ∈ s.held i)
    (hb : b ∈ s.held i) : a = b := by
  have hone := h.single i
  match hl : s.held i, ha, hb, hone with
  | [c], ha, hb, _ => rw [List.mem_singleton.mp ha, List.mem_singleton.mp hb]

/-- A new list takes the place of the current one. -/
theorem Sound.retire {v : PyVal} (h : s.Sound v) {s' : ResumedLoop V} (hret : s'.retired = s.lists)
    (hans : s'.answers = s.answers)
    (hpads : ∀ t p, s'.scratchpads.get? t = some p → s.scratchpads.get? t = some p)
    (hstored : s'.loop.WellStored)
    (hsaved : s'.loop.durability ≠ .exit → s'.loop.savedResume = some (Const.RESUME, v))
    (hone : (nullResumes s'.loop.checkpointPendingWrites).length ≤ 1)
    (hfresh : s.held s.retired.length = [v] →
      nullResumes s'.loop.checkpointPendingWrites = [v]) : s'.Sound v := by
  have hheld : ∀ i, s'.held i = if i = s.lists.length then
      nullResumes s'.loop.checkpointPendingWrites else s.held i := by
    intro i
    rw [held, listAt_retire hret, held]
    split <;> rfl
  have hlt : ∀ i, i < s.lists.length → i < s'.lists.length ∧ s'.held i = s.held i := by
    intro i hi
    rw [lists_length, hret, hheld, if_neg (Nat.ne_of_lt hi)]
    exact ⟨Nat.lt_succ_of_lt hi, rfl⟩
  refine ⟨hstored, hsaved, ?_, ?_, ?_, ?_, ?_, ?_, ?_, ?_, ?_⟩
  · intro i
    rw [hheld]
    split
    · exact hone
    · exact h.single i
  · exact fun t p hp => h.task t p (hpads t p hp)
  · intro t p i w hp hnull
    obtain ⟨hw, hi⟩ := h.null t p i w (hpads t p hp) hnull
    exact ⟨hw, (hlt i hi).1⟩
  · intro t p i w hp hnull hmem
    rw [(hlt i (h.null t p i w (hpads t p hp) hnull).2).2] at hmem
    exact h.counted t p i w (hpads t p hp) hnull hmem
  · intro t p i w hp hnull
    rw [(hlt i (h.null t p i w (hpads t p hp) hnull).2).2, hans]
    exact h.kept t p i w (hpads t p hp) hnull
  · intro i hi
    rw [hans] at hi
    obtain ⟨hlen, hnil⟩ := h.spent i hi
    rw [(hlt i hlen).2]
    exact ⟨(hlt i hlen).1, hnil⟩
  · rw [hans]
    exact h.nodup
  · rw [hans]
    exact h.first
  · intro hnil
    rw [hans] at hnil
    obtain ⟨hcur, hval⟩ := h.fresh hnil
    rw [hheld, hret, if_pos rfl]
    exact ⟨hfresh hcur, fun t p i w hp => hval t p i w (hpads t p hp)⟩

/-- What a scratchpad may have for the invariant to hold with it. -/
structure Fits (v : PyVal) (s : ResumedLoop V) (p : Scratchpad) (i : Nat) (w : PendingWrite) :
    Prop where
  null : isNullResume w = true ∧ i < s.lists.length
  counted : w.value ∈ s.held i → p.interruptCounter ≤ p.resume.length
  kept : w.value ∈ s.held i ∨ w.value = .none ∨ i ∈ s.answers.map Prod.fst
  fresh : s.answers = [] → w.value = v

theorem Sound.fits {v : PyVal} (h : s.Sound v) {t : String} {p : Scratchpad} {i : Nat}
    {w : PendingWrite} (hp : s.scratchpads.get? t = some p) (hnull : p.nullResume = some (i, w)) :
    s.Fits v p i w :=
  ⟨h.null t p i w hp hnull, h.counted t p i w hp hnull, h.kept t p i w hp hnull,
    fun hnil => (h.fresh hnil).2 t p i w hp hnull⟩

theorem Sound.setScratchpad {v : PyVal} (h : s.Sound v) {t : String} (ht : t ≠ Const.NULL_TASK_ID)
    {p : Scratchpad} (hfit : ∀ i w, p.nullResume = some (i, w) → s.Fits v p i w) :
    (s.setScratchpad t p).Sound v := by
  have hall : ∀ t' q i w, (s.setScratchpad t p).scratchpads.get? t' = some q →
      q.nullResume = some (i, w) → s.Fits v q i w := by
    intro t' q i w hq hnull
    rw [ResumedLoop.setScratchpad, OrdDict.get?_set] at hq
    split at hq
    · cases hq
      exact hfit i w hnull
    · exact h.fits hq hnull
  refine ⟨h.stored, h.saved, h.single, ?_, ?_, ?_, ?_, h.spent, h.nodup, h.first, ?_⟩
  · intro t' q hq
    rw [ResumedLoop.setScratchpad, OrdDict.get?_set] at hq
    split at hq
    · rename_i heq
      rw [heq]
      exact ht
    · exact h.task t' q hq
  · exact fun t' q i w hq hnull => (hall t' q i w hq hnull).null
  · exact fun t' q i w hq hnull => (hall t' q i w hq hnull).counted
  · exact fun t' q i w hq hnull => (hall t' q i w hq hnull).kept
  · exact fun hnil => ⟨(h.fresh hnil).1, fun t' q i w hq hnull => (hall t' q i w hq hnull).fresh hnil⟩

/-- A null resume leaves its list, with an answer or because it is worth nothing. -/
theorem Sound.take {v : PyVal} (h : s.Sound v) {s' : ResumedLoop V} {i : Nat} {u : PyVal}
    (hi : i < s.lists.length) (hmem : u ∈ s.held i) (hu : s.answers = [] → u = v)
    (hheld : ∀ j, s'.held j = if j = i then [] else s.held j)
    (hret : s'.retired.length = s.retired.length) (hpads : s'.scratchpads = s.scratchpads)
    (hstored : s'.loop.WellStored) (hdur : s'.loop.durability = s.loop.durability)
    (hsaved : s'.loop.savedResume = s.loop.savedResume)
    (hans : s'.answers = s.answers ++ [(i, u)] ∨
      s'.answers = s.answers ∧ u = .none ∧ s.answers ≠ []) : s'.Sound v := by
  have hlen : s'.lists.length = s.lists.length := by
    rw [lists_length, lists_length, hret]
  have hnew : i ∉ s.answers.map Prod.fst := by
    intro hin
    rw [(h.spent i hin).2] at hmem
    exact absurd hmem List.not_mem_nil
  have hgrow : ∀ j, j ∈ s.answers.map Prod.fst → j ∈ s'.answers.map Prod.fst := by
    intro j hj
    rcases hans with hans | ⟨hans, -⟩ <;> rw [hans]
    · rw [List.map_append]
      exact List.mem_append_left _ hj
    · exact hj
  have hne : s'.answers ≠ [] := by
    rcases hans with hans | ⟨hans, -, hnil⟩ <;> rw [hans]
    · simp
    · exact hnil
  refine ⟨hstored, ?_, ?_, ?_, ?_, ?_, ?_, ?_, ?_, ?_, fun hnil => absurd hnil hne⟩
  · rw [hdur, hsaved]
    exact h.saved
  · intro j
    rw [hheld]
    split
    · exact Nat.zero_le 1
    · exact h.single j
  · rw [hpads]
    exact h.task
  · rw [hpads, hlen]
    exact h.null
  · intro t p j w hp hnull hin
    rw [hpads] at hp
    rw [hheld] at hin
    split at hin
    · exact absurd hin List.not_mem_nil
    · exact h.counted t p j w hp hnull hin
  · intro t p j w hp hnull
    rw [hpads] at hp
    rcases h.kept t p j w hp hnull with hin | hnone | hspent
    · by_cases hj : j = i
      · subst hj
        rcases hans with hans | ⟨-, hu, -⟩
        · refine Or.inr (Or.inr ?_)
          rw [hans]
          simp
        · refine Or.inr (Or.inl ?_)
          rw [eq_of_mem_held h hin hmem, hu]
      · rw [hheld, if_neg hj]
        exact Or.inl hin
    · exact Or.inr (Or.inl hnone)
    · exact Or.inr (Or.inr (hgrow j hspent))
  · intro j hj
    rw [hlen, hheld]
    by_cases hji : j = i
    · rw [if_pos hji, hji]
      exact ⟨hi, rfl⟩
    · rw [if_neg hji]
      apply h.spent
      rcases hans with hans | ⟨hans, -⟩ <;> rw [hans] at hj
      · rw [List.map_append, List.mem_append] at hj
        exact hj.resolve_right fun hin => hji (List.mem_singleton.mp hin)
      · exact hj
  · rcases hans with hans | ⟨hans, -⟩ <;> rw [hans]
    · rw [List.map_append, List.nodup_append]
      refine ⟨h.nodup, List.nodup_singleton _, ?_⟩
      rintro a ha b hb rfl
      have hai : a = i := List.mem_singleton.mp hb
      rw [hai] at ha
      exact hnew ha
    · exact h.nodup
  · intro a ha
    rcases hans with hans | ⟨hans, -⟩ <;> rw [hans] at ha
    · cases hans' : s.answers with
      | nil =>
        rw [hans', List.nil_append, List.head?_cons, Option.mem_some_iff] at ha
        rw [← ha]
        exact hu hans'
      | cons b rest =>
        apply h.first
        rw [hans'] at ha ⊢
        exact ha
    · exact h.first a ha

/-! ## One call -/

/-- The next call of the task has no answer of its own, and the scratchpad found a null
    resume in the list `i`. -/
def Asks (s : ResumedLoop V) (t : String) (i : Nat) : Prop :=
  ∃ p w, s.scratchpads.get? t = some p ∧ p.resume[p.interruptCounter]? = none ∧
    p.nullResume = some (i, w) ∧ w.value ≠ .none

/-- The list after a scratchpad has taken its null resume. -/
theorem held_erase (h : ∀ j, (s.held j).length ≤ 1) {i : Nat} {w : PendingWrite}
    (hw : isNullResume w = true) (hmem : w ∈ s.listAt i) (j : Nat) :
    (s.mapLists fun j l => if j = i then l.erase w else l).held j =
      if j = i then [] else s.held j := by
  rw [held, listAt_mapLists _ (by intro j; split <;> rfl)]
  by_cases hj : j = i
  · rw [if_pos hj, if_pos hj, hj]
    exact nullResumes_erase hw (h i) hmem
  · rw [if_neg hj, if_neg hj, held]

/-- What a call does: it has its own answer, or raises, or takes the null resume of its
    list, which it returns if it is worth anything. -/
theorem Sound.interrupt_cases {v : PyVal} (h : s.Sound v) {t : String} {p : Scratchpad}
    (hp : s.scratchpads.get? t = some p) :
    (∃ u, p.resume[p.interruptCounter]? = some u ∧ s.interrupt t p =
        (.own u, s.setScratchpad t { p with interruptCounter := p.interruptCounter + 1 })) ∨
    (p.resume[p.interruptCounter]? = none ∧
      (∀ i w, p.nullResume = some (i, w) → w.value ∉ s.held i) ∧ s.interrupt t p =
        (.graphInterrupt, s.setScratchpad t { p with interruptCounter := p.interruptCounter + 1 })) ∨
    ∃ i w, p.resume[p.interruptCounter]? = none ∧ p.nullResume = some (i, w) ∧
      w.value ∈ s.held i ∧ (if w.value = .none then s.interrupt t p =
          (.graphInterrupt, (s.mapLists fun j l => if j = i then l.erase w else l).setScratchpad t
            { p with interruptCounter := p.interruptCounter + 1 })
        else s.interrupt t p =
          (.global w.value, ((s.mapLists fun j l => if j = i then l.erase w else l).appendResume t p
            w.value).setScratchpad t ⟨p.resume ++ [w.value], p.interruptCounter + 1, p.nullResume⟩)) := by
  cases hown : p.resume[p.interruptCounter]? with
  | some u =>
    refine Or.inl ⟨u, rfl, ?_⟩
    rw [interrupt, hown]
  | none =>
    cases hnull : p.nullResume with
    | none =>
      refine Or.inr (Or.inl ⟨rfl, fun i w he => (by cases he), ?_⟩)
      simp [interrupt, hown, getNullResume, hnull]
    | some e =>
      obtain ⟨i, w⟩ := e
      have hw := (h.null t p i w hp hnull).1
      by_cases hmem : w ∈ s.listAt i
      · have hin : w.value ∈ s.held i := (mem_iff_of_isNullResume hw).mp hmem
        refine Or.inr (Or.inr ⟨i, w, rfl, rfl, hin, ?_⟩)
        by_cases hv : w.value = .none
        · simp [interrupt, hown, getNullResume, hnull, hmem, hv]
        · -- the counter has not run ahead while the value is there
          have hlen : p.resume.length = p.interruptCounter := by
            have hle := h.counted t p i w hp hnull hin
            have hge := List.getElem?_eq_none_iff.mp hown
            omega
          simp [interrupt, getNullResume, hnull, hmem, hv, hlen]
      · refine Or.inr (Or.inl ⟨rfl, ?_, ?_⟩)
        · intro i' w' he hin
          cases he
          exact hmem ((mem_iff_of_isNullResume hw).mpr hin)
        · simp [interrupt, hown, getNullResume, hnull, hmem]

theorem step_interrupt {t : String} {p : Scratchpad} (hp : s.scratchpads.get? t = some p) :
    s.step (.interrupt t) =
      { (s.interrupt t p).2 with answers := logged p s.answers (s.interrupt t p).1 } := by
  simp only [step, hp]

theorem asks_iff {t : String} {p : Scratchpad} (hp : s.scratchpads.get? t = some p) {i : Nat} :
    s.Asks t i ↔ ∃ w, p.resume[p.interruptCounter]? = none ∧ p.nullResume = some (i, w) ∧
      w.value ≠ .none := by
  constructor
  · intro h
    obtain ⟨q, w, hq, hrest⟩ := h
    rw [hp] at hq
    cases hq
    exact ⟨w, hrest⟩
  · intro h
    obtain ⟨w, hrest⟩ := h
    exact ⟨p, w, hp, hrest⟩

/-- A call that the task's own list answers asks for no null resume. -/
theorem Sound.interrupt_own {v : PyVal} (h : s.Sound v) {t : String} {p : Scratchpad}
    (hp : s.scratchpads.get? t = some p) {u : PyVal} (hown : p.resume[p.interruptCounter]? = some u)
    (hres : s.interrupt t p =
      (.own u, s.setScratchpad t { p with interruptCounter := p.interruptCounter + 1 })) :
    (s.step (.interrupt t)).Sound v ∧
      ∀ i, i ∈ (s.step (.interrupt t)).answers.map Prod.fst ↔
        i ∈ s.answers.map Prod.fst ∨ s.Asks t i := by
  rw [step_interrupt hp, hres]
  refine ⟨h.setScratchpad (h.task t p hp) ?_, fun i => (or_iff_left ?_).symm⟩
  · intro i w hnull
    have hfit := h.fits hp hnull
    refine ⟨hfit.null, fun _ => ?_, hfit.kept, hfit.fresh⟩
    exact (List.getElem?_eq_some_iff.mp hown).1
  · rw [asks_iff hp, hown]
    intro hasks
    obtain ⟨w, hnone, -⟩ := hasks
    cases hnone

/-- A call whose null resume is no longer in its list finds none. -/
theorem Sound.interrupt_gone {v : PyVal} (h : s.Sound v) {t : String} {p : Scratchpad}
    (hp : s.scratchpads.get? t = some p)
    (hgone : ∀ i w, p.nullResume = some (i, w) → w.value ∉ s.held i)
    (hres : s.interrupt t p =
      (.graphInterrupt, s.setScratchpad t { p with interruptCounter := p.interruptCounter + 1 })) :
    (s.step (.interrupt t)).Sound v ∧
      ∀ i, i ∈ (s.step (.interrupt t)).answers.map Prod.fst ↔
        i ∈ s.answers.map Prod.fst ∨ s.Asks t i := by
  rw [step_interrupt hp, hres]
  refine ⟨h.setScratchpad (h.task t p hp) ?_, ?_⟩
  · intro i w hnull
    have hfit := h.fits hp hnull
    exact ⟨hfit.null, fun hin => absurd hin (hgone i w hnull), hfit.kept, hfit.fresh⟩
  · intro i
    refine (or_iff_left_of_imp ?_).symm
    rw [asks_iff hp]
    intro hasks
    obtain ⟨w, -, hnull, hval⟩ := hasks
    exact ((h.kept t p i w hp hnull).resolve_left (hgone i w hnull)).resolve_left hval

/-- A call that takes a `None` from a list raises all the same. -/
theorem Sound.interrupt_none {v : PyVal} (h : s.Sound v) (hv : v ≠ .none) {t : String} {p : Scratchpad}
    (hp : s.scratchpads.get? t = some p) {i : Nat} {w : PendingWrite}
    (hnull : p.nullResume = some (i, w)) (hin : w.value ∈ s.held i) (hval : w.value = .none)
    (hres : s.interrupt t p =
      (.graphInterrupt, (s.mapLists fun j l => if j = i then l.erase w else l).setScratchpad t
        { p with interruptCounter := p.interruptCounter + 1 })) :
    (s.step (.interrupt t)).Sound v ∧
      ∀ i, i ∈ (s.step (.interrupt t)).answers.map Prod.fst ↔
        i ∈ s.answers.map Prod.fst ∨ s.Asks t i := by
  obtain ⟨hw, hi⟩ := h.null t p i w hp hnull
  have hmem : w ∈ s.listAt i := (mem_iff_of_isNullResume hw).mpr hin
  have hfit := h.fits hp hnull
  have hnil : s.answers ≠ [] := fun hnil => hv (by rw [← hfit.fresh hnil, hval])
  have hsound : (s.mapLists fun j l => if j = i then l.erase w else l).Sound v :=
    h.take hi hin hfit.fresh (held_erase h.single hw hmem) (by simp [mapLists]) rfl
      ⟨h.stored.byTask, h.stored.wellKeyed⟩ rfl rfl (Or.inr ⟨rfl, hval, hnil⟩)
  rw [step_interrupt hp, hres]
  refine ⟨hsound.setScratchpad (h.task t p hp) ?_, fun j => (or_iff_left ?_).symm⟩
  · intro j u hju
    have hsome : (i, w) = (j, u) := Option.some.inj (hnull.symm.trans hju)
    cases hsome
    refine ⟨⟨hw, ?_⟩, ?_, Or.inr (Or.inl hval), fun hnil' => absurd hnil' hnil⟩
    · rw [lists_length] at hi ⊢
      simpa [mapLists] using hi
    · rw [held_erase h.single hw hmem, if_pos rfl]
      exact fun hin => absurd hin List.not_mem_nil
  · rw [asks_iff hp]
    intro hasks
    obtain ⟨u, -, hju, hne⟩ := hasks
    have hsome : (i, w) = (j, u) := Option.some.inj (hnull.symm.trans hju)
    cases hsome
    exact hne hval

/-- A call that takes a value from a list is the list's answer. -/
theorem Sound.interrupt_global {v : PyVal} (h : s.Sound v) {t : String} {p : Scratchpad}
    (hp : s.scratchpads.get? t = some p) {i : Nat} {w : PendingWrite}
    (hown : p.resume[p.interruptCounter]? = none) (hnull : p.nullResume = some (i, w))
    (hin : w.value ∈ s.held i) (hval : w.value ≠ .none)
    (hres : s.interrupt t p =
      (.global w.value, ((s.mapLists fun j l => if j = i then l.erase w else l).appendResume t p
        w.value).setScratchpad t ⟨p.resume ++ [w.value], p.interruptCounter + 1, p.nullResume⟩)) :
    (s.step (.interrupt t)).Sound v ∧
      ∀ i, i ∈ (s.step (.interrupt t)).answers.map Prod.fst ↔
        i ∈ s.answers.map Prod.fst ∨ s.Asks t i := by
  have ht := h.task t p hp
  obtain ⟨hw, hi⟩ := h.null t p i w hp hnull
  have hmem : w ∈ s.listAt i := (mem_iff_of_isNullResume hw).mpr hin
  have hfit := h.fits hp hnull
  let taken : ResumedLoop V :=
    { (s.mapLists fun j l => if j = i then l.erase w else l).appendResume t p w.value with
      answers := s.answers ++ [(i, w.value)] }
  have hheld : ∀ j, taken.held j = if j = i then [] else s.held j := by
    intro j
    rw [← held_erase h.single hw hmem]
    exact nullResumes_appendResume _ ht p w.value j
  have hsound : taken.Sound v :=
    h.take hi hin hfit.fresh hheld (by simp [taken, appendResume, mapLists]) rfl
      ⟨h.stored.byTask, h.stored.wellKeyed⟩ rfl rfl (Or.inl rfl)
  have hlog : logged p s.answers (.global w.value) = s.answers ++ [(i, w.value)] := by
    simp [logged, hnull]
  have hnext : s.step (.interrupt t) = taken.setScratchpad t
      ⟨p.resume ++ [w.value], p.interruptCounter + 1, p.nullResume⟩ := by
    rw [step_interrupt hp, hres, hlog]
    rfl
  have hspent : i ∈ taken.answers.map Prod.fst := by simp [taken]
  rw [hnext]
  refine ⟨hsound.setScratchpad ht ?_, ?_⟩
  · intro j u hju
    have hsome : (i, w) = (j, u) := Option.some.inj (hnull.symm.trans hju)
    cases hsome
    refine ⟨⟨hw, (hsound.spent i hspent).1⟩, ?_, Or.inr (Or.inr hspent), ?_⟩
    · rw [hheld, if_pos rfl]
      exact fun hin => absurd hin List.not_mem_nil
    · intro hnil
      simp [taken] at hnil
  · intro j
    rw [asks_iff hp, show (taken.setScratchpad t ⟨p.resume ++ [w.value], p.interruptCounter + 1,
      p.nullResume⟩).answers = s.answers ++ [(i, w.value)] from rfl, List.map_append,
      List.mem_append, List.map_singleton, List.mem_singleton]
    refine or_congr_right ⟨?_, ?_⟩
    · intro hj
      exact ⟨w, hown, hj ▸ hnull, hval⟩
    · intro hasks
      obtain ⟨u, -, hju, -⟩ := hasks
      have hsome : (i, w) = (j, u) := Option.some.inj (hnull.symm.trans hju)
      exact (congrArg Prod.fst hsome).symm

/-- A call keeps the invariant, and adds an answer from a list exactly when the task asks
    for the null resume of the list and the list has not answered. -/
theorem Sound.interrupt {v : PyVal} (h : s.Sound v) (hv : v ≠ .none) {t : String} :
    (s.step (.interrupt t)).Sound v ∧
      ∀ i, i ∈ (s.step (.interrupt t)).answers.map Prod.fst ↔
        i ∈ s.answers.map Prod.fst ∨ s.Asks t i := by
  cases hp : s.scratchpads.get? t with
  | none =>
    have hstep : s.step (.interrupt t) = s := by simp only [step, hp]
    rw [hstep]
    refine ⟨h, fun i => (or_iff_left ?_).symm⟩
    intro hasks
    obtain ⟨p, w, hp', -⟩ := hasks
    rw [hp] at hp'
    cases hp'
  | some p =>
    rcases h.interrupt_cases hp with ⟨u, hown, hres⟩ | ⟨-, hgone, hres⟩ |
      ⟨i, w, hown, hnull, hin, hres⟩
    · exact h.interrupt_own hp hown hres
    · exact h.interrupt_gone hp hgone hres
    · by_cases hval : w.value = .none
      · rw [if_pos hval] at hres
        exact h.interrupt_none hv hp hnull hin hval hres
      · rw [if_neg hval] at hres
        exact h.interrupt_global hp hown hnull hin hval hres

/-! ## Runs -/

/-- The null task is no task: it is never prepared and puts no writes in a superstep. -/
def OfTasks (e : ResumeEvent) : Prop := e.taskId ≠ some Const.NULL_TASK_ID

instance (e : ResumeEvent) : Decidable (OfTasks e) := inferInstanceAs (Decidable (_ ≠ _))

theorem Sound.step {v : PyVal} (h : s.Sound v) (hv : v ≠ .none) {e : ResumeEvent}
    (he : OfTasks e) : (s.step e).Sound v := by
  cases e with
  | interrupt t => exact (h.interrupt hv).1
  | prepare t parent =>
    have ht : t ≠ Const.NULL_TASK_ID := fun ht => he (congrArg some ht)
    apply h.setScratchpad ht
    intro i w hnull
    rcases Option.or_eq_some_iff.mp hnull with hfound | ⟨-, hparent⟩
    · obtain ⟨w', hfind, hiw⟩ := Option.map_eq_some_iff.mp hfound
      obtain ⟨rfl, rfl⟩ := Prod.mk.inj hiw
      obtain ⟨hw, hmem⟩ := find?_isNullResume hfind
      have hin : w'.value ∈ s.held s.retired.length := by
        rw [held, listAt_current]
        exact (mem_iff_of_isNullResume hw).mp hmem
      refine ⟨⟨hw, ?_⟩, fun _ => Nat.zero_le _, Or.inl hin, ?_⟩
      · rw [lists_length]
        exact Nat.lt_succ_self _
      · intro hnil
        rw [(h.fresh hnil).1, List.mem_singleton] at hin
        exact hin
    · obtain ⟨q, hq, hqnull⟩ := Option.bind_eq_some_iff.mp hparent
      obtain ⟨t', -, hget⟩ := Option.bind_eq_some_iff.mp hq
      have hfit := h.fits hget hqnull
      exact ⟨hfit.null, fun _ => Nat.zero_le _, hfit.kept, hfit.fresh⟩
  | prepareNested t parent resume =>
    have ht : t ≠ Const.NULL_TASK_ID := fun ht => he (congrArg some ht)
    apply h.setScratchpad ht
    intro i w hnull
    obtain ⟨q, hget, hqnull⟩ := Option.bind_eq_some_iff.mp hnull
    have hfit := h.fits hget hqnull
    exact ⟨hfit.null, fun _ => Nat.zero_le _, hfit.kept, hfit.fresh⟩
  | putWrites t writes path =>
    have ht : t ≠ Const.NULL_TASK_ID := fun ht => he (congrArg some ht)
    have hcur : nullResumes (s.loop.putWrites t writes path).checkpointPendingWrites =
        s.held s.retired.length := by
      rw [PendingLoop.nullResumes_putWrites ht, held, listAt_current]
    rw [show s.step (.putWrites t writes path) = if writes.isEmpty then s else
      { s with loop := s.loop.putWrites t writes path, retired := s.lists } from rfl]
    split
    · exact h
    · have hdur : (s.loop.putWrites t writes path).durability = s.loop.durability := by
        unfold PendingLoop.putWrites
        split <;> rfl
      apply h.retire
      · rfl
      · rfl
      · exact fun _ _ hp => hp
      · exact h.stored.putWrites t writes path
      · intro hexit
        rw [PendingLoop.savedResume_putWrites ht]
        exact h.saved (hdur ▸ hexit)
      · rw [hcur]
        exact h.single _
      · intro hheld
        rw [hcur, hheld]
  | restart paths =>
    have hrestart := h.stored.restart paths
    apply h.retire
    · rfl
    · rfl
    · exact fun t p hp => (by cases hp)
    · exact hrestart
    · intro hexit
      have hdur : s.loop.durability ≠ .exit := by
        intro hd
        apply hexit
        simp [ResumedLoop.step, PendingLoop.restart, hd, PendingLoop.putPendingWrites,
          PendingLoop.reload]
      simp only [ResumedLoop.step, PendingLoop.restart, if_neg hdur]
      exact h.saved hdur
    · rw [show (s.step (.restart paths)).loop = s.loop.restart paths from rfl,
        PendingLoop.checkpointPendingWrites_restart, PendingLoop.nullResumes_storedWrites hrestart]
      cases (s.loop.restart paths).savedResume <;> simp
    · intro hheld
      rw [held, listAt_current] at hheld
      exact PendingLoop.nullResumes_restart h.stored hheld h.saved paths

/-- The superstep starts with the invariant. -/
theorem sound_resumedWith {l : PendingLoop V} (hl : l.WellStored)
    (hspec : (l.specs.get? Const.RESUME).any Channel.isUntracked = false)
    {before after : List (String × PyVal)} {v : PyVal}
    (hother : ∀ w ∈ before ++ after, w.1 ≠ Const.RESUME) :
    (resumedWith l before after v).Sound v := by
  have hne : before ++ (Const.RESUME, v) :: after ≠ [] := by simp
  have hvalues : valuesOf Const.RESUME (before ++ (Const.RESUME, v) :: after) = [v] := by
    have hnil : ∀ ws : List (String × PyVal), (∀ w ∈ ws, w.1 ≠ Const.RESUME) →
        ws.filter (fun w => w.1 = Const.RESUME) = [] := by
      intro ws hws
      rw [List.filter_eq_nil_iff]
      intro w hw
      simpa using hws w hw
    rw [valuesOf, List.filter_append, hnil before fun w hw => hother w (List.mem_append_left _ hw),
      List.filter_cons_of_pos (by simp), hnil after fun w hw => hother w (List.mem_append_right _ hw)]
    rfl
  have hdedup := valuesOf_dedupSpecial hvalues
  have hput := PendingLoop.putWrites_of_ne_nil l Const.NULL_TASK_ID _ "" hne
  have hrest : nullResumes (l.remaining Const.NULL_TASK_ID) = [] := by
    rw [nullResumes, List.map_eq_nil_iff, List.filter_eq_nil_iff]
    intro w hw hnull
    rw [PendingLoop.remaining, if_pos rfl, List.mem_filter] at hw
    obtain ⟨ht, hc⟩ := isNullResume_iff.mp hnull
    have hspecial : isSpecial Const.RESUME = true := rfl
    simp [ht, hc, hspecial] at hw
  have hlist : nullResumes (resumedWith l before after v).loop.checkpointPendingWrites = [v] := by
    rw [resumedWith, hput, nullResumes_append, hrest, List.nil_append, nullResumes_pendingOf_null,
      hdedup]
  have hheld : ∀ i, (resumedWith l before after v).held i = if i = 0 then [v] else [] := by
    intro i
    cases i with
    | zero =>
      rw [if_pos rfl, ← hlist]
      rfl
    | succ i => rfl
  refine ⟨hl.putWrites _ _ _, ?_, ?_, ?_, ?_, ?_, ?_, ?_, ?_, ?_, ?_⟩
  · intro hd
    have hmerged : valuesOf Const.RESUME (l.writesToSave Const.NULL_TASK_ID
        (dedupSpecial (before ++ (Const.RESUME, v) :: after))) = [v] := by
      have hearlier := PendingLoop.valuesOf_nullWrites (l.remaining Const.NULL_TASK_ID)
      rw [hrest] at hearlier
      rw [PendingLoop.writesToSave, PendingLoop.valuesOf_filterMap_saveable (by decide) hspec,
        PendingLoop.merged, if_pos rfl, valuesOf, List.filter_append, List.map_append, ← valuesOf,
        hearlier, List.nil_append, ← valuesOf, hdedup]
    have hd' : l.durability ≠ .exit := by
      intro he
      apply hd
      rw [resumedWith, hput, he]
    rw [PendingLoop.savedResume, resumedWith, hput, if_neg hd']
    exact PendingLoop.savedResume_saverPut_null hmerged
  · intro i
    rw [hheld]
    split <;> simp
  · exact fun t p hp => (by cases hp)
  · exact fun t p i w hp => (by cases hp)
  · exact fun t p i w hp => (by cases hp)
  · exact fun t p i w hp => (by cases hp)
  · exact fun i hi => absurd hi List.not_mem_nil
  · exact List.nodup_nil
  · exact fun a ha => (by cases ha)
  · exact fun _ => ⟨hheld 0, fun t p i w hp => (by cases hp)⟩

theorem Sound.run {v : PyVal} (h : s.Sound v) (hv : v ≠ .none) {events : List ResumeEvent}
    (hev : ∀ e ∈ events, OfTasks e) : (s.run events).Sound v := by
  induction events using List.reverseRecOn with
  | nil => exact h
  | append_singleton events e ih =>
    rw [ResumedLoop.run, List.foldl_append]
    exact (ih fun e he => hev e (List.mem_append_left _ he)).step hv
      (hev e (List.mem_append_right _ (List.mem_singleton_self e)))

/-- The lists that have answered are those that some call has asked. -/
theorem Sound.answered_iff {v : PyVal} (h : s.Sound v) (hv : v ≠ .none)
    {events : List ResumeEvent} (hev : ∀ e ∈ events, OfTasks e) (hnil : s.answers = []) (i : Nat) :
    i ∈ (s.run events).answers.map Prod.fst ↔
      ∃ pre t, pre ++ [.interrupt t] <+: events ∧ (s.run pre).Asks t i := by
  induction events using List.reverseRecOn with
  | nil =>
    rw [ResumedLoop.run, List.foldl_nil, hnil]
    constructor
    · exact fun hi => absurd hi List.not_mem_nil
    · rintro ⟨pre, t, hpre, -⟩
      simp at hpre
  | append_singleton events e ih =>
    have hev' : ∀ e ∈ events, OfTasks e := fun e he => hev e (List.mem_append_left _ he)
    have hsound := h.run hv hev'
    have hrun : s.run (events ++ [e]) = (s.run events).step e := by
      rw [ResumedLoop.run, List.foldl_append]
      rfl
    -- an earlier call, or the last event
    have hsplit : (∃ pre t, pre ++ [.interrupt t] <+: events ++ [e] ∧ (s.run pre).Asks t i) ↔
        (∃ pre t, pre ++ [.interrupt t] <+: events ∧ (s.run pre).Asks t i) ∨
          ∃ t, e = .interrupt t ∧ (s.run events).Asks t i := by
      constructor
      · rintro ⟨pre, t, hpre, hasks⟩
        rcases List.prefix_concat_iff.mp hpre with heq | hpre
        · obtain ⟨rfl, he⟩ := List.append_inj' heq rfl
          exact Or.inr ⟨t, (List.singleton_inj.mp he).symm, hasks⟩
        · exact Or.inl ⟨pre, t, hpre, hasks⟩
      · rintro (⟨pre, t, hpre, hasks⟩ | ⟨t, rfl, hasks⟩)
        · exact ⟨pre, t, hpre.trans (List.prefix_append _ _), hasks⟩
        · exact ⟨events, t, List.prefix_refl _, hasks⟩
    rw [hsplit, hrun, ← ih hev']
    have hother : (∀ t, e ≠ .interrupt t) → ((s.run events).step e).answers = (s.run events).answers := by
      intro hne
      cases e with
      | interrupt t => exact absurd rfl (hne t)
      | prepare t parent => rfl
      | prepareNested t parent resume => rfl
      | putWrites t writes path =>
        simp only [ResumedLoop.step]
        split <;> rfl
      | restart paths => rfl
    by_cases he : ∃ t, e = .interrupt t
    · obtain ⟨t, rfl⟩ := he
      rw [(hsound.interrupt hv).2 i]
      simp
    · have hne : ∀ t, e ≠ .interrupt t := fun t ht => he ⟨t, ht⟩
      rw [hother hne]
      refine (or_iff_left ?_).symm
      rintro ⟨t, ht, -⟩
      exact hne t ht

/-- One call at most gets the resume value, and every other call without an answer of
    its own raises `GraphInterrupt`. -/
structure GivenOnce (v : PyVal) (s : ResumedLoop V) (events : List ResumeEvent) : Prop where
  once : (s.run events).answers.length ≤ 1
  others : ∀ pre t p, pre ++ [.interrupt t] <+: events → (s.run pre).scratchpads.get? t = some p →
    p.resume[p.interruptCounter]? = none →
      ((s.run pre).interrupt t p).1 = .global v ∨ ((s.run pre).interrupt t p).1 = .graphInterrupt

/-- Every call that asks for a null resume does so through the list `i`. -/
def AskThrough (s : ResumedLoop V) (events : List ResumeEvent) (i : Nat) : Prop :=
  ∀ pre t j, pre ++ [.interrupt t] <+: events → (s.run pre).Asks t j → j = i

end ResumedLoop

open ResumedLoop in
/-- Over any order of preparations, calls, commits and further invocations with None: the
    value of the command is given out once exactly when one list serves all calls that
    ask for it. -/
theorem nullResume_once_iff {V : Type} {l : PendingLoop V} (hl : l.WellStored)
    (hspec : (l.specs.get? Const.RESUME).any Channel.isUntracked = false)
    {before after : List (String × PyVal)} {v : PyVal} (hv : v ≠ .none)
    (hother : ∀ w ∈ before ++ after, w.1 ≠ Const.RESUME) {events : List ResumeEvent}
    (hev : ∀ e ∈ events, OfTasks e) :
    GivenOnce v (resumedWith l before after v) events ↔
      ∃ i, AskThrough (resumedWith l before after v) events i := by
  have hstart := sound_resumedWith hl hspec hother (v := v)
  have hnil : (resumedWith l before after v).answers = [] := rfl
  generalize resumedWith l before after v = s at *
  have hsound := hstart.run hv hev
  have hanswered := hstart.answered_iff hv hev hnil
  constructor
  · intro hgiven
    -- the answers come from different lists
    refine ⟨((s.run events).answers.map Prod.fst).headD 0, ?_⟩
    intro pre t j hpre hasks
    have hj := (hanswered j).mpr ⟨pre, t, hpre, hasks⟩
    have hone := hgiven.once
    match hans : (s.run events).answers, hj, hone with
    | [a], hj, _ => exact List.mem_singleton.mp hj
  · rintro ⟨i, hthrough⟩
    have honly : ∀ j ∈ (s.run events).answers.map Prod.fst, j = i := by
      intro j hj
      obtain ⟨pre, t, hpre, hasks⟩ := (hanswered j).mp hj
      exact hthrough pre t j hpre hasks
    have hone : (s.run events).answers.length ≤ 1 := by
      rw [← List.length_map Prod.fst]
      have hsub : (s.run events).answers.map Prod.fst ⊆ [i] := by
        intro j hj
        rw [List.mem_singleton]
        exact honly j hj
      exact hsound.nodup.length_le_of_subset hsub
    refine ⟨hone, ?_⟩
    intro pre t p hpre hp hown
    have hbefore : pre <+: events := (List.prefix_append _ _).trans hpre
    have hpev : ∀ e ∈ pre, OfTasks e := fun e he => hev e (hbefore.subset he)
    have hpsound := hstart.run hv hpev
    rcases hpsound.interrupt_cases hp with ⟨u, hu, -⟩ | ⟨-, -, hres⟩ | ⟨j, w, -, hnull, hin, hres⟩
    · rw [hown] at hu
      cases hu
    · rw [hres]
      exact Or.inr rfl
    · by_cases hval : w.value = .none
      · rw [if_pos hval] at hres
        rw [hres]
        exact Or.inr rfl
      · rw [if_neg hval] at hres
        have hj : j = i := hthrough pre t j hpre ⟨p, w, hp, hown, hnull, hval⟩
        -- the list has not answered, so that no list has
        have hfirst : (s.run pre).answers = [] := by
          rw [← List.map_eq_nil_iff (f := Prod.fst), List.eq_nil_iff_forall_not_mem]
          intro k hk
          obtain ⟨pre', t', hpre', hasks⟩ := (hstart.answered_iff hv hpev hnil k).mp hk
          have hki : k = i := hthrough pre' t' k (hpre'.trans hbefore) hasks
          rw [hki, ← hj] at hk
          rw [(hpsound.spent j hk).2] at hin
          exact absurd hin List.not_mem_nil
        rw [hres, (hpsound.fresh hfirst).2 t p j w hp hnull]
        exact Or.inl rfl

/-- Two tasks that are prepared together; the first gets the value and finishes. -/
def sharedResume : List ResumeEvent :=
  [.prepare "a" none, .prepare "b" none, .interrupt "a",
    .putWrites "a" [(Const.RESUME, .list [.str "yes"]), ("log", .str "done")] "", .interrupt "b"]

theorem nullResume_once_shared :
    ResumedLoop.GivenOnce (.str "yes") (ResumedLoop.resumedWith freshLoop [] [] (.str "yes"))
      sharedResume := by
  refine (nullResume_once_iff (PendingLoop.wellStored_of_writesAt rfl) rfl (by simp) (by simp)
    (by decide)).mpr ⟨0, ?_⟩
  have hall : ∀ pre ∈ sharedResume.inits,
      ∀ e ∈ ((ResumedLoop.resumedWith freshLoop [] [] (.str "yes")).run pre).scratchpads.entries,
        ∀ x ∈ e.2.nullResume, x.1 = 0 := by
    decide +kernel
  rintro pre t j hpre ⟨p, w, hp, -, hnull, -⟩
  have hbefore : pre <+: sharedResume := (List.prefix_append _ _).trans hpre
  exact hall pre ((List.mem_inits _ _).mpr hbefore) (t, p) (OrdDict.get?_eq_some_iff.mp hp) (j, w) hnull

/-- A task that calls `interrupt()` twice gets the value in the first call and is stopped
    at the second; the thread is invoked with None. -/
def invokedAgain : List ResumeEvent :=
  [.prepare "a" none, .interrupt "a", .interrupt "a",
    .putWrites "a" [(Const.INTERRUPT, .tuple [.str "sure?"]), (Const.RESUME, .list [.str "yes"])] "",
    .restart fun _ => "", .prepare "a" none, .interrupt "a", .interrupt "a"]

/-- The saver still has the value, and the second call gets it too. -/
theorem nullResume_givenTwice :
    ((ResumedLoop.resumedWith freshLoop [] [] (.str "yes")).run invokedAgain).answers =
        [(0, .str "yes"), (2, .str "yes")] ∧
      ¬ ResumedLoop.GivenOnce (.str "yes")
        (ResumedLoop.resumedWith freshLoop [] [] (.str "yes")) invokedAgain := by
  have hans : ((ResumedLoop.resumedWith freshLoop [] [] (.str "yes")).run invokedAgain).answers =
      [(0, .str "yes"), (2, .str "yes")] := by
    decide +kernel
  refine ⟨hans, fun h => ?_⟩
  have hone := h.once
  rw [hans] at hone
  exact absurd hone (by decide)

/-- The same within one invocation: a task pushed after another one has finished finds
    the value in the new list. -/
example : ((ResumedLoop.resumedWith freshLoop [] [] (.str "yes")).run
    [.prepare "a" none, .prepare "b" none, .putWrites "b" [("log", .str "done")] "",
      .interrupt "a", .prepare "c" (some "a"), .interrupt "c"]).answers =
        [(0, .str "yes"), (1, .str "yes")] := by
  decide +kernel

end LangGraph
