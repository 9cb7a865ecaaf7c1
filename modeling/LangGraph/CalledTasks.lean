import LangGraph.PendingInterrupts
import LangGraph.Subgraphs

/- The tasks that an entrypoint or a task calls.

   Correspondence (source ↔ Lean):
     `prepare_push_task_functional`, its ids        ↔ `Caller.childId`
     `accept_push` (pregel/_loop.py)                ↔ `CallState.acceptPush`
     `_call`, `_acall_impl` (pregel/_runner.py)     ↔ `CallState.call`
     `call_counter` of the scratchpad               ↔ `CallState.counter`
     the tasks of `FuturesDict`                     ↔ `CallState.running`
     `run_with_retry`, the next attempt             ↔ `.attempt`
     `commit` of a called task                      ↔ `.childEnds`
     the task is prepared again by a new process    ↔ `.resume`
   A scratchpad lives as long as one execution of the task, through all of its
   attempts, and so does its counter; `position` is no data of the source: it
   counts the calls of the current attempt. `done` remembers what each called task
   returned. The calls have no cache policy, and no checkpoint is replayed. -/
namespace LangGraph

/-- A task that calls others; `ctx.parentNs` is its own `checkpoint_ns`. -/
structure Caller where
  ctx : TaskContext
  checkpointId : String
  step : Int
  path : TaskPath
  /-- The names of the functions it calls, in order. -/
  funcs : Nat → String

namespace Caller

/-- The id of the task for a call of the function with this count. -/
def childId (c : Caller) (idx : Nat) (name : String) : String :=
  taskId c.ctx c.checkpointId
    [c.ctx.checkpointNs name, toString c.step, name, Const.PUSH, taskPathStr c.path, toString idx]

/-- The id of the `k`-th call, when the count starts with it. -/
def child (c : Caller) (k : Nat) : String := c.childId k (c.funcs k)

end Caller

/-- How a called task ends; its runnable writes `RETURN` last. -/
inductive ChildResult where
  | ok (value : PyVal)
  | cancelled (exception : PyVal)
  | interrupt (interrupts : List PyVal)
  | bubbleUp
  | error (exception : PyVal)

/-- The last attempt of a called task: the answers to its interrupts that it took,
    and how it ends. -/
structure ChildEnd where
  resumes : List PyVal
  result : ChildResult

def ChildEnd.attempt (e : ChildEnd) : Attempt :=
  let answers := e.resumes.map fun v => (Const.RESUME, v)
  match e.result with
  | .ok v => ⟨answers ++ [(Const.RETURN, v)], .ok⟩
  | .cancelled ex => ⟨answers, .cancelled ex⟩
  | .interrupt is => ⟨answers, .interrupt is⟩
  | .bubbleUp => ⟨answers, .bubbleUp⟩
  | .error ex => ⟨answers, .error ex⟩

/-- What a call hands to the caller. -/
inductive CallResult where
  /-- The future of a task that runs. -/
  | joined (t : Task)
  | returned (value : PyVal)
  | raised (exception : PyVal)
  /-- The future of a task that is submitted. -/
  | started (t : Task)

structure CallState (V : Type) where
  loop : PendingLoop V
  counter : Nat
  position : Nat
  running : List Task
  done : String → Option PyVal

inductive CallEvent where
  | attempt
  | call (input : PyVal)
  | childEnds (tid : String) (ending : ChildEnd)
  /-- `put_writes` of another task, or of the null task. -/
  | put (tid : String) (writes : List (String × PyVal)) (path : String)
  | resume (taskPaths : String → String)

/-- `t == next_task.id`: a task is never equal to a string. -/
def Task.eqStr (_ : Task) (_ : String) : Bool := false

/-- `next((v for c, v in writes if c == chan), MISSING)` -/
def firstWrite (writes : List (String × PyVal)) (chan : String) : Option PyVal :=
  (writes.find? fun w => w.1 = chan).map Prod.snd

namespace CallState
variable {V : Type}

def acceptPush (c : Caller) (s : CallState V) (input : PyVal) : Task where
  name := c.funcs s.position
  input := input
  writes := reapplied s.loop.checkpointPendingWrites (c.childId s.counter (c.funcs s.position))
  triggers := [Const.PUSH]
  id := c.childId s.counter (c.funcs s.position)
  path := [.str Const.PUSH, .tuple c.path, .int s.counter, .int 1]

def call (c : Caller) (s : CallState V) (input : PyVal) : CallResult × CallState V :=
  let nextTask := s.acceptPush c input
  let s := { s with counter := s.counter + 1, position := s.position + 1 }
  match s.running.find? fun t => t.eqStr nextTask.id with
  -- if the parent task was retried, the next task might already be running
  | some t => (.joined t, s)
  | none =>
    if nextTask.writes.isEmpty then
      (.started nextTask, { s with running := s.running ++ [nextTask] })
    else
      match firstWrite nextTask.writes Const.RETURN, firstWrite nextTask.writes Const.ERROR with
      | some v, _ => (.returned v, s)
      | none, some e => (.raised e, s)
      | none, none => (.returned .none, s)

/-- The future of a called task is done, and its callback has committed it. -/
def childEnds (s : CallState V) (t : Task) (ending : ChildEnd) : CallState V :=
  { s with
    loop := s.loop.commit t.id none ending.attempt (taskPathStr t.path)
    running := s.running.filter fun r => r.id ≠ t.id
    done := fun tid => match ending.result with
      | .ok v => if tid = t.id then some v else s.done tid
      | _ => s.done tid }

def step (c : Caller) (s : CallState V) : CallEvent → Option (CallState V)
  | .attempt => some { s with position := 0 }
  | .call input => some (s.call c input).2
  | .childEnds tid ending => (s.running.find? fun t => t.id = tid).map fun t => s.childEnds t ending
  | .put tid writes path => some { s with loop := s.loop.putWrites tid writes path }
  | .resume taskPaths => some
      { s with loop := s.loop.restart taskPaths, counter := 0, position := 0, running := [] }

/-- No attempt calls after another one of its execution has called; and the writes
    that are put are not those of a called task. -/
def CallsOnce (c : Caller) (s : CallState V) : CallEvent → Prop
  | .call _ => s.counter = s.position
  | .put tid _ _ => ∀ k, tid ≠ c.child k
  | _ => True

/-- Before the first execution at the checkpoint. -/
def start (l : PendingLoop V) : CallState V := ⟨l, 0, 0, [], fun _ => none⟩

/-! ## What is stored of the called tasks -/

/-- The only writes of the task that are applied again are the ones of its success. -/
def Records (c : Caller) (done : String → Option PyVal) (tid : String) (w : String × PyVal) : Prop :=
  ∀ k, tid = c.child k →
    w.1 ∈ [Const.ERROR, Const.INTERRUPT, Const.RESUME] ∨ w.1 = Const.RETURN ∧ done tid = some w.2

structure Memo (c : Caller) (s : CallState V) : Prop where
  stored : s.loop.WellStored
  saves : ∀ w, s.loop.saveable w = some w
  entries : s.loop.Everywhere (Records c s.done)
  inList : ∀ k v, s.done (c.child k) = some v → s.loop.InList (c.child k) .applied
  recorded : ∀ k v, s.done (c.child k) = some v → s.loop.Recorded (c.child k) .applied
  running : ∀ t ∈ s.running, s.done t.id = none ∧ ∃ j, j < s.counter ∧ t.id = c.child j

variable {c : Caller} {s s' : CallState V}

/-- A task that succeeded gets its value back, and no other one gets any writes. -/
theorem Memo.reapplied (h : s.Memo c) (k : Nat) :
    match s.done (c.child k) with
    | some v => LangGraph.reapplied s.loop.checkpointPendingWrites (c.child k) ≠ [] ∧
        ∀ w ∈ LangGraph.reapplied s.loop.checkpointPendingWrites (c.child k), w = (Const.RETURN, v)
    | none => LangGraph.reapplied s.loop.checkpointPendingWrites (c.child k) = [] := by
  have hmem : ∀ w ∈ LangGraph.reapplied s.loop.checkpointPendingWrites (c.child k),
      w.1 = Const.RETURN ∧ s.done (c.child k) = some w.2 := by
    intro w hw
    obtain ⟨pw, hpw, rfl⟩ := List.mem_map.mp hw
    obtain ⟨hlist, hcond⟩ := List.mem_filter.mp hpw
    obtain ⟨hid, hctl⟩ := of_decide_eq_true hcond
    rcases h.entries.1 pw hlist k hid with hsignal | hreturn
    · refine absurd ?_ hctl
      simp only [controlSignals, List.mem_cons, List.not_mem_nil, or_false] at hsignal ⊢
      rcases hsignal with hc | hc | hc
      · exact Or.inl hc
      · exact Or.inr (Or.inr (Or.inl hc))
      · exact Or.inr (Or.inr (Or.inr hc))
    · exact ⟨hreturn.1, hid ▸ hreturn.2⟩
  cases hdone : s.done (c.child k) with
  | none =>
    simp only
    rw [List.eq_nil_iff_forall_not_mem]
    intro w hw
    have := (hmem w hw).2
    rw [hdone] at this
    cases this
  | some v =>
    simp only
    refine ⟨?_, fun w hw => ?_⟩
    · obtain ⟨w, hw, hid, hq⟩ := h.inList k v hdone
      have hsrc := IdxKind.applied_has_iff.mp hq
      refine List.ne_nil_of_mem (List.mem_map.mpr ⟨w, List.mem_filter.mpr ⟨hw, ?_⟩, rfl⟩)
      refine decide_eq_true ⟨hid, ?_⟩
      rcases h.entries.1 w hw k hid with hsignal | hreturn
      · exact absurd hsignal hsrc
      · rw [show w.channel = Const.RETURN from hreturn.1]
        decide
    · obtain ⟨hchan, hval⟩ := hmem w hw
      rw [hdone, Option.some.injEq] at hval
      rw [← hchan, hval]

theorem childId_counter (hk : s.counter = s.position) :
    c.childId s.counter (c.funcs s.position) = c.child s.position := by
  rw [hk]
  rfl

/-- What a call does whose count is its position in the attempt. -/
theorem Memo.call (h : s.Memo c) (hk : s.counter = s.position) (input : PyVal) :
    s.call c input = match s.done (c.child s.position) with
      | some v => (.returned v, { s with counter := s.counter + 1, position := s.position + 1 })
      | none => (.started (s.acceptPush c input), { s with
          counter := s.counter + 1, position := s.position + 1
          running := s.running ++ [s.acceptPush c input] }) := by
  have hwrites : (s.acceptPush c input).writes =
      LangGraph.reapplied s.loop.checkpointPendingWrites (c.child s.position) := by
    rw [← childId_counter hk]
    rfl
  have hnone : s.running.find? (fun t => t.eqStr (s.acceptPush c input).id) = none :=
    List.find?_eq_none.mpr fun t _ => Bool.false_ne_true
  have hre := h.reapplied s.position
  unfold CallState.call
  simp only [hnone]
  rw [hwrites]
  cases hdone : s.done (c.child s.position) with
  | none =>
    rw [hdone] at hre
    simp only at hre
    rw [hre]
    rfl
  | some v =>
    rw [hdone] at hre
    simp only at hre
    obtain ⟨hne, hall⟩ := hre
    obtain ⟨w, ws, hws⟩ := List.exists_cons_of_ne_nil hne
    have hw : w = (Const.RETURN, v) := hall w (hws ▸ List.mem_cons_self)
    rw [hws, hw]
    rfl

/-! ## What the steps keep -/

/-- The writes of a called task, when they are put. -/
theorem records_commitWrites {done : String → Option PyVal} {tid : String} {ending : ChildEnd}
    {ws : List (String × PyVal)} (h : commitWrites none ending.attempt = some ws)
    (hdone : ∀ v, ending.result = .ok v → done tid = some v) : ∀ w ∈ ws, Records c done tid w := by
  obtain ⟨resumes, result⟩ := ending
  have hsignals : Const.RESUME ∈ [Const.ERROR, Const.INTERRUPT, Const.RESUME] ∧
      Const.ERROR ∈ [Const.ERROR, Const.INTERRUPT, Const.RESUME] ∧
      Const.INTERRUPT ∈ [Const.ERROR, Const.INTERRUPT, Const.RESUME] := by decide
  have hresume : ∀ w ∈ resumes.map (fun v => (Const.RESUME, v)), Records c done tid w := by
    intro w hw k _
    obtain ⟨v, -, rfl⟩ := List.mem_map.mp hw
    exact Or.inl hsignals.1
  have herror : ∀ e, Records c done tid (Const.ERROR, e) := fun e k _ => Or.inl hsignals.2.1
  intro w hw
  cases result with
  | ok v =>
    have hne : (resumes.map (fun v => (Const.RESUME, v)) ++ [(Const.RETURN, v)]).isEmpty = false := by
      simp
    simp only [ChildEnd.attempt, commitWrites, hne, Bool.false_eq_true, if_false] at h
    cases h
    rcases List.mem_append.mp hw with hw | hw
    · exact hresume w hw
    · rw [List.mem_singleton.mp hw]
      exact fun k _ => Or.inr ⟨rfl, hdone v rfl⟩
  | interrupt is =>
    simp only [ChildEnd.attempt, commitWrites] at h
    split at h
    · cases h
    · cases h
      rcases List.mem_cons.mp hw with rfl | hw
      · exact fun k _ => Or.inl hsignals.2.2
      · exact hresume w (List.mem_filter.mp hw).1
  | bubbleUp => cases h
  | cancelled e =>
    cases h
    rcases List.mem_append.mp hw with hw | hw
    · exact hresume w hw
    · rw [List.mem_singleton.mp hw]
      exact herror e
  | error e =>
    cases h
    simp only [Option.map_none, Option.toList_none, List.append_nil] at hw
    rcases List.mem_append.mp hw with hw | hw
    · exact hresume w hw
    · rw [List.mem_singleton.mp hw]
      exact herror e

theorem Records.mono {done done' : String → Option PyVal} {tid : String} {w : String × PyVal}
    (h : Records c done tid w) (hle : ∀ v, done tid = some v → done' tid = some v) :
    Records c done' tid w :=
  fun k hk => (h k hk).imp_right fun hr => ⟨hr.1, hle _ hr.2⟩

theorem Everywhere.mono {P P' : String → String × PyVal → Prop} {l : PendingLoop V}
    (h : l.Everywhere P) (hle : ∀ t w, P t w → P' t w) : l.Everywhere P' :=
  ⟨fun w hw => hle _ _ (h.1 w hw), fun k cv hk => hle _ _ (h.2 k cv hk)⟩

/-- The writes that another task puts. -/
theorem inList_putWrites_other {l : PendingLoop V} {tid t : String} (hne : t ≠ tid)
    (hnull : t ≠ Const.NULL_TASK_ID) (ws : List (String × PyVal)) (path : String) (q : IdxKind) :
    ((l.putWrites tid ws path).InList t q ↔ l.InList t q) ∧
      ((l.putWrites tid ws path).Stored t q ↔ l.Stored t q) := by
  by_cases htid : tid = Const.NULL_TASK_ID
  · rw [htid]
    exact ⟨PendingLoop.inList_putNull hnull ws path q, PendingLoop.stored_putNull hnull ws path q⟩
  · refine ⟨PendingLoop.inList_putWrites_of_ne htid hne q, ?_⟩
    by_cases hd : l.durability = .exit
    · exact PendingLoop.stored_putWrites_exit hd t q
    · rw [PendingLoop.stored_putWrites hd htid]
      exact or_iff_left fun h => hne h.1.symm

theorem recorded_putWrites_other {l : PendingLoop V} {tid t : String} (hne : t ≠ tid)
    (hnull : t ≠ Const.NULL_TASK_ID) (ws : List (String × PyVal)) (path : String) (q : IdxKind) :
    (l.putWrites tid ws path).Recorded t q ↔ l.Recorded t q := by
  have hd : (l.putWrites tid ws path).durability = l.durability :=
    PendingLoop.durability_step l (.put tid ws path)
  obtain ⟨hin, hstored⟩ := inList_putWrites_other (l := l) hne hnull ws path q
  unfold PendingLoop.Recorded
  rw [hin, hstored, hd]

theorem Memo.put (h : s.Memo c) (hnull : ∀ k, c.child k ≠ Const.NULL_TASK_ID) {tid : String}
    (htid : ∀ k, tid ≠ c.child k) (ws : List (String × PyVal)) (path : String) :
    Memo c { s with loop := s.loop.putWrites tid ws path } := by
  refine ⟨h.stored.putWrites tid ws path, ?_, ?_, ?_, ?_, h.running⟩
  · rw [PendingLoop.saveable_putWrites]
    exact h.saves
  · exact h.entries.putWrites (fun w _ k hk => absurd hk (htid k))
      fun w w' _ _ k hk => absurd hk (htid k)
  · exact fun k v hdone => (inList_putWrites_other (htid k).symm (hnull k) ws path _).1.mpr
      (h.inList k v hdone)
  · exact fun k v hdone => (recorded_putWrites_other (htid k).symm (hnull k) ws path _).mpr
      (h.recorded k v hdone)

theorem done_childEnds (h : s.Memo c) {t : Task} (ht : t ∈ s.running) (ending : ChildEnd)
    (tid : String) {v : PyVal} (hv : s.done tid = some v) :
    (s.childEnds t ending).done tid = some v := by
  have hne : tid ≠ t.id := by
    intro he
    rw [he, (h.running t ht).1] at hv
    cases hv
  show (match ending.result with
    | .ok v' => if tid = t.id then some v' else s.done tid
    | _ => s.done tid) = some v
  split
  · rw [if_neg hne, hv]
  · exact hv

/-- The commit of a called task leaves those of the others. -/
theorem commit_other {l : PendingLoop V} {tid t : String} (hne : t ≠ tid)
    (hnull : t ≠ Const.NULL_TASK_ID) {a : Attempt} {path : String} {q : IdxKind} :
    ((l.commit tid none a path).InList t q ↔ l.InList t q) ∧
      ((l.commit tid none a path).Recorded t q ↔ l.Recorded t q) := by
  unfold PendingLoop.commit
  split
  · exact ⟨Iff.rfl, Iff.rfl⟩
  · exact ⟨(inList_putWrites_other hne hnull _ path q).1, recorded_putWrites_other hne hnull _ path q⟩

/-- A success is in the list, and recorded for the next execution. -/
theorem commit_success {l : PendingLoop V} {tid path : String} (hnull : tid ≠ Const.NULL_TASK_ID)
    (hsaves : ∀ w, l.saveable w = some w) {ending : ChildEnd} {v : PyVal}
    (hres : ending.result = .ok v) :
    (l.commit tid none ending.attempt path).InList tid .applied ∧
      (l.commit tid none ending.attempt path).Recorded tid .applied := by
  obtain ⟨resumes, result⟩ := ending
  cases hres
  have hhas : IdxKind.applied.Has Const.RETURN := IdxKind.applied_has_iff.mpr (by decide)
  have hne : resumes.map (fun v => (Const.RESUME, v)) ++ [(Const.RETURN, v)] ≠ [] := by simp
  have hmem : (Const.RETURN, v) ∈ resumes.map (fun v => (Const.RESUME, v)) ++ [(Const.RETURN, v)] :=
    List.mem_append_right _ (List.mem_singleton_self _)
  have hcommit : l.commit tid none (ChildEnd.mk resumes (.ok v)).attempt path =
      l.putWrites tid (resumes.map (fun v => (Const.RESUME, v)) ++ [(Const.RETURN, v)]) path := by
    simp [PendingLoop.commit, commitWrites, ChildEnd.attempt]
  rw [hcommit]
  have hin : (l.putWrites tid _ path).InList tid .applied :=
    (PendingLoop.inList_putWrites_self hnull hne .applied).mpr ⟨(Const.RETURN, v), hmem, hhas⟩
  refine ⟨hin, ?_⟩
  by_cases hd : l.durability = .exit
  · exact Or.inr ⟨(PendingLoop.durability_step l (.put tid _ path)).trans hd, hin⟩
  · refine Or.inl ((PendingLoop.stored_putWrites hd hnull _ _).mpr (Or.inr ⟨rfl, (Const.RETURN, v), ?_, hhas⟩))
    exact List.mem_filterMap.mpr ⟨_, hmem, hsaves _⟩

/-- A called task that ends puts its own writes, and is not running any more. -/
theorem Memo.childEnds (h : s.Memo c) (hnull : ∀ k, c.child k ≠ Const.NULL_TASK_ID) {t : Task}
    (ht : t ∈ s.running) (ending : ChildEnd) : (s.childEnds t ending).Memo c := by
  obtain ⟨hnone, j, hj, hid⟩ := h.running t ht
  have hgrow := fun tid v => done_childEnds h ht ending tid (v := v)
  have htnull : t.id ≠ Const.NULL_TASK_ID := hid ▸ hnull j
  have hentries : s.loop.Everywhere (Records c (s.childEnds t ending).done) :=
    Everywhere.mono h.entries fun tid w hw => hw.mono (hgrow tid)
  have hok : ∀ v, ending.result = .ok v → (s.childEnds t ending).done t.id = some v := by
    intro v hv
    show (match ending.result with
      | .ok v' => if t.id = t.id then some v' else s.done t.id
      | _ => s.done t.id) = some v
    rw [hv]
    exact if_pos rfl
  -- a success is the task's own, or was there before
  have hdone : ∀ k v, (s.childEnds t ending).done (c.child k) = some v →
      (c.child k ≠ t.id ∧ s.done (c.child k) = some v) ∨
        c.child k = t.id ∧ ending.result = .ok v := by
    intro k v hv
    rw [CallState.childEnds] at hv
    cases hres : ending.result with
    | ok v' =>
      simp only [hres] at hv
      split at hv
      · exact Or.inr ⟨‹_›, by rw [Option.some.inj hv]⟩
      · exact Or.inl ⟨‹_›, hv⟩
    | _ =>
      simp only [hres] at hv
      have hne : c.child k ≠ t.id := by
        intro he
        rw [he, hnone] at hv
        cases hv
      exact Or.inl ⟨hne, hv⟩
  have hloop : (s.childEnds t ending).loop =
      s.loop.commit t.id none ending.attempt (taskPathStr t.path) := rfl
  refine ⟨?_, ?_, ?_, ?_, ?_, ?_⟩
  · rw [hloop]
    exact h.stored.commit t.id none ending.attempt _
  · rw [hloop, PendingLoop.saveable_commit]
    exact h.saves
  · rw [hloop]
    unfold PendingLoop.commit
    cases hws : commitWrites none ending.attempt with
    | none => exact hentries
    | some ws =>
      refine hentries.putWrites (records_commitWrites hws hok) fun w w' hsave hw => ?_
      rw [h.saves, Option.some.injEq] at hsave
      exact hsave ▸ hw
  · intro k v hv
    rw [hloop]
    rcases hdone k v hv with ⟨hne, hv⟩ | ⟨he, hres⟩
    · exact (commit_other hne (hnull k)).1.mpr (h.inList k v hv)
    · rw [he]
      exact (commit_success htnull h.saves hres).1
  · intro k v hv
    rw [hloop]
    rcases hdone k v hv with ⟨hne, hv⟩ | ⟨he, hres⟩
    · exact (commit_other hne (hnull k)).2.mpr (h.recorded k v hv)
    · rw [he]
      exact (commit_success htnull h.saves hres).2
  · intro r hr
    obtain ⟨hr, hne⟩ := List.mem_filter.mp hr
    obtain ⟨hrnone, i, hi, hrid⟩ := h.running r hr
    refine ⟨?_, i, hi, hrid⟩
    show (match ending.result with
      | .ok v' => if r.id = t.id then some v' else s.done r.id
      | _ => s.done r.id) = none
    split
    · rw [if_neg (of_decide_eq_true hne), hrnone]
    · exact hrnone

theorem Memo.resume (h : s.Memo c) (taskPaths : String → String) : Memo c
    { s with loop := s.loop.restart taskPaths, counter := 0, position := 0, running := [] } := by
  have hsaves : (s.loop.restart taskPaths).saveable = s.loop.saveable := by
    unfold PendingLoop.restart
    split <;> rfl
  have hstored : ∀ k v, s.done (c.child k) = some v →
      (s.loop.restart taskPaths).Stored (c.child k) .applied := by
    intro k v hv
    exact (PendingLoop.stored_restart taskPaths _ _).mpr (h.recorded k v hv)
  refine ⟨h.stored.restart taskPaths, by rw [hsaves]; exact h.saves,
    h.entries.restart h.stored taskPaths, ?_, ?_, fun t ht => absurd ht List.not_mem_nil⟩
  · exact fun k v hv => (PendingLoop.inList_restart h.stored taskPaths _ _).mpr (hstored k v hv)
  · exact fun k v hv => Or.inl (hstored k v hv)

theorem Memo.step (h : s.Memo c) (hnull : ∀ k, c.child k ≠ Const.NULL_TASK_ID) {e : CallEvent}
    (hok : s.CallsOnce c e) (hstep : s.step c e = some s') :
    s'.Memo c ∧ ∀ tid v, s.done tid = some v → s'.done tid = some v := by
  cases e with
  | attempt =>
    cases hstep
    exact ⟨⟨h.stored, h.saves, h.entries, h.inList, h.recorded, h.running⟩, fun _ _ hv => hv⟩
  | call input =>
    cases hstep
    have hcall := h.call hok input
    cases hdone : s.done (c.child s.position) with
    | some v =>
      rw [hdone] at hcall
      simp only at hcall
      rw [hcall]
      refine ⟨⟨h.stored, h.saves, h.entries, h.inList, h.recorded, fun t ht => ?_⟩, fun _ _ hv => hv⟩
      obtain ⟨hnone, j, hj, hid⟩ := h.running t ht
      exact ⟨hnone, j, Nat.lt_succ_of_lt hj, hid⟩
    | none =>
      rw [hdone] at hcall
      simp only at hcall
      rw [hcall]
      refine ⟨⟨h.stored, h.saves, h.entries, h.inList, h.recorded, fun t ht => ?_⟩, fun _ _ hv => hv⟩
      rcases List.mem_append.mp ht with ht | ht
      · obtain ⟨hnone, j, hj, hid⟩ := h.running t ht
        exact ⟨hnone, j, Nat.lt_succ_of_lt hj, hid⟩
      · have hid : t.id = c.child s.position := by
          rw [List.mem_singleton.mp ht, ← childId_counter hok]
          rfl
        refine ⟨by rw [hid]; exact hdone, s.position, ?_, hid⟩
        show s.position < s.counter + 1
        rw [show s.counter = s.position from hok]
        exact Nat.lt_succ_self _
  | childEnds tid ending =>
    obtain ⟨t, ht, rfl⟩ := Option.map_eq_some_iff.mp hstep
    have hmem := List.mem_of_find?_eq_some ht
    exact ⟨h.childEnds hnull hmem ending, fun tid v => done_childEnds h hmem ending tid⟩
  | put tid ws path =>
    cases hstep
    exact ⟨h.put hnull hok ws path, fun _ _ hv => hv⟩
  | resume taskPaths =>
    cases hstep
    exact ⟨h.resume taskPaths, fun _ _ hv => hv⟩

theorem memo_start {l : PendingLoop V} (hspecs : l.channels.values.any Channel.isUntracked = false)
    (hmem : l.checkpointPendingWrites = []) (hsaver : l.saver.writesAt l.checkpointId = ∅) :
    (start l).Memo c := by
  refine ⟨PendingLoop.wellStored_of_writesAt hsaver, ?_, ⟨?_, ?_⟩, nofun, nofun,
    fun t ht => absurd ht List.not_mem_nil⟩
  · intro w
    show l.saveable w = some w
    rw [PendingLoop.saveable, hspecs, if_neg Bool.false_ne_true]
  · intro w hw
    rw [show (start l).loop.checkpointPendingWrites = [] from hmem] at hw
    cases hw
  · intro k cv hk
    rw [show (start l).loop = l from rfl, InMemorySaver.slotsAt, hsaver] at hk
    cases hk

/-- In every history of an entrypoint or task whose executions call in one attempt
    each, the calls at one position are one task. Once it has returned a value, every
    later call gets that value; no call gets another one, and a task that runs is
    not started again. -/
theorem calls_memoised (c : Caller) (hids : Function.Injective c.child)
    (hnull : ∀ k, c.child k ≠ Const.NULL_TASK_ID) {l : PendingLoop V}
    (hspecs : l.channels.values.any Channel.isUntracked = false)
    (hmem : l.checkpointPendingWrites = []) (hsaver : l.saver.writesAt l.checkpointId = ∅)
    {s s' : CallState V} (h : Machine.Reachable (step c) (CallsOnce c) (start l) s)
    (h' : Machine.Reachable (step c) (CallsOnce c) s s') (input : PyVal)
    (hcall : s'.CallsOnce c (.call input)) :
    (s'.acceptPush c input).id = c.child s'.position ∧
      (∀ v, s.done (c.child s'.position) = some v → (s'.call c input).1 = .returned v) ∧
      (∀ v, (s'.call c input).1 = .returned v → s'.done (c.child s'.position) = some v) ∧
      ∀ t ∈ s'.running, t.id = (s'.acceptPush c input).id → (s'.call c input).1 = .joined t := by
  have hs : s.Memo c := h.invariant (memo_start hspecs hmem hsaver)
    fun s e s' hs hok hstep => (hs.step hnull hok hstep).1
  obtain ⟨hs', hgrow⟩ : s'.Memo c ∧ ∀ tid v, s.done tid = some v → s'.done tid = some v :=
    h'.invariant (P := fun t => t.Memo c ∧ ∀ tid v, s.done tid = some v → t.done tid = some v)
      ⟨hs, fun _ _ hv => hv⟩ fun t e t' ht hok hstep =>
        have hnext := ht.1.step hnull hok hstep
        ⟨hnext.1, fun tid v hv => hnext.2 tid v (ht.2 tid v hv)⟩
  have hid : (s'.acceptPush c input).id = c.child s'.position := childId_counter hcall
  have hresult := hs'.call hcall input
  refine ⟨hid, ?_, ?_, ?_⟩
  · intro v hv
    rw [hresult, hgrow _ v hv]
  · intro v hv
    rw [hresult] at hv
    cases hdone : s'.done (c.child s'.position) with
    | none =>
      rw [hdone] at hv
      cases hv
    | some v' =>
      rw [hdone] at hv
      cases hv
      rfl
  · -- the tasks that run are those of earlier positions
    intro t ht htid
    obtain ⟨-, j, hj, hjid⟩ := hs'.running t ht
    have hkj : j = s'.position := hids (hjid.symm.trans (htid.trans hid))
    rw [hkj, show s'.counter = s'.position from hcall] at hj
    exact absurd hj (lt_irrefl _)

end CallState

/-! ## An entrypoint that is retried -/

/-- The channels of an entrypoint. -/
def entrypointChannels : OrdDict String Channel := .ofList
  [("__start__", .ephemeralValue ⟨"__start__", true, none⟩), ("__end__", .lastValue ⟨"__end__", none⟩),
    ("__previous__", .lastValue ⟨"__previous__", none⟩)]

def entrypointLoop : PendingLoop Nat where
  specs := entrypointChannels
  channels := entrypointChannels
  durability := .sync
  checkpointId := "1"
  checkpointPendingWrites := []
  saver := freshLoop.saver

/-- An entrypoint that calls the task `f` again and again. -/
def entrypoint : Caller where
  ctx := ⟨∅, ∅, "entry:id", fun _ s => s⟩
  checkpointId := "1"
  step := 0
  path := [.str Const.PULL, .str "entry"]
  funcs := fun _ => "f"

theorem entrypoint_child (k : Nat) :
    entrypoint.child k = "entry:id|f0f__pregel_push~__pregel_pull, entry" ++ toString k := by
  show String.join [_, _, _, _, _] ++ toString k = _
  congr 1

theorem entrypoint_child_injective : Function.Injective entrypoint.child := by
  intro j k h
  rw [entrypoint_child, entrypoint_child] at h
  have hlist := congrArg String.toList h
  rw [String.toList_append, String.toList_append] at hlist
  exact toString_nat_inj (String.toList_inj.mp (List.append_cancel_left hlist))

theorem entrypoint_child_ne_null (k : Nat) : entrypoint.child k ≠ Const.NULL_TASK_ID := by
  intro h
  rw [entrypoint_child] at h
  have hhead := congrArg (fun s => s.toList.head?) h
  simp only [String.toList_append] at hhead
  rw [List.head?_append_of_ne_nil _ (by decide)] at hhead
  revert hhead
  decide

/-- The task returns a value, the entrypoint fails and is run again by another process. -/
def failedEntrypoint : List CallEvent :=
  [.call .none, .childEnds (entrypoint.child 0) ⟨[], .ok (.int 7)⟩, .put "entry" [(Const.ERROR, .none)] "",
    .resume fun _ => ""]

/-- The new process gets the value from its first call. -/
theorem failedEntrypoint_returns : ∃ s : CallState Nat,
    Machine.run (CallState.step entrypoint) (CallState.start entrypointLoop) failedEntrypoint = some s ∧
      s.position = 0 ∧ (s.call entrypoint .none).1 = .returned (.int 7) := by
  have hrun : (Machine.run (CallState.step entrypoint) (CallState.start entrypointLoop)
      failedEntrypoint).map (fun s => (s.counter, s.position, s.done (entrypoint.child 0))) =
        some (0, 0, some (.int 7)) := by decide +kernel
  obtain ⟨s, hs, hf⟩ := Option.map_eq_some_iff.mp hrun
  obtain ⟨hcounter, hf⟩ := Prod.mk.inj hf
  obtain ⟨hposition, hdone⟩ := Prod.mk.inj hf
  have hmeets : Machine.Meets (CallState.step entrypoint) (CallState.CallsOnce entrypoint)
      (CallState.start entrypointLoop) failedEntrypoint := by
    have hput : ∀ k, "entry" ≠ entrypoint.child k := by
      intro k h
      have hlength := congrArg String.length h
      rw [entrypoint_child, String.length_append] at hlength
      have hprefix : "entry".length < "entry:id|f0f__pregel_push~__pregel_pull, entry".length := by
        decide
      omega
    exact ⟨rfl, fun _ _ => ⟨trivial, fun _ _ => ⟨hput, fun _ _ => ⟨trivial, fun _ _ => trivial⟩⟩⟩⟩
  have hreach := Machine.Reachable.of_run hmeets hs
  refine ⟨s, hs, hposition, ?_⟩
  have hk : s.counter = s.position := hcounter.trans hposition.symm
  refine (CallState.calls_memoised entrypoint entrypoint_child_injective entrypoint_child_ne_null
    (by decide) rfl rfl hreach .start .none hk).2.1 (.int 7) ?_
  rw [hposition]
  exact hdone

/-- The id of a task that the call starts. -/
def CallResult.startedId : CallResult → Option String
  | .started t => some t.id
  | _ => none

theorem CallResult.startedId_eq_some {r : CallResult} {tid : String} (h : r.startedId = some tid) :
    ∃ t, r = .started t ∧ t.id = tid := by
  cases r with
  | started t => exact ⟨t, rfl, Option.some.inj h⟩
  | _ => cases h

/-- In the second attempt of one execution the first call is another task: it is
    started although the task of the first call has returned, or still runs. -/
theorem calls_memoised_fails :
    (∃ s : CallState Nat, Machine.run (CallState.step entrypoint) (CallState.start entrypointLoop)
        [.call .none, .childEnds (entrypoint.child 0) ⟨[], .ok (.int 7)⟩, .attempt] = some s ∧
      s.position = 0 ∧ s.done (entrypoint.child 0) = some (.int 7) ∧
      ∃ t, (s.call entrypoint .none).1 = .started t ∧ t.id = entrypoint.child 1) ∧
    ∃ s : CallState Nat, Machine.run (CallState.step entrypoint) (CallState.start entrypointLoop)
        [.call .none, .attempt] = some s ∧
      s.position = 0 ∧ s.running.map Task.id = [entrypoint.child 0] ∧
      ∃ t, (s.call entrypoint .none).1 = .started t ∧ t.id = entrypoint.child 1 := by
  have hreturned : (Machine.run (CallState.step entrypoint) (CallState.start entrypointLoop)
      [.call .none, .childEnds (entrypoint.child 0) ⟨[], .ok (.int 7)⟩, .attempt]).map
        (fun s => (s.position, s.done (entrypoint.child 0),
          (s.call entrypoint .none).1.startedId)) =
      some (0, some (.int 7), some (entrypoint.child 1)) := by decide +kernel
  have hruns : (Machine.run (CallState.step entrypoint) (CallState.start entrypointLoop)
      [.call .none, .attempt]).map (fun s => (s.position, s.running.map Task.id,
        (s.call entrypoint .none).1.startedId)) =
      some (0, [entrypoint.child 0], some (entrypoint.child 1)) := by decide +kernel
  obtain ⟨s, hs, hf⟩ := Option.map_eq_some_iff.mp hreturned
  obtain ⟨hposition, hf⟩ := Prod.mk.inj hf
  obtain ⟨s', hs', hf'⟩ := Option.map_eq_some_iff.mp hruns
  obtain ⟨hposition', hf'⟩ := Prod.mk.inj hf'
  exact ⟨⟨s, hs, hposition, (Prod.mk.inj hf).1, CallResult.startedId_eq_some (Prod.mk.inj hf).2⟩,
    ⟨s', hs', hposition', (Prod.mk.inj hf').1, CallResult.startedId_eq_some (Prod.mk.inj hf').2⟩⟩

end LangGraph
