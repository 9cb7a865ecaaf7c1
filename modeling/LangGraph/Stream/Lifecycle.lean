import LangGraph.Lib.OrdDict
import Mathlib.Data.String.Basic

/- Subgraph lifecycle inferred from `tasks` events, and the `lifecycle` channel.

   Correspondence (source ↔ Lean):
     `_parse_ns_segment`                    ↔ `parseNsSegment`
     `_terminal_from_result`                ↔ `terminalFromResult`
     `_status_from_exception`               ↔ `statusFromException`
     `_TasksLifecycleBase` (its fields)     ↔ `TasksLifecycle`
     `_record_pending_tool_calls`           ↔ `recordPendingToolCalls`
     `_handle_task_start`                   ↔ `handleTaskStart`
     `_pop_terminal_transitions`            ↔ `popTerminalTransitions`
     `LifecycleTransformer`                 ↔ `LifecycleTransformer`
   `_handle_task_start` returns the arguments of its `_on_started` together with
   `_pending_cause`. `_lc_by_ns`, which nothing here reads, is left out, and so are
   the events of other methods, which change nothing. The async lane of
   `LifecycleTransformer` is the default, which calls the same functions.

   `statuses_process` and `statuses_sweep` say what an event and the end of the
   run do to the statuses that the channel has shown of each namespace; by
   `Sound` these are none, `started`, or `started` and one terminal status. -/
namespace LangGraph.Stream

abbrev Namespace := List String

inductive SubgraphStatus where
  | started
  | completed
  | failed
  | interrupted
  | drained
  deriving DecidableEq

/-- `segment.partition(":")`: the graph's name, and the task's id where there is a `:`. -/
def parseNsSegment (segment : String) : String × Option String :=
  match segment.toList.dropWhile (· ≠ ':') with
  | [] => (segment, none)
  | _ :: taskId => (String.ofList (segment.toList.takeWhile (· ≠ ':')), some (String.ofList taskId))

/-- The id of the task that runs the subgraph at a namespace. -/
def triggerOf (ns : Namespace) : Option String := ns.getLast?.bind fun segment => (parseNsSegment segment).2

/-- The `input` of a task as `_record_pending_tool_calls` reads it: the ids are `none` where
    they are not strings. -/
inductive TaskInput where
  | toolCallWithContext (id : Option String)
  | toolCalls (ids : List (Option String))
  | other
  deriving DecidableEq

structure TaskStart where
  id : Option String
  input : TaskInput
  /-- `metadata["lc_agent_name"]` -/
  lcAgentName : Option String
  deriving DecidableEq

structure TaskResult where
  id : Option String
  error : Option String
  interrupts : List String
  deriving DecidableEq

inductive TaskPayload where
  | start (data : TaskStart)
  | result (data : TaskResult)
  deriving DecidableEq

/-- A protocol event of the method `tasks`. -/
structure TaskEvent where
  ns : Namespace
  data : TaskPayload
  deriving DecidableEq

/-- What a run ends with when it raises; other exceptions come with their text. -/
inductive RunError where
  | graphDrained
  | graphInterrupt
  | other (text : String)
  deriving DecidableEq

def statusFromException : RunError → SubgraphStatus × Option String
  | .graphDrained => (.drained, none)
  | .graphInterrupt => (.interrupted, none)
  | .other text => (.failed, some text)

def terminalFromResult (payload : TaskResult) : SubgraphStatus × Option String :=
  if payload.interrupts ≠ [] then (.interrupted, none)
  else
    match payload.error with
    | none => (.completed, none)
    | some error => if error = "" then (.completed, none) else (.failed, some error)

theorem terminalFromResult_ne (payload : TaskResult) : (terminalFromResult payload).1 ≠ .started := by
  unfold terminalFromResult
  split
  · exact fun h => nomatch h
  · split
    · exact fun h => nomatch h
    · split <;> exact fun h => nomatch h

theorem statusFromException_ne (err : RunError) : (statusFromException err).1 ≠ .started := by
  cases err <;> exact fun h => nomatch h

/-- The bookkeeping that both transformers share. -/
structure TasksLifecycle where
  scope : Namespace
  seen : List Namespace
  /-- `_open`: tracked namespace to the id of the task whose result closes it. -/
  opened : OrdDict Namespace String
  pendingToolCalls : OrdDict String String
  deriving DecidableEq

/-- The arguments of `_on_started`, with `_pending_cause` (the id of a tool call). -/
structure Started where
  ns : Namespace
  graphName : Option String
  triggerCallId : Option String
  cause : Option String
  deriving DecidableEq

/-- The arguments of `_on_terminal`. -/
structure Terminal where
  ns : Namespace
  status : SubgraphStatus
  error : Option String
  deriving DecidableEq

namespace TasksLifecycle

def init (scope : Namespace) : TasksLifecycle := ⟨scope, [], ∅, ∅⟩

variable (t : TasksLifecycle)

def toolCallIdOf : TaskInput → Option String
  | .toolCallWithContext id => id
  | .toolCalls ids => ids.findSome? id
  | .other => none

def recordPendingToolCalls (data : TaskStart) : TasksLifecycle :=
  match data.id, toolCallIdOf data.input with
  | some taskId, some toolCallId =>
    { t with pendingToolCalls := t.pendingToolCalls.set taskId toolCallId }
  | _, _ => t

def causeOf (data : TaskStart) (triggerCallId : Option String) : Option String :=
  if data.lcAgentName.isSome then
    (triggerCallId.bind t.pendingToolCalls.get?).filter (· ≠ "")
  else none

def startedOf (ns : Namespace) (data : TaskStart) : Started where
  ns := ns
  graphName :=
    match data.lcAgentName with
    | some name => some name
    | none => (ns.getLast?.map fun segment => (parseNsSegment segment).1).filter (· ≠ "")
  triggerCallId := triggerOf ns
  cause := t.causeOf data (triggerOf ns)

/-- `track` is the hook `_should_track`. -/
def handleTaskStart (track : Namespace → Bool) (ns : Namespace) (data : TaskStart) :
    TasksLifecycle × Option Started :=
  if track ns = false ∨ ns ∈ t.seen then (t, none)
  else
    match triggerOf ns with
    | none => ({ t with seen := t.seen ++ [ns] }, some (t.startedOf ns data))
    | some triggerCallId =>
      ({ t with seen := t.seen ++ [ns], opened := t.opened.set ns triggerCallId },
        some (t.startedOf ns data))

/-- Whether the result of the task `id` at `ns` closes the namespace of an entry of `_open`. -/
def closes (ns : Namespace) (id : Option String) (e : Namespace × String) : Bool :=
  id.any (· ≠ "") && e.1.dropLast = ns && id = some e.2

def popTerminalTransitions (ns : Namespace) (data : TaskResult) : TasksLifecycle × List Terminal :=
  ({ t with opened := t.opened.filterMap fun c i => if closes ns data.id (c, i) then none else some i },
    (t.opened.entries.filter (closes ns data.id)).map fun e =>
      ⟨e.1, (terminalFromResult data).1, (terminalFromResult data).2⟩)

end TasksLifecycle

/-- An item of the channel; the optional keys are `none` where they are not set. -/
structure LifecyclePayload where
  event : SubgraphStatus
  ns : Namespace
  graphName : Option String
  triggerCallId : Option String
  cause : Option String
  error : Option String
  deriving DecidableEq

structure LifecycleTransformer where
  base : TasksLifecycle
  channel : List LifecyclePayload
  deriving DecidableEq

namespace LifecycleTransformer

def init (scope : Namespace) : LifecycleTransformer := ⟨.init scope, []⟩

/-- Every depth strictly below the scope. -/
def shouldTrack (scope ns : Namespace) : Bool := scope.length < ns.length ∧ ns.take scope.length = scope

def onStarted (l : LifecycleTransformer) (s : Started) : LifecycleTransformer :=
  match s.triggerCallId with
  | none => l
  | some id =>
    { l with channel := l.channel ++
        [⟨.started, s.ns, s.graphName.filter (· ≠ ""), some id, s.cause, none⟩] }

def onTerminal (l : LifecycleTransformer) (t : Terminal) : LifecycleTransformer :=
  { l with channel := l.channel ++ [⟨t.status, t.ns, none, none, none, t.error⟩] }

def process (l : LifecycleTransformer) (event : TaskEvent) : LifecycleTransformer :=
  match event.data with
  | .start data =>
    let (base, started) := (l.base.recordPendingToolCalls data).handleTaskStart
      (shouldTrack l.base.scope) event.ns data
    started.elim { l with base } fun s => onStarted { l with base } s
  | .result data =>
    let (base, transitions) := l.base.popTerminalTransitions event.ns data
    transitions.foldl onTerminal { l with base }

/-- The loop of `finalize` and of `fail` over what is still open. -/
def sweep (l : LifecycleTransformer) (status : SubgraphStatus) (error : Option String) :
    LifecycleTransformer :=
  let swept := (l.base.opened.keys.map fun ns => ⟨ns, status, error⟩).foldl onTerminal l
  { swept with base := { swept.base with opened := ∅ } }

def finalize (l : LifecycleTransformer) : LifecycleTransformer := l.sweep .completed none

def fail (l : LifecycleTransformer) (err : RunError) : LifecycleTransformer :=
  l.sweep (statusFromException err).1 (statusFromException err).2

/-- The statuses that the channel has shown of a namespace, in order. -/
def statuses (l : LifecycleTransformer) (ns : Namespace) : List SubgraphStatus :=
  (l.channel.filter (·.ns = ns)).map LifecyclePayload.event

/-! What an event does to the statuses of a namespace. -/

theorem statuses_onTerminals (ns : Namespace) : ∀ (ts : List Terminal) (l : LifecycleTransformer),
    (ts.foldl onTerminal l).statuses ns =
      l.statuses ns ++ (ts.filter (·.ns = ns)).map Terminal.status
  | [], l => by simp
  | t :: ts, l => by
    rw [List.foldl_cons, statuses_onTerminals ns ts]
    by_cases ht : t.ns = ns
    · simp [statuses, onTerminal, ht]
    · simp [statuses, onTerminal, ht]

theorem base_onTerminals : ∀ (ts : List Terminal) (l : LifecycleTransformer),
    (ts.foldl onTerminal l).base = l.base
  | [], _ => rfl
  | t :: ts, l => base_onTerminals ts (l.onTerminal t)

/-- The bookkeeping and the channel together: a namespace is in `_open` between its `started`
    and its terminal event. -/
structure Sound (l : LifecycleTransformer) : Prop where
  trigger : ∀ ns i, l.base.opened.get? ns = some i → triggerOf ns = some i
  tracked : ∀ ns ∈ l.base.seen, shouldTrack l.base.scope ns = true
  fresh : ∀ ns, ns ∉ l.base.seen → l.statuses ns = [] ∧ l.base.opened.get? ns = none
  untriggered : ∀ ns, triggerOf ns = none → l.statuses ns = []
  started : ∀ ns ∈ l.base.seen, triggerOf ns ≠ none →
    l.statuses ns = [.started] ∧ l.base.opened.get? ns = triggerOf ns ∨
      ∃ st, st ≠ .started ∧ l.statuses ns = [.started, st] ∧ l.base.opened.get? ns = none

theorem sound_init (scope : Namespace) : (init scope).Sound where
  trigger := fun _ _ h => nomatch h
  tracked := fun _ h => nomatch h
  fresh := fun _ _ => ⟨rfl, rfl⟩
  untriggered := fun _ _ => rfl
  started := fun _ h => nomatch h

variable {l : LifecycleTransformer}

theorem Sound.opened_eq_some_iff (h : l.Sound) {ns : Namespace} {i : String} :
    l.base.opened.get? ns = some i ↔ l.statuses ns = [.started] ∧ triggerOf ns = some i := by
  constructor
  · intro hi
    have htrigger := h.trigger ns i hi
    have hseen : ns ∈ l.base.seen := by
      by_contra hseen
      rw [(h.fresh ns hseen).2] at hi
      exact nomatch hi
    rcases h.started ns hseen (htrigger ▸ fun h => nomatch h) with ⟨hst, -⟩ | ⟨_, -, -, hnone⟩
    · exact ⟨hst, htrigger⟩
    · rw [hnone] at hi
      exact nomatch hi
  · intro ⟨hst, hi⟩
    have hseen : ns ∈ l.base.seen := by
      by_contra hseen
      rw [(h.fresh ns hseen).1] at hst
      exact nomatch hst
    rcases h.started ns hseen (hi ▸ fun h => nomatch h) with ⟨-, hopen⟩ | ⟨_, -, hst', -⟩
    · rw [hopen, hi]
    · rw [hst] at hst'
      exact nomatch hst'

/-- Each namespace is started once and ended once, after its start. -/
theorem Sound.statuses_cases (h : l.Sound) (ns : Namespace) : l.statuses ns = [] ∨
    l.statuses ns = [.started] ∨ ∃ st, st ≠ .started ∧ l.statuses ns = [.started, st] := by
  by_cases hseen : ns ∈ l.base.seen
  · by_cases htrigger : triggerOf ns = none
    · exact .inl (h.untriggered ns htrigger)
    · rcases h.started ns hseen htrigger with ⟨hst, -⟩ | ⟨st, hne, hst, -⟩
      · exact .inr (.inl hst)
      · exact .inr (.inr ⟨st, hne, hst⟩)
  · exact .inl (h.fresh ns hseen).1

theorem Sound.statuses_eq_nil_iff (h : l.Sound) {ns : Namespace} (htrigger : triggerOf ns ≠ none) :
    l.statuses ns = [] ↔ ns ∉ l.base.seen := by
  constructor
  · intro hst hseen
    rcases h.started ns hseen htrigger with ⟨hst', -⟩ | ⟨_, -, hst', -⟩
    · rw [hst] at hst'
      exact nomatch hst'
    · rw [hst] at hst'
      exact nomatch hst'
  · exact fun hseen => (h.fresh ns hseen).1

theorem Sound.tracked_of_statuses (h : l.Sound) {ns : Namespace} (hst : l.statuses ns ≠ []) :
    shouldTrack l.base.scope ns = true := by
  by_contra htrack
  exact hst (h.fresh ns fun hseen => htrack (h.tracked ns hseen)).1

theorem Sound.of_base {b : TasksLifecycle} (h : l.Sound) (hscope : b.scope = l.base.scope)
    (hseen : b.seen = l.base.seen) (hopened : b.opened = l.base.opened) :
    ({ l with base := b } : LifecycleTransformer).Sound where
  trigger := by simp only [hopened]; exact h.trigger
  tracked := by simp only [hseen, hscope]; exact h.tracked
  fresh := by simp only [hseen, hopened]; exact h.fresh
  untriggered := h.untriggered
  started := by simp only [hseen, hopened]; exact h.started

/-! The start of a task. -/

@[simp] theorem scope_recordPending (t : TasksLifecycle) (data : TaskStart) :
    (t.recordPendingToolCalls data).scope = t.scope := by
  unfold TasksLifecycle.recordPendingToolCalls
  split <;> rfl

@[simp] theorem seen_recordPending (t : TasksLifecycle) (data : TaskStart) :
    (t.recordPendingToolCalls data).seen = t.seen := by
  unfold TasksLifecycle.recordPendingToolCalls
  split <;> rfl

@[simp] theorem opened_recordPending (t : TasksLifecycle) (data : TaskStart) :
    (t.recordPendingToolCalls data).opened = t.opened := by
  unfold TasksLifecycle.recordPendingToolCalls
  split <;> rfl

/-- The state after a start event that finds nothing new. -/
theorem process_start_of_known {ns : Namespace} (data : TaskStart)
    (h : shouldTrack l.base.scope ns = false ∨ ns ∈ l.base.seen) :
    l.process ⟨ns, .start data⟩ = { l with base := l.base.recordPendingToolCalls data } := by
  have hcond : shouldTrack l.base.scope ns = false ∨
      ns ∈ (l.base.recordPendingToolCalls data).seen := by rwa [seen_recordPending]
  simp only [process, TasksLifecycle.handleTaskStart, if_pos hcond, Option.elim_none]

/-- The state after a start event that finds a namespace with a task's id, or without. -/
theorem process_start_of_new {ns : Namespace} (data : TaskStart)
    (htrack : shouldTrack l.base.scope ns = true) (hseen : ns ∉ l.base.seen) :
    (l.process ⟨ns, .start data⟩).base.scope = l.base.scope ∧
    (l.process ⟨ns, .start data⟩).base.seen = l.base.seen ++ [ns] ∧
    (l.process ⟨ns, .start data⟩).base.opened =
      (triggerOf ns).elim l.base.opened (l.base.opened.set ns) ∧
    ∀ c, (l.process ⟨ns, .start data⟩).statuses c =
      if c = ns ∧ triggerOf ns ≠ none then l.statuses c ++ [.started] else l.statuses c := by
  have hcond : ¬(shouldTrack l.base.scope ns = false ∨
      ns ∈ (l.base.recordPendingToolCalls data).seen) := by simp [htrack, hseen]
  simp only [process, TasksLifecycle.handleTaskStart, if_neg hcond]
  cases htrigger : triggerOf ns with
  | none =>
    simp [onStarted, TasksLifecycle.startedOf, htrigger]
    exact fun c => rfl
  | some i =>
    simp only [Option.elim_some, onStarted, TasksLifecycle.startedOf, htrigger, scope_recordPending,
      seen_recordPending, opened_recordPending, true_and]
    intro c
    by_cases hc : c = ns
    · simp [statuses, hc]
    · have hne : ns ≠ c := fun h => hc h.symm
      simp [statuses, hc, hne]

theorem Sound.statuses_start (h : l.Sound) (ns : Namespace) (data : TaskStart) (c : Namespace) :
    (l.process ⟨ns, .start data⟩).statuses c =
      if c = ns ∧ shouldTrack l.base.scope ns = true ∧ l.statuses ns = [] ∧ triggerOf ns ≠ none then
        [.started]
      else l.statuses c := by
  by_cases hnew : shouldTrack l.base.scope ns = true ∧ ns ∉ l.base.seen
  · obtain ⟨htrack, hseen⟩ := hnew
    rw [(process_start_of_new data htrack hseen).2.2.2 c]
    have hfresh := (h.fresh ns hseen).1
    by_cases hc : c = ns ∧ triggerOf ns ≠ none
    · rw [if_pos hc, if_pos ⟨hc.1, htrack, hfresh, hc.2⟩, hc.1, hfresh]
      rfl
    · rw [if_neg hc, if_neg fun hc' => hc ⟨hc'.1, hc'.2.2.2⟩]
  · rw [process_start_of_known data]
    · rw [if_neg]
      · rfl
      · intro hc
        exact hnew ⟨hc.2.1, (h.statuses_eq_nil_iff hc.2.2.2).mp hc.2.2.1⟩
    · by_cases htrack : shouldTrack l.base.scope ns = true
      · exact .inr (by_contra fun hseen => hnew ⟨htrack, hseen⟩)
      · exact .inl (Bool.not_eq_true _ ▸ htrack)

theorem Sound.start (h : l.Sound) (ns : Namespace) (data : TaskStart) :
    (l.process ⟨ns, .start data⟩).Sound := by
  by_cases hknown : shouldTrack l.base.scope ns = false ∨ ns ∈ l.base.seen
  · rw [process_start_of_known data hknown]
    exact h.of_base (scope_recordPending _ data) (seen_recordPending _ data)
      (opened_recordPending _ data)
  have htrack : shouldTrack l.base.scope ns = true := by
    by_contra htrack
    exact hknown (.inl (Bool.not_eq_true _ ▸ htrack))
  have hseen : ns ∉ l.base.seen := fun hseen => hknown (.inr hseen)
  obtain ⟨hscope, hseen', hopened, hstatuses⟩ := process_start_of_new data htrack hseen
  have hfresh := h.fresh ns hseen
  have hget : ∀ c, (l.process ⟨ns, .start data⟩).base.opened.get? c =
      if c = ns then triggerOf ns else l.base.opened.get? c := by
    intro c
    rw [hopened]
    cases htrigger : triggerOf ns with
    | none =>
      by_cases hc : c = ns
      · rw [if_pos hc, hc, Option.elim_none, hfresh.2]
      · rw [if_neg hc, Option.elim_none]
    | some i => rw [Option.elim_some, OrdDict.get?_set]
  refine ⟨?_, ?_, ?_, ?_, ?_⟩
  · intro c i hi
    rw [hget] at hi
    split at hi
    · rename_i hc
      rw [hc, hi]
    · exact h.trigger c i hi
  · intro c hc
    rw [hscope]
    rw [hseen'] at hc
    rcases List.mem_append.mp hc with hc | hc
    · exact h.tracked c hc
    · rw [List.mem_singleton.mp hc]
      exact htrack
  · intro c hc
    rw [hseen', List.mem_append, List.mem_singleton, not_or] at hc
    rw [hstatuses, hget, if_neg fun hc' => hc.2 hc'.1, if_neg hc.2]
    exact h.fresh c hc.1
  · intro c hc
    rw [hstatuses, if_neg fun hc' => hc'.2 (hc'.1 ▸ hc)]
    exact h.untriggered c hc
  · intro c hc htrigger
    rw [hstatuses, hget]
    by_cases hcn : c = ns
    · subst hcn
      rw [if_pos ⟨rfl, htrigger⟩, if_pos rfl, hfresh.1]
      exact .inl ⟨rfl, rfl⟩
    · rw [if_neg fun hc' => hcn hc'.1, if_neg hcn]
      rw [hseen', List.mem_append, List.mem_singleton] at hc
      exact h.started c (hc.resolve_right hcn) htrigger

/-! The result of a task, and the end of the run. -/

/-- Terminal events of some open namespaces, which leave `_open`. -/
theorem Sound.close (h : l.Sound) {p : Namespace × String → Bool} {st : SubgraphStatus}
    {error : Option String} {l' : LifecycleTransformer} (hne : st ≠ .started)
    (hscope : l'.base.scope = l.base.scope) (hseen : l'.base.seen = l.base.seen)
    (hopened : ∀ c, l'.base.opened.get? c =
      (l.base.opened.get? c).filter fun i => !p (c, i))
    (hstatuses : ∀ c, l'.statuses c = (((l.base.opened.entries.filter p).map fun e =>
      (⟨e.1, st, error⟩ : Terminal)).foldl onTerminal l).statuses c) :
    l'.Sound ∧ ∀ c, l'.statuses c =
      if l.statuses c = [.started] ∧ ∃ i, triggerOf c = some i ∧ p (c, i) = true then [.started, st]
      else l.statuses c := by
  have hshape : ∀ c, l'.statuses c = l.statuses c ++
      ((l.base.opened.get? c).filter fun i => p (c, i)).toList.map fun _ => st := by
    intro c
    rw [hstatuses, statuses_onTerminals]
    congr 1
    rw [List.filter_map, List.map_map]
    have hkey : (l.base.opened.entries.filter p).filter
        ((fun t : Terminal => decide (t.ns = c)) ∘ fun e => ⟨e.1, st, error⟩) =
          (((l.base.opened.get? c).toList.map (c, ·)).filter p) := by
      rw [← OrdDict.filter_entries_key, List.filter_filter, List.filter_filter]
      apply List.filter_congr
      intro e _
      exact Bool.and_comm _ _
    rw [hkey]
    cases l.base.opened.get? c with
    | none => rfl
    | some i => by_cases hp : p (c, i) = true <;> simp [hp, Option.filter]
  have heffect : ∀ c, l'.statuses c =
      if l.statuses c = [.started] ∧ ∃ i, triggerOf c = some i ∧ p (c, i) = true then [.started, st]
      else l.statuses c := by
    intro c
    rw [hshape]
    cases hget : l.base.opened.get? c with
    | none =>
      rw [if_neg]
      · simp
      · intro ⟨hst, i, hi, _⟩
        rw [h.opened_eq_some_iff.mpr ⟨hst, hi⟩] at hget
        exact nomatch hget
    | some i =>
      obtain ⟨hst, hi⟩ := h.opened_eq_some_iff.mp hget
      by_cases hp : p (c, i) = true
      · rw [if_pos ⟨hst, i, hi, hp⟩, hst]
        simp [Option.filter, hp]
      · rw [if_neg]
        · simp [Option.filter, hp]
        · intro ⟨_, j, hj, hpj⟩
          rw [hi, Option.some.injEq] at hj
          exact hp (hj ▸ hpj)
  refine ⟨⟨?_, ?_, ?_, ?_, ?_⟩, heffect⟩
  · intro c i hi
    rw [hopened, Option.filter_eq_some_iff] at hi
    exact h.trigger c i hi.1
  · rw [hseen, hscope]
    exact h.tracked
  · intro c hc
    rw [hseen] at hc
    rw [heffect, hopened, (h.fresh c hc).2, (h.fresh c hc).1]
    exact ⟨if_neg fun hst => (nomatch hst.1), rfl⟩
  · intro c hc
    rw [heffect, h.untriggered c hc]
    exact if_neg fun hst => (nomatch hst.1)
  · intro c hc htrigger
    rw [hseen] at hc
    rw [heffect, hopened]
    rcases h.started c hc htrigger with ⟨hst, hopen⟩ | ⟨st', hne', hst, hopen⟩
    · obtain ⟨i, hi⟩ := Option.ne_none_iff_exists'.mp htrigger
      rw [hopen, hi, hst]
      by_cases hp : p (c, i) = true
      · right
        exact ⟨st, hne, if_pos ⟨rfl, i, rfl, hp⟩, by simp [Option.filter, hp]⟩
      · left
        refine ⟨if_neg ?_, by simp [Option.filter, hp]⟩
        rintro ⟨-, j, hj, hpj⟩
        exact hp (Option.some.inj hj ▸ hpj)
    · right
      refine ⟨st', hne', ?_, by rw [hopen]; rfl⟩
      rw [hst, if_neg fun h => (nomatch h.1)]

/-- The result of a task ends the namespaces that it closes. -/
theorem Sound.result (h : l.Sound) (ns : Namespace) (data : TaskResult) :
    (l.process ⟨ns, .result data⟩).Sound ∧ ∀ c, (l.process ⟨ns, .result data⟩).statuses c =
      if l.statuses c = [.started] ∧
          ∃ i, triggerOf c = some i ∧ TasksLifecycle.closes ns data.id (c, i) = true then
        [.started, (terminalFromResult data).1]
      else l.statuses c := by
  have hbase : (l.process ⟨ns, .result data⟩).base = (l.base.popTerminalTransitions ns data).1 := by
    rw [process, base_onTerminals]
  refine @Sound.close l h (TasksLifecycle.closes ns data.id) _ (terminalFromResult data).2 _
    (terminalFromResult_ne data) ?_ ?_ ?_ ?_
  · rw [hbase]
    rfl
  · rw [hbase]
    rfl
  · intro c
    rw [hbase, TasksLifecycle.popTerminalTransitions, OrdDict.get?_filterMap]
    cases l.base.opened.get? c with
    | none => rfl
    | some i => by_cases hp : TasksLifecycle.closes ns data.id (c, i) = true <;> simp [hp, Option.filter]
  · intro c
    rw [process, statuses_onTerminals, statuses_onTerminals]
    rfl

/-- `finalize` and `fail` end every namespace that is still open. -/
theorem Sound.sweep (h : l.Sound) {status : SubgraphStatus} (hne : status ≠ .started)
    (error : Option String) : (l.sweep status error).Sound ∧ ∀ c, (l.sweep status error).statuses c =
      if l.statuses c = [.started] then [.started, status] else l.statuses c := by
  have hall : ∀ c, (l.statuses c = [.started] ∧ ∃ i, triggerOf c = some i ∧ true = true) ↔
      l.statuses c = [.started] := by
    intro c
    refine ⟨And.left, fun hst => ⟨hst, ?_⟩⟩
    cases htrigger : triggerOf c with
    | none =>
      rw [h.untriggered c htrigger] at hst
      exact nomatch hst
    | some i => exact ⟨i, rfl, rfl⟩
  have hclose := @Sound.close l h (fun _ => true) status error (l.sweep status error) hne
    (by simp only [LifecycleTransformer.sweep, base_onTerminals])
    (by simp only [LifecycleTransformer.sweep, base_onTerminals])
    (fun c => by
      simp only [LifecycleTransformer.sweep]
      cases l.base.opened.get? c <;> rfl)
    (fun c => by
      rw [statuses_onTerminals]
      show (List.foldl onTerminal l _).statuses c = _
      rw [statuses_onTerminals, List.filter_true, OrdDict.keys, List.map_map]
      rfl)
  refine ⟨hclose.1, fun c => ?_⟩
  rw [hclose.2 c]
  exact if_congr (hall c) rfl rfl

end LifecycleTransformer
end LangGraph.Stream
