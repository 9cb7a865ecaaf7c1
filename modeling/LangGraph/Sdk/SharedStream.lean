import LangGraph.Lib.Machine
import LangGraph.Sdk.Subscription

/- The shared stream of `StreamController` and `AsyncThreadStream`.

   Every subscription reads from one stream, whose filter is the union of their
   filters. A subscriber registers and then has `_reconcile_stream` rotate the
   stream when its filter does not cover the new subscription; the fan-out has
   `_reconnect_shared_stream` open a new one when the transport drops. The two
   are coroutines, and a step of the machine is what one of them does between two
   suspensions.

   Correspondence (source ↔ Lean):
     `_register_subscription`                    ↔ `register`
     `_reconcile_stream`, up to `ready`          ↔ `reconcile`, then `ready`
     `_unregister_subscription`                  ↔ `unregister`
     `_fanout`, when `done` has an error         ↔ `drop`
     `_reconnect_shared_stream`                  ↔ `readFilter`, then `reopen` with
                                                   `reopenReady` or `reopenFailed`
     `_observe_seq`                              ↔ `observe`
     `_compute_current_union`, `_filter_with_since` ↔ `currentUnion`, `openWith`
   A subscriber whose reconcile raises or is cancelled unregisters in its
   `finally`, which is `unregister`. The two clients differ in the filters they
   add to every union. `subscribe` of a closed client registers and unregisters
   at once, while the projections go on; both are steps here.

   What is proved: as long as no reconnect installs a stream whose filter a
   rotation has replaced in the meantime, and no empty list of namespaces meets
   filters that are scoped, the stream covers its subscribers (`stream_covers`). -/
namespace LangGraph.Sdk

/-- A stream with the parameters it was opened with. -/
structure EventStreamHandle where
  id : Nat
  filter : SubscribeParams
  since : Option Int
  deriving DecidableEq

/-- Where a call of `_reconcile_stream` is suspended. -/
inductive ReconcilePhase where
  /-- Before the look at the filter, in `_await_run_start_gate`. -/
  | entered
  /-- In `await new_stream.ready`. -/
  | opening (oldStream : Option EventStreamHandle)
  deriving DecidableEq

/-- Where the fan-out is on its way to a new stream. -/
inductive ReconnectPhase where
  | idle
  | dropped
  | attempting (baseFilter : SubscribeParams) (attempt : Nat)
  | opening (baseFilter : SubscribeParams) (attempt : Nat) (newStream : EventStreamHandle)
  deriving DecidableEq

structure Subscription where
  params : SubscribeParams
  reconciling : Option ReconcilePhase
  deriving DecidableEq

structure SharedStream where
  nextSubscriptionId : Nat
  subscriptions : OrdDict Nat Subscription
  stream : Option EventStreamHandle
  filter : Option SubscribeParams
  /-- How many streams have been opened. -/
  opened : Nat
  reconnect : ReconnectPhase
  rotationCloseTasks : List EventStreamHandle
  cursor : Option Int
  closed : Bool
  deriving DecidableEq

/-- What the two clients set: the filters of every union, and the number of attempts. -/
structure StreamClient where
  always : List SubscribeParams
  maxReconnectAttempts : Nat

def streamController : StreamClient := ⟨[], 5⟩

def asyncThreadStream : StreamClient := ⟨[⟨["lifecycle"], none, none⟩], 5⟩

inductive SharedCall where
  | register (params : SubscribeParams)
  | reconcile (id : Nat)
  | ready (id : Nat)
  | unregister (id : Nat)
  | drop
  | readFilter
  | reopen
  | reopenReady
  | reopenFailed
  | observe (seq : Int)
  | close
  deriving DecidableEq

namespace SharedStream

def init : SharedStream := ⟨1, ∅, none, none, 0, .idle, [], none, false⟩

variable (client : StreamClient) (c : SharedStream)

/-- The filters of `_compute_current_union`, the candidate's included. -/
def filters (candidate : SubscribeParams) : List SubscribeParams :=
  c.subscriptions.values.map Subscription.params ++ [candidate] ++ client.always

def currentUnion (candidate : SubscribeParams) : SubscribeParams :=
  computeUnionFilter (c.filters client candidate)

/-- `open_event_stream(self._filter_with_since(params))` -/
def openWith (params : SubscribeParams) : EventStreamHandle := ⟨c.opened, params, c.cursor⟩

/-- Whether the stream that is there is sufficient. -/
def sufficient (candidate : SubscribeParams) : Bool :=
  c.stream.isSome && c.filter.any fun f => filterCovers f candidate

def setPhase (id : Nat) (params : SubscribeParams) (phase : Option ReconcilePhase) :
    SharedStream :=
  { c with subscriptions := c.subscriptions.set id ⟨params, phase⟩ }

/-- Open a stream with the union and install it, before it is ready. -/
def rotate (id : Nat) (candidate : SubscribeParams) : SharedStream :=
  { c with
    stream := some (c.openWith (c.currentUnion client candidate))
    filter := some (c.currentUnion client candidate)
    opened := c.opened + 1
    subscriptions := c.subscriptions.set id ⟨candidate, some (.opening c.stream)⟩ }

def observeSeq (seq : Int) : Option Int :=
  match c.cursor with
  | none => some seq
  | some cursor => if cursor < seq then some seq else some cursor

def step : SharedCall → Option SharedStream
  | .register params =>
    some { c with
      nextSubscriptionId := c.nextSubscriptionId + 1
      subscriptions := c.subscriptions.set c.nextSubscriptionId ⟨params, some .entered⟩ }
  | .reconcile id =>
    match c.subscriptions.get? id with
    | some ⟨candidate, some .entered⟩ =>
      if c.sufficient candidate then some (c.setPhase id candidate none)
      else some (c.rotate client id candidate)
    | _ => none
  | .ready id =>
    match c.subscriptions.get? id with
    | some ⟨candidate, some (.opening oldStream)⟩ =>
      some { c.setPhase id candidate none with
        rotationCloseTasks := c.rotationCloseTasks ++ oldStream.toList }
    | _ => none
  | .unregister id => some { c with subscriptions := c.subscriptions.erase id }
  | .drop =>
    if c.reconnect = .idle && c.stream.isSome && !c.closed then some { c with reconnect := .dropped }
    else none
  | .readFilter =>
    match c.reconnect, c.filter with
    | .dropped, none => some { c with reconnect := .idle }
    | .dropped, some baseFilter => some { c with reconnect := .attempting baseFilter 0 }
    | _, _ => none
  | .reopen =>
    match c.reconnect with
    | .attempting baseFilter attempt =>
      if attempt < client.maxReconnectAttempts && !c.closed then
        some { c with
          reconnect := .opening baseFilter attempt (c.openWith baseFilter)
          opened := c.opened + 1 }
      else some { c with reconnect := .idle }
    | _ => none
  | .reopenReady =>
    match c.reconnect with
    | .opening _ _ newStream => some { c with stream := some newStream, reconnect := .idle }
    | _ => none
  | .reopenFailed =>
    match c.reconnect with
    | .opening baseFilter attempt _ =>
      some { c with reconnect := .attempting baseFilter (attempt + 1) }
    | _ => none
  | .observe seq => some { c with cursor := c.observeSeq seq }
  | .close => some { c with closed := true, reconnect := .idle }

/-- No `_reconcile_stream` is in progress. -/
def Settled : Prop := ∀ sub ∈ c.subscriptions.values, sub.reconciling = none

instance : Decidable c.Settled := by
  unfold Settled
  infer_instance

/-- The stream that is installed was opened with `_shared_stream_filter`, and lets through
    every event of every subscription. -/
structure CoversSubscribers : Prop where
  opened : c.filter = c.stream.map EventStreamHandle.filter
  covers : ∀ sub ∈ c.subscriptions.values,
    ∃ shared, c.stream = some shared ∧ Covers shared.filter sub.params

/-- The filter that the reconnect has read is still the one of the shared stream. -/
def FilterKept : Prop :=
  match c.reconnect with
  | .opening baseFilter _ _ => c.filter = some baseFilter
  | _ => True

instance : Decidable c.FilterKept := by
  unfold FilterKept
  split <;> infer_instance

/-- The candidate's list of namespaces is not one that is empty among scoped filters. -/
def ScopeKept (candidate : SubscribeParams) : Prop :=
  if c.sufficient candidate then
    candidate.namespaces = some [] → (c.filter.getD candidate).Unscoped
  else ScopesAgree (c.filters client candidate)

instance (candidate : SubscribeParams) : Decidable (c.ScopeKept client candidate) := by
  unfold ScopeKept
  infer_instance

/-- The steps after which the stream still covers its subscribers. -/
def Keeps : SharedCall → Prop
  | .reconcile id =>
    match c.subscriptions.get? id with
    | some sub => c.ScopeKept client sub.params
    | none => True
  | .reopenReady => c.FilterKept
  | _ => True

instance (call : SharedCall) : Decidable (c.Keeps client call) := by
  unfold Keeps
  split
  · split <;> infer_instance
  · infer_instance
  · infer_instance

/-! The invariant. -/

/-- Every subscriber that has been through the look at the filter is covered by it. -/
structure Inv : Prop where
  opened : c.filter = c.stream.map EventStreamHandle.filter
  reopening : ∀ baseFilter attempt newStream,
    c.reconnect = .opening baseFilter attempt newStream → newStream.filter = baseFilter
  covered : ∀ id sub, c.subscriptions.get? id = some sub → sub.reconciling ≠ some .entered →
    ∃ f, c.filter = some f ∧ Covers f sub.params

theorem inv_init : init.Inv where
  opened := rfl
  reopening := fun _ _ _ h => nomatch h
  covered := fun _ _ h => nomatch h

variable {client : StreamClient} {c c' : SharedStream}

theorem Inv.coversSubscribers (h : c.Inv) (hsettled : c.Settled) : c.CoversSubscribers where
  opened := h.opened
  covers := fun sub hsub => by
    have hphase : sub.reconciling ≠ some .entered := by
      rw [hsettled sub hsub]
      exact fun h => nomatch h
    obtain ⟨id, hsub⟩ := OrdDict.mem_values_iff.mp hsub
    obtain ⟨f, hf, hcovers⟩ := h.covered id sub hsub hphase
    rw [h.opened] at hf
    obtain ⟨shared, hshared, rfl⟩ := Option.map_eq_some_iff.mp hf
    exact ⟨shared, hshared, hcovers⟩

/-- What is left of the invariant when only the reconnect and what it does not read change. -/
theorem Inv.of_reconnect (h : c.Inv) (hsubs : c'.subscriptions = c.subscriptions)
    (hstream : c'.stream = c.stream) (hfilter : c'.filter = c.filter)
    (hreopening : ∀ baseFilter attempt newStream,
      c'.reconnect = .opening baseFilter attempt newStream → newStream.filter = baseFilter) :
    c'.Inv where
  opened := by rw [hfilter, hstream, h.opened]
  reopening := hreopening
  covered := by rw [hsubs, hfilter]; exact h.covered

/-- A change of one subscription, which is covered if it is past the look at the filter. -/
theorem Inv.set (h : c.Inv) (id : Nat) (sub : Subscription)
    (hcovered : sub.reconciling ≠ some .entered →
      ∃ f, c.filter = some f ∧ Covers f sub.params) :
    ({ c with subscriptions := c.subscriptions.set id sub } : SharedStream).Inv where
  opened := h.opened
  reopening := h.reopening
  covered := fun id' sub' hsub' hphase => by
    rw [OrdDict.get?_set] at hsub'
    split at hsub'
    · cases hsub'
      exact hcovered hphase
    · exact h.covered id' sub' hsub' hphase

theorem Inv.erase (h : c.Inv) (id : Nat) :
    ({ c with subscriptions := c.subscriptions.erase id } : SharedStream).Inv where
  opened := h.opened
  reopening := h.reopening
  covered := fun id' sub' hsub' hphase => by
    rw [OrdDict.get?_erase] at hsub'
    split at hsub'
    · exact nomatch hsub'
    · exact h.covered id' sub' hsub' hphase

theorem mem_filters {id : Nat} {sub : Subscription} (h : c.subscriptions.get? id = some sub)
    (candidate : SubscribeParams) : sub.params ∈ c.filters client candidate := by
  simp only [filters, List.append_assoc, List.mem_append]
  exact .inl (List.mem_map_of_mem (OrdDict.mem_values_iff.mpr ⟨id, h⟩))

theorem candidate_mem_filters (candidate : SubscribeParams) :
    candidate ∈ c.filters client candidate := by simp [filters]

/-- A rotation covers every subscription there is, wherever its own reconcile stands. -/
theorem Inv.rotate (h : c.Inv) {candidate : SubscribeParams}
    (hscopes : ScopesAgree (c.filters client candidate)) (id : Nat) :
    (c.rotate client id candidate).Inv where
  opened := rfl
  reopening := h.reopening
  covered := fun id' sub' hsub' _ => by
    refine ⟨c.currentUnion client candidate, rfl, ?_⟩
    apply computeUnionFilter_covers hscopes
    rw [SharedStream.rotate, OrdDict.get?_set] at hsub'
    split at hsub'
    · cases hsub'
      exact candidate_mem_filters candidate
    · exact mem_filters hsub' candidate

theorem covers_of_sufficient {candidate : SubscribeParams} (h : c.sufficient candidate = true)
    (hscope : c.ScopeKept client candidate) : ∃ f, c.filter = some f ∧ Covers f candidate := by
  rw [ScopeKept, if_pos h] at hscope
  simp only [sufficient, Bool.and_eq_true, Option.any_eq_true] at h
  obtain ⟨-, f, hf, hcovers⟩ := h
  rw [hf] at hscope
  exact ⟨f, hf, covers_of_filterCovers hcovers hscope⟩

theorem Inv.reconcile {id : Nat} (h : c.Inv) (hkeeps : c.Keeps client (.reconcile id))
    (hstep : c.step client (.reconcile id) = some c') : c'.Inv := by
  simp only [step] at hstep
  split at hstep
  · rename_i candidate hsub
    simp only [Keeps, hsub] at hkeeps
    split at hstep
    · rename_i hsufficient
      cases hstep
      exact h.set id _ fun _ => covers_of_sufficient hsufficient hkeeps
    · rename_i hsufficient
      cases hstep
      rw [ScopeKept, if_neg hsufficient] at hkeeps
      exact h.rotate hkeeps id
  · exact nomatch hstep

theorem Inv.ready {id : Nat} (h : c.Inv) (hstep : c.step client (.ready id) = some c') :
    c'.Inv := by
  simp only [step] at hstep
  split at hstep
  · rename_i candidate oldStream hsub
    cases hstep
    have hcovered : ∃ f, c.filter = some f ∧ Covers f candidate :=
      h.covered id ⟨candidate, some (.opening oldStream)⟩ hsub fun h => nomatch h
    have hset := h.set id ⟨candidate, none⟩ fun _ => hcovered
    exact ⟨hset.opened, hset.reopening, hset.covered⟩
  · exact nomatch hstep

/-- The steps of the reconnect up to the installation, which touch nothing else. -/
theorem Inv.reopen (h : c.Inv) (hstep : c.step client .reopen = some c') : c'.Inv := by
  simp only [step] at hstep
  split at hstep
  · split at hstep
    · cases hstep
      refine h.of_reconnect rfl rfl rfl ?_
      intro _ _ _ hopening
      cases hopening
      rfl
    · cases hstep
      exact h.of_reconnect rfl rfl rfl fun _ _ _ h => nomatch h
  · exact nomatch hstep

theorem Inv.readFilter (h : c.Inv) (hstep : c.step client .readFilter = some c') : c'.Inv := by
  simp only [step] at hstep
  split at hstep
  · cases hstep
    exact h.of_reconnect rfl rfl rfl fun _ _ _ h => nomatch h
  · cases hstep
    exact h.of_reconnect rfl rfl rfl fun _ _ _ h => nomatch h
  · exact nomatch hstep

theorem Inv.reopenFailed (h : c.Inv) (hstep : c.step client .reopenFailed = some c') : c'.Inv := by
  simp only [step] at hstep
  split at hstep
  · cases hstep
    exact h.of_reconnect rfl rfl rfl fun _ _ _ h => nomatch h
  · exact nomatch hstep

/-- The stream that the reconnect installs was opened with the filter it has read. -/
theorem Inv.reopenReady (h : c.Inv) (hkeeps : c.FilterKept)
    (hstep : c.step client .reopenReady = some c') : c'.Inv := by
  simp only [step] at hstep
  split at hstep
  · rename_i baseFilter attempt newStream hreconnect
    cases hstep
    rw [FilterKept, hreconnect] at hkeeps
    refine ⟨?_, fun _ _ _ h => (nomatch h), h.covered⟩
    have hnew : newStream.filter = baseFilter := h.reopening _ _ _ hreconnect
    rw [show c.filter = some baseFilter from hkeeps, Option.map_some, hnew]
  · exact nomatch hstep

theorem Inv.step {call : SharedCall} (h : c.Inv) (hkeeps : c.Keeps client call)
    (hstep : c.step client call = some c') : c'.Inv := by
  cases call with
  | register params =>
    cases hstep
    have hset := h.set c.nextSubscriptionId ⟨params, some .entered⟩ fun hne => absurd rfl hne
    exact ⟨hset.opened, hset.reopening, hset.covered⟩
  | reconcile id => exact h.reconcile hkeeps hstep
  | ready id => exact h.ready hstep
  | unregister id =>
    cases hstep
    exact h.erase id
  | drop =>
    simp only [SharedStream.step] at hstep
    split at hstep
    · cases hstep
      exact h.of_reconnect rfl rfl rfl fun _ _ _ h => nomatch h
    · exact nomatch hstep
  | readFilter => exact h.readFilter hstep
  | reopen => exact h.reopen hstep
  | reopenReady => exact h.reopenReady hkeeps hstep
  | reopenFailed => exact h.reopenFailed hstep
  | observe seq =>
    cases hstep
    exact h.of_reconnect rfl rfl rfl h.reopening
  | close =>
    cases hstep
    exact h.of_reconnect rfl rfl rfl fun _ _ _ h => nomatch h

theorem inv_of_reachable (h : Machine.Reachable (step client) (Keeps client) init c) : c.Inv :=
  h.invariant inv_init fun _ _ _ hinv hkeeps hstep => hinv.step hkeeps hstep

/-! A client that adds an unscoped filter to every union, as `AsyncThreadStream` does. -/

theorem filter_of_step {call : SharedCall} (h : c.step client call = some c') :
    c'.filter = c.filter ∨ ∃ candidate, c'.filter = some (c.currentUnion client candidate) := by
  cases call with
  | reconcile id =>
    simp only [step] at h
    split at h
    · split at h
      · cases h
        exact .inl rfl
      · cases h
        exact .inr ⟨_, rfl⟩
    · exact nomatch h
  | register params => cases h; exact .inl rfl
  | unregister id => cases h; exact .inl rfl
  | observe seq => cases h; exact .inl rfl
  | close => cases h; exact .inl rfl
  | ready id | drop | readFilter | reopen | reopenReady | reopenFailed =>
    -- no other step touches the filter
    left
    grind [step, setPhase]

/-- Only the reconnect can spoil the stream of such a client. -/
theorem keeps_of_filterKept (hwild : ∃ p ∈ client.always, p.namespaces = none)
    (hfilter : ∀ f, c.filter = some f → f.namespaces = none) {call : SharedCall}
    (hkept : call = .reopenReady → c.FilterKept) : c.Keeps client call := by
  cases call with
  | reopenReady => exact hkept rfl
  | reconcile id =>
    simp only [Keeps]
    split
    · rename_i sub hsub
      unfold ScopeKept
      split
      · rename_i hsufficient
        intro _
        simp only [sufficient, Bool.and_eq_true, Option.any_eq_true] at hsufficient
        obtain ⟨-, f, hf, -⟩ := hsufficient
        simp [SubscribeParams.Unscoped, hf, hfilter f hf]
      · obtain ⟨p, hp, hnone⟩ := hwild
        exact .inr (.inl ⟨p, List.mem_append_right _ hp, hnone⟩)
    · trivial
  | _ => trivial

theorem unscoped_currentUnion (hwild : ∃ p ∈ client.always, p.namespaces = none)
    (candidate : SubscribeParams) : (c.currentUnion client candidate).namespaces = none := by
  obtain ⟨p, hp, hnone⟩ := hwild
  have hmem : p ∈ c.filters client candidate := List.mem_append_right _ hp
  have hincludes := UnionState.foldl_includes (u := .init) (.inl hmem)
  rw [currentUnion, computeUnionFilter_of_mem hmem, UnionState.result, hincludes.wildcard hnone]
  rfl

theorem reachable_of_filterKept (hwild : ∃ p ∈ client.always, p.namespaces = none)
    (h : Machine.Reachable (step client) (fun c call => call = .reopenReady → c.FilterKept) init c) :
    Machine.Reachable (step client) (Keeps client) init c ∧
      ∀ f, c.filter = some f → f.namespaces = none := by
  induction h with
  | start => exact ⟨.start, fun _ h => nomatch h⟩
  | step _ hkept hstep ih =>
    refine ⟨.step ih.1 (keeps_of_filterKept hwild ih.2 hkept) hstep, fun f hf => ?_⟩
    rcases filter_of_step hstep with hsame | ⟨candidate, hunion⟩
    · exact ih.2 f (hsame ▸ hf)
    · rw [hunion, Option.some.injEq] at hf
      rw [← hf]
      exact unscoped_currentUnion hwild candidate

/-- For `AsyncThreadStream` the reconnect alone decides. -/
theorem asyncThreadStream_covers {c : SharedStream}
    (h : Machine.Reachable (step asyncThreadStream) (fun c call => call = .reopenReady → c.FilterKept)
      init c) (hsettled : c.Settled) : c.CoversSubscribers := by
  have hwild : ∃ p ∈ asyncThreadStream.always, p.namespaces = none := by decide
  exact (inv_of_reachable (reachable_of_filterKept hwild h).1).coversSubscribers hsettled

end SharedStream

open SharedStream in
/-- In every run whose steps keep the filter, whenever no reconcile is in progress the stream
    covers its subscribers. -/
theorem stream_covers (client : StreamClient) {c : SharedStream}
    (h : Machine.Reachable (step client) (Keeps client) init c) (hsettled : c.Settled) :
    c.CoversSubscribers :=
  (inv_of_reachable h).coversSubscribers hsettled

def onChannel (channel : String) : SubscribeParams := ⟨[channel], none, none⟩

/-- The transport drops between two subscriptions, the second of which rotates. -/
def dropThenRotate : List SharedCall :=
  [.register (onChannel "values"), .reconcile 1, .ready 1, .observe 4, .drop, .readFilter, .reopen,
    .reopenReady, .register (onChannel "messages"), .reconcile 2, .ready 2]

open SharedStream in
theorem stream_covers_dropThenRotate :
    ∃ c, Machine.run (step streamController) init dropThenRotate = some c ∧ c.CoversSubscribers := by
  have hrun : (Machine.run (step streamController) init dropThenRotate).map
      (fun c => decide c.Settled) = some true := by decide +kernel
  have hmeets : Machine.Meets (step streamController) (Keeps streamController) init
      dropThenRotate := by decide +kernel
  obtain ⟨c, hc, hsettled⟩ := Option.map_eq_some_iff.mp hrun
  exact ⟨c, hc, stream_covers streamController (Machine.Reachable.of_run hmeets hc)
    (of_decide_eq_true hsettled)⟩

/-- The second subscription rotates while the reconnect waits for the stream that it has opened
    with the filter of the first. -/
def rotateInReopen : List SharedCall :=
  [.register (onChannel "values"), .reconcile 1, .ready 1, .drop, .readFilter, .reopen,
    .register (onChannel "messages"), .reconcile 2, .ready 2, .reopenReady]

def messagesEvent : Event := ⟨some "messages", [], none, none, none⟩

open SharedStream in
theorem not_covers_of_run {client : StreamClient} {calls : List SharedCall} {event : Event}
    (hrun : (Machine.run (step client) init calls).map
      (fun c => (decide c.Settled, decide (∀ sub ∈ c.subscriptions.values,
        matchesSubscription event sub.params = true →
          c.stream.any fun shared => matchesSubscription event shared.filter))) =
        some (true, false)) :
    ¬∀ c, Machine.Reachable (step client) (fun _ _ => True) init c → c.Settled →
      c.CoversSubscribers := by
  intro h
  obtain ⟨c, hreach, hc⟩ :=
    Machine.exists_of_run (Machine.Meets.of_forall (fun _ _ => trivial) _ _) hrun
  rw [Prod.mk.injEq, decide_eq_true_eq, decide_eq_false_iff_not] at hc
  apply hc.2
  intro sub hsub hmatch
  obtain ⟨shared, hshared, hcovers⟩ := (h c hreach hc.1).covers sub hsub
  rw [hshared]
  exact hcovers event hmatch

open SharedStream in
theorem not_stream_covers :
    (¬∀ c, Machine.Reachable (step streamController) (fun _ _ => True) init c → c.Settled →
      c.CoversSubscribers) ∧
    ¬∀ c, Machine.Reachable (step asyncThreadStream) (fun _ _ => True) init c → c.Settled →
      c.CoversSubscribers := by
  constructor
  · apply @not_covers_of_run _ rotateInReopen messagesEvent
    decide +kernel
  · apply @not_covers_of_run _ rotateInReopen messagesEvent
    decide +kernel

end LangGraph.Sdk
