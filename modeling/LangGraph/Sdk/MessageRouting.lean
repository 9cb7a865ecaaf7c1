import LangGraph.Lib.OrdDict

/- Message events and the streams they are dispatched to.

   Correspondence (source ↔ Lean):
     `_message_event_id` (stream/decoders.py)                 ↔ `messageEventId`
     `_message_route_key`                                     ↔ `messageRouteKey`
     the body that the three loops repeat                     ↔ `route`
     `MessagesDecoder.feed`                                   ↔ `feed`
     `_MessagesProjection._drain_inbox` (_async/stream.py)    ↔ `drainInbox`
     `_HandleMessagesProjection._messages_iter`               ↔ `messagesIter`
   `messages_own_iff`: when the three dispatch alike, each event to its own stream. -/
namespace LangGraph.Sdk

/- ── Events and streams ────────────────────────────────────────────────────── -/

/-- `params["data"]` of a message event; `node` is `langgraph_node` of its metadata. -/
structure MessageData (V : Type) where
  event : Option String
  id : Option V
  messageId : Option V
  node : Option V
  deriving DecidableEq

/-- `data` is `none` when it is no dict. -/
structure MessageEvent (V : Type) where
  method : String
  ns : List String
  data : Option (MessageData V)
  deriving DecidableEq

/-- A chat model stream, with what was dispatched to it. -/
structure MessageStream (V : Type) where
  ns : List String
  node : Option V
  messageId : Option String
  received : List (MessageData V)
  deriving DecidableEq

/-- The streams, in the order they were started, and the `active` ones by route key. -/
structure Routing (V : Type) where
  streams : List (MessageStream V)
  active : OrdDict String Nat

namespace Routing

variable {V : Type} (truthy : V → Bool) (str : V → String)

def init : Routing V := ⟨[], ∅⟩

/-- `data.get("id") or data.get("message_id")`, as a string. -/
def messageEventId (data : MessageData V) : Option String :=
  ((data.id.filter truthy).or data.messageId).map str

def messageKey (id : Option String) : String :=
  match id with
  | some id => "message:" ++ id
  | none => "__single__"

def messageRouteKey (data : MessageData V) (fallback : Option String) : String :=
  messageKey ((messageEventId truthy str data).or fallback)

def dispatch (σ : Routing V) (s : Nat) (data : MessageData V) : Routing V :=
  { σ with streams := σ.streams.modify s fun st => { st with received := st.received ++ [data] } }

/-- The active stream of the key, and for a key without one that `alone` admits, the
    only active stream. -/
def streamOf (alone : String → Bool) (σ : Routing V) (key : String) : Option Nat :=
  (σ.active.get? key).or
    (if alone key ∧ σ.active.entries.length = 1 then σ.active.values.head? else none)

/-- The stream that the data is dispatched to. -/
def route (alone : String → Bool) (ns : List String) (σ : Routing V) (data : MessageData V) :
    Option Nat × Routing V :=
  if data.event = some "message-start" then
    let messageId := messageEventId truthy str data
    let key := messageRouteKey truthy str data messageId
    let s := σ.streams.length
    (some s, ⟨σ.streams ++ [⟨ns, data.node, messageId, [data]⟩], σ.active.set key s⟩)
  else
    match streamOf alone σ (messageRouteKey truthy str data none) with
    | none => (none, σ)
    | some s =>
      let σ := σ.dispatch s data
      if data.event = some "message-finish" ∨ data.event = some "error" then
        (some s, { σ with active := σ.active.filterMap fun _ s' =>
          if s' = s then none else some s' })
      else (some s, σ)

variable (scope : List String)

def feed (σ : Routing V) (e : MessageEvent V) : Option Nat × Routing V :=
  if e.method ≠ "messages" then (none, σ)
  else if e.ns ≠ scope then (none, σ)
  else
    match e.data with
    | none => (none, σ)
    | some data => route truthy str (fun key => key = "__single__") scope σ data

def drainInbox (σ : Routing V) (e : MessageEvent V) : Option Nat × Routing V :=
  match e.data with
  | none => (none, σ)
  | some data => route truthy str (fun _ => true) scope σ data

def messagesIter (σ : Routing V) (e : MessageEvent V) : Option Nat × Routing V :=
  if e.ns ≠ scope then (none, σ)
  else
    match e.data with
    | none => (none, σ)
    | some data => route truthy str (fun _ => true) scope σ data

/-- The stream each of the events is dispatched to, and what the streams have then. -/
def run (step : Routing V → MessageEvent V → Option Nat × Routing V) (σ : Routing V) :
    List (MessageEvent V) → List (Option Nat) × Routing V
  | [] => ([], σ)
  | e :: es => ((step σ e).1 :: (run step (step σ e).2 es).1, (run step (step σ e).2 es).2)

/-- Each event with an id goes to the active stream of that id, a new one if it starts
    the message, and to none if there is no such stream. -/
def OwnStreams (step : Routing V → MessageEvent V → Option Nat × Routing V)
    (σ : Routing V) : List (MessageEvent V) → Prop
  | [] => True
  | e :: es =>
    (∀ data id, e.data = some data → messageEventId truthy str data = some id →
      (∀ s, (step σ e).1 = some s →
        ((step σ e).2.streams[s]?).bind (·.messageId) = some id) ∧
      (data.event ≠ some "message-start" →
        (step σ e).1 = σ.active.get? (messageKey (some id)))) ∧
    OwnStreams step (step σ e).2 es

/-- The event has an id of which no stream is active, while one stream is. -/
def Stray (σ : Routing V) (e : MessageEvent V) : Prop :=
  ∃ data id, e.data = some data ∧ data.event ≠ some "message-start" ∧
    messageEventId truthy str data = some id ∧
    σ.active.get? (messageKey (some id)) = none ∧ σ.active.entries.length = 1

/-- No event is stray when the decoder is fed it. -/
def NoStrays (σ : Routing V) : List (MessageEvent V) → Prop
  | [] => True
  | e :: es => ¬ Stray truthy str σ e ∧ NoStrays (feed truthy str scope σ e).2 es

/- ── One event ─────────────────────────────────────────────────────────────── -/

theorem messageKey_ne_single (id : String) : messageKey (some id) ≠ "__single__" := by
  intro h
  have hhead := congrArg (fun s : String => s.toList.head?) h
  simp [messageKey] at hhead

theorem messageKey_inj {a b : Option String} (h : messageKey a = messageKey b) : a = b := by
  cases a with
  | none =>
    cases b with
    | none => rfl
    | some b => exact absurd h.symm (messageKey_ne_single b)
  | some a =>
    cases b with
    | none => exact absurd h (messageKey_ne_single a)
    | some b => exact congrArg some ((String.append_right_inj "message:").mp h)

/-- An active stream stands under the key of its message. -/
def Keyed (σ : Routing V) : Prop :=
  ∀ key s, σ.active.get? key = some s →
    ∃ st, σ.streams[s]? = some st ∧ key = messageKey st.messageId

theorem keyed_init : Keyed (init : Routing V) :=
  fun _ _ h => nomatch h

theorem Keyed.dispatch {σ : Routing V} (h : σ.Keyed) (s : Nat) (data : MessageData V) :
    (σ.dispatch s data).Keyed := by
  intro key s' hs'
  obtain ⟨st, hst, hkey⟩ := h key s' hs'
  show ∃ st, (σ.streams.modify s _)[s']? = some st ∧ _
  rw [List.getElem?_modify, hst]
  refine ⟨_, rfl, ?_⟩
  beta_reduce
  split
  · exact hkey
  · exact hkey

theorem Keyed.route {σ : Routing V} (h : σ.Keyed) (alone : String → Bool) (ns : List String)
    (data : MessageData V) : (route truthy str alone ns σ data).2.Keyed := by
  unfold Routing.route
  split
  · intro key s hs
    simp only at hs ⊢
    rw [OrdDict.get?_set] at hs
    by_cases hkey : key = messageRouteKey truthy str data (messageEventId truthy str data)
    · rw [if_pos hkey, Option.some_inj] at hs
      refine ⟨_, by rw [← hs, List.getElem?_concat_length], ?_⟩
      rw [hkey, messageRouteKey, Option.or_self]
    · rw [if_neg hkey] at hs
      obtain ⟨st, hst, hk⟩ := h key s hs
      have hlt : s < σ.streams.length := by
        apply Decidable.byContradiction
        intro hge
        rw [List.getElem?_eq_none (Nat.le_of_not_lt hge)] at hst
        exact (nomatch hst)
      exact ⟨st, by rw [List.getElem?_append_left hlt, hst], hk⟩
  · split
    · exact h
    · rename_i s _
      have hd := h.dispatch s data
      split
      · intro key s' hs'
        apply hd key s'
        simp only [OrdDict.get?_filterMap, Option.bind_eq_some_iff] at hs'
        obtain ⟨s₀, hs₀, hif⟩ := hs'
        split at hif
        · exact (nomatch hif)
        · rw [hs₀, hif]
      · exact hd

theorem run_keyed {step : Routing V → MessageEvent V → Option Nat × Routing V}
    (hstep : ∀ σ e, σ.Keyed → (step σ e).2.Keyed) : ∀ (es : List (MessageEvent V)) (σ : Routing V),
    σ.Keyed → (run step σ es).2.Keyed
  | [], _, h => h
  | e :: es, σ, h => run_keyed hstep es (step σ e).2 (hstep σ e h)

section

variable {truthy : V → Bool} {str : V → String} {scope : List String}
  {σ : Routing V} {data : MessageData V}

/-- Where the data of a message that has started goes. -/
theorem route_target (alone : String → Bool) (ns : List String)
    (h : data.event ≠ some "message-start") :
    (route truthy str alone ns σ data).1 =
      streamOf alone σ (messageRouteKey truthy str data none) := by
  unfold route
  rw [if_neg h]
  cases streamOf alone σ (messageRouteKey truthy str data none) with
  | none => rfl
  | some s =>
    simp only
    split
    · rfl
    · rfl

/-- The stream it goes to is one of the message, when it is the one under its key. -/
theorem route_own {alone : String → Bool} {ns : List String} {id : String} (hσ : σ.Keyed)
    (hid : messageEventId truthy str data = some id)
    (htarget : data.event ≠ some "message-start" →
      (route truthy str alone ns σ data).1 = σ.active.get? (messageKey (some id)))
    (s : Nat) (hs : (route truthy str alone ns σ data).1 = some s) :
    ((route truthy str alone ns σ data).2.streams[s]?).bind (·.messageId) = some id := by
  by_cases hstart : data.event = some "message-start"
  · unfold route at hs ⊢
    rw [if_pos hstart] at hs ⊢
    rw [← Option.some_inj.mp hs]
    simp only [List.getElem?_concat_length, Option.bind_some, hid]
  · have hkey := htarget hstart
    rw [hs] at hkey
    obtain ⟨st, hst, hmsg⟩ := hσ _ _ hkey.symm
    have hmsg' : st.messageId = some id := messageKey_inj hmsg.symm
    have hstreams : (route truthy str alone ns σ data).2.streams =
        (σ.dispatch s data).streams := by
      rw [route_target alone ns hstart] at hs
      unfold route
      rw [if_neg hstart]
      simp only [hs]
      split
      · rfl
      · rfl
    rw [hstreams]
    show ((σ.streams.modify s _)[s]?).bind _ = _
    rw [List.getElem?_modify_eq, hst]
    exact hmsg'

/-- Data of a message with an id that is not stray goes to the stream under its key,
    whichever keys may do without one. -/
theorem route_of_not_stray {e : MessageEvent V} {id : String} (alone : String → Bool)
    (ns : List String) (hdata : e.data = some data)
    (hid : messageEventId truthy str data = some id) (hstray : ¬ Stray truthy str σ e)
    (hstart : data.event ≠ some "message-start") :
    (route truthy str alone ns σ data).1 = σ.active.get? (messageKey (some id)) := by
  have hkey : messageRouteKey truthy str data none = messageKey (some id) := by
    rw [messageRouteKey, hid, Option.some_or]
  rw [route_target alone ns hstart, hkey, streamOf]
  cases hget : σ.active.get? (messageKey (some id)) with
  | some s => rfl
  | none =>
    rw [if_neg, Option.or_none]
    exact fun h => hstray ⟨data, id, hdata, hstart, hid, hget, h.2⟩

/-- The guard on the fallback matters only to a stray event. -/
theorem route_eq_of_not_stray {e : MessageEvent V} (hdata : e.data = some data)
    (hstray : ¬ Stray truthy str σ e) (ns : List String) :
    route truthy str (fun key => key = "__single__") ns σ data =
      route truthy str (fun _ => true) ns σ data := by
  by_cases hstart : data.event = some "message-start"
  · unfold route
    rw [if_pos hstart, if_pos hstart]
  · have htarget :
        streamOf (fun key => key = "__single__") σ (messageRouteKey truthy str data none) =
          streamOf (fun _ => true) σ (messageRouteKey truthy str data none) := by
      cases hid : messageEventId truthy str data with
      | none => simp [streamOf, messageRouteKey, hid, messageKey]
      | some id =>
        rw [← route_target _ ns hstart, ← route_target _ ns hstart,
          route_of_not_stray _ ns hdata hid hstray hstart,
          route_of_not_stray _ ns hdata hid hstray hstart]
    unfold route
    rw [htarget]

/-- The decoder takes the only active stream for an event without an id alone. -/
theorem route_single {id : String} (ns : List String)
    (hid : messageEventId truthy str data = some id)
    (hstart : data.event ≠ some "message-start") :
    (route truthy str (fun key => key = "__single__") ns σ data).1 =
      σ.active.get? (messageKey (some id)) := by
  have hkey : messageRouteKey truthy str data none = messageKey (some id) := by
    rw [messageRouteKey, hid, Option.some_or]
  rw [route_target _ ns hstart, hkey, streamOf, if_neg, Option.or_none]
  intro h
  exact messageKey_ne_single id (of_decide_eq_true h.1)

/-- A stray event goes to the only active stream where the fallback is unguarded. -/
theorem route_stray {id : String} (ns : List String)
    (hid : messageEventId truthy str data = some id)
    (hstart : data.event ≠ some "message-start")
    (hget : σ.active.get? (messageKey (some id)) = none) (hlen : σ.active.entries.length = 1) :
    (route truthy str (fun _ => true) ns σ data).1 ≠ none := by
  have hkey : messageRouteKey truthy str data none = messageKey (some id) := by
    rw [messageRouteKey, hid, Option.some_or]
  rw [route_target _ ns hstart, hkey, streamOf, hget, if_pos ⟨rfl, hlen⟩, Option.none_or]
  obtain ⟨entry, hentry⟩ := List.length_eq_one_iff.mp hlen
  rw [OrdDict.values, hentry]
  exact Option.some_ne_none entry.2

end

/- ── Runs ──────────────────────────────────────────────────────────────────── -/

section

variable {truthy : V → Bool} {str : V → String} {scope : List String}

/-- A message event of the scope is routed alike by the three but for the guard. -/
theorem feed_eq {e : MessageEvent V} (h : e.method = "messages" ∧ e.ns = scope) (σ : Routing V) :
    feed truthy str scope σ e =
      match e.data with
      | none => (none, σ)
      | some data => route truthy str (fun key => key = "__single__") scope σ data := by
  unfold feed
  rw [if_neg (not_not.mpr h.1), if_neg (not_not.mpr h.2)]

theorem messagesIter_eq {e : MessageEvent V} (h : e.ns = scope) (σ : Routing V) :
    messagesIter truthy str scope σ e = drainInbox truthy str scope σ e := by
  unfold messagesIter drainInbox
  rw [if_neg (not_not.mpr h)]

theorem Keyed.drainInbox {σ : Routing V} (h : σ.Keyed) (e : MessageEvent V) :
    (drainInbox truthy str scope σ e).2.Keyed := by
  unfold Routing.drainInbox
  cases e.data with
  | none => exact h
  | some data => exact h.route truthy str _ scope data

/-- The three dispatch every event alike, each to its own stream. -/
def Dispatches (truthy : V → Bool) (str : V → String) (scope : List String) (σ : Routing V)
    (es : List (MessageEvent V)) : Prop :=
  run (feed truthy str scope) σ es = run (drainInbox truthy str scope) σ es ∧
    run (feed truthy str scope) σ es = run (messagesIter truthy str scope) σ es ∧
    OwnStreams truthy str (feed truthy str scope) σ es ∧
    OwnStreams truthy str (drainInbox truthy str scope) σ es ∧
    OwnStreams truthy str (messagesIter truthy str scope) σ es

/-- After an event that the three dispatch alike, they do so if they do from there. -/
theorem dispatches_cons {σ : Routing V} {e : MessageEvent V} {es : List (MessageEvent V)}
    (hdrain : drainInbox truthy str scope σ e = feed truthy str scope σ e)
    (hiter : messagesIter truthy str scope σ e = feed truthy str scope σ e)
    (hown : OwnStreams truthy str (feed truthy str scope) σ [e]) :
    Dispatches truthy str scope σ (e :: es) ↔
      Dispatches truthy str scope (feed truthy str scope σ e).2 es := by
  have hcons : ∀ {x y : List (Option Nat) × Routing V} (a : Option Nat),
      ((a :: x.1, x.2) = (a :: y.1, y.2) ↔ x = y) := by
    intro x y a
    rw [Prod.mk.injEq, List.cons.injEq, Prod.ext_iff]
    exact and_congr_left fun _ => and_iff_right rfl
  have hhead := hown.1
  unfold Dispatches
  simp only [run, OwnStreams, hdrain, hiter, hcons, and_iff_right hhead]

/-- From any state of the loops: they dispatch alike, and each event to its own
    stream, exactly when none is stray. -/
theorem dispatches_iff : ∀ (es : List (MessageEvent V)) {σ : Routing V}, σ.Keyed →
    (∀ e ∈ es, e.method = "messages" ∧ e.ns = scope) →
    (Dispatches truthy str scope σ es ↔ NoStrays truthy str scope σ es)
  | [], _, _, _ => ⟨fun _ => trivial, fun _ => ⟨rfl, rfl, trivial, trivial, trivial⟩⟩
  | e :: es, σ, hσ, hes => by
    have he := hes e List.mem_cons_self
    have hiter : ∀ σ : Routing V,
        messagesIter truthy str scope σ e = drainInbox truthy str scope σ e :=
      messagesIter_eq he.2
    by_cases hstray : Stray truthy str σ e
    · -- the decoder drops the event, the other two do not
      apply iff_of_false
      · intro h
        obtain ⟨data, id, hdata, hstart, hid, hget, hlen⟩ := hstray
        have hhead : (feed truthy str scope σ e).1 = (drainInbox truthy str scope σ e).1 :=
          (List.cons.inj (congrArg Prod.fst h.1)).1
        rw [feed_eq he, drainInbox, hdata] at hhead
        simp only at hhead
        rw [route_single scope hid hstart, hget] at hhead
        exact route_stray scope hid hstart hget hlen hhead.symm
      · exact fun h => h.1 hstray
    · have hdrain : drainInbox truthy str scope σ e = feed truthy str scope σ e := by
        rw [feed_eq he, drainInbox]
        cases hdata : e.data with
        | none => rfl
        | some data => exact (route_eq_of_not_stray hdata hstray scope).symm
      have hown : OwnStreams truthy str (feed truthy str scope) σ [e] := by
        refine ⟨fun data id hdata hid => ?_, trivial⟩
        have hroute : feed truthy str scope σ e =
            route truthy str (fun key => key = "__single__") scope σ data := by
          rw [feed_eq he, hdata]
        rw [hroute]
        exact ⟨route_own hσ hid (route_single scope hid), route_single scope hid⟩
      have hkeyed : (feed truthy str scope σ e).2.Keyed := hdrain ▸ hσ.drainInbox e
      rw [dispatches_cons hdrain ((hiter σ).trans hdrain) hown]
      show _ ↔ ¬ Stray truthy str σ e ∧ _
      rw [and_iff_right hstray]
      exact dispatches_iff es hkeyed fun e' he' => hes e' (List.mem_cons_of_mem _ he')

end

end Routing

open Routing

/-- The decoder, the drain of the root inbox and the messages of a handle dispatch the
    message events of a namespace alike, each to its own stream, exactly when no event
    has an id of which no stream is active while one other stream is. -/
theorem messages_own_iff {V : Type} (truthy : V → Bool) (str : V → String)
    (scope : List String) (es : List (MessageEvent V))
    (hes : ∀ e ∈ es, e.method = "messages" ∧ e.ns = scope) :
    Dispatches truthy str scope init es ↔ NoStrays truthy str scope init es :=
  dispatches_iff es keyed_init hes

/-- Two messages in turns, and an event without an id after the first has finished. -/
theorem messages_own_iff_turns :
    Dispatches (· ≠ "") id []  init
        [⟨"messages", [], some ⟨some "message-start", some "a", none, some "agent"⟩⟩,
          ⟨"messages", [], some ⟨some "message-start", none, some "b", none⟩⟩,
          ⟨"messages", [], some ⟨some "content-block-delta", some "a", none, none⟩⟩,
          ⟨"messages", [], some ⟨some "message-finish", some "a", none, none⟩⟩,
          ⟨"messages", [], some ⟨some "message-finish", none, none, none⟩⟩] ↔
      NoStrays (· ≠ "") id [] init
        [⟨"messages", [], some ⟨some "message-start", some "a", none, some "agent"⟩⟩,
          ⟨"messages", [], some ⟨some "message-start", none, some "b", none⟩⟩,
          ⟨"messages", [], some ⟨some "content-block-delta", some "a", none, none⟩⟩,
          ⟨"messages", [], some ⟨some "message-finish", some "a", none, none⟩⟩,
          ⟨"messages", [], some ⟨some "message-finish", none, none, none⟩⟩] :=
  messages_own_iff (· ≠ "") id [] _ (by decide)

/-- An event of a message whose start was missed goes to the only active stream of
    another, which it finishes. -/
theorem not_messages_own :
    ¬ ∀ (es : List (MessageEvent String)), (∀ e ∈ es, e.method = "messages" ∧ e.ns = []) →
      Dispatches (· ≠ "") id [] init es := by
  intro h
  have hbad := h
    [⟨"messages", [], some ⟨some "message-start", some "a", none, none⟩⟩,
      ⟨"messages", [], some ⟨some "message-finish", some "b", none, none⟩⟩] (by decide)
  exact absurd (congrArg Prod.fst hbad.1) (by decide)

end LangGraph.Sdk
