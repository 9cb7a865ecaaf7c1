import LangGraph.PyVal

/- The channel classes of `langgraph/channels`, one structure a class with its
   methods under the source's names.

   Correspondence (source ↔ Lean):
     `update` mutates the channel and may raise half-way, so it returns the
     channel it leaves behind together with the outcome;
     `get` raising `EmptyChannelError` ↔ `none`;
     `checkpoint` / `from_checkpoint` exchange an `Option PyVal` (`MISSING` ↔ `none`);
     the constructors' `typ` ↔ the value `typ()` of an empty channel, where it is used.
   `Channel` is the sum of the classes and dispatches each method. A stored
   value of a shape that `from_checkpoint` cannot unpack leaves the channel empty. -/
namespace LangGraph

/-- What a method leaves behind: the channel, and `True`/`False` or the exception. -/
abbrev Updated (γ : Type) := γ × Except PyErr Bool

def msgOneOverwrite : String :=
  createErrorMessage "Can receive only one Overwrite value per super-step."
    "INVALID_CONCURRENT_GRAPH_UPDATE"

/-! ## channels/last_value.py -/

structure LastValue where
  key : String
  value : Option PyVal
  deriving DecidableEq

namespace LastValue

def fromCheckpoint (c : LastValue) (checkpoint : Option PyVal) : LastValue :=
  { c with value := checkpoint }

def update (c : LastValue) (values : List PyVal) : Updated LastValue :=
  match values with
  | [] => (c, .ok false)
  | [v] => ({ c with value := some v }, .ok true)
  | _ => (c, .error (.invalidUpdate (createErrorMessage
      ("At key '" ++ c.key ++ "': Can receive only one value per step. " ++
        "Use an Annotated key to handle multiple values.") "INVALID_CONCURRENT_GRAPH_UPDATE")))

end LastValue

structure LastValueAfterFinish where
  key : String
  value : Option PyVal
  finished : Bool
  deriving DecidableEq

namespace LastValueAfterFinish

def checkpoint (c : LastValueAfterFinish) : Option PyVal :=
  c.value.map fun v => .tuple [v, .bool c.finished]

def fromCheckpoint (c : LastValueAfterFinish) : Option PyVal → LastValueAfterFinish
  | some (.tuple [v, .bool b]) => { c with value := some v, finished := b }
  | _ => { c with value := none, finished := false }

def update (c : LastValueAfterFinish) (values : List PyVal) : Updated LastValueAfterFinish :=
  match values.getLast? with
  | none => (c, .ok false)
  | some v => ({ c with value := some v, finished := false }, .ok true)

def consume (c : LastValueAfterFinish) : LastValueAfterFinish × Bool :=
  if c.finished then ({ c with finished := false, value := none }, true) else (c, false)

def finish (c : LastValueAfterFinish) : LastValueAfterFinish × Bool :=
  if !c.finished && c.value.isSome then ({ c with finished := true }, true) else (c, false)

def get (c : LastValueAfterFinish) : Option PyVal :=
  if c.finished then c.value else none

end LastValueAfterFinish

/-! ## channels/ephemeral_value.py, any_value.py, untracked_value.py -/

structure EphemeralValue where
  key : String
  guard : Bool
  value : Option PyVal
  deriving DecidableEq

namespace EphemeralValue

def fromCheckpoint (c : EphemeralValue) (checkpoint : Option PyVal) : EphemeralValue :=
  { c with value := checkpoint }

def update (c : EphemeralValue) (values : List PyVal) : Updated EphemeralValue :=
  match values.getLast? with
  | none => ({ c with value := none }, .ok c.value.isSome)
  | some v =>
    if values.length ≠ 1 ∧ c.guard then
      (c, .error (.invalidUpdate ("At key '" ++ c.key ++
        "': EphemeralValue(guard=True) can receive only one value per step. " ++
        "Use guard=False if you want to store any one of multiple values.")))
    else ({ c with value := some v }, .ok true)

end EphemeralValue

structure AnyValue where
  key : String
  value : Option PyVal
  deriving DecidableEq

namespace AnyValue

def fromCheckpoint (c : AnyValue) (checkpoint : Option PyVal) : AnyValue :=
  { c with value := checkpoint }

def update (c : AnyValue) (values : List PyVal) : Updated AnyValue :=
  match values.getLast? with
  | none => ({ c with value := none }, .ok c.value.isSome)
  | some v => ({ c with value := some v }, .ok true)

end AnyValue

structure UntrackedValue where
  key : String
  guard : Bool
  value : Option PyVal
  deriving DecidableEq

namespace UntrackedValue

/-- Never checkpointed: a restored channel starts empty. -/
def fromCheckpoint (c : UntrackedValue) (_checkpoint : Option PyVal) : UntrackedValue :=
  { c with value := none }

def update (c : UntrackedValue) (values : List PyVal) : Updated UntrackedValue :=
  match values.getLast? with
  | none => (c, .ok false)
  | some v =>
    if values.length ≠ 1 ∧ c.guard then
      (c, .error (.invalidUpdate ("At key '" ++ c.key ++
        "': UntrackedValue(guard=True) can receive only one value per step. " ++
        "Use guard=False if you want to store any one of multiple values.")))
    else ({ c with value := some v }, .ok true)

end UntrackedValue

/-! ## channels/topic.py -/

structure Topic where
  key : String
  accumulate : Bool
  values : List PyVal
  deriving DecidableEq

namespace Topic

/-- `_flatten` -/
def flatten : List PyVal → List PyVal
  | [] => []
  | .list xs :: vs => xs ++ flatten vs
  | v :: vs => v :: flatten vs

def fromCheckpoint (c : Topic) : Option PyVal → Topic
  | some (.tuple [_, .list xs]) => { c with values := xs } -- backwards compatibility
  | some (.list xs) => { c with values := xs }
  | _ => { c with values := [] }

def update (c : Topic) (values : List PyVal) : Updated Topic :=
  let kept := if c.accumulate then c.values else []
  let cleared := !c.accumulate && !c.values.isEmpty
  let flat := flatten values
  ({ c with values := kept ++ flat }, .ok (cleared || !flat.isEmpty))

def get (c : Topic) : Option PyVal :=
  if c.values.isEmpty then none else some (.list c.values)

end Topic

/-! ## channels/named_barrier_value.py -/

/-- Equality of two Python sets held as lists. -/
def setEq (a b : List PyVal) : Bool := a.all (b.contains ·) && b.all (a.contains ·)

/-- The loop of both barriers' `update`: the values seen, and whether one was new. -/
def barrierUpdate (key : String) (names : List PyVal) :
    List PyVal → List PyVal → Bool → List PyVal × Except PyErr Bool
  | seen, [], updated => (seen, .ok updated)
  | seen, v :: vs, updated =>
    if names.contains v then
      if seen.contains v then barrierUpdate key names seen vs updated
      else barrierUpdate key names (seen ++ [v]) vs true
    else (seen, .error (.notInBarrier key v names))

structure NamedBarrierValue where
  key : String
  names : List PyVal
  seen : List PyVal
  deriving DecidableEq

namespace NamedBarrierValue

def fromCheckpoint (c : NamedBarrierValue) : Option PyVal → NamedBarrierValue
  | some (.set xs) => { c with seen := xs }
  | _ => { c with seen := [] }

def update (c : NamedBarrierValue) (values : List PyVal) : Updated NamedBarrierValue :=
  let r := barrierUpdate c.key c.names c.seen values false
  ({ c with seen := r.1 }, r.2)

def isAvailable (c : NamedBarrierValue) : Bool := setEq c.seen c.names

def consume (c : NamedBarrierValue) : NamedBarrierValue × Bool :=
  if setEq c.seen c.names then ({ c with seen := [] }, true) else (c, false)

end NamedBarrierValue

structure NamedBarrierValueAfterFinish where
  key : String
  names : List PyVal
  seen : List PyVal
  finished : Bool
  deriving DecidableEq

namespace NamedBarrierValueAfterFinish

def checkpoint (c : NamedBarrierValueAfterFinish) : PyVal := .tuple [.set c.seen, .bool c.finished]

def fromCheckpoint (c : NamedBarrierValueAfterFinish) :
    Option PyVal → NamedBarrierValueAfterFinish
  | some (.tuple [.set xs, .bool b]) => { c with seen := xs, finished := b }
  | _ => { c with seen := [], finished := false }

def update (c : NamedBarrierValueAfterFinish) (values : List PyVal) :
    Updated NamedBarrierValueAfterFinish :=
  let r := barrierUpdate c.key c.names c.seen values false
  ({ c with seen := r.1 }, r.2)

def isAvailable (c : NamedBarrierValueAfterFinish) : Bool := c.finished && setEq c.seen c.names

def consume (c : NamedBarrierValueAfterFinish) : NamedBarrierValueAfterFinish × Bool :=
  if c.finished && setEq c.seen c.names then ({ c with finished := false, seen := [] }, true)
  else (c, false)

def finish (c : NamedBarrierValueAfterFinish) : NamedBarrierValueAfterFinish × Bool :=
  if !c.finished && setEq c.seen c.names then ({ c with finished := true }, true)
  else (c, false)

end NamedBarrierValueAfterFinish

/-! ## channels/binop.py -/

structure BinaryOperatorAggregate where
  key : String
  operator : PyVal → PyVal → Except PyErr PyVal
  /-- `typ()`, when the type can be instantiated. -/
  typ : Option PyVal
  value : Option PyVal

namespace BinaryOperatorAggregate

def fromCheckpoint (c : BinaryOperatorAggregate) : Option PyVal → BinaryOperatorAggregate
  | some v => { c with value := some v }
  | none => { c with value := c.typ }

/-- The loop of `update`: once an `Overwrite` was met the values after it are
    ignored, and a second one raises. -/
def updateLoop (operator : PyVal → PyVal → Except PyErr PyVal) :
    PyVal → List PyVal → Bool → PyVal × Except PyErr Bool
  | value, [], _ => (value, .ok true)
  | value, v :: vs, seenOverwrite =>
    match getOverwrite v with
    | some ow =>
      if seenOverwrite then (value, .error (.invalidUpdate msgOneOverwrite))
      else updateLoop operator ow vs true
    | none =>
      if seenOverwrite then updateLoop operator value vs true
      else
        match operator value v with
        | .ok value' => updateLoop operator value' vs false
        | .error e => (value, .error e)

def update (c : BinaryOperatorAggregate) (values : List PyVal) :
    Updated BinaryOperatorAggregate :=
  match values, c.value with
  | [], _ => (c, .ok false)
  | v :: vs, none =>
    let r := updateLoop c.operator v vs false
    ({ c with value := some r.1 }, r.2)
  | vs, some value =>
    let r := updateLoop c.operator value vs false
    ({ c with value := some r.1 }, r.2)

end BinaryOperatorAggregate

/-! ## channels/delta.py -/

structure DeltaChannel where
  key : String
  reducer : PyVal → List PyVal → Except PyErr PyVal
  /-- `typ()` -/
  typ : PyVal
  snapshotFrequency : Nat
  frequency_pos : 0 < snapshotFrequency
  value : Option PyVal

namespace DeltaChannel

def fromCheckpoint (c : DeltaChannel) : Option PyVal → DeltaChannel
  | none => { c with value := some c.typ }
  | some (.deltaSnapshot v) => { c with value := some v }
  | some v => { c with value := some v }

/-- The value an `Overwrite` resets the channel to; `None` resets it to `typ()`. -/
def overwriteValue (c : DeltaChannel) : PyVal → PyVal
  | .none => c.typ
  | v => v

/-- The loop of `replay_writes`: the base that the last `Overwrite` leaves and
    the values after it. `remaining` holds the values met since. -/
def replayLoop (c : DeltaChannel) :
    Option PyVal → List PyVal → List PyVal → Option PyVal × List PyVal
  | base, remaining, [] => (base, remaining)
  | base, remaining, v :: vs =>
    match getOverwrite v with
    | some ow => replayLoop c (some (c.overwriteValue ow)) [] vs
    | none => replayLoop c base (remaining ++ [v]) vs

/-- `replay_writes`, on the values of the writes. -/
def replayWrites (c : DeltaChannel) (values : List PyVal) : Except PyErr DeltaChannel :=
  match values with
  | [] => .ok c
  | _ =>
    match replayLoop c c.value [] values with
    | (base, []) => .ok { c with value := base }
    | (some base, remaining) => do
      let v ← c.reducer base remaining
      return { c with value := some v }
    | (none, _) => .ok c -- the reducer would be handed MISSING: callers restore from a checkpoint first

/-- The first `Overwrite` among the values, or an error when there are two. -/
def findOverwrite : List PyVal → Option PyVal → Except PyErr (Option PyVal)
  | [], found => .ok found
  | v :: vs, found =>
    match getOverwrite v, found with
    | some _, some _ => .error (.invalidUpdate msgOneOverwrite)
    | some ow, none => findOverwrite vs (some ow)
    | none, _ => findOverwrite vs found

def update (c : DeltaChannel) (values : List PyVal) : Updated DeltaChannel :=
  match values with
  | [] => (c, .ok false)
  | _ =>
    match findOverwrite values none with
    | .error e => (c, .error e)
    | .ok (some ow) => ({ c with value := some (c.overwriteValue ow) }, .ok true)
    | .ok none =>
      match c.reducer (c.value.getD c.typ) values with
      | .ok v => ({ c with value := some v }, .ok true)
      | .error e => (c, .error e)

end DeltaChannel

/-! ## The channels of a graph -/

inductive Channel where
  | lastValue (c : LastValue)
  | lastValueAfterFinish (c : LastValueAfterFinish)
  | ephemeralValue (c : EphemeralValue)
  | anyValue (c : AnyValue)
  | untrackedValue (c : UntrackedValue)
  | topic (c : Topic)
  | namedBarrierValue (c : NamedBarrierValue)
  | namedBarrierValueAfterFinish (c : NamedBarrierValueAfterFinish)
  | binaryOperatorAggregate (c : BinaryOperatorAggregate)
  | deltaChannel (c : DeltaChannel)

namespace Channel

def update : Channel → List PyVal → Updated Channel
  | .lastValue c, vs => (c.update vs).map .lastValue id
  | .lastValueAfterFinish c, vs => (c.update vs).map .lastValueAfterFinish id
  | .ephemeralValue c, vs => (c.update vs).map .ephemeralValue id
  | .anyValue c, vs => (c.update vs).map .anyValue id
  | .untrackedValue c, vs => (c.update vs).map .untrackedValue id
  | .topic c, vs => (c.update vs).map .topic id
  | .namedBarrierValue c, vs => (c.update vs).map .namedBarrierValue id
  | .namedBarrierValueAfterFinish c, vs => (c.update vs).map .namedBarrierValueAfterFinish id
  | .binaryOperatorAggregate c, vs => (c.update vs).map .binaryOperatorAggregate id
  | .deltaChannel c, vs => (c.update vs).map .deltaChannel id

/-- `BaseChannel.consume`: a no-op unless the class overrides it. -/
def consume : Channel → Channel × Bool
  | .lastValueAfterFinish c => c.consume.map .lastValueAfterFinish id
  | .namedBarrierValue c => c.consume.map .namedBarrierValue id
  | .namedBarrierValueAfterFinish c => c.consume.map .namedBarrierValueAfterFinish id
  | c => (c, false)

/-- `BaseChannel.finish`: a no-op unless the class overrides it. -/
def finish : Channel → Channel × Bool
  | .lastValueAfterFinish c => c.finish.map .lastValueAfterFinish id
  | .namedBarrierValueAfterFinish c => c.finish.map .namedBarrierValueAfterFinish id
  | c => (c, false)

/-- `get`; the barriers hold no value and return `None` when available. -/
def get : Channel → Option PyVal
  | .lastValue c => c.value
  | .lastValueAfterFinish c => c.get
  | .ephemeralValue c => c.value
  | .anyValue c => c.value
  | .untrackedValue c => c.value
  | .topic c => c.get
  | .namedBarrierValue c => if c.isAvailable then some .none else none
  | .namedBarrierValueAfterFinish c => if c.isAvailable then some .none else none
  | .binaryOperatorAggregate c => c.value
  | .deltaChannel c => c.value

def isAvailable : Channel → Bool
  | .lastValue c => c.value.isSome
  | .lastValueAfterFinish c => c.value.isSome && c.finished
  | .ephemeralValue c => c.value.isSome
  | .anyValue c => c.value.isSome
  | .untrackedValue c => c.value.isSome
  | .topic c => !c.values.isEmpty
  | .namedBarrierValue c => c.isAvailable
  | .namedBarrierValueAfterFinish c => c.isAvailable
  | .binaryOperatorAggregate c => c.value.isSome
  | .deltaChannel c => c.value.isSome

def checkpoint : Channel → Option PyVal
  | .lastValue c => c.value
  | .lastValueAfterFinish c => c.checkpoint
  | .ephemeralValue c => c.value
  | .anyValue c => c.value
  | .untrackedValue _ => none
  | .topic c => some (.list c.values)
  | .namedBarrierValue c => some (.set c.seen)
  | .namedBarrierValueAfterFinish c => some c.checkpoint
  | .binaryOperatorAggregate c => c.value
  | .deltaChannel _ => none

def fromCheckpoint : Channel → Option PyVal → Channel
  | .lastValue c, v => .lastValue (c.fromCheckpoint v)
  | .lastValueAfterFinish c, v => .lastValueAfterFinish (c.fromCheckpoint v)
  | .ephemeralValue c, v => .ephemeralValue (c.fromCheckpoint v)
  | .anyValue c, v => .anyValue (c.fromCheckpoint v)
  | .untrackedValue c, v => .untrackedValue (c.fromCheckpoint v)
  | .topic c, v => .topic (c.fromCheckpoint v)
  | .namedBarrierValue c, v => .namedBarrierValue (c.fromCheckpoint v)
  | .namedBarrierValueAfterFinish c, v => .namedBarrierValueAfterFinish (c.fromCheckpoint v)
  | .binaryOperatorAggregate c, v => .binaryOperatorAggregate (c.fromCheckpoint v)
  | .deltaChannel c, v => .deltaChannel (c.fromCheckpoint v)

/-- `isinstance(ch, DeltaChannel)` -/
def asDelta : Channel → Option DeltaChannel
  | .deltaChannel c => some c
  | _ => none

/-- `isinstance(ch, UntrackedValue)` -/
def isUntracked : Channel → Bool
  | .untrackedValue _ => true
  | _ => false

/-- The value is available exactly when `get` returns one. -/
theorem isAvailable_eq_isSome_get (c : Channel) : c.isAvailable = c.get.isSome := by
  cases c with
  | lastValueAfterFinish c =>
    simp only [isAvailable, get, LastValueAfterFinish.get]
    cases c.finished <;> simp
  | topic c =>
    simp only [isAvailable, get, Topic.get]
    cases c.values <;> simp
  | namedBarrierValue c =>
    simp only [isAvailable, get]
    split <;> simp_all
  | namedBarrierValueAfterFinish c =>
    simp only [isAvailable, get]
    split <;> simp_all
  | _ => rfl

end Channel

end LangGraph
