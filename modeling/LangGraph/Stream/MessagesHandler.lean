import Mathlib.Data.List.Count
import LangGraph.Lib.Machine
import LangGraph.Lib.OrdDict

/- The callback handler of `stream_mode="messages"`.

   Correspondence (source ↔ Lean):
     `StreamMessagesHandler` (pregel/_messages.py)  ↔ `StreamMessagesHandler`
     `_state_values`                                ↔ `NodeValue.stateValues`
     `_emit`                                        ↔ `emit`
     `_find_and_emit_messages`                      ↔ `findAndEmitMessages` over `found`
     `on_chat_model_start` … `on_chain_error`       ↔ `onChatModelStart` … `onChainError`
     `filter_to_user_tags` (_internal/_config.py)   ↔ `filterToUserTags`
     `str(uuid4())`                                 ↔ `Uuid4`
   A message is an object: `ids` holds the id of each that has one, and `_emit`
   gives one to a message that has none. Between two callbacks the reducers may
   do the same (`assign`). The open node runs in `nodes` are kept for the
   statements only. -/
namespace LangGraph.StreamMessages

/-- What a node is given or returns, as far as the handler looks: a message
    object, a sequence, the fields of a dict, dataclass or model. -/
inductive NodeValue where
  | message (r : Nat)
  | list (items : List NodeValue)
  | tuple (items : List NodeValue)
  | state (fields : List (String × NodeValue))
  | command (update : NodeValue)
  | str (s : String)
  | other

namespace NodeValue

def isCommand : NodeValue → Bool
  | command _ => true
  | _ => false

/-- The value as a `Sequence`. The characters of a text are no messages. -/
def items : NodeValue → Option (List NodeValue)
  | list xs => some xs
  | tuple xs => some xs
  | str _ => some []
  | _ => none

/-- `_state_values`. A message is a model too, whose fields hold no message; of
    the fields of a command only the update can. -/
def stateValues : NodeValue → List NodeValue
  | state fields => fields.map Prod.snd
  | command u => [u]
  | _ => []

/-- The items that are messages. -/
def messagesIn (xs : List NodeValue) : List Nat :=
  xs.filterMap fun
    | message r => some r
    | _ => none

/-- The messages of one field: the value, or the items of the sequence it is. -/
def fieldMessages : NodeValue → List Nat
  | message r => [r]
  | v => messagesIn (v.items.getD [])

/-- The messages `_find_and_emit_messages` comes across, in order. -/
def found : NodeValue → List Nat
  | message r => [r]
  | v =>
    match v.items with
    | some xs => messagesIn xs
    | none => v.stateValues.flatMap fieldMessages

/-- The messages `on_chain_end` looks at: those of the updates of commands, or
    of the response. -/
def searched : NodeValue → List Nat
  | command u => u.found
  | v =>
    match v.items with
    | some xs =>
      if xs.any isCommand then
        xs.flatMap fun
          | command u => u.found
          | x => x.found
      else v.found
    | none => v.found

end NodeValue

structure RunMetadata where
  langgraphNode : String
  langgraphCheckpointNs : String
  tags : Option (List String)
  deriving Repr, DecidableEq

/-- `Meta`: the namespace and the metadata of a run. -/
structure Meta where
  ns : List String
  metadata : RunMetadata
  deriving Repr, DecidableEq

/-- A stream chunk `(ns, "messages", (message, metadata))`, with the id the
    message has when it is sent. -/
structure Chunk where
  ns : List String
  message : Nat
  id : String
  metadata : RunMetadata
  deriving Repr, DecidableEq

structure StreamMessagesHandler where
  subgraphs : Bool
  parentNs : Option (List String)
  metadata : OrdDict Nat Meta
  seen : List String

/-- An open run of a node: its metadata and its input. -/
structure NodeRun where
  ns : List String
  metadata : RunMetadata
  inputs : NodeValue

structure World where
  handler : StreamMessagesHandler
  ids : OrdDict Nat String
  stream : List Chunk
  nodes : OrdDict Nat NodeRun

/-- `str(uuid4())`: an id no message has. -/
structure Uuid4 where
  draw : OrdDict Nat String → String
  fresh : ∀ ids r, ids.get? r ≠ some (draw ids)

def TAG_NOSTREAM := "nostream"
def TAG_HIDDEN := "langsmith:hidden"

def filterToUserTags (tags : List String) : Option (List String) :=
  match tags.filter fun t => !t.startsWith "seq:step" with
  | [] => none
  | filtered => some filtered

/-- `tuple(checkpoint_ns.split(NS_SEP))[:-1]`. -/
def namespaceOf (checkpointNs : String) : List String :=
  ((checkpointNs.toList.splitOn '|').map String.ofList).dropLast

inductive Event where
  | chatModelStart (run : Nat) (tags : List String) (metadata : Option RunMetadata)
  | llmNewToken (run : Nat) (chunk : Option Nat)
  | llmEnd (run : Nat) (message : Option Nat)
  | llmError (run : Nat)
  | chainStart (run : Nat) (name : String) (inputs : NodeValue) (tags : List String)
      (metadata : Option RunMetadata)
  | chainEnd (run : Nat) (response : NodeValue)
  | chainError (run : Nat)
  | assign (message : Nat) (id : String)

namespace World

/- ── The handler ───────────────────────────────────────────────────────────── -/

def forget (w : World) (run : Nat) : World :=
  { w with handler := { w.handler with metadata := w.handler.metadata.erase run } }

def record (w : World) (run : Nat) (runMeta : Meta) : World :=
  { w with handler := { w.handler with metadata := w.handler.metadata.set run runMeta } }

/-- `self.seen.add(id)`. -/
def see (w : World) (id : String) : World :=
  { w with handler := { w.handler with seen := id :: w.handler.seen } }

def send (w : World) (runMeta : Meta) (message : Nat) (id : String) : World :=
  { w.see id with stream := w.stream ++ [⟨runMeta.ns, message, id, runMeta.metadata⟩] }

def emit (u : Uuid4) (runMeta : Meta) (dedupe : Bool) (w : World) (message : Nat) : World :=
  match w.ids.get? message with
  | some id =>
    if dedupe && w.handler.seen.contains id then w else w.send runMeta message id
  | none =>
    { w with ids := w.ids.set message (u.draw w.ids) }.send runMeta message (u.draw w.ids)

def findAndEmitMessages (u : Uuid4) (w : World) (runMeta : Meta) (messages : List Nat) : World :=
  messages.foldl (emit u runMeta true) w

def onChatModelStart (w : World) (run : Nat) (tags : List String) :
    Option RunMetadata → World
  | some metadata =>
    if TAG_NOSTREAM ∈ tags then w
    else
      let ns := namespaceOf metadata.langgraphCheckpointNs
      if !w.handler.subgraphs && !ns.isEmpty && decide (some ns ≠ w.handler.parentNs) then w
      else w.record run ⟨ns, { metadata with tags := (filterToUserTags tags).or metadata.tags }⟩
  | none => w

def onLlmNewToken (u : Uuid4) (w : World) (run : Nat) : Option Nat → World
  | some chunk =>
    match w.handler.metadata.get? run with
    | some runMeta => emit u runMeta false w chunk
    | none => w
  | none => w

/-- The message is that of the first generation, when it is a chat generation. -/
def onLlmEnd (u : Uuid4) (w : World) (run : Nat) (message : Option Nat) : World :=
  let w' :=
    match w.handler.metadata.get? run, message with
    | some runMeta, some m => emit u runMeta true w m
    | _, _ => w
  w'.forget run

def onLlmError (w : World) (run : Nat) : World := w.forget run

/-- `self.seen.add(m.id)` where the message has an id. -/
def mark (w : World) (m : Nat) : World :=
  match w.ids.get? m with
  | some id => w.see id
  | none => w

def onChainStart (w : World) (run : Nat) (name : String) (inputs : NodeValue)
    (tags : List String) : Option RunMetadata → World
  | some metadata =>
    if name = metadata.langgraphNode ∧ TAG_HIDDEN ∉ tags then
      let ns := namespaceOf metadata.langgraphCheckpointNs
      if !w.handler.subgraphs && !ns.isEmpty then w
      else
        (inputs.stateValues.flatMap NodeValue.fieldMessages).foldl mark
          (w.record run ⟨ns, metadata⟩)
    else w
  | none => w

def onChainEnd (u : Uuid4) (w : World) (run : Nat) (response : NodeValue) : World :=
  match w.handler.metadata.get? run with
  | some runMeta => findAndEmitMessages u (w.forget run) runMeta response.searched
  | none => w

def onChainError (w : World) (run : Nat) : World := w.forget run

/-- A message without an id gets one outside the handler. -/
def assign (w : World) (message : Nat) (id : String) : World :=
  match w.ids.get? message with
  | some _ => w
  | none => { w with ids := w.ids.set message id }

/- ── The runs of nodes ─────────────────────────────────────────────────────── -/

/-- The handler streams the messages of this namespace: any with `subgraphs`,
    else those of the outermost graph and of the graph it was created in. -/
def streams (w : World) (ns : List String) : Bool :=
  w.handler.subgraphs || ns.isEmpty || decide (some ns = w.handler.parentNs)

/-- Keep the run, when it is a node's whose messages are streamed. -/
def openNode (w : World) (run : Nat) (name : String) (inputs : NodeValue) (tags : List String) :
    Option RunMetadata → World
  | some metadata =>
    if name = metadata.langgraphNode ∧ TAG_HIDDEN ∉ tags ∧
        w.streams (namespaceOf metadata.langgraphCheckpointNs) then
      { w with nodes :=
          w.nodes.set run ⟨namespaceOf metadata.langgraphCheckpointNs, metadata, inputs⟩ }
    else w
  | none => w

def closeNode (w : World) (run : Nat) : World := { w with nodes := w.nodes.erase run }

def step (u : Uuid4) (w : World) : Event → World
  | .chatModelStart run tags metadata => w.onChatModelStart run tags metadata
  | .llmNewToken run chunk => onLlmNewToken u w run chunk
  | .llmEnd run message => onLlmEnd u w run message
  | .llmError run => w.onLlmError run
  | .chainStart run name inputs tags metadata =>
    (w.openNode run name inputs tags metadata).onChainStart run name inputs tags metadata
  | .chainEnd run response => (onChainEnd u w run response).closeNode run
  | .chainError run => (w.onChainError run).closeNode run
  | .assign message id => w.assign message id

/-- A new handler among messages some of which have ids. -/
def start (subgraphs : Bool) (parentNs : Option (List String)) (ids : OrdDict Nat String) :
    World :=
  ⟨⟨subgraphs, parentNs, ∅, []⟩, ids, [], ∅⟩

end World
end LangGraph.StreamMessages
