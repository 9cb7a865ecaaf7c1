import Mathlib.Algebra.GroupWithZero.Nat
import Mathlib.Data.List.Basic

/- What tools return to a `ToolNode`, and what the node makes of it.

   Correspondence (source ↔ Lean):
     `ToolMessage`, `Command` (and `Send`)         ↔ `ToolMessage`, `Command`, `Goto`
     `msg_content_output` (tool_node.py)           ↔ `msgContentOutput`
     `_normalize_tool_response`                    ↔ `normalizeToolResponse`
     `_validate_tool_command_list`                 ↔ `validateToolCommandList`
     `_validate_tool_command`                      ↔ `validateToolCommand`
     `_combine_tool_outputs`                       ↔ `combineToolOutputs` -/
namespace LangGraph.ToolNode

variable {V : Type}

/- ── Messages and commands ─────────────────────────────────────────────────── -/

/-- The content of a message: a text, or any other value. -/
inductive Content (V : Type) where
  | text (s : String)
  | other (v : V)
  deriving DecidableEq

structure ToolMessage (V : Type) where
  content : Content V
  name : Option String
  toolCallId : String
  status : String
  deriving DecidableEq

/-- A message of an update. `toolDict` is a dict that `convert_to_messages` reads as a
    tool message, `removeAll` the `RemoveMessage` for all messages. -/
inductive Message (V : Type) where
  | tool (m : ToolMessage V)
  | toolDict (m : ToolMessage V)
  | removeAll
  | other (v : V)
  deriving DecidableEq

/-- `Command.update`: a dict with the messages under the messages key, a list of
    messages, or another value, which `absent` stands for when it is `None`. -/
inductive Update (V : Type) where
  | absent
  | dict (messages : List (Message V)) (rest : V)
  | list (messages : List (Message V))
  | other (v : V)
  deriving DecidableEq

structure Send (V : Type) where
  node : String
  arg : V
  deriving DecidableEq

inductive Target (V : Type) where
  | node (name : String)
  | send (s : Send V)
  deriving DecidableEq

/-- `Command.goto`; a sequence is a list or a tuple. -/
inductive Goto (V : Type) where
  | one (t : Target V)
  | list (ts : List (Target V))
  | tuple (ts : List (Target V))
  deriving DecidableEq

def Goto.targets : Goto V → List (Target V)
  | .one t => [t]
  | .list ts => ts
  | .tuple ts => ts

structure Command (V : Type) where
  graph : Option String
  update : Update V
  resume : Option V
  goto : Goto V
  deriving DecidableEq

def PARENT : String := "__parent__"

inductive Item (V : Type) where
  | message (m : ToolMessage V)
  | command (c : Command V)
  deriving DecidableEq

/-- What a tool returns. `badList` has an element that is neither a message nor a
    command, `other` is of another type, given by its name. -/
inductive Response (V : Type) where
  | message (m : ToolMessage V)
  | command (c : Command V)
  | list (items : List (Item V))
  | badList
  | other (type : String)

/-- What a tool call comes to: an item, or a list of them. -/
inductive Output (V : Type) where
  | item (i : Item V)
  | list (items : List (Item V))
  deriving DecidableEq

structure ToolCall (V : Type) where
  id : String
  name : String
  args : V
  deriving DecidableEq

inductive InputType where
  | list
  | dict
  | toolCalls
  deriving DecidableEq

inductive ToolError where
  | value (text : String)
  | type (text : String)
  deriving DecidableEq

/-- The texts of values in errors, and the content that another value is dumped to. -/
structure Texts (V : Type) where
  update : Update V → String
  messages : List (Message V) → String
  repr : String → String
  dumps : V → Content V

/- ── Normalisation ─────────────────────────────────────────────────────────── -/

section

variable (texts : Texts V) (messagesKey : String) (call : ToolCall V) (inputType : InputType)

def msgContentOutput : Content V → Content V
  | .text s => .text s
  | .other v => texts.dumps v

/-- `convert_to_messages`. -/
def Message.convert : Message V → Message V
  | .toolDict m => .tool m
  | m => m

/-- `messages_update == [RemoveMessage(id=REMOVE_ALL_MESSAGES)]`. -/
def removesAll : List (Message V) → Bool
  | [.removeAll] => true
  | _ => false

/-- `isinstance(msg, ToolMessage) and msg.tool_call_id == id`. -/
def Message.answers (id : String) : Message V → Bool
  | .tool m => m.toolCallId = id
  | _ => false

/-- The matching tool messages get the name of the call; the copy that a dict is
    converted to is dropped. -/
def Message.named : Message V → Message V
  | .tool m => if m.toolCallId = call.id then .tool { m with name := some call.name } else .tool m
  | m => m

/-- The messages of a command's update, when it is a dict or a list. -/
def Update.messages : Update V → Option (List (Message V))
  | .dict ms _ => some ms
  | .list ms => some ms
  | _ => none

def Update.map (f : Message V → Message V) : Update V → Update V
  | .dict ms rest => .dict (ms.map f) rest
  | .list ms => .list (ms.map f)
  | u => u

def dictText (u : Update V) : String :=
  "Tools can provide a dict in Command.update only when using dict with '" ++ messagesKey ++
    "' key as ToolNode input, got: " ++ texts.update u ++ " for tool '" ++ call.name ++ "'"

def listText (u : Update V) : String :=
  "Tools can provide a list of messages in Command.update only when using list of " ++
    "messages as ToolNode input, got: " ++ texts.update u ++ " for tool '" ++ call.name ++ "'"

def exampleUpdate : String :=
  if inputType = .dict then
    "`Command(update=\x7b\"messages\": [ToolMessage(\"Success\", " ++
      "tool_call_id=tool_call_id), ...]\x7d, ...)`"
  else
    "`Command(update=[ToolMessage(\"Success\", tool_call_id=tool_call_id), ...], ...)`"

def matchingText (messages : List (Message V)) : String :=
  "Expected to have a matching ToolMessage in Command.update for tool '" ++ call.name ++
    "', got: " ++ texts.messages messages ++
    ". Every tool call (LLM requesting to call a tool) in the message history MUST have a " ++
    "corresponding ToolMessage. You can fix it by modifying the tool to return " ++
    exampleUpdate inputType ++ "."

/-- The error of an update that does not fit the input of the node. -/
def misfit (u : Update V) : Option ToolError :=
  match u with
  | .dict _ _ => if inputType = .list then some (.value (dictText texts messagesKey call u)) else none
  | .list _ => if inputType ≠ .list then some (.value (listText texts call u)) else none
  | _ => none

def validateToolCommand (requireTerminator : Bool) (command : Command V) :
    Except ToolError (Command V) :=
  match misfit texts messagesKey call inputType command.update with
  | some e => .error e
  | none =>
    match command.update.messages with
    | none => .ok command
    | some ms =>
      let messages := ms.map Message.convert
      -- nothing is validated when all messages are removed
      if removesAll messages then .ok command
      else if requireTerminator ∧ command.graph = none ∧
          messages.any (Message.answers call.id) = false then
        .error (.value (matchingText texts call inputType (messages.map (Message.named call))))
      else .ok { command with update := command.update.map (Message.named call) }

/-- The messages that end the call: at the top, or in the dict of an update. -/
def terminators (id : String) : Item V → Nat
  | .message m => if m.toolCallId = id then 1 else 0
  | .command c =>
    match c.update with
    | .dict ms _ => ms.countP (Message.answers id)
    | _ => 0

def countText (count : Nat) : String :=
  "Tool " ++ call.name ++ " returned a list with " ++ toString count ++
    " messages bound to tool_call_id " ++ texts.repr call.id ++
    "; expected exactly one terminating ToolMessage."

/-- The message with its content as a text or blocks. -/
def ToolMessage.output (m : ToolMessage V) : ToolMessage V :=
  { m with content := msgContentOutput texts m.content }

def validateItem : Item V → Except ToolError (Item V)
  | .command c =>
    (validateToolCommand texts messagesKey call inputType false c).map .command
  | .message m => .ok (.message (m.output texts))

def validateToolCommandList (items : List (Item V)) : Except ToolError (List (Item V)) :=
  let count := (items.map (terminators call.id)).sum
  if count ≠ 1 then .error (.value (countText texts call count))
  else items.mapM (validateItem texts messagesKey call inputType)

def normalizeToolResponse : Response V → Except ToolError (Output V)
  | .command c =>
    (validateToolCommand texts messagesKey call inputType true c).map fun c => .item (.command c)
  | .message m => .ok (.item (.message (m.output texts)))
  | .list items => (validateToolCommandList texts messagesKey call inputType items).map .list
  | .badList =>
    .error (.type ("Tool " ++ call.name ++ " returned a list with invalid element types: " ++
      "expected all Command or ToolMessage"))
  | .other type =>
    .error (.type ("Tool " ++ call.name ++ " returned unexpected type: " ++ type))

end

/- ── Combination ───────────────────────────────────────────────────────────── -/

/-- An entry of the node's update: a command, or messages as a list or under the
    messages key. -/
inductive Combined (V : Type) where
  | command (c : Command V)
  | messages (keyed : Bool) (ms : List (ToolMessage V))
  deriving DecidableEq

def Output.flat : Output V → List (Item V)
  | .item i => [i]
  | .list items => items

/-- A command to the parent graph whose `goto` is a list of sends only. -/
def Command.merges (c : Command V) : Bool :=
  decide (c.graph = some PARENT) &&
    match c.goto with
    | .list ts => ts.all fun t => match t with
      | .send _ => true
      | .node _ => false
    | _ => false

/-- The entries, and the one command to the parent graph that the others are merged to. -/
def combineLoop (keyed : Bool) : Option (Command V) → List (Item V) →
    List (Combined V) × Option (Command V)
  | parent, [] => ([], parent)
  | parent, .message m :: rest =>
    let (combined, parent) := combineLoop keyed parent rest
    (.messages keyed [m] :: combined, parent)
  | parent, .command c :: rest =>
    if c.merges then
      match parent with
      | some p => combineLoop keyed (some { p with goto := .list (p.goto.targets ++ c.goto.targets) }) rest
      | none => combineLoop keyed (some ⟨some PARENT, .absent, none, c.goto⟩) rest
    else
      let (combined, parent) := combineLoop keyed parent rest
      (.command c :: combined, parent)

def isCommand : Item V → Bool
  | .command _ => true
  | .message _ => false

def Item.message? : Item V → Option (ToolMessage V)
  | .message m => some m
  | .command _ => none

/-- The update of the node. -/
def combineToolOutputs (inputType : InputType) (outputs : List (Output V)) :
    List (Combined V) :=
  let flat := outputs.flatMap Output.flat
  let keyed := decide (inputType ≠ .list)
  if flat.any isCommand = false then [.messages keyed (flat.filterMap Item.message?)]
  else
    match combineLoop keyed none flat with
    | (combined, some parent) => combined ++ [.command parent]
    | (combined, none) => combined

end LangGraph.ToolNode
