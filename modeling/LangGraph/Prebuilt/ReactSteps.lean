import Mathlib.Data.List.Induction

/- The agent of `create_react_agent` under a recursion limit.

   Correspondence (source ↔ Lean):
     `_are_more_steps_needed`                    ↔ `areMoreStepsNeeded`
     `_validate_chat_history`                    ↔ `validChat`
     `call_model`, `_get_model_input_state`      ↔ `callModel`, `modelInput`
     `should_continue`, `agent_paths`            ↔ `shouldContinue`, `agentPaths`
     `post_model_hook_router`                    ↔ `postModelHookRouter`
     `route_tool_responses`                      ↔ `routeToolResponses`
     `BranchSpec._finish` (graph/_branch.py)     ↔ `finish`
     `RemainingStepsManager.get`                 ↔ `Loop.remaining`
     `PregelLoop.__enter__`, `tick`              ↔ `Loop.enter`, `loop`
   The model and the hooks are functions of the number of nodes that were run before and
   of the state. A tool call is answered by one `ToolMessage` under the name of its tool;
   nodes return messages that are not in the list yet, which `add_messages` appends.
   `run_ends_iff`: when a run comes to a regular end. -/
namespace LangGraph.React

/- ── Messages and nodes ────────────────────────────────────────────────────── -/

structure Call where
  id : String
  name : String
  deriving DecidableEq

inductive Msg where
  | ai (content : String) (toolCalls : List Call)
  | tool (toolCallId name : String)
  | other
  deriving DecidableEq

inductive Version where
  | v1
  | v2
  deriving DecidableEq

/-- What `create_react_agent` is given; `returnDirect` are the names of the tools that
    return directly. -/
structure Agent where
  version : Version
  toolCallingEnabled : Bool
  returnDirect : List String
  preModelHook : Bool
  postModelHook : Bool
  responseFormat : Bool

/-- The messages, and `llm_input_messages` (empty when it is not there). -/
structure AgentState where
  messages : List Msg
  llmInputMessages : List Msg
  deriving DecidableEq

structure Env where
  model : Nat → List Msg → String × List Call
  preModelHook : Nat → AgentState → AgentState
  postModelHook : Nat → AgentState → AgentState

inductive Node where
  | start
  | preModelHook
  | agent
  | postModelHook
  | tools
  | generateStructuredResponse
  deriving DecidableEq

/-- What the next superstep runs: a node, one tool task for each call, or nothing. -/
inductive Next where
  | node (n : Node)
  | sends (calls : List Call)
  | done
  deriving DecidableEq

inductive Failure where
  | invalidChatHistory
  | keyError
  | noAIMessage
  deriving DecidableEq

/- ── The model node ────────────────────────────────────────────────────────── -/

def Msg.toolCalls : Msg → List Call
  | .ai _ calls => calls
  | _ => []

def Msg.toolCallId? : Msg → Option String
  | .tool id _ => some id
  | _ => none

/-- Every tool call of an AI message has a tool message. -/
def validChat (messages : List Msg) : Bool :=
  (messages.flatMap Msg.toolCalls).all fun call =>
    call.id ∈ messages.filterMap Msg.toolCallId?

section

variable (agent : Agent) (env : Env)

def areMoreStepsNeeded (remaining : Option Int) (calls : List Call) : Bool :=
  match remaining with
  | none => false
  | some r =>
    if r < 1 ∧ calls.all (fun call => call.name ∈ agent.returnDirect) = true then true
    else decide (r < 2 ∧ calls ≠ [])

def modelInput (s : AgentState) : List Msg :=
  if agent.preModelHook = true ∧ s.llmInputMessages ≠ [] then s.llmInputMessages else s.messages

/-- The message of the model, or the one that takes its place. -/
def reply (remaining : Option Int) (response : String × List Call) : Msg :=
  if areMoreStepsNeeded agent remaining response.2 then
    .ai "Sorry, need more steps to process this request." []
  else .ai response.1 response.2

def callModel (remaining : Option Int) (j : Nat) (s : AgentState) : Except Failure AgentState :=
  if validChat (modelInput agent s) = false then .error .invalidChatHistory
  else .ok { s with messages :=
    s.messages ++ [reply agent remaining (env.model j (modelInput agent s))] }

end

/- ── Routing ───────────────────────────────────────────────────────────────── -/

section

variable (agent : Agent)

def entrypoint : Next :=
  if agent.preModelHook then .node .preModelHook else .node .agent

def shouldContinue (messages : List Msg) : Next :=
  match (messages.getLast?.map Msg.toolCalls).getD [] with
  | [] =>
    if agent.postModelHook then .node .postModelHook
    else if agent.responseFormat then .node .generateStructuredResponse
    else .done
  | calls =>
    match agent.version with
    | .v1 => .node .tools
    | .v2 => if agent.postModelHook then .node .postModelHook else .sends calls

def agentPaths : List Next :=
  if agent.postModelHook then [.node .postModelHook]
  else if agent.responseFormat then [.node .tools, .node .generateStructuredResponse]
  else [.node .tools, .done]

/-- The name that a router returns must be among the paths. -/
def finish (paths : List Next) : Next → Except Failure Next
  | .sends calls => .ok (.sends calls)
  | next => if next ∈ paths then .ok next else .error .keyError

/-- With a post model hook there is an edge to it besides the branch, which can then
    return nothing else. -/
def afterAgent (messages : List Msg) : Except Failure Next :=
  if agent.toolCallingEnabled = false then
    .ok (if agent.postModelHook then .node .postModelHook
      else if agent.responseFormat then .node .generateStructuredResponse
      else .done)
  else finish (agentPaths agent) (shouldContinue agent messages)

/-- The tool calls of the last AI message. -/
def lastAiCalls : List Msg → Option (List Call)
  | [] => none
  | m :: rest =>
    match lastAiCalls rest with
    | some calls => some calls
    | none =>
      match m with
      | .ai _ calls => some calls
      | _ => none

/-- The calls of the last AI message without a tool message. -/
def pendingToolCalls (messages : List Msg) : Option (List Call) :=
  (lastAiCalls messages).map fun calls =>
    calls.filter fun call => call.id ∉ messages.filterMap Msg.toolCallId?

def isTool : Option Msg → Bool
  | some (.tool _ _) => true
  | _ => false

def postModelHookRouter (messages : List Msg) : Except Failure Next :=
  match pendingToolCalls messages with
  | none => .error .noAIMessage
  | some [] =>
    if isTool messages.getLast? then .ok (entrypoint agent)
    else if agent.responseFormat then .ok (.node .generateStructuredResponse)
    else .ok .done
  | some calls => .ok (.sends calls)

def afterPostModelHook (messages : List Msg) : Except Failure Next :=
  if agent.toolCallingEnabled = false then
    .ok (if agent.responseFormat then .node .generateStructuredResponse else .done)
  else postModelHookRouter agent messages

/-- The loop of `route_tool_responses`, over the messages from the last one back. -/
def returnsDirect : List Msg → Bool
  | [] => false
  | .tool _ name :: rest => name ∈ agent.returnDirect || returnsDirect rest
  | .ai _ calls :: _ => calls.any fun call => call.name ∈ agent.returnDirect
  | .other :: _ => false

def routeToolResponses (messages : List Msg) : Next :=
  if returnsDirect agent messages.reverse then .done else entrypoint agent

/-- Every tool task routes by what it sees. -/
def afterTools (seen : List (List Msg)) : Next :=
  if seen.all fun messages => routeToolResponses agent messages = .done then .done
  else entrypoint agent

end

/- ── Supersteps ────────────────────────────────────────────────────────────── -/

def toolMessage (call : Call) : Msg := .tool call.id call.name

section

variable (agent : Agent) (env : Env)

/-- One superstep, after `j` others. -/
def execute (remaining : Option Int) (j : Nat) (s : AgentState) :
    Next → Except Failure (Next × AgentState)
  | .done => .ok (.done, s)
  | .node .start => .ok (entrypoint agent, s)
  | .node .preModelHook => .ok (.node .agent, env.preModelHook j s)
  | .node .agent =>
    match callModel agent env remaining j s with
    | .error e => .error e
    | .ok s' =>
      match afterAgent agent s'.messages with
      | .error e => .error e
      | .ok next => .ok (next, s')
  | .node .postModelHook =>
    match afterPostModelHook agent (env.postModelHook j s).messages with
    | .error e => .error e
    | .ok next => .ok (next, env.postModelHook j s)
  | .node .generateStructuredResponse => .ok (.done, s)
  | .node .tools =>
    match lastAiCalls s.messages with
    | none => .error .noAIMessage
    | some calls =>
      let s' := { s with messages := s.messages ++ calls.map toolMessage }
      .ok (afterTools agent [s'.messages], s')
  | .sends calls =>
    .ok (afterTools agent (calls.map fun call => s.messages ++ [toolMessage call]),
      { s with messages := s.messages ++ calls.map toolMessage })

structure Loop where
  step : Int
  stop : Int

/-- The loop after the input checkpoint. -/
def Loop.enter (checkpointStep : Int) (recursionLimit : Nat) : Loop :=
  let step := checkpointStep + 1
  let stop := step + recursionLimit + 1
  ⟨step + 1, stop⟩

def Loop.remaining (l : Loop) : Int := l.stop - l.step

inductive Outcome where
  | done (s : AgentState)
  | outOfSteps
  | raised (e : Failure)
  deriving DecidableEq

/-- Ticks until the run ends; none when the fuel does not last so long. -/
def loop : Nat → Loop → Nat → Next → AgentState → Option Outcome
  | 0, _, _, _, _ => none
  | fuel + 1, l, j, next, s =>
    if l.step > l.stop then some .outOfSteps
    else if next = .done then some (.done s)
    else
      match execute agent env (some l.remaining) j s next with
      | .error e => some (.raised e)
      | .ok (next', s') => loop fuel { l with step := l.step + 1 } (j + 1) next' s'

/-- A run with new input, on a thread whose last checkpoint has the given step. -/
def run (recursionLimit : Nat) (checkpointStep : Int) (s : AgentState) : Option Outcome :=
  loop agent env (recursionLimit + 2) (Loop.enter checkpointStep recursionLimit) 0
    (.node .start) s

end

/- ── The run as a conversation ─────────────────────────────────────────────── -/

section

variable (agent : Agent) (env : Env)

/-- The node to run and the state after `n` supersteps, when the nodes see the given
    remaining steps. -/
def conversation (remaining : Nat → Option Int) (s : AgentState) :
    Nat → Except Failure (Next × AgentState)
  | 0 => .ok (.node .start, s)
  | n + 1 =>
    match conversation remaining s n with
    | .error e => .error e
    | .ok (next, s') => execute agent env (remaining n) n s' next

/-- The conversation that the agent has when it does not look at the remaining steps. -/
def unlimited (s : AgentState) (n : Nat) : Except Failure (Next × AgentState) :=
  conversation agent env (fun _ => none) s n

/-- The conversation under a recursion limit. -/
def limited (recursionLimit : Nat) (s : AgentState) (n : Nat) :
    Except Failure (Next × AgentState) :=
  conversation agent env (fun j => some (recursionLimit - j)) s n

/-- How a run ends, read off the conversation. -/
def verdict (recursionLimit : Nat) (s : AgentState) : Outcome :=
  match limited agent env recursionLimit s recursionLimit with
  | .error e => .raised e
  | .ok (.done, s') => .done s'
  | .ok (_, _) =>
    match limited agent env recursionLimit s (recursionLimit + 1) with
    | .error e => .raised e
    | .ok _ => .outOfSteps

end

section

variable {agent : Agent} {env : Env} {remaining : Nat → Option Int} {s t : AgentState}

theorem conversation_succ {n : Nat} {next : Next}
    (h : conversation agent env remaining s n = .ok (next, t)) :
    conversation agent env remaining s (n + 1) = execute agent env (remaining n) n t next := by
  rw [conversation, h]

theorem conversation_done {n : Nat} (h : conversation agent env remaining s n = .ok (.done, t)) :
    ∀ k, conversation agent env remaining s (n + k) = .ok (.done, t)
  | 0 => h
  | k + 1 => conversation_succ (conversation_done h k)

theorem conversation_error {n : Nat} {e : Failure}
    (h : conversation agent env remaining s n = .error e) :
    ∀ k, conversation agent env remaining s (n + k) = .error e
  | 0 => h
  | k + 1 => by
    rw [← Nat.add_assoc, conversation, conversation_error h k]

theorem loop_eq {recursionLimit : Nat} (start : Int) :
    ∀ (d j : Nat) (next : Next) (t : AgentState), j + d = recursionLimit →
      limited agent env recursionLimit s j = .ok (next, t) →
      loop agent env (d + 2) ⟨start + j, start + recursionLimit⟩ j next t =
        some (verdict agent env recursionLimit s) := by
  intro d
  induction d with
  | zero =>
    intro j next t hj hnow
    obtain rfl : j = recursionLimit := hj
    have hstep : ¬ start + (j : Int) > start + (j : Int) := by omega
    unfold loop verdict
    rw [if_neg hstep, hnow]
    by_cases hnext : next = .done
    · rw [if_pos hnext, hnext]
    · have hnext' := conversation_succ hnow
      have hremaining : Loop.remaining ⟨start + (j : Int), start + j⟩ = (j : Int) - j := by
        show start + (j : Int) - (start + j) = _
        omega
      rw [if_neg hnext, hremaining]
      have hverdict : limited agent env j s (j + 1) = _ := hnext'
      rw [hverdict]
      -- the next tick finds the step behind the stop
      have hlast : ∀ next' t', loop agent env 1 ⟨start + (j : Int) + 1, start + j⟩ (j + 1) next'
          t' = some .outOfSteps := by
        intro next' t'
        unfold loop
        rw [if_pos (by show start + (j : Int) + 1 > start + j; omega)]
      cases hresult : execute agent env (some ((j : Int) - j)) j t next with
      | error e =>
        cases next with
        | done => exact absurd rfl hnext
        | node n => rfl
        | sends calls => rfl
      | ok result =>
        cases next with
        | done => exact absurd rfl hnext
        | node n => exact hlast result.1 result.2
        | sends calls => exact hlast result.1 result.2
  | succ d ih =>
    intro j next t hj hnow
    have hstep : ¬ start + (j : Int) > start + (recursionLimit : Int) := by omega
    unfold loop
    rw [if_neg hstep]
    by_cases hnext : next = .done
    · rw [if_pos hnext]
      have hdone := conversation_done (hnext ▸ hnow) (d + 1)
      rw [hj] at hdone
      unfold verdict limited
      rw [hdone]
    · have hsucc := conversation_succ hnow
      have hremaining : Loop.remaining ⟨start + (j : Int), start + recursionLimit⟩ =
          (recursionLimit : Int) - j := by
        show start + (recursionLimit : Int) - (start + j) = _
        omega
      rw [if_neg hnext, hremaining]
      cases hresult : execute agent env (some ((recursionLimit : Int) - j)) j t next with
      | error e =>
        have herror := conversation_error (hsucc.trans hresult) d
        rw [show j + 1 + d = recursionLimit by omega] at herror
        unfold verdict limited
        rw [herror]
      | ok result =>
        have hstart : start + (j : Int) + 1 = start + ((j + 1 : Nat) : Int) := by omega
        show loop agent env (d + 2) ⟨start + (j : Int) + 1, start + recursionLimit⟩ (j + 1)
          result.1 result.2 = _
        rw [hstart]
        exact ih (j + 1) result.1 result.2 (by omega) (hsucc.trans hresult)

/-- A run always returns, with the verdict on the conversation: whatever the number of
    its first step, the limit leaves it that many supersteps to come to its end. -/
theorem run_eq (recursionLimit : Nat) (checkpointStep : Int) :
    run agent env recursionLimit checkpointStep s =
      some (verdict agent env recursionLimit s) := by
  have hstart : loop agent env (recursionLimit + 2)
      ⟨checkpointStep + 1 + 1 + ((0 : Nat) : Int), checkpointStep + 1 + 1 + recursionLimit⟩ 0
      (.node .start) s = some (verdict agent env recursionLimit s) :=
    loop_eq (checkpointStep + 1 + 1) recursionLimit 0 (.node .start) s (Nat.zero_add _) rfl
  have henter : Loop.enter checkpointStep recursionLimit =
      ⟨checkpointStep + 1 + 1 + ((0 : Nat) : Int), checkpointStep + 1 + 1 + recursionLimit⟩ := by
    show Loop.mk (checkpointStep + 1 + 1) (checkpointStep + 1 + recursionLimit + 1) = _
    rw [Loop.mk.injEq]
    omega
  unfold run
  rw [henter]
  exact hstart

theorem verdict_done_iff {recursionLimit : Nat} :
    verdict agent env recursionLimit s = .done t ↔
      limited agent env recursionLimit s recursionLimit = .ok (.done, t) := by
  unfold verdict
  split
  · rename_i h
    rw [h]
    simp
  · rename_i h
    rw [h]
    simp
  · rename_i next s' hnext h
    rw [h]
    refine ⟨?_, ?_⟩
    · split
      · exact fun heq => (nomatch heq)
      · exact fun heq => (nomatch heq)
    · intro heq
      exact absurd (congrArg Prod.fst (Except.ok.inj heq)) hnext

end

/- ── What a run ends with ──────────────────────────────────────────────────── -/

section

variable {agent : Agent} {env : Env} {s t : AgentState}

/-- A final answer: no call of the last AI message is without its result. The message
    that asks for more steps has no calls. -/
def Answered (messages : List Msg) : Prop := pendingToolCalls messages = some []

/-- What a run is to end with: an answer, which every response is when there are no
    tools, or the result of a tool that returns directly. -/
def Concludes (agent : Agent) (messages : List Msg) : Prop :=
  agent.toolCallingEnabled = false ∨ Answered messages ∨
    routeToolResponses agent messages = .done

/-- What is known of the messages when a node is to run. -/
def Inv (agent : Agent) : Next → List Msg → Prop
  | .done, messages => Concludes agent messages
  | .node .generateStructuredResponse, messages =>
    agent.toolCallingEnabled = false ∨ Answered messages
  | .sends calls, _ => calls ≠ []
  | .node _, _ => True

theorem lastAiCalls_append (messages : List Msg) (content : String) (calls : List Call) :
    lastAiCalls (messages ++ [.ai content calls]) = some calls := by
  induction messages with
  | nil => rfl
  | cons m messages ih =>
    show (match lastAiCalls (messages ++ [.ai content calls]) with
      | some calls => some calls
      | none => _) = _
    rw [ih]

theorem answered_append (messages : List Msg) (content : String) :
    Answered (messages ++ [.ai content []]) := by
  unfold Answered pendingToolCalls
  rw [lastAiCalls_append]
  rfl

theorem entrypoint_inv (messages : List Msg) : Inv agent (entrypoint agent) messages := by
  unfold entrypoint
  split
  · trivial
  · trivial

theorem entrypoint_ne_done : entrypoint agent ≠ .done := by
  unfold entrypoint
  split
  · exact Next.noConfusion
  · exact Next.noConfusion

theorem routeToolResponses_done {messages : List Msg} :
    routeToolResponses agent messages = .done ↔ returnsDirect agent messages.reverse = true := by
  unfold routeToolResponses
  cases returnsDirect agent messages.reverse with
  | true => exact iff_of_true rfl rfl
  | false => exact iff_of_false entrypoint_ne_done Bool.false_ne_true

/-- The loop passes over tool messages. -/
theorem returnsDirect_tools (messages : List Msg) (calls : List Call) :
    returnsDirect agent (messages ++ calls.map toolMessage).reverse =
      (calls.any (fun call => call.name ∈ agent.returnDirect) ||
        returnsDirect agent messages.reverse) := by
  induction calls using List.reverseRecOn generalizing messages with
  | nil => rw [List.map_nil, List.append_nil, List.any_nil, Bool.false_or]
  | append_singleton calls call ih =>
    rw [List.map_append, ← List.append_assoc, List.reverse_append, List.any_append]
    show (decide (call.name ∈ agent.returnDirect) ||
      returnsDirect agent (messages ++ calls.map toolMessage).reverse) = _
    rw [ih, ← Bool.or_assoc, Bool.or_comm (decide _), List.any_cons, List.any_nil, Bool.or_false]

theorem afterTools_inv {messages : List Msg} {seen : List (List Msg)}
    (h : (∀ m ∈ seen, routeToolResponses agent m = .done) →
      routeToolResponses agent messages = .done) :
    Inv agent (afterTools agent seen) messages := by
  unfold afterTools
  split
  · rename_i hall
    apply Or.inr
    apply Or.inr
    apply h
    intro m hm
    exact of_decide_eq_true (List.all_eq_true.mp hall m hm)
  · exact entrypoint_inv messages

theorem finish_ok {paths : List Next} {next next' : Next} (h : finish paths next = .ok next') :
    next' = next := by
  unfold finish at h
  split at h
  · exact (Except.ok.inj h).symm
  · split at h
    · exact (Except.ok.inj h).symm
    · exact (nomatch h)

theorem afterAgent_inv {messages : List Msg} {content : String} {calls : List Call} {next : Next}
    (h : afterAgent agent (messages ++ [.ai content calls]) = .ok next) :
    Inv agent next (messages ++ [.ai content calls]) := by
  unfold afterAgent at h
  split at h
  · rename_i htools
    rw [← Except.ok.inj h]
    split
    · trivial
    · split
      · exact .inl htools
      · exact .inl htools
  · rw [finish_ok h]
    unfold shouldContinue
    rw [List.getLast?_concat]
    cases calls with
    | nil =>
      show Inv agent (if agent.postModelHook then _ else _) _
      split
      · trivial
      · split
        · exact .inr (answered_append messages content)
        · exact .inr (.inl (answered_append messages content))
    | cons call calls =>
      show Inv agent (match agent.version with
        | .v1 => .node .tools
        | .v2 => if agent.postModelHook then .node .postModelHook else .sends (call :: calls)) _
      cases agent.version with
      | v1 => trivial
      | v2 =>
        show Inv agent (if agent.postModelHook then _ else _) _
        split
        · trivial
        · exact List.cons_ne_nil call calls

theorem postModelHookRouter_inv {messages : List Msg} {next : Next}
    (h : postModelHookRouter agent messages = .ok next) : Inv agent next messages := by
  unfold postModelHookRouter at h
  split at h
  · exact (nomatch h)
  · rename_i hpending
    split at h
    · rw [← Except.ok.inj h]
      exact entrypoint_inv messages
    · split at h
      · rw [← Except.ok.inj h]
        exact .inr hpending
      · rw [← Except.ok.inj h]
        exact .inr (.inl hpending)
  · rename_i calls hcalls hpending
    rw [← Except.ok.inj h]
    exact hcalls

theorem afterPostModelHook_inv {messages : List Msg} {next : Next}
    (h : afterPostModelHook agent messages = .ok next) : Inv agent next messages := by
  unfold afterPostModelHook at h
  split at h
  · rename_i htools
    rw [← Except.ok.inj h]
    split
    · exact .inl htools
    · exact .inl htools
  · exact postModelHookRouter_inv h

theorem reply_ai (agent : Agent) (remaining : Option Int) (response : String × List Call) :
    ∃ content calls, reply agent remaining response = .ai content calls := by
  unfold reply
  split
  · exact ⟨_, _, rfl⟩
  · exact ⟨_, _, rfl⟩

/-- The state after the model node. -/
def answeredBy (agent : Agent) (env : Env) (remaining : Option Int) (j : Nat) (s : AgentState) :
    AgentState :=
  { s with messages := s.messages ++ [reply agent remaining (env.model j (modelInput agent s))] }

theorem execute_agent {remaining : Option Int} {j : Nat}
    (h : validChat (modelInput agent s) = true) :
    execute agent env remaining j s (.node .agent) =
      (afterAgent agent (answeredBy agent env remaining j s).messages).map
        fun next => (next, answeredBy agent env remaining j s) := by
  have hmodel : callModel agent env remaining j s = .ok (answeredBy agent env remaining j s) := by
    unfold callModel
    rw [if_neg (by simp [h])]
    rfl
  simp only [execute, hmodel]
  cases afterAgent agent (answeredBy agent env remaining j s).messages with
  | error e => rfl
  | ok next => rfl

theorem execute_agent_invalid {remaining : Option Int} {j : Nat}
    (h : validChat (modelInput agent s) = false) :
    execute agent env remaining j s (.node .agent) = .error .invalidChatHistory := by
  have hmodel : callModel agent env remaining j s = .error .invalidChatHistory := by
    unfold callModel
    rw [if_pos h]
  simp only [execute, hmodel]

theorem execute_agent_ok {remaining : Option Int} {j : Nat} {next : Next}
    (h : execute agent env remaining j s (.node .agent) = .ok (next, t)) :
    validChat (modelInput agent s) = true ∧
      afterAgent agent (answeredBy agent env remaining j s).messages = .ok next ∧
      answeredBy agent env remaining j s = t := by
  cases hvalid : validChat (modelInput agent s) with
  | false =>
    rw [execute_agent_invalid hvalid] at h
    exact (nomatch h)
  | true =>
    rw [execute_agent hvalid] at h
    cases hnext : afterAgent agent (answeredBy agent env remaining j s).messages with
    | error e =>
      rw [hnext] at h
      exact (nomatch h)
    | ok next' =>
      rw [hnext] at h
      obtain ⟨rfl, rfl⟩ := Prod.mk.inj (Except.ok.inj h)
      exact ⟨rfl, rfl, rfl⟩

/-- A superstep keeps what is known. -/
theorem execute_inv {remaining : Option Int} {j : Nat} {next next' : Next}
    (hinv : Inv agent next s.messages)
    (h : execute agent env remaining j s next = .ok (next', t)) : Inv agent next' t.messages := by
  cases next with
  | done =>
    obtain ⟨rfl, rfl⟩ := Prod.mk.inj (Except.ok.inj h)
    exact hinv
  | sends calls =>
    obtain ⟨rfl, rfl⟩ := Prod.mk.inj (Except.ok.inj h)
    apply afterTools_inv
    intro hall
    obtain ⟨call, hcall⟩ := List.exists_mem_of_ne_nil calls hinv
    have hone := routeToolResponses_done.mp (hall _ (List.mem_map_of_mem hcall))
    rw [routeToolResponses_done, returnsDirect_tools]
    have htool : returnsDirect agent (s.messages ++ [call].map toolMessage).reverse = true := hone
    rw [returnsDirect_tools, List.any_cons, List.any_nil, Bool.or_false] at htool
    cases Bool.or_eq_true_iff.mp htool with
    | inl hdirect => rw [List.any_eq_true.mpr ⟨call, hcall, hdirect⟩, Bool.true_or]
    | inr hdirect => rw [hdirect, Bool.or_true]
  | node n =>
    cases n with
    | start =>
      obtain ⟨rfl, rfl⟩ := Prod.mk.inj (Except.ok.inj h)
      exact entrypoint_inv _
    | preModelHook =>
      obtain ⟨rfl, rfl⟩ := Prod.mk.inj (Except.ok.inj h)
      trivial
    | agent =>
      obtain ⟨_, hnext, rfl⟩ := execute_agent_ok h
      obtain ⟨content, calls, hreply⟩ := reply_ai agent remaining (env.model j (modelInput agent s))
      simp only [answeredBy, hreply] at hnext ⊢
      exact afterAgent_inv hnext
    | postModelHook =>
      simp only [execute] at h
      cases hnext : afterPostModelHook agent (env.postModelHook j s).messages with
      | error e =>
        rw [hnext] at h
        exact (nomatch h)
      | ok next =>
        rw [hnext] at h
        obtain ⟨rfl, rfl⟩ := Prod.mk.inj (Except.ok.inj h)
        exact afterPostModelHook_inv hnext
    | generateStructuredResponse =>
      obtain ⟨rfl, rfl⟩ := Prod.mk.inj (Except.ok.inj h)
      cases hinv with
      | inl htools => exact .inl htools
      | inr hanswered => exact .inr (.inl hanswered)
    | tools =>
      simp only [execute] at h
      cases hcalls : lastAiCalls s.messages with
      | none =>
        rw [hcalls] at h
        exact (nomatch h)
      | some calls =>
        rw [hcalls] at h
        obtain ⟨rfl, rfl⟩ := Prod.mk.inj (Except.ok.inj h)
        apply afterTools_inv
        intro hall
        exact hall _ List.mem_cons_self

theorem conversation_inv {remaining : Nat → Option Int} : ∀ {n : Nat} {next : Next}
    {t : AgentState}, conversation agent env remaining s n = .ok (next, t) →
      Inv agent next t.messages
  | 0, next, t, h => by
    obtain ⟨rfl, rfl⟩ := Prod.mk.inj (Except.ok.inj h)
    trivial
  | n + 1, next, t, h => by
    rw [conversation] at h
    split at h
    · exact (nomatch h)
    · rename_i now hnow
      exact execute_inv (conversation_inv hnow) h

end

/- ── Where the limit cuts the conversation off ─────────────────────────────── -/

section

variable {agent : Agent} {env : Env} {s t : AgentState}

theorem areMoreStepsNeeded_of_two_le {r : Int} (calls : List Call) (h : 2 ≤ r) :
    areMoreStepsNeeded agent (some r) calls = false := by
  unfold areMoreStepsNeeded
  have hone : ¬ r < 1 := by omega
  have htwo : ¬ r < 2 := by omega
  simp [hone, htwo]

theorem reply_of_two_le {r : Int} (response : String × List Call) (h : 2 ≤ r) :
    reply agent (some r) response = reply agent none response := by
  unfold reply
  rw [areMoreStepsNeeded_of_two_le response.2 h]
  rfl

/-- Only the model node looks at the remaining steps. -/
theorem execute_of_ne_agent {next : Next} (h : next ≠ .node .agent)
    (remaining remaining' : Option Int) (j : Nat) :
    execute agent env remaining j s next = execute agent env remaining' j s next := by
  cases next with
  | done => rfl
  | sends calls => rfl
  | node n =>
    cases n with
    | agent => exact absurd rfl h
    | _ => rfl

theorem execute_agent_congr {remaining remaining' : Option Int} {j : Nat}
    (h : reply agent remaining (env.model j (modelInput agent s)) =
      reply agent remaining' (env.model j (modelInput agent s))) :
    execute agent env remaining j s (.node .agent) =
      execute agent env remaining' j s (.node .agent) := by
  simp only [execute, callModel, h]

theorem limited_eq_unlimited {recursionLimit : Nat} :
    ∀ n, n < recursionLimit → limited agent env recursionLimit s n = unlimited agent env s n
  | 0, _ => rfl
  | n + 1, hn => by
    have ih : limited agent env recursionLimit s n = unlimited agent env s n :=
      limited_eq_unlimited n (by omega)
    unfold limited unlimited at ih ⊢
    rw [conversation, conversation, ih]
    cases conversation agent env (fun _ => none) s n with
    | error e => rfl
    | ok result =>
      obtain ⟨next, t⟩ := result
      show execute agent env (some ((recursionLimit : Int) - n)) n t next =
        execute agent env none n t next
      by_cases hnext : next = .node .agent
      · have hremaining : 2 ≤ (recursionLimit : Int) - n := by omega
        rw [hnext]
        exact execute_agent_congr (reply_of_two_le _ hremaining)
      · exact execute_of_ne_agent hnext _ _ n

/-- After an answer the agent goes to its hook, to the structured response, or ends. -/
theorem afterAgent_answer (messages : List Msg) (content : String) :
    afterAgent agent (messages ++ [.ai content []]) =
      .ok (if agent.postModelHook then .node .postModelHook
        else if agent.responseFormat then .node .generateStructuredResponse
        else .done) := by
  have hcontinue : shouldContinue agent (messages ++ [.ai content []]) =
      if agent.postModelHook then .node .postModelHook
      else if agent.responseFormat then .node .generateStructuredResponse
      else .done := by
    unfold shouldContinue
    rw [List.getLast?_concat]
    rfl
  unfold afterAgent
  rw [hcontinue]
  unfold agentPaths finish
  cases agent.postModelHook with
  | true => simp
  | false =>
    cases agent.responseFormat with
    | true => simp
    | false => simp

/-- A response with tool calls does not end an agent that has tools, and other agents
    only when nothing comes after the model. -/
theorem afterAgent_calls_done {messages : List Msg} {content : String} {calls : List Call}
    (hcalls : calls ≠ [])
    (h : afterAgent agent (messages ++ [.ai content calls]) = .ok .done) :
    agent.postModelHook = false ∧ agent.responseFormat = false := by
  unfold afterAgent at h
  split at h
  · have hdone := Except.ok.inj h
    cases hpost : agent.postModelHook with
    | true => simp [hpost] at hdone
    | false =>
      cases hformat : agent.responseFormat with
      | true => simp [hpost, hformat] at hdone
      | false => exact ⟨rfl, rfl⟩
  · have hdone := finish_ok h
    unfold shouldContinue at hdone
    rw [List.getLast?_concat] at hdone
    cases calls with
    | nil => exact absurd rfl hcalls
    | cons call calls =>
      cases hversion : agent.version with
      | v1 =>
        simp only [hversion, Option.map_some, Msg.toolCalls, Option.getD_some] at hdone
        exact (nomatch hdone)
      | v2 =>
        simp only [hversion, Option.map_some, Msg.toolCalls, Option.getD_some] at hdone
        split at hdone
        · exact (nomatch hdone)
        · exact (nomatch hdone)

theorem reply_no_calls {r : Int} (content : String) (h : 1 ≤ r) :
    reply agent (some r) (content, []) = reply agent none (content, []) := by
  have hone : ¬ r < 1 := by omega
  simp [reply, areMoreStepsNeeded, hone]

theorem reply_calls (response : String × List Call) (h : response.2 ≠ []) :
    reply agent (some 1) response = .ai "Sorry, need more steps to process this request." [] := by
  simp [reply, areMoreStepsNeeded, h]

theorem reply_none (response : String × List Call) :
    reply agent none response = .ai response.1 response.2 := rfl

/-- The model node with one step left ends the run when it would end without a limit, or
    when nothing comes after the model. -/
theorem execute_agent_one_done {j : Nat} (hvalid : validChat (modelInput agent s) = true) :
    (∃ t, execute agent env (some 1) j s (.node .agent) = .ok (.done, t)) ↔
      agent.postModelHook = false ∧ agent.responseFormat = false := by
  have hnext : ∀ remaining next, (∃ t, execute agent env remaining j s (.node .agent) =
      .ok (next, t)) ↔ afterAgent agent (answeredBy agent env remaining j s).messages = .ok next := by
    intro remaining next
    refine ⟨?_, ?_⟩
    · intro h
      obtain ⟨t, ht⟩ := h
      exact (execute_agent_ok ht).2.1
    · intro h
      refine ⟨answeredBy agent env remaining j s, ?_⟩
      rw [execute_agent hvalid, h]
      rfl
  rw [hnext]
  have hreply : ∃ content, reply agent (some 1) (env.model j (modelInput agent s)) =
      .ai content [] := by
    obtain ⟨content, calls⟩ := env.model j (modelInput agent s)
    by_cases hcalls : calls = []
    · rw [hcalls, reply_no_calls content (Int.le_refl 1)]
      exact ⟨content, rfl⟩
    · exact ⟨_, reply_calls (content, calls) hcalls⟩
  obtain ⟨content, hreply⟩ := hreply
  show afterAgent agent (s.messages ++ [reply agent (some 1) _]) = .ok .done ↔ _
  rw [hreply, afterAgent_answer]
  cases agent.postModelHook with
  | true => simp
  | false =>
    cases agent.responseFormat with
    | true => simp
    | false => simp

/-- Without a limit the model node ends the conversation only when nothing comes after
    the model. -/
theorem execute_agent_none_done {j : Nat}
    (h : execute agent env none j s (.node .agent) = .ok (.done, t)) :
    validChat (modelInput agent s) = true ∧
      agent.postModelHook = false ∧ agent.responseFormat = false := by
  obtain ⟨hvalid, hnext, _⟩ := execute_agent_ok h
  refine ⟨hvalid, ?_⟩
  replace hnext : afterAgent agent (s.messages ++
    [reply agent none (env.model j (modelInput agent s))]) = .ok .done := hnext
  rw [reply_none] at hnext
  by_cases hcalls : (env.model j (modelInput agent s)).2 = []
  · rw [hcalls, afterAgent_answer] at hnext
    have hdone := Except.ok.inj hnext
    cases hpost : agent.postModelHook with
    | true => simp [hpost] at hdone
    | false =>
      cases hformat : agent.responseFormat with
      | true => simp [hpost, hformat] at hdone
      | false => exact ⟨rfl, rfl⟩
  · exact afterAgent_calls_done hcalls hnext

end

/-- A run that comes to a regular end. -/
def Ends (agent : Agent) (env : Env) (recursionLimit : Nat) (checkpointStep : Int)
    (s : AgentState) : Prop :=
  ∃ t, run agent env recursionLimit checkpointStep s = some (.done t) ∧
    Concludes agent t.messages

/-- When a run comes to a regular end: when the conversation without a limit is over after
    as many supersteps as the limit, or else when the last but one tick of the limit finds the
    model node, and neither hook nor structured response comes after it. -/
theorem run_ends_iff (agent : Agent) (env : Env) (recursionLimit : Nat) (checkpointStep : Int)
    (s : AgentState) :
    Ends agent env recursionLimit checkpointStep s ↔
      (∃ t, unlimited agent env s recursionLimit = .ok (.done, t)) ∨
      (agent.postModelHook = false ∧ agent.responseFormat = false ∧
        ∃ t, unlimited agent env s (recursionLimit - 1) = .ok (.node .agent, t) ∧
          validChat (modelInput agent t) = true) := by
  have hends : Ends agent env recursionLimit checkpointStep s ↔
      ∃ t, limited agent env recursionLimit s recursionLimit = .ok (.done, t) := by
    unfold Ends
    apply exists_congr
    intro t
    rw [run_eq, Option.some_inj, verdict_done_iff]
    apply and_iff_left_of_imp
    intro h
    have hinv : Inv agent .done t.messages := conversation_inv h
    exact hinv
  rw [hends]
  cases recursionLimit with
  | zero =>
    have hstart : unlimited agent env s 0 = .ok (.node .start, s) := rfl
    have hstart' : limited agent env 0 s 0 = .ok (.node .start, s) := rfl
    simp [hstart, hstart']
  | succ n =>
    have hsame : limited agent env (n + 1) s n = unlimited agent env s n :=
      limited_eq_unlimited n (Nat.lt_succ_self n)
    have hone : (((n + 1 : Nat) : Int) - n) = 1 := by omega
    rw [Nat.add_sub_cancel]
    unfold limited unlimited at *
    rw [conversation, conversation, hsame]
    cases conversation agent env (fun _ => none) s n with
    | error e => simp
    | ok result =>
      obtain ⟨next, now⟩ := result
      simp only [hone, Except.ok.injEq, Prod.mk.injEq]
      by_cases hnext : next = .node .agent
      · rw [hnext]
        cases hvalid : validChat (modelInput agent now) with
        | false =>
          simp only [execute_agent_invalid hvalid]
          simp [hvalid]
        | true =>
          rw [execute_agent_one_done hvalid]
          refine ⟨?_, ?_⟩
          · intro h
            exact .inr ⟨h.1, h.2, now, ⟨rfl, rfl⟩, hvalid⟩
          · intro h
            cases h with
            | inl hdone =>
              obtain ⟨t, ht⟩ := hdone
              exact (execute_agent_none_done ht).2
            | inr hcut => exact ⟨hcut.1, hcut.2.1⟩
      · rw [execute_of_ne_agent hnext (some 1) none n]
        simp [hnext]

/- ── Which limits are cut at the model ─────────────────────────────────────── -/

section

variable {agent : Agent} {env : Env} {s t : AgentState}

/-- The supersteps from one model node to the next. -/
def period (agent : Agent) : Nat := if agent.preModelHook then 3 else 2

/-- The place of a node in the round of an agent with tools and nothing after the model. -/
def phase (agent : Agent) : Next → Nat
  | .node .agent => if agent.preModelHook then 1 else 0
  | .node .preModelHook => 0
  | .node .tools => if agent.preModelHook then 2 else 1
  | .sends _ => if agent.preModelHook then 2 else 1
  | _ => 0

/-- The nodes that such an agent runs. -/
def Rounds (agent : Agent) : Next → Prop
  | .node .agent => True
  | .node .preModelHook => agent.preModelHook = true
  | .node .tools => True
  | .sends _ => True
  | .done => True
  | _ => False

theorem entrypoint_rounds : Rounds agent (entrypoint agent) ∧ phase agent (entrypoint agent) = 0 := by
  unfold entrypoint
  cases hpre : agent.preModelHook with
  | true => exact ⟨hpre, rfl⟩
  | false => exact ⟨trivial, by simp [phase, hpre]⟩

theorem afterTools_rounds (agent : Agent) (seen : List (List Msg)) :
    Rounds agent (afterTools agent seen) ∧
      (afterTools agent seen ≠ .done → phase agent (afterTools agent seen) = 0) := by
  unfold afterTools
  split
  · exact ⟨trivial, fun h => absurd rfl h⟩
  · exact ⟨entrypoint_rounds.1, fun _ => entrypoint_rounds.2⟩

/-- A superstep leads to the next place of the round, or ends. -/
theorem execute_rounds {remaining : Option Int} {j : Nat} {next next' : Next}
    (htools : agent.toolCallingEnabled = true) (hpost : agent.postModelHook = false)
    (hformat : agent.responseFormat = false) (hrounds : Rounds agent next) (hnext : next ≠ .done)
    (h : execute agent env remaining j s next = .ok (next', t)) :
    Rounds agent next' ∧
      (next' ≠ .done → phase agent next' = (phase agent next + 1) % period agent) := by
  have htoolsphase : (if agent.preModelHook = true then 2 else 1) + 1 = period agent := by
    unfold period
    split <;> rfl
  cases next with
  | done => exact absurd rfl hnext
  | sends calls =>
    obtain ⟨rfl, rfl⟩ := Prod.mk.inj (Except.ok.inj h)
    obtain ⟨hr, hp⟩ := afterTools_rounds agent
      (calls.map fun call => s.messages ++ [toolMessage call])
    refine ⟨hr, fun hne => ?_⟩
    rw [hp hne]
    show 0 = ((if agent.preModelHook = true then 2 else 1) + 1) % period agent
    rw [htoolsphase, Nat.mod_self]
  | node n =>
    cases n with
    | start => exact hrounds.elim
    | postModelHook => exact hrounds.elim
    | generateStructuredResponse => exact hrounds.elim
    | preModelHook =>
      obtain ⟨rfl, rfl⟩ := Prod.mk.inj (Except.ok.inj h)
      replace hrounds : agent.preModelHook = true := hrounds
      exact ⟨trivial, fun _ => by simp [phase, period, hrounds]⟩
    | tools =>
      simp only [execute] at h
      cases hcalls : lastAiCalls s.messages with
      | none =>
        rw [hcalls] at h
        exact (nomatch h)
      | some calls =>
        rw [hcalls] at h
        obtain ⟨rfl, rfl⟩ := Prod.mk.inj (Except.ok.inj h)
        obtain ⟨hr, hp⟩ := afterTools_rounds agent
          [s.messages ++ calls.map toolMessage]
        refine ⟨hr, fun hne => ?_⟩
        rw [hp hne]
        show 0 = ((if agent.preModelHook = true then 2 else 1) + 1) % period agent
        rw [htoolsphase, Nat.mod_self]
    | agent =>
      obtain ⟨_, hafter, _⟩ := execute_agent_ok h
      unfold afterAgent at hafter
      rw [if_neg (by simp [htools])] at hafter
      have hgo := finish_ok hafter
      have hphase : ∀ calls : List Call,
          phase agent (.sends calls) = (phase agent (.node .agent) + 1) % period agent := by
        intro calls
        cases hpre : agent.preModelHook <;> simp [phase, period, hpre]
      unfold shouldContinue at hgo
      split at hgo
      · rw [hpost, hformat] at hgo
        rw [hgo]
        exact ⟨trivial, fun hne => absurd rfl hne⟩
      · rename_i calls _ _
        cases hversion : agent.version with
        | v1 =>
          simp only [hversion] at hgo
          rw [hgo]
          exact ⟨trivial, fun _ => hphase []⟩
        | v2 =>
          simp only [hversion, hpost] at hgo
          rw [hgo]
          exact ⟨trivial, fun _ => hphase _⟩

/-- Where the conversation of such an agent stands after `n + 1` supersteps. -/
theorem unlimited_rounds (htools : agent.toolCallingEnabled = true)
    (hpost : agent.postModelHook = false) (hformat : agent.responseFormat = false) :
    ∀ {n : Nat} {next : Next} {t : AgentState},
      unlimited agent env s (n + 1) = .ok (next, t) →
      Rounds agent next ∧ (next ≠ .done → phase agent next = n % period agent)
  | 0, next, t, h => by
    obtain ⟨rfl, rfl⟩ := Prod.mk.inj (Except.ok.inj h)
    exact ⟨entrypoint_rounds.1, fun _ => by rw [entrypoint_rounds.2, Nat.zero_mod]⟩
  | n + 1, next, t, h => by
    unfold unlimited at h
    rw [conversation] at h
    split at h
    · exact (nomatch h)
    · rename_i now t' hnow
      obtain ⟨hrounds, hphase⟩ := unlimited_rounds htools hpost hformat hnow
      by_cases hdone : now = .done
      · rw [hdone] at h
        obtain ⟨rfl, rfl⟩ := Prod.mk.inj (Except.ok.inj h)
        exact ⟨trivial, fun hne => absurd rfl hne⟩
      · obtain ⟨hr, hp⟩ := execute_rounds htools hpost hformat hrounds hdone h
        refine ⟨hr, fun hne => ?_⟩
        rw [hp hne, hphase hdone, Nat.mod_add_mod]

theorem eq_agent_of_phase {next : Next} (hrounds : Rounds agent next) (hnext : next ≠ .done)
    (hphase : phase agent next = phase agent (.node .agent)) : next = .node .agent := by
  cases hpre : agent.preModelHook with
  | true =>
    cases next with
    | done => exact absurd rfl hnext
    | sends calls => simp [phase, hpre] at hphase
    | node n => cases n <;> simp_all [phase, Rounds]
  | false =>
    cases next with
    | done => exact absurd rfl hnext
    | sends calls => simp [phase, hpre] at hphase
    | node n => cases n <;> simp_all [phase, Rounds]

/-- An agent with tools and nothing after the model never runs out of steps when the last
    tick but one of the limit falls on the model node: the limit is even without a pre model
    hook, and divisible by three with one. -/
theorem run_ne_outOfSteps (htools : agent.toolCallingEnabled = true)
    (hpost : agent.postModelHook = false) (hformat : agent.responseFormat = false) {n : Nat}
    (hphase : n % period agent = phase agent (.node .agent)) (checkpointStep : Int) :
    run agent env (n + 2) checkpointStep s ≠ some .outOfSteps := by
  intro hout
  have hcut := run_ends_iff agent env (n + 2) checkpointStep s
  have hsame : limited agent env (n + 2) s (n + 1) = unlimited agent env s (n + 1) :=
    limited_eq_unlimited (n + 1) (Nat.lt_succ_self _)
  have herror : ∀ e, limited agent env (n + 2) s (n + 2) ≠ .error e := by
    intro e he
    rw [run_eq, verdict, he] at hout
    exact (nomatch Option.some.inj hout)
  have hnot : ¬ Ends agent env (n + 2) checkpointStep s := by
    intro hends
    obtain ⟨t, ht, _⟩ := hends
    rw [hout] at ht
    exact (nomatch Option.some.inj ht)
  cases hnow : unlimited agent env s (n + 1) with
  | error e => exact herror e (conversation_error (hsame.trans hnow) 1)
  | ok result =>
    obtain ⟨next, now⟩ := result
    obtain ⟨hrounds, hplace⟩ := unlimited_rounds htools hpost hformat hnow
    by_cases hdone : next = .done
    · rw [hdone] at hnow
      exact hnot (hcut.mpr (.inl ⟨now, conversation_done hnow 1⟩))
    · have hagent := eq_agent_of_phase hrounds hdone ((hplace hdone).trans hphase)
      rw [hagent] at hnow
      cases hvalid : validChat (modelInput agent now) with
      | true => exact hnot (hcut.mpr (.inr ⟨hpost, hformat, now, hnow, hvalid⟩))
      | false =>
        apply herror .invalidChatHistory
        exact (conversation_succ (hsame.trans hnow)).trans (execute_agent_invalid hvalid)

end

/- ── A model that always calls a tool ──────────────────────────────────────── -/

/-- The nodes of one pass. -/
def onePass (agent : Agent) : List Node :=
  [.start] ++ (if agent.preModelHook then [.preModelHook] else []) ++ [.agent] ++
    (if agent.postModelHook then [.postModelHook] else []) ++
    (if agent.toolCallingEnabled then [.tools] else []) ++
    (if agent.responseFormat then [.generateStructuredResponse] else [])

def searching : Agent := ⟨.v2, true, [], false, false, false⟩

def alwaysSearch : Env := ⟨fun _ _ => ("", [⟨"1", "search"⟩]), fun _ s => s, fun _ s => s⟩

/-- With an odd limit the model is called with two steps left and then with none. -/
theorem not_run_ends :
    ¬ ∀ (agent : Agent) (env : Env) (recursionLimit : Nat) (checkpointStep : Int)
      (s : AgentState), (onePass agent).length < recursionLimit →
        Ends agent env recursionLimit checkpointStep s := by
  intro h
  obtain ⟨t, ht, _⟩ := h searching alwaysSearch 5 (-2) ⟨[.other], []⟩ (by decide)
  have hout : run searching alwaysSearch 5 (-2) ⟨[.other], []⟩ = some .outOfSteps := by decide
  rw [hout] at ht
  exact (nomatch Option.some.inj ht)

end LangGraph.React
