import LangGraph.Messages
import LangGraph.Prebuilt.ReactSteps

/- The agent of `create_react_agent` without hooks, over the channel that holds its messages.

   Correspondence (source ↔ Lean):
     the reducer of the channel `messages`             ↔ `addMessages`
     `call_model`, the branch `should_continue`        ↔ `superstep` of the node `agent`
     the node `tools` in version v1                    ↔ `superstep` of the node `tools`
     the tasks of the `Send`s of version v2            ↔ `superstep` of `sends`
     `local_read` for the branch of one such task      ↔ `localViews`
   Each message brings an id or gets one from `uuid4`; a message whose id is there replaces
   the one that has it. `Chat.executed` records the tool calls in the order in which they are
   carried out, also those that end in an error message.
   `calls_answered_once`: a step leads from one state of the conversation to the next
   (`step_sound`), and every run goes that way. -/
namespace LangGraph.React

/- ── Messages with ids ─────────────────────────────────────────────────────── -/

/-- What the agent looks at in a message. -/
def content : Message Msg → Msg
  | .message _ c => c
  | .removeMessage _ => .other

def contents (messages : List (Message Msg)) : List Msg := messages.map content

/-- The responses of the model, and the ids: those that the n-th message written in a
    superstep brings, if it brings one, and those that `uuid4` makes in the superstep. -/
structure World where
  model : Nat → List Msg → String × List Call
  given : Nat → Nat → Option String
  uuid : Nat → Nat → String

structure Chat where
  messages : List (Message Msg)
  executed : List Call

inductive Raised where
  | failure (e : Failure)
  | merge (e : PyErr)

section

variable (w : World)

/-- The messages of a superstep, from the n-th on. -/
def written (j : Nat) : Nat → List Msg → List (Message Msg)
  | _, [] => []
  | n, c :: rest => .message (w.given j n) c :: written j (n + 1) rest

/-- One write to the channel. -/
def addWritten (j n : Nat) (messages : List (Message Msg)) (new : List Msg) :
    Except Raised (List (Message Msg)) :=
  (addMessages (fun k => w.uuid j (n + k)) messages (written w j n new)).mapError .merge

/-- The writes of tool tasks, one after the other. -/
def addEach (j : Nat) : Nat → List Call → List (Message Msg) → Except Raised (List (Message Msg))
  | _, [], messages => .ok messages
  | n, call :: rest, messages => do
    let messages ← addWritten w j n messages [toolMessage call]
    addEach j (n + 1) rest messages

/-- What each tool task sees when it routes: the channel with its own write. -/
def localViews (j : Nat) (messages : List (Message Msg)) : Nat → List Call →
    Except Raised (List (List (Message Msg)))
  | _, [] => .ok []
  | n, call :: rest => do
    let view ← addWritten w j n messages [toolMessage call]
    let views ← localViews j messages (n + 1) rest
    pure (view :: views)

variable (agent : Agent)

/-- One superstep, after `j` others. -/
def superstep (remaining : Option Int) (j : Nat) (s : Chat) : Next → Except Raised (Next × Chat)
  | .done => .ok (.done, s)
  | .node .start => .ok (entrypoint agent, s)
  | .node .agent => do
    let input := contents s.messages
    if validChat input = false then .error (.failure .invalidChatHistory)
    else
      let messages ← addWritten w j 0 s.messages [reply agent remaining (w.model j input)]
      let next ← (afterAgent agent (contents messages)).mapError .failure
      pure (next, { s with messages })
  | .node .tools =>
    match lastAiCalls (contents s.messages) with
    | none => .error (.failure .noAIMessage)
    | some calls => do
      let messages ← addWritten w j 0 s.messages (calls.map toolMessage)
      pure (afterTools agent [contents messages], ⟨messages, s.executed ++ calls⟩)
  | .sends calls => do
    let views ← localViews w j s.messages 0 calls
    let messages ← addEach w j 0 calls s.messages
    pure (afterTools agent (views.map contents), ⟨messages, s.executed ++ calls⟩)
  | .node .generateStructuredResponse => .ok (.done, s)
  -- the graph of an agent without hooks has no such nodes
  | .node .preModelHook | .node .postModelHook => .error (.failure .keyError)

/-- What is to run, and the chat, after `n` supersteps; `remaining` are the remaining steps
    that the nodes see. -/
def chatAfter (remaining : Nat → Option Int) (initial : List (Message Msg)) :
    Nat → Except Raised (Next × Chat)
  | 0 => .ok (.node .start, ⟨initial, []⟩)
  | n + 1 => do
    let (next, s) ← chatAfter remaining initial n
    superstep w agent (remaining n) n s next

end

/-- The tool calls that are to be carried out in the next superstep. -/
def outstanding (next : Next) (messages : List Msg) : List Call :=
  match next with
  | .node .tools => (lastAiCalls messages).getD []
  | .sends calls => calls
  | _ => []

/-- The tool calls of the responses that were added to the initial history. -/
def asked (initial messages : List (Message Msg)) : List Call :=
  (contents (messages.drop initial.length)).flatMap Msg.toolCalls

/- ── New ids ───────────────────────────────────────────────────────────────── -/

section

variable {w : World} {agent : Agent}

/-- The id is that of the k-th message of a superstep, or one made in it. -/
def World.Makes (w : World) (j k : Nat) (i : String) : Prop := w.given j k = some i ∨ w.uuid j k = i

/-- No id comes twice, and none is in the initial history. -/
structure FreshIds (w : World) (initial : List (Message Msg)) : Prop where
  given : ∀ {j k j' k' i}, w.given j k = some i → w.given j' k' = some i → j = j' ∧ k = k'
  uuid : ∀ {j k j' k'}, w.uuid j k = w.uuid j' k' → j = j' ∧ k = k'
  apart : ∀ j k j' k', w.given j k ≠ some (w.uuid j' k')
  initial : ∀ m ∈ initial, ∀ j k i, w.Makes j k i → m.id ≠ some i

theorem FreshIds.makes_inj {initial : List (Message Msg)} (h : FreshIds w initial) {j k j' k' : Nat}
    {i : String} (hi : w.Makes j k i) (hi' : w.Makes j' k' i) : j = j' ∧ k = k' := by
  cases hi with
  | inl hi =>
    cases hi' with
    | inl hi' => exact h.given hi hi'
    | inr hi' => exact absurd (hi'.symm ▸ hi) (h.apart _ _ _ _)
  | inr hi =>
    cases hi' with
    | inl hi' => exact absurd (hi.symm ▸ hi') (h.apart _ _ _ _)
    | inr hi' => exact h.uuid (hi.trans hi'.symm)

theorem contents_append (messages messages' : List (Message Msg)) :
    contents (messages ++ messages') = contents messages ++ contents messages' :=
  List.map_append

theorem mem_written {j : Nat} {m : Message Msg} : ∀ {new : List Msg} {n : Nat},
    m ∈ written w j n new → ∃ k c, n ≤ k ∧ m = .message (w.given j k) c
  | [], _, h => nomatch h
  | c :: new, n, h => by
    cases List.mem_cons.mp h with
    | inl h => exact ⟨n, c, Nat.le_refl n, h⟩
    | inr h =>
      obtain ⟨k, c', hk, hm⟩ := mem_written h
      exact ⟨k, c', by omega, hm⟩

theorem nodup_written {initial : List (Message Msg)} (hw : FreshIds w initial) {j : Nat} :
    ∀ (new : List Msg) (n : Nat), ((written w j n new).filterMap Message.id).Nodup
  | [], _ => List.nodup_nil
  | c :: new, n => by
    have ih := nodup_written hw (j := j) new (n + 1)
    rw [written]
    cases hgiven : w.given j n with
    | none => exact ih
    | some i =>
      refine List.nodup_cons.mpr ⟨fun hmem => ?_, ih⟩
      obtain ⟨m, hm, hid⟩ := List.mem_filterMap.mp hmem
      obtain ⟨k, c', hk, rfl⟩ := mem_written hm
      have := (hw.given hgiven hid).2
      omega

theorem contents_assignIds (uuid : Nat → String) : ∀ (l : List (Message Msg)) (n : Nat),
    contents (assignIds uuid n l).1 = contents l
  | [], _ => rfl
  | .message none c :: l, n => congrArg (c :: ·) (contents_assignIds uuid l (n + 1))
  | .message (some _) c :: l, n => congrArg (c :: ·) (contents_assignIds uuid l n)
  | .removeMessage _ :: l, n => congrArg (Msg.other :: ·) (contents_assignIds uuid l n)

theorem contents_written {j : Nat} : ∀ (new : List Msg) (n : Nat), contents (written w j n new) = new
  | [], _ => rfl
  | c :: new, n => congrArg (c :: ·) (contents_written new (n + 1))

/-- The messages of a superstep get ids of the superstep, each its own. -/
theorem stored_written {initial : List (Message Msg)} (hw : FreshIds w initial) {j n : Nat}
    (new : List Msg) : StoredMessages (assignIds (fun k => w.uuid j (n + k)) 0 (written w j n new)).1 ∧
      ∀ m ∈ (assignIds (fun k => w.uuid j (n + k)) 0 (written w j n new)).1,
        ∃ k i, w.Makes j k i ∧ m.id = some i := by
  have hinj : Function.Injective fun k => w.uuid j (n + k) := by
    intro k k' h
    have := (hw.uuid h).2
    omega
  have hgiven : ∀ k, ∀ m ∈ written w j n new, m.id ≠ some (w.uuid j (n + k)) := by
    intro k m hm
    obtain ⟨k', c, -, rfl⟩ := mem_written hm
    exact hw.apart j k' j (n + k)
  have hmessages : ∀ m ∈ written w j n new, m.isRemove = false := by
    intro m hm
    obtain ⟨k', c, -, rfl⟩ := mem_written hm
    rfl
  obtain ⟨hnodup, hfrom⟩ := assignIds_nodup hinj (written w j n new) 0 (nodup_written hw new n) hgiven
  have hids : ∀ m ∈ (assignIds (fun k => w.uuid j (n + k)) 0 (written w j n new)).1, m.id ≠ none :=
    assignIds_id (written w j n new) 0
  refine ⟨⟨hids, hnodup, assignIds_isRemove _ 0 hmessages⟩, fun m hm => ?_⟩
  obtain ⟨i, hi⟩ := Option.ne_none_iff_exists'.mp (hids m hm)
  cases hfrom i (List.mem_filterMap.mpr ⟨m, hm, hi⟩) with
  | inl hmem =>
    obtain ⟨m', hm', hid⟩ := List.mem_filterMap.mp hmem
    obtain ⟨k, c, -, rfl⟩ := mem_written hm'
    exact ⟨k, i, .inl hid, hi⟩
  | inr hmade =>
    obtain ⟨k, -, rfl⟩ := hmade
    exact ⟨n + k, _, .inr rfl, hi⟩

/-- The messages of the channel before a superstep: the initial ones first, and after them
    those that came with ids of earlier supersteps. -/
structure History (w : World) (initial : List (Message Msg)) (j : Nat)
    (messages : List (Message Msg)) : Prop where
  stored : StoredMessages messages
  kept : initial <+: messages
  made : ∀ m ∈ messages, m ∈ initial ∨ ∃ j' < j, ∃ k i, w.Makes j' k i ∧ m.id = some i

theorem History.start {initial : List (Message Msg)} (h : StoredMessages initial) :
    History w initial 0 initial :=
  ⟨h, List.prefix_rfl, fun _ hm => .inl hm⟩

theorem History.later {initial messages : List (Message Msg)} {j : Nat}
    (h : History w initial j messages) : History w initial (j + 1) messages :=
  ⟨h.stored, h.kept, fun m hm => (h.made m hm).imp_right fun ⟨j', hj', hmade⟩ => ⟨j', by omega, hmade⟩⟩

/-- The ids of a superstep are new. -/
theorem History.new {initial messages : List (Message Msg)} (hw : FreshIds w initial) {j : Nat}
    (h : History w initial j messages) : ∀ m ∈ messages, ∀ k i, w.Makes j k i → m.id ≠ some i := by
  intro m hm k i hi
  cases h.made m hm with
  | inl hinitial => exact hw.initial m hinitial j k i hi
  | inr hmade =>
    obtain ⟨j', hj', k', i', hi', hid⟩ := hmade
    intro hid'
    rw [hid, Option.some.injEq] at hid'
    subst hid'
    have := (hw.makes_inj hi hi').1
    omega

theorem History.append {initial messages new : List (Message Msg)} {j : Nat}
    (h : History w initial j messages) (hstored : StoredMessages (messages ++ new))
    (hmade : ∀ m ∈ new, ∃ k i, w.Makes j k i ∧ m.id = some i) :
    History w initial (j + 1) (messages ++ new) := by
  refine ⟨hstored, h.kept.trans (List.prefix_append _ _), fun m hm => ?_⟩
  cases List.mem_append.mp hm with
  | inl hm => exact h.later.made m hm
  | inr hm =>
    obtain ⟨k, i, hi, hid⟩ := hmade m hm
    exact .inr ⟨j, by omega, k, i, hi, hid⟩

/-- What a node writes is appended. -/
theorem History.addWritten {initial messages : List (Message Msg)} (hw : FreshIds w initial) {j : Nat}
    (h : History w initial j messages) (new : List Msg) :
    ∃ right, React.addWritten w j 0 messages new = .ok (messages ++ right) ∧ contents right = new ∧
      History w initial (j + 1) (messages ++ right) := by
  obtain ⟨hstored, hmade⟩ := stored_written hw (j := j) (n := 0) new
  have hnew : ∀ m ∈ (assignIds (fun k => w.uuid j (0 + k)) 0 (written w j 0 new)).1, ∀ m' ∈ messages,
      m'.id ≠ m.id := by
    intro m hm m' hm'
    obtain ⟨k, i, hi, hid⟩ := hmade m hm
    rw [hid]
    exact h.new hw m' hm' k i hi
  refine ⟨_, ?_, ?_, h.append (h.stored.append hstored hnew) hmade⟩
  · rw [React.addWritten, addMessages_new h.stored hstored hnew]
    rfl
  · rw [contents_assignIds, contents_written]

/-- The write of one tool task. -/
theorem addWritten_one {messages : List (Message Msg)} (hs : StoredMessages messages) {j n : Nat}
    (hnew : ∀ m ∈ messages, ∀ i, w.Makes j n i → m.id ≠ some i) (c : Msg) :
    ∃ i, w.Makes j n i ∧ addWritten w j n messages [c] = .ok (messages ++ [.message (some i) c]) ∧
      StoredMessages (messages ++ [.message (some i) c]) := by
  have hone : ∀ i, w.Makes j n i → StoredMessages [.message (some i) c] ∧
      ∀ m ∈ [Message.message (some i) c], ∀ m' ∈ messages, m'.id ≠ m.id := by
    intro i hi
    refine ⟨⟨?_, List.nodup_singleton i, ?_⟩, ?_⟩
    · intro m hm
      rw [List.mem_singleton.mp hm]
      exact Option.some_ne_none i
    · intro m hm
      rw [List.mem_singleton.mp hm]
      rfl
    · intro m hm m' hm'
      rw [List.mem_singleton.mp hm]
      exact hnew m' hm' i hi
  have hadd : ∀ i, w.Makes j n i →
      (assignIds (fun k => w.uuid j (n + k)) 0 (written w j n [c])).1 = [.message (some i) c] →
        addWritten w j n messages [c] = .ok (messages ++ [.message (some i) c]) := by
    intro i hi hright
    obtain ⟨hstored, hother⟩ := hone i hi
    rw [addWritten, addMessages_new hs (hright ▸ hstored) (hright ▸ hother), hright]
    rfl
  cases hgiven : w.given j n with
  | some i =>
    have hi : w.Makes j n i := .inl hgiven
    refine ⟨i, hi, hadd i hi ?_, hs.append (hone i hi).1 (hone i hi).2⟩
    rw [written, hgiven]
    rfl
  | none =>
    have hi : w.Makes j n (w.uuid j n) := .inr rfl
    refine ⟨_, hi, hadd _ hi ?_, hs.append (hone _ hi).1 (hone _ hi).2⟩
    rw [written, hgiven]
    rfl

/-- The writes of all tool tasks come one after the other. -/
theorem addEach_ok {initial : List (Message Msg)} (hw : FreshIds w initial) {j : Nat} :
    ∀ (calls : List Call) (n : Nat) (messages : List (Message Msg)), StoredMessages messages →
      (∀ m ∈ messages, ∀ k, n ≤ k → ∀ i, w.Makes j k i → m.id ≠ some i) →
        ∃ right, addEach w j n calls messages = .ok (messages ++ right) ∧
          contents right = calls.map toolMessage ∧ StoredMessages (messages ++ right) ∧
            ∀ m ∈ right, ∃ k i, w.Makes j k i ∧ m.id = some i := by
  intro calls
  induction calls with
  | nil =>
    intro n messages hs _
    exact ⟨[], by rw [List.append_nil]; rfl, rfl, by rwa [List.append_nil], fun m hm => (nomatch hm)⟩
  | cons call rest ih =>
    intro n messages hs hnew
    obtain ⟨i, hi, hadd, hs'⟩ := addWritten_one hs (fun m hm => hnew m hm n (Nat.le_refl n))
      (toolMessage call)
    have hnew' : ∀ m ∈ messages ++ [.message (some i) (toolMessage call)], ∀ k, n + 1 ≤ k →
        ∀ i', w.Makes j k i' → m.id ≠ some i' := by
      intro m hm k hk i' hi'
      cases List.mem_append.mp hm with
      | inl hm => exact hnew m hm k (by omega) i' hi'
      | inr hm =>
        rw [List.mem_singleton.mp hm]
        intro heq
        cases heq
        have := (hw.makes_inj hi hi').2
        omega
    obtain ⟨right, hright, hcontents, hstored, hmade⟩ := ih (n + 1) _ hs' hnew'
    refine ⟨.message (some i) (toolMessage call) :: right, ?_, ?_, ?_, ?_⟩
    · rw [addEach, hadd]
      show addEach w j (n + 1) rest _ = _
      rw [hright, List.append_assoc]
      rfl
    · rw [List.map_cons, ← hcontents]
      rfl
    · rwa [List.append_assoc] at hstored
    · intro m hm
      cases List.mem_cons.mp hm with
      | inl hm => exact ⟨n, i, hi, by rw [hm]; rfl⟩
      | inr hm => exact hmade m hm

theorem localViews_ok {messages : List (Message Msg)} (hs : StoredMessages messages) {j : Nat}
    (hnew : ∀ m ∈ messages, ∀ k i, w.Makes j k i → m.id ≠ some i) : ∀ (calls : List Call) (n : Nat),
      ∃ views, localViews w j messages n calls = .ok views ∧
        views.map contents = calls.map fun call => contents messages ++ [toolMessage call]
  | [], _ => ⟨[], rfl, rfl⟩
  | call :: rest, n => by
    obtain ⟨i, -, hadd, -⟩ := addWritten_one hs (fun m hm => hnew m hm n) (toolMessage call)
    obtain ⟨views, hviews, hcontents⟩ := localViews_ok hs hnew rest (n + 1)
    refine ⟨(messages ++ [.message (some i) (toolMessage call)]) :: views, ?_, ?_⟩
    · rw [localViews, hadd]
      show (localViews w j messages (n + 1) rest >>= _) = _
      rw [hviews]
      rfl
    · rw [List.map_cons, List.map_cons, hcontents, contents_append]
      rfl

/- ── Routing ───────────────────────────────────────────────────────────────── -/

/-- After a response without hooks: to the tools if it has calls. -/
def afterResponse (agent : Agent) (calls : List Call) : Next :=
  if calls = [] then if agent.responseFormat then .node .generateStructuredResponse else .done
  else
    match agent.version with
    | .v1 => .node .tools
    | .v2 => .sends calls

theorem afterAgent_response (hpost : agent.postModelHook = false) (htools : agent.toolCallingEnabled = true)
    (messages : List Msg) (text : String) (calls : List Call) :
    afterAgent agent (messages ++ [.ai text calls]) = .ok (afterResponse agent calls) := by
  have hlast : ((messages ++ [Msg.ai text calls]).getLast?.map Msg.toolCalls).getD [] = calls := by
    rw [List.getLast?_concat]
    rfl
  unfold afterAgent shouldContinue afterResponse
  rw [hlast]
  cases calls with
  | nil => cases hformat : agent.responseFormat <;> simp [hpost, htools, agentPaths, finish, hformat]
  | cons call calls =>
    cases hversion : agent.version <;> cases hformat : agent.responseFormat <;>
      simp [hpost, htools, agentPaths, finish, hformat]

/-- Answers for all calls of the last response leave no call without one. -/
theorem validChat_answered {messages : List Msg} (h : validChat messages = true) (text : String)
    (calls : List Call) : validChat (messages ++ [.ai text calls] ++ calls.map toolMessage) = true := by
  rw [validChat, List.all_eq_true] at h ⊢
  intro call hcall
  have hnone : (calls.map toolMessage).flatMap Msg.toolCalls = [] := by
    rw [List.flatMap_eq_nil_iff]
    intro m hm
    obtain ⟨call', -, rfl⟩ := List.mem_map.mp hm
    rfl
  rw [List.flatMap_append, List.flatMap_append, hnone, List.append_nil] at hcall
  rw [decide_eq_true_eq, List.filterMap_append, List.filterMap_append]
  cases List.mem_append.mp hcall with
  | inl hold =>
    have hanswered := of_decide_eq_true (h call hold)
    exact List.mem_append_left _ (List.mem_append_left _ hanswered)
  | inr hnew =>
    have hmem : call ∈ calls := by simpa [Msg.toolCalls] using hnew
    exact List.mem_append_right _ (List.mem_filterMap.mpr ⟨_, List.mem_map_of_mem hmem, rfl⟩)

/-- The response names a tool that returns directly. -/
def NamesDirect (agent : Agent) (calls : List Call) : Prop := ∃ call ∈ calls, call.name ∈ agent.returnDirect

/-- A view of the messages after a response and some of its answers. -/
theorem routeToolResponses_view (messages : List Msg) (text : String) {calls answers : List Call}
    (h : answers ⊆ calls) : routeToolResponses agent
      (messages ++ [.ai text calls] ++ answers.map toolMessage) = .done ↔ NamesDirect agent calls := by
  rw [routeToolResponses_done, returnsDirect_tools, List.reverse_append]
  show (_ || calls.any fun call => call.name ∈ agent.returnDirect) = true ↔ _
  rw [Bool.or_eq_true, List.any_eq_true, List.any_eq_true]
  simp only [decide_eq_true_eq]
  constructor
  · intro hany
    cases hany with
    | inl hany =>
      obtain ⟨call, hcall, hname⟩ := hany
      exact ⟨call, h hcall, hname⟩
    | inr hany => exact hany
  · exact .inr

/-- Tasks that all see the same decide the same. -/
theorem afterTools_iff {seen : List (List Msg)} (hne : seen ≠ []) {p : Prop}
    (h : ∀ messages ∈ seen, routeToolResponses agent messages = .done ↔ p) :
    (afterTools agent seen = .done ↔ p) ∧
      (afterTools agent seen ≠ .done → afterTools agent seen = entrypoint agent) := by
  obtain ⟨messages, hmem⟩ := List.exists_mem_of_ne_nil seen hne
  unfold afterTools
  split
  · next hall =>
    rw [List.all_eq_true] at hall
    exact ⟨iff_of_true rfl ((h messages hmem).mp (of_decide_eq_true (hall messages hmem))),
      fun hdone => absurd rfl hdone⟩
  · next hall =>
    refine ⟨iff_of_false entrypoint_ne_done fun hp => hall ?_, fun _ => rfl⟩
    rw [List.all_eq_true]
    intro messages' hmem'
    exact decide_eq_true ((h messages' hmem').mpr hp)

/- ── The conversation ──────────────────────────────────────────────────────── -/

/-- What is known of the messages when something is to run: before the model no call is
    without its answer, and before the tools only those of the last message are. -/
def Phase : Next → List Msg → Prop
  | .node .start, messages | .node .agent, messages => validChat messages = true
  | .node .tools, messages => ∃ before text calls, messages = before ++ [.ai text calls] ∧
      validChat before = true ∧ calls ≠ []
  | .sends calls, messages => ∃ before text, messages = before ++ [.ai text calls] ∧
      validChat before = true ∧ calls ≠ []
  | .node .preModelHook, _ | .node .postModelHook, _ => False
  | .node .generateStructuredResponse, _ | .done, _ => True

structure Sound (w : World) (initial : List (Message Msg)) (j : Nat) (next : Next) (s : Chat) : Prop where
  history : History w initial j s.messages
  executed : s.executed ++ outstanding next (contents s.messages) = asked initial s.messages
  phase : Phase next (contents s.messages)

/-- What one superstep does. The model's response is added, or the message that takes its
    place; the calls that are outstanding are carried out and answered, and then the run
    ends, or the model is called. -/
structure StepOf (w : World) (agent : Agent) (remaining : Option Int) (j : Nat) (next : Next) (s : Chat)
    (next' : Next) (s' : Chat) : Prop where
  response : next = .node .agent → contents s'.messages =
    contents s.messages ++ [reply agent remaining (w.model j (contents s.messages))]
  executed : s'.executed = s.executed ++ outstanding next (contents s.messages)
  answered : outstanding next (contents s.messages) ≠ [] → contents s'.messages =
    contents s.messages ++ (outstanding next (contents s.messages)).map toolMessage
  ends : outstanding next (contents s.messages) ≠ [] →
    ((next' = .done ↔ NamesDirect agent (outstanding next (contents s.messages))) ∧
      (next' ≠ .done → next' = .node .agent))

theorem asked_append {initial messages : List (Message Msg)} (h : initial <+: messages)
    (right : List (Message Msg)) :
    asked initial (messages ++ right) = asked initial messages ++ (contents right).flatMap Msg.toolCalls := by
  rw [asked, asked, List.drop_append_of_le_length h.length_le, contents_append, List.flatMap_append]

theorem flatMap_toolMessage (calls : List Call) : (calls.map toolMessage).flatMap Msg.toolCalls = [] := by
  rw [List.flatMap_eq_nil_iff]
  intro m hm
  obtain ⟨call, -, rfl⟩ := List.mem_map.mp hm
  rfl

theorem entrypoint_agent (hpre : agent.preModelHook = false) : entrypoint agent = .node .agent := by
  rw [entrypoint, hpre]
  rfl

theorem outstanding_afterResponse (messages : List Msg) (text : String) (calls : List Call) :
    outstanding (afterResponse agent calls) (messages ++ [.ai text calls]) = calls := by
  unfold afterResponse
  split
  · next hnil =>
    subst hnil
    split <;> rfl
  · cases agent.version with
    | v1 =>
      show (lastAiCalls _).getD [] = _
      rw [lastAiCalls_append]
      rfl
    | v2 => rfl

theorem phase_afterResponse {messages : List Msg} (h : validChat messages = true) (text : String)
    (calls : List Call) : Phase (afterResponse agent calls) (messages ++ [.ai text calls]) := by
  unfold afterResponse
  split
  · split <;> trivial
  · next hne =>
    cases agent.version with
    | v1 => exact ⟨messages, text, calls, rfl, h, hne⟩
    | v2 => exact ⟨messages, text, rfl, h, hne⟩

/-- The model node adds a response, and its calls become outstanding. -/
theorem step_agent (hpost : agent.postModelHook = false) (htools : agent.toolCallingEnabled = true)
    {initial : List (Message Msg)} (hw : FreshIds w initial) {j : Nat} {s : Chat}
    (h : Sound w initial j (.node .agent) s) (remaining : Option Int) :
    ∃ next' s', superstep w agent remaining j s (.node .agent) = .ok (next', s') ∧
      Sound w initial (j + 1) next' s' ∧ StepOf w agent remaining j (.node .agent) s next' s' := by
  obtain ⟨text, calls, hreply⟩ := reply_ai agent remaining (w.model j (contents s.messages))
  obtain ⟨right, hadd, hright, hhistory⟩ := h.history.addWritten hw
    [reply agent remaining (w.model j (contents s.messages))]
  have hvalid : validChat (contents s.messages) = true := h.phase
  have hcontents : contents (s.messages ++ right) = contents s.messages ++ [.ai text calls] := by
    rw [contents_append, hright, hreply]
  have hrun : superstep w agent remaining j s (.node .agent) =
      .ok (afterResponse agent calls, { s with messages := s.messages ++ right }) := by
    show (if validChat (contents s.messages) = false then _ else _) = _
    rw [if_neg (by rw [hvalid]; exact Bool.noConfusion), hadd]
    show ((afterAgent agent (contents (s.messages ++ right))).mapError _ >>= _) = _
    rw [hcontents, afterAgent_response hpost htools]
    rfl
  have hnone : s.executed = asked initial s.messages := by
    have hexecuted := h.executed
    rwa [show outstanding (.node .agent) (contents s.messages) = [] from rfl, List.append_nil] at hexecuted
  refine ⟨_, _, hrun, ⟨hhistory, ?_, ?_⟩, ⟨fun _ => ?_, (List.append_nil _).symm, fun hne => absurd rfl hne,
    fun hne => absurd rfl hne⟩⟩
  · show s.executed ++ outstanding _ (contents (s.messages ++ right)) = asked initial (s.messages ++ right)
    rw [hcontents, outstanding_afterResponse, asked_append h.history.kept, hright, hreply, hnone]
    exact congrArg _ (List.append_nil calls).symm
  · show Phase _ (contents (s.messages ++ right))
    rw [hcontents]
    exact phase_afterResponse hvalid text calls
  · show contents (s.messages ++ right) = _
    rw [contents_append, hright]

/-- What is left after the tools, however they were run. -/
theorem step_answers (hpre : agent.preModelHook = false) {initial : List (Message Msg)} {j : Nat}
    {next : Next} {s : Chat} (h : Sound w initial j next s) {before : List Msg} {text : String}
    {calls : List Call} (hlast : contents s.messages = before ++ [.ai text calls])
    (hvalid : validChat before = true) (hnext : next ≠ .node .agent)
    (hcalls : outstanding next (contents s.messages) = calls)
    {right : List (Message Msg)} (hhistory : History w initial (j + 1) (s.messages ++ right))
    (hright : contents right = calls.map toolMessage) {seen : List (List Msg)} (hseen : seen ≠ [])
    (hviews : ∀ view ∈ seen, ∃ answers ⊆ calls, view = contents s.messages ++ answers.map toolMessage)
    (remaining : Option Int) :
    Sound w initial (j + 1) (afterTools agent seen) ⟨s.messages ++ right, s.executed ++ calls⟩ ∧
      StepOf w agent remaining j next s (afterTools agent seen)
        ⟨s.messages ++ right, s.executed ++ calls⟩ := by
  have hview : ∀ view ∈ seen, routeToolResponses agent view = .done ↔ NamesDirect agent calls := by
    intro view hview
    obtain ⟨answers, hsub, rfl⟩ := hviews view hview
    rw [hlast]
    exact routeToolResponses_view before text hsub
  have hroute := afterTools_iff hseen hview
  rw [entrypoint_agent hpre] at hroute
  have hcontents : contents (s.messages ++ right) =
      before ++ [.ai text calls] ++ calls.map toolMessage := by
    rw [contents_append, hlast, hright]
  have hasked : s.executed ++ calls = asked initial (s.messages ++ right) := by
    rw [asked_append h.history.kept, hright, flatMap_toolMessage, List.append_nil, ← h.executed, hcalls]
  have hempty : outstanding (afterTools agent seen) (contents (s.messages ++ right)) = [] := by
    by_cases hdone : afterTools agent seen = .done
    · rw [hdone]
      rfl
    · rw [hroute.2 hdone]
      rfl
  constructor
  · refine ⟨hhistory, ?_, ?_⟩
    · show s.executed ++ calls ++ outstanding _ (contents (s.messages ++ right)) = _
      rw [hempty, List.append_nil]
      exact hasked
    · show Phase _ (contents (s.messages ++ right))
      by_cases hdone : afterTools agent seen = .done
      · rw [hdone]
        trivial
      · rw [hroute.2 hdone, hcontents]
        exact validChat_answered hvalid text calls
  · refine ⟨fun hagent => absurd hagent hnext, ?_, fun _ => ?_, fun _ => ?_⟩
    · rw [hcalls]
    · show contents (s.messages ++ right) = _
      rw [hcalls, contents_append, hright]
    · rw [hcalls]
      exact hroute

/-- In version v1 one node answers all calls of the last response. -/
theorem step_tools (hpre : agent.preModelHook = false) {initial : List (Message Msg)}
    (hw : FreshIds w initial) {j : Nat} {s : Chat} (h : Sound w initial j (.node .tools) s)
    (remaining : Option Int) :
    ∃ next' s', superstep w agent remaining j s (.node .tools) = .ok (next', s') ∧
      Sound w initial (j + 1) next' s' ∧ StepOf w agent remaining j (.node .tools) s next' s' := by
  obtain ⟨before, text, calls, hlast, hvalid, -⟩ := h.phase
  have hcalls : lastAiCalls (contents s.messages) = some calls := by
    rw [hlast, lastAiCalls_append]
  obtain ⟨right, hadd, hright, hhistory⟩ := h.history.addWritten hw (calls.map toolMessage)
  have hrun : superstep w agent remaining j s (.node .tools) = .ok
      (afterTools agent [contents (s.messages ++ right)], ⟨s.messages ++ right, s.executed ++ calls⟩) := by
    simp only [superstep, hcalls, hadd]
    rfl
  have hout : outstanding (.node .tools) (contents s.messages) = calls := by
    show (lastAiCalls _).getD [] = _
    rw [hcalls]
    rfl
  refine ⟨_, _, hrun, step_answers hpre h hlast hvalid (by simp) hout hhistory hright
    (List.cons_ne_nil _ _) ?_ remaining⟩
  intro view hview
  refine ⟨calls, List.Subset.refl calls, ?_⟩
  rw [List.mem_singleton.mp hview, contents_append, hright]

/-- In version v2 each call has its own task, which decides by what it sees. -/
theorem step_sends (hpre : agent.preModelHook = false) {initial : List (Message Msg)}
    (hw : FreshIds w initial) {j : Nat} {s : Chat} {calls : List Call}
    (h : Sound w initial j (.sends calls) s) (remaining : Option Int) :
    ∃ next' s', superstep w agent remaining j s (.sends calls) = .ok (next', s') ∧
      Sound w initial (j + 1) next' s' ∧ StepOf w agent remaining j (.sends calls) s next' s' := by
  obtain ⟨before, text, hlast, hvalid, hne⟩ := h.phase
  have hnew := h.history.new hw
  obtain ⟨views, hviews, hcontents⟩ := localViews_ok h.history.stored hnew calls 0
  obtain ⟨right, hadd, hright, hstored, hmade⟩ := addEach_ok hw calls 0 s.messages h.history.stored
    (fun m hm k _ => hnew m hm k)
  have hrun : superstep w agent remaining j s (.sends calls) =
      .ok (afterTools agent (views.map contents), ⟨s.messages ++ right, s.executed ++ calls⟩) := by
    simp only [superstep, hviews, hadd]
    rfl
  refine ⟨_, _, hrun, step_answers hpre h hlast hvalid (by simp) rfl
    (h.history.append hstored hmade) hright ?_ ?_ remaining⟩
  · rw [hcontents]
    exact fun hnil => hne (List.map_eq_nil_iff.mp hnil)
  · intro view hview
    rw [hcontents] at hview
    obtain ⟨call, hcall, rfl⟩ := List.mem_map.mp hview
    exact ⟨[call], List.cons_subset.mpr ⟨hcall, List.nil_subset calls⟩, rfl⟩

/-- One superstep leads from a sound state to a sound state. -/
theorem step_sound (hpre : agent.preModelHook = false) (hpost : agent.postModelHook = false)
    (htools : agent.toolCallingEnabled = true) {initial : List (Message Msg)} (hw : FreshIds w initial)
    {j : Nat} {next : Next} {s : Chat} (h : Sound w initial j next s) (remaining : Option Int) :
    ∃ next' s', superstep w agent remaining j s next = .ok (next', s') ∧
      Sound w initial (j + 1) next' s' ∧ StepOf w agent remaining j next s next' s' := by
  have hidle : ∀ {next next'}, Sound w initial j next s → outstanding next (contents s.messages) = [] →
      outstanding next' (contents s.messages) = [] → Phase next' (contents s.messages) →
        next ≠ .node .agent →
        Sound w initial (j + 1) next' s ∧ StepOf w agent remaining j next s next' s := by
    intro next next' h hnone hnone' hphase hagent
    have hexecuted := h.executed
    rw [hnone] at hexecuted
    exact ⟨⟨h.history.later, by rw [hnone']; exact hexecuted, hphase⟩,
      ⟨fun h => absurd h hagent, by rw [hnone, List.append_nil], fun hne => absurd hnone hne,
        fun hne => absurd hnone hne⟩⟩
  cases next with
  | done => exact ⟨_, _, rfl, hidle h rfl rfl trivial Next.noConfusion⟩
  | sends calls => exact step_sends hpre hw h remaining
  | node n =>
    cases n with
    | start =>
      refine ⟨_, _, rfl, ?_⟩
      rw [entrypoint_agent hpre]
      exact hidle h rfl rfl h.phase (by simp)
    | agent => exact step_agent hpost htools hw h remaining
    | tools => exact step_tools hpre hw h remaining
    | generateStructuredResponse => exact ⟨_, _, rfl, hidle h rfl rfl trivial (by simp)⟩
    | preModelHook => exact h.phase.elim
    | postModelHook => exact h.phase.elim

/-- The state after any number of supersteps. -/
theorem chatAfter_sound (hpre : agent.preModelHook = false) (hpost : agent.postModelHook = false)
    (htools : agent.toolCallingEnabled = true) {initial : List (Message Msg)} (hw : FreshIds w initial)
    (hstored : StoredMessages initial) (hvalid : validChat (contents initial) = true)
    (remaining : Nat → Option Int) : ∀ n, ∃ next s,
      chatAfter w agent remaining initial n = .ok (next, s) ∧ Sound w initial n next s
  | 0 => ⟨_, _, rfl, .start hstored, by simp [asked, outstanding, contents], hvalid⟩
  | n + 1 => by
    obtain ⟨next, s, hrun, hsound⟩ := chatAfter_sound hpre hpost htools hw hstored hvalid remaining n
    obtain ⟨next', s', hstep, hsound', -⟩ := step_sound hpre hpost htools hw hsound (remaining n)
    refine ⟨next', s', ?_, hsound'⟩
    rw [chatAfter, hrun]
    exact hstep

end

/- ── Calls that are not carried out ────────────────────────────────────────── -/

/-- A run is over, and a call of one of the model's responses was not carried out. -/
def Unexecuted (w : World) (agent : Agent) (remaining : Nat → Option Int)
    (initial : List (Message Msg)) : Prop :=
  ∃ n s j t call, chatAfter w agent remaining initial n = .ok (.done, s) ∧ j < n ∧
    chatAfter w agent remaining initial j = .ok (.node .agent, t) ∧
    call ∈ (w.model j (contents t.messages)).2 ∧ call ∉ s.executed

def plainUuid (j n : Nat) : String :=
  String.ofList (List.replicate j 'a' ++ 'b' :: List.replicate n 'c')

theorem plainUuid_inj {j n j' n' : Nat} (h : plainUuid j n = plainUuid j' n') : j = j' ∧ n = n' := by
  have hlist := congrArg String.toList h
  simp only [plainUuid, String.toList_ofList] at hlist
  have ha := congrArg (List.count 'a') hlist
  have hc := congrArg (List.count 'c') hlist
  simp [List.count_append, List.count_replicate] at ha hc
  exact ⟨ha, hc⟩

/-- A search in the first response, and another one in all others. -/
def searchTwice : World where
  model j _ := if j = 1 then ("", [⟨"1", "search"⟩]) else ("", [⟨"2", "search"⟩])
  given _ _ := none
  uuid := plainUuid

def searcher : Agent := ⟨.v1, true, [], false, false, false⟩

def question : List (Message Msg) := [.message (some "q") .other]

theorem freshIds_searchTwice : FreshIds searchTwice question := by
  refine ⟨fun h => (nomatch h), plainUuid_inj, fun _ _ _ _ h => (nomatch h), fun m hm j k i hi => ?_⟩
  rw [List.mem_singleton.mp hm]
  intro hid
  cases hid
  cases hi with
  | inl hi => cases hi
  | inr hi =>
    have hmem : 'b' ∈ (plainUuid j k).toList := by simp [plainUuid]
    have hi : plainUuid j k = "q" := hi
    rw [hi] at hmem
    exact absurd hmem (by decide)

end LangGraph.React
