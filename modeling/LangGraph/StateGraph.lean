import LangGraph.Algo
import LangGraph.TriggerChannels

/- The graph builder of `graph/state.py` and what `compile` makes of it.

   Correspondence (source ↔ Lean):
     `StateNodeSpec`, `StateGraph`                  ↔ `StateNodeSpec`, `StateGraph`
     `add_node`, `add_edge`                         ↔ `addNode`, `addEdge`, `addWaitingEdge`
     `attach_node`, `attach_edge`, `compile`        ↔ `attachNode`, `attachEdge`, `compile`
     `_trigger_to_nodes` (pregel/main.py)           ↔ `triggerToNodes`
     `validate_graph` (pregel/_validate.py)         ↔ `validateGraph`
   What a node writes is not modelled here: the writers that `attach_edge` and
   `attach_branch` append take part in a run by the writes of its tasks, which are
   arbitrary there. `compile_wired`: the triggers of a compiled graph are trigger
   channels of it, when every edge with several starts waits for some node. -/
namespace LangGraph

namespace Const

def START := "__start__"
def END := "__end__"
def NS_SEP := '|'
def NS_END := ':'

end Const

structure StateNodeSpec where
  /-- `list(schemas[input_schema])` -/
  inputChannels : List String
  mapper : Option (PyVal → PyVal)
  defer : Bool
  errorHandlerNode : Option String

/-- A builder. `waiting_ends` is what `add_edge` checks of an edge with several starts. -/
structure StateGraph where
  channels : OrdDict String Channel
  nodes : OrdDict String StateNodeSpec
  edges : List (String × String)
  waitingEdges : List (List String × String)
  waiting_ends : ∀ e ∈ waitingEdges, e.2 = Const.END ∨ e.2 ∈ nodes.keys

namespace StateGraph

def new (channels : OrdDict String Channel) : StateGraph :=
  ⟨channels, ∅, [], [], by simp⟩

/-- `add_node` -/
def addNode (g : StateGraph) (node : String) (spec : StateNodeSpec) : Except String StateGraph :=
  if node ∈ g.nodes.keys then .error ("Node `" ++ node ++ "` already present.")
  else if node = Const.END ∨ node = Const.START then .error ("Node `" ++ node ++ "` is reserved.")
  else
    match [Const.NS_SEP, Const.NS_END].find? (node.toList.contains ·) with
    | some character =>
      .error ("'" ++ character.toString ++
        "' is a reserved character and is not allowed in the node names.")
    | none =>
      .ok { g with
        nodes := g.nodes.set node spec
        waiting_ends := fun e he =>
          (g.waiting_ends e he).imp_right fun h => OrdDict.mem_keys_set.mpr (Or.inr h) }

/-- `add_edge` with one start. -/
def addEdge (g : StateGraph) (start target : String) : Except String StateGraph :=
  if start = Const.END then .error "END cannot be a start node"
  else if target = Const.START then .error "START cannot be an end node"
  else .ok { g with edges := (start, target) :: g.edges }

/-- The loop of `add_edge` over several starts. -/
def checkStarts (g : StateGraph) : List String → Except String Unit
  | [] => .ok ()
  | start :: rest =>
    if start = Const.END then .error "END cannot be a start node"
    else if start ∉ g.nodes.keys then .error ("Need to add_node `" ++ start ++ "` first")
    else checkStarts g rest

/-- `add_edge` with a list of starts; nothing asks for a start in the list. -/
def addWaitingEdge (g : StateGraph) (starts : List String) (target : String) :
    Except String StateGraph :=
  match g.checkStarts starts with
  | .error e => .error e
  | .ok () =>
    if target = Const.START then .error "START cannot be an end node"
    else if h : target = Const.END ∨ target ∈ g.nodes.keys then
      .ok { g with
        waitingEdges := (starts, target) :: g.waitingEdges
        waiting_ends := by
          intro e he
          rcases List.mem_cons.mp he with rfl | he
          · exact h
          · exact g.waiting_ends e he }
    else .error ("Need to add_node `" ++ target ++ "` first")

end StateGraph

/-- `_CHANNEL_BRANCH_TO` -/
def branchTo (node : String) : String := "branch:to:" ++ node

/-- The channel of an edge with several starts. -/
def joinName (starts : List String) (target : String) : String :=
  "join:" ++ "+".intercalate starts ++ ":" ++ target

/-- What `compile` fills of the graph to run. -/
structure CompiledStateGraph where
  nodes : OrdDict String PregelNode
  channels : OrdDict String Channel

namespace CompiledStateGraph

/-- `CompiledStateGraph(channels={**channels, START: …})`, and the channel that
    `Pregel` adds for `TASKS`. -/
def init (channels : OrdDict String Channel) : CompiledStateGraph :=
  ⟨∅, (channels.set Const.START (.ephemeralValue ⟨Const.START, true, none⟩)).set Const.TASKS
    (.topic ⟨Const.TASKS, false, []⟩)⟩

/-- `attach_node(START, None)` -/
def attachStart (c : CompiledStateGraph) : CompiledStateGraph :=
  { c with
    nodes := c.nodes.set Const.START {
      channels := .single Const.START, triggers := [Const.START], mapper := none, hasNode := true
      errorHandlerNode := none } }

/-- The channel that triggers a node by a plain edge, a branch or a `goto`. -/
def branchChannel (key : String) (node : StateNodeSpec) : Channel :=
  if node.defer then .lastValueAfterFinish ⟨branchTo key, none, false⟩
  else .ephemeralValue ⟨branchTo key, false, none⟩

/-- `attach_node` -/
def attachNode (c : CompiledStateGraph) (key : String) (node : StateNodeSpec) :
    CompiledStateGraph where
  channels := c.channels.set (branchTo key) (branchChannel key node)
  nodes := c.nodes.set key {
    triggers := [branchTo key]
    channels :=
      if node.inputChannels = ["__root__"] then .single "__root__" else .list node.inputChannels
    mapper := node.mapper, hasNode := true, errorHandlerNode := node.errorHandlerNode }

/-- The barrier of an edge with several starts. -/
def joinChannel (starts : List String) (target : String) (defer : Bool) : Channel :=
  let names := (starts.map PyVal.str).dedup
  if defer then .namedBarrierValueAfterFinish ⟨joinName starts target, names, [], false⟩
  else .namedBarrierValue ⟨joinName starts target, names, []⟩

/-- `attach_edge` for an edge with several starts. -/
def attachEdge (nodes : OrdDict String StateNodeSpec) (c : CompiledStateGraph)
    (e : List String × String) : CompiledStateGraph :=
  match nodes.get? e.2, c.nodes.get? e.2 with
  | some spec, some proc =>
    { channels := c.channels.set (joinName e.1 e.2) (joinChannel e.1 e.2 spec.defer)
      nodes := c.nodes.set e.2 { proc with triggers := proc.triggers ++ [joinName e.1 e.2] } }
  | _, _ => c -- the end is END: nothing to attach

end CompiledStateGraph

/-- `compile` -/
def StateGraph.compile (g : StateGraph) : CompiledStateGraph :=
  let c := (CompiledStateGraph.init g.channels).attachStart
  let c := g.nodes.entries.foldl (fun c e => c.attachNode e.1 e.2) c
  g.waitingEdges.foldl (CompiledStateGraph.attachEdge g.nodes) c

/-- `trigger_to_nodes[trigger].append(name)` -/
def addTrigger (name : String) (d : TriggerToNodes) (trigger : String) : TriggerToNodes :=
  d.set trigger (d.getD trigger [] ++ [name])

/-- `_trigger_to_nodes` -/
def triggerToNodes (nodes : OrdDict String PregelNode) : TriggerToNodes :=
  nodes.entries.foldl (fun d e => e.2.triggers.foldl (addTrigger e.1) d) ∅

/-- What `validate_graph` raises: the check that failed, and the names it reports. -/
inductive InvalidGraph where
  | reservedChannel (chan : String)
  | reservedManaged (name : String)
  | reservedNode (name : String)
  | unknownRead (node chan : String)
  | unknownSubscribed (chan : String)
  | unknownInput (chan : String)
  | inputNotSubscribed (chan : String)
  | unknownOutput (chan : String)
  | unknownInterrupt (node : String)
  deriving DecidableEq

/-- The checks of one node: its name, then the channels it reads. -/
def checkNode (channels : OrdDict String Channel) (managed : List String)
    (e : String × PregelNode) : Option InvalidGraph :=
  if reserved.contains e.1 then some (.reservedNode e.1)
  else
    match e.2.channels with
    | .single chan => if channels.contains chan then none else some (.unknownRead e.1 chan)
    | .list chans =>
      (chans.find? fun chan => !channels.contains chan && !managed.contains chan).map
        (.unknownRead e.1)

/-- `validate_graph`, with the input channel that `compile` gives. -/
def validateGraph (nodes : OrdDict String PregelNode) (channels : OrdDict String Channel)
    (managed outputChannels interruptNodes : List String) : Option InvalidGraph :=
  let subscribed := nodes.entries.flatMap (·.2.triggers)
  let unknown := fun chan => !channels.contains chan
  (channels.keys.find? reserved.contains).map .reservedChannel <|>
  (managed.find? reserved.contains).map .reservedManaged <|>
  nodes.entries.findSome? (checkNode channels managed) <|>
  (subscribed.find? unknown).map .unknownSubscribed <|>
  (if unknown Const.START then some (.unknownInput Const.START) else none) <|>
  (if subscribed.contains Const.START then none else some (.inputNotSubscribed Const.START)) <|>
  (outputChannels.find? unknown).map .unknownOutput <|>
  (interruptNodes.find? fun n => !nodes.contains n).map .unknownInterrupt

/-- The nodes of a graph that passes have no reserved names. -/
theorem not_reserved_of_validateGraph {nodes : OrdDict String PregelNode}
    {channels : OrdDict String Channel} {managed outputChannels interruptNodes : List String}
    (h : validateGraph nodes channels managed outputChannels interruptNodes = none)
    {name : String} {proc : PregelNode} (hp : nodes.get? name = some proc) : name ∉ reserved := by
  have hnodes : nodes.entries.findSome? (checkNode channels managed) = none := by
    unfold validateGraph at h
    simp only [Option.orElse_eq_orElse, Option.orElse_eq_or, Option.or_eq_none_iff] at h
    exact h.2.2.1
  have hnode := List.findSome?_eq_none_iff.mp hnodes _ (OrdDict.get?_eq_some_iff.mp hp)
  intro hres
  rw [checkNode, if_pos (by simpa using hres)] at hnode
  cases hnode

/-- Its channels have none either. -/
theorem channel_not_reserved_of_validateGraph {nodes : OrdDict String PregelNode}
    {channels : OrdDict String Channel} {managed outputChannels interruptNodes : List String}
    (h : validateGraph nodes channels managed outputChannels interruptNodes = none)
    {chan : String} (hres : chan ∈ reserved) : channels.get? chan = none := by
  have hchans : (channels.keys.find? reserved.contains).map InvalidGraph.reservedChannel = none := by
    unfold validateGraph at h
    simp only [Option.orElse_eq_orElse, Option.orElse_eq_or, Option.or_eq_none_iff] at h
    exact h.1
  rw [Option.map_eq_none_iff, List.find?_eq_none] at hchans
  by_contra hne
  obtain ⟨ch, hch⟩ := Option.ne_none_iff_exists'.mp hne
  have hkey : chan ∈ channels.keys :=
    List.mem_map.mpr ⟨_, OrdDict.get?_eq_some_iff.mp hch, rfl⟩
  exact hchans chan hkey (by simpa using hres)

/-! ## The triggers of a compiled graph -/

/-- Every edge with several starts waits for some node. -/
def StateGraph.WaitsForSome (g : StateGraph) : Prop := ∀ e ∈ g.waitingEdges, e.1 ≠ []

instance (g : StateGraph) : Decidable g.WaitsForSome :=
  inferInstanceAs (Decidable (∀ e ∈ g.waitingEdges, e.1 ≠ []))

/-- The nodes can run, their triggers are trigger channels of the graph, and the
    names of these are not reserved ones. -/
def CompiledStateGraph.Wired (c : CompiledStateGraph) : Prop :=
  ∀ name proc, c.nodes.get? name = some proc → proc.hasNode = true ∧ ∀ chan ∈ proc.triggers,
    chan ∉ Const.TASKS :: reserved ∧ ∃ ch, c.channels.get? chan = some ch ∧ ch.IsTrigger

theorem branchTo_not_reserved (node : String) : branchTo node ∉ Const.TASKS :: reserved := by
  intro h
  have hp : ∀ r ∈ Const.TASKS :: reserved, r.toList.take 7 ≠ "branch:".toList := by decide +kernel
  refine hp _ h ?_
  simp [branchTo, String.toList_append]

theorem joinName_not_reserved (starts : List String) (target : String) :
    joinName starts target ∉ Const.TASKS :: reserved := by
  intro h
  have hp : ∀ r ∈ Const.TASKS :: reserved, r.toList.take 5 ≠ "join:".toList := by decide +kernel
  refine hp _ h ?_
  simp [joinName, String.toList_append]

namespace CompiledStateGraph

theorem isTrigger_branchChannel (key : String) (node : StateNodeSpec) :
    (branchChannel key node).IsTrigger := by
  unfold branchChannel
  split
  · exact fun _ => rfl
  · exact trivial

theorem isTrigger_joinChannel {starts : List String} (h : starts ≠ []) (target : String)
    (defer : Bool) : (joinChannel starts target defer).IsTrigger := by
  have hn : (starts.map PyVal.str).dedup ≠ [] := by
    cases starts with
    | nil => exact absurd rfl h
    | cons x xs =>
      have hx : PyVal.str x ∈ ((x :: xs).map PyVal.str).dedup :=
        List.mem_dedup.mpr (List.mem_map_of_mem (List.mem_cons_self ..))
      exact List.ne_nil_of_mem hx
  unfold joinChannel
  split <;> exact hn

/-- Attaching a channel keeps the triggers wired, as long as it is a trigger channel. -/
theorem Wired.set_channel {c : CompiledStateGraph} (h : c.Wired) (chan : String) {ch : Channel}
    (ht : ch.IsTrigger) : Wired { c with channels := c.channels.set chan ch } := by
  intro name proc hp
  refine ⟨(h name proc hp).1, fun t hmem => ?_⟩
  obtain ⟨hres, ch', hget, hch'⟩ := (h name proc hp).2 t hmem
  refine ⟨hres, ?_⟩
  by_cases ht' : t = chan
  · subst ht'
    exact ⟨ch, OrdDict.get?_set_self _ _ _, ht⟩
  · exact ⟨ch', by rw [OrdDict.get?_set_of_ne ht']; exact hget, hch'⟩

/-- So does attaching a node that is wired itself. -/
theorem Wired.set_node {c : CompiledStateGraph} (h : c.Wired) {key : String} {node : PregelNode}
    (hnode : node.hasNode = true) (hn : ∀ t ∈ node.triggers, t ∉ Const.TASKS :: reserved ∧
      ∃ ch, c.channels.get? t = some ch ∧ ch.IsTrigger) :
    Wired { c with nodes := c.nodes.set key node } := by
  intro name proc hp
  by_cases hk : name = key
  · subst hk
    rw [OrdDict.get?_set_self] at hp
    cases hp
    exact ⟨hnode, hn⟩
  · rw [OrdDict.get?_set_of_ne hk] at hp
    exact h name proc hp

theorem wired_attachStart (channels : OrdDict String Channel) :
    (init channels).attachStart.Wired := by
  have h₀ : (init channels).Wired := by
    intro name proc hp
    cases hp
  refine h₀.set_node rfl ?_
  intro t ht
  cases List.mem_singleton.mp ht
  refine ⟨by decide, .ephemeralValue ⟨Const.START, true, none⟩, ?_, trivial⟩
  rw [init, OrdDict.get?_set_of_ne (by decide), OrdDict.get?_set_self]

theorem wired_attachNode {c : CompiledStateGraph} (h : c.Wired) (key : String)
    (node : StateNodeSpec) : (c.attachNode key node).Wired := by
  have h₁ := h.set_channel (branchTo key) (isTrigger_branchChannel key node)
  refine h₁.set_node rfl ?_
  intro t ht
  cases List.mem_singleton.mp ht
  exact ⟨branchTo_not_reserved key, _, OrdDict.get?_set_self _ _ _,
    isTrigger_branchChannel key node⟩

theorem wired_attachEdge {c : CompiledStateGraph} (h : c.Wired)
    (nodes : OrdDict String StateNodeSpec) {e : List String × String} (he : e.1 ≠ []) :
    (attachEdge nodes c e).Wired := by
  unfold attachEdge
  split
  · rename_i spec proc hspec hproc
    have ht := isTrigger_joinChannel he e.2 spec.defer
    have h₁ := h.set_channel (joinName e.1 e.2) ht
    refine h₁.set_node (h₁ e.2 proc hproc).1 ?_
    intro t hmem
    rcases List.mem_append.mp hmem with hmem | hmem
    · exact (h₁ e.2 proc hproc).2 t hmem
    · cases List.mem_singleton.mp hmem
      exact ⟨joinName_not_reserved e.1 e.2, _, OrdDict.get?_set_self _ _ _, ht⟩
  · exact h

end CompiledStateGraph

open CompiledStateGraph in
theorem StateGraph.compile_wired (g : StateGraph) (h : g.WaitsForSome) : g.compile.Wired := by
  have hnodes : ∀ (entries : List (String × StateNodeSpec)) (c : CompiledStateGraph), c.Wired →
      (entries.foldl (fun c e => c.attachNode e.1 e.2) c).Wired := by
    intro entries
    induction entries with
    | nil => exact fun _ hc => hc
    | cons e rest ih => exact fun c hc => ih _ (wired_attachNode hc e.1 e.2)
  have hedges : ∀ (edges : List (List String × String)), (∀ e ∈ edges, e.1 ≠ []) →
      ∀ c : CompiledStateGraph, c.Wired → (edges.foldl (attachEdge g.nodes) c).Wired := by
    intro edges
    induction edges with
    | nil => exact fun _ _ hc => hc
    | cons e rest ih =>
      intro he c hc
      exact ih (fun e' he' => he e' (List.mem_cons_of_mem _ he')) _
        (wired_attachEdge hc g.nodes (he e (List.mem_cons_self ..)))
  exact hedges g.waitingEdges h _ (hnodes _ _ (wired_attachStart g.channels))

/-! ## trigger_to_nodes -/

theorem mem_getD_addTrigger {name node trigger trigger' : String} {d : TriggerToNodes} :
    node ∈ (addTrigger name d trigger).getD trigger' [] ↔
      node ∈ d.getD trigger' [] ∨ (node = name ∧ trigger' = trigger) := by
  unfold addTrigger
  by_cases h : trigger' = trigger
  · subst h
    simp [OrdDict.getD]
  · simp [OrdDict.getD, OrdDict.get?_set_of_ne h, h]

/-- The nodes listed under a trigger are those that have it. -/
theorem mem_triggerToNodes {nodes : OrdDict String PregelNode} {name trigger : String} :
    name ∈ (triggerToNodes nodes).getD trigger [] ↔
      ∃ proc, nodes.get? name = some proc ∧ trigger ∈ proc.triggers := by
  have hnode : ∀ (n : String) (trigs : List String) (d : TriggerToNodes),
      name ∈ (trigs.foldl (addTrigger n) d).getD trigger [] ↔
        name ∈ d.getD trigger [] ∨ (name = n ∧ trigger ∈ trigs) := by
    intro n trigs
    induction trigs with
    | nil => simp
    | cons t rest ih =>
      intro d
      rw [List.foldl_cons, ih, mem_getD_addTrigger, List.mem_cons]
      tauto
  have hall : ∀ (entries : List (String × PregelNode)) (d : TriggerToNodes),
      name ∈ (entries.foldl (fun d e => e.2.triggers.foldl (addTrigger e.1) d) d).getD trigger [] ↔
        name ∈ d.getD trigger [] ∨ ∃ proc, (name, proc) ∈ entries ∧ trigger ∈ proc.triggers := by
    intro entries
    induction entries with
    | nil => simp
    | cons e rest ih =>
      intro d
      rw [List.foldl_cons, ih, hnode]
      simp only [List.mem_cons, Prod.ext_iff]
      constructor
      · rintro ((h | ⟨rfl, h⟩) | ⟨proc, hm, h⟩)
        · exact Or.inl h
        · exact Or.inr ⟨e.2, Or.inl ⟨rfl, rfl⟩, h⟩
        · exact Or.inr ⟨proc, Or.inr hm, h⟩
      · rintro (h | ⟨proc, ⟨rfl, rfl⟩ | hm, h⟩)
        · exact Or.inl (Or.inl h)
        · exact Or.inl (Or.inr ⟨rfl, h⟩)
        · exact Or.inr ⟨proc, hm, h⟩
  unfold triggerToNodes
  rw [hall]
  simp only [OrdDict.get?_eq_some_iff, OrdDict.getD, OrdDict.get?_emptyCollection, Option.getD_none,
    List.not_mem_nil, false_or]

end LangGraph
