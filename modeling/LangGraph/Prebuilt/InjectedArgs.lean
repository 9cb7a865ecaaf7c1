import LangGraph.Lib.Fallible
import LangGraph.Lib.OrdDict

/- The arguments that a tool node passes to a tool: what the model asked for, without what it
   may not ask for, with what the graph supplies.

   Correspondence (source ↔ Lean), tool_node.py:
     `get_args`, `_is_injected_arg_type`           ↔ `Hint.getArgs`, `Hint.isInjectedArgType`
     `_is_injection`, `_get_injection_from_type`   ↔ `Hint.isInjection`, `Hint.getInjectionFromType`
     `_InjectedArgs`, `_get_all_injected_args`     ↔ `InjectedArgs`, `getAllInjectedArgs`
     `ToolNode.__init__`                           ↔ `Node.init`
     `ToolNode._inject_tool_args`                  ↔ `Node.injectToolArgs`
     `_execute_tool_sync`, `_execute_tool_async`   ↔ `Node.executeTool`
   `_is_injected_arg_type` is langchain-core's: an injected-argument class, or a type with one
   of them, or an instance of one, behind its first argument.
   `noninterference_iff`: what the model writes under an injected parameter reaches no tool,
   exactly where each such parameter is one that the node strips or sets. -/
namespace LangGraph.Injected

open Fallible

/-- The kinds of injected-argument classes: InjectedState, InjectedStore, ToolRuntime, and the
    further subclasses of InjectedToolArg. -/
inductive Kind where
  | state | store | runtime | custom
  deriving DecidableEq

/-- A type hint. A class is given by the kinds of its injected-argument bases, itself
    included; an instance may carry the field that an InjectedState names. -/
inductive Hint where
  | cls (kinds : List Kind)
  | object (kinds : List Kind) (field : Option String)
  | union (members : List Hint)
  | pipe (members : List Hint)
  | annotated (base : Hint) (metadata : List Hint)
  | generic (origin : List Kind) (args : List Hint)
  deriving Inhabited

/-- `get_args` -/
def Hint.getArgs : Hint → List Hint
  | .cls _ | .object _ _ => []
  | .union members | .pipe members => members
  | .annotated base metadata => base :: metadata
  | .generic _ args => args

/-- An injected-argument class. -/
def Hint.isInjectedClass : Hint → Bool
  | .cls kinds => !kinds.isEmpty
  | _ => false

/-- An instance of an injected-argument class. -/
def Hint.isInjectedObject : Hint → Bool
  | .object kinds _ => !kinds.isEmpty
  | _ => false

/-- `_is_injected_arg_type` -/
def Hint.isInjectedArgType (type_ : Hint) : Bool :=
  type_.isInjectedClass || type_.getArgs.tail.any fun arg => arg.isInjectedClass || arg.isInjectedObject

mutual

/-- `_is_injection` -/
def Hint.isInjection (kind : Kind) : Hint → Bool
  | .cls kinds | .object kinds _ => kinds.contains kind
  | .union members => Hint.anyInjection kind members
  | .annotated base metadata => base.isInjection kind || Hint.anyInjection kind metadata
  -- the origin of `X | Y` is `types.UnionType`, which is neither `Union` nor `Annotated`
  | .pipe _ => false
  | .generic origin _ => origin.contains kind

def Hint.anyInjection (kind : Kind) : List Hint → Bool
  | [] => false
  | arg :: rest => arg.isInjection kind || Hint.anyInjection kind rest

end

mutual

/-- A parameter is an injected one if an injected-argument class or instance stands in its
    hint: as the hint or its origin, or inside the unions and `Annotated`s that make it up. -/
def Hint.marked : Hint → Bool
  | .cls kinds | .object kinds _ => !kinds.isEmpty
  | .union members | .pipe members => Hint.anyMarked members
  | .annotated base metadata => base.marked || Hint.anyMarked metadata
  | .generic origin _ => !origin.isEmpty

def Hint.anyMarked : List Hint → Bool
  | [] => false
  | arg :: rest => arg.marked || Hint.anyMarked rest

end

inductive InjectError where
  | annotatedTwice (kind : Kind)
  | graphStateDict (toolName : String) (fields : List String)
  | missingField (field : String)
  | missingStore
  | notRegistered (toolName : String)
  deriving DecidableEq

/-- What `_get_injection_from_type` finds: one of the type's arguments, or the type itself
    (`True` in the source). -/
inductive Match where
  | arg (arg : Hint)
  | self

/-- `_get_injection_from_type` -/
def Hint.getInjectionFromType (type_ : Hint) (kind : Kind) : Except InjectError (Option Match) :=
  match type_.getArgs.filter (·.isInjection kind) with
  | [] => .ok (if type_.isInjection kind then some .self else none)
  | [arg] => .ok (some (.arg arg))
  | _ => .error (.annotatedTwice kind)

/-- `state_inj.field`, where `state_inj` is an InjectedState that names one. -/
def Match.field? : Match → Option String
  | .arg (.object kinds (some field)) =>
    if kinds.contains .state && field != "" then some field else none
  | _ => none

/-- A tool as the node reads it: its name, the annotations of its function and of its schema,
    and whether the schema requires a field. -/
structure Tool where
  name : String
  funcAnnotations : OrdDict String Hint
  schemaAnnotations : OrdDict String Hint
  isRequired : OrdDict String Bool
  deriving Inhabited

/-- `all_annotations` -/
def Tool.allAnnotations (tool : Tool) : OrdDict String Hint :=
  tool.funcAnnotations.merge tool.schemaAnnotations

/-- `_InjectedArgs` -/
structure InjectedArgs where
  state : OrdDict String (Option String)
  store : Option String
  runtime : Option String
  allInjectedKeys : List String
  optionalStateArgs : List String
  deriving DecidableEq

def InjectedArgs.empty : InjectedArgs := ⟨∅, none, none, [], []⟩

/-- `field_info and not field_info.is_required()` -/
def Tool.isOptional (tool : Tool) (name : String) : Bool := tool.isRequired.get? name == some false

/-- The body of the loop over `all_annotations`. -/
def Tool.scan (tool : Tool) (found : InjectedArgs) (param : String × Hint) :
    Except InjectError InjectedArgs := do
  let (name, type_) := param
  let keys := if type_.isInjectedArgType then found.allInjectedKeys ++ [name] else found.allInjectedKeys
  let runtime := if name = "runtime" then some name else found.runtime
  let stateInj ← type_.getInjectionFromType .state
  let state := match stateInj with
    | none => found.state
    | some inj => found.state.set name inj.field?
  let optional := match stateInj.bind Match.field? with
    | some _ => if tool.isOptional name then found.optionalStateArgs ++ [name] else found.optionalStateArgs
    | none => found.optionalStateArgs
  let storeInj ← type_.getInjectionFromType .store
  let store := if storeInj.isSome then some name else found.store
  let runtimeInj ← type_.getInjectionFromType .runtime
  pure ⟨state, store, if runtimeInj.isSome then some name else runtime, keys, optional⟩

/-- `_get_all_injected_args` -/
def getAllInjectedArgs (tool : Tool) : Except InjectError InjectedArgs :=
  tool.allAnnotations.entries.foldlM tool.scan .empty

/-- A tool node: its tools by their names, and beside each what was found in its annotations
    when the node was built. -/
structure Node where
  messagesKey : String
  toolsByName : OrdDict String Tool
  injectedArgs : OrdDict String InjectedArgs
  scanned : ∀ name, (toolsByName.get? name = none ∧ injectedArgs.get? name = none) ∨
    ∃ tool injected, toolsByName.get? name = some tool ∧ injectedArgs.get? name = some injected ∧
      getAllInjectedArgs tool = .ok injected

/-- A node without tools. -/
def Node.empty (messagesKey : String) : Node := ⟨messagesKey, ∅, ∅, fun _ => .inl ⟨rfl, rfl⟩⟩

/-- The body of the loop over `tools`. -/
def Node.register (node : Node) (tool : Tool) : Except InjectError Node :=
  match h : getAllInjectedArgs tool with
  | .error e => .error e
  | .ok injected =>
    .ok ⟨node.messagesKey, node.toolsByName.set tool.name tool, node.injectedArgs.set tool.name injected, by
      intro name
      rw [OrdDict.get?_set, OrdDict.get?_set]
      by_cases hn : name = tool.name
      · exact .inr ⟨tool, injected, by simp [hn], by simp [hn], h⟩
      · simpa [hn] using node.scanned name⟩

/-- `ToolNode.__init__` -/
def Node.init (tools : List Tool) (messagesKey : String) : Except InjectError Node :=
  tools.foldlM Node.register (.empty messagesKey)

section Execution

variable {V : Type}

/-- The state of the graph: a list of messages, a dict, or an object with attributes. -/
inductive GraphState (V : Type) where
  | list (messages : V)
  | dict (entries : OrdDict String V)
  | object (attributes : OrdDict String V)

/-- `ToolRuntime`, as far as the node reads it. -/
structure ToolRuntime (V : Type) where
  state : GraphState V
  store : Option V

/-- A value passed to a tool: one of the model's arguments, the state, a field of it, the
    store, or the runtime. -/
inductive Passed (V : Type) where
  | arg (value : V)
  | state (state : GraphState V)
  | field (value : V)
  | store (store : V)
  | runtime (runtime : ToolRuntime V)

/-- `tool_call`, without its id and type. -/
structure ToolCall (V : Type) where
  name : String
  args : OrdDict String V

/-- `ToolCallRequest` -/
structure Request (V : Type) where
  toolCall : ToolCall V
  tool : Option Tool
  runtime : ToolRuntime V

/-- A list state as a dict, where the tool's parameters allow it. -/
def stateForTool (messagesKey toolName : String) (injected : InjectedArgs) :
    GraphState V → Except InjectError (GraphState V)
  | .list messages =>
    let requiredFields := injected.state.values
    if requiredFields = [some messagesKey] || requiredFields.head? = some none then
      .ok (.dict (OrdDict.empty.set messagesKey messages))
    else .error (.graphStateDict toolName (requiredFields.filterMap id))
  | state => .ok state

/-- `state[field]`, or the attribute. -/
def GraphState.get? : GraphState V → String → Option V
  | .list _, _ => none
  | .dict entries, field => entries.get? field
  | .object attributes, field => attributes.get? field

/-- The body of the loop over `injected.state`. -/
def injectStateArg (optionalStateArgs : List String) (state : GraphState V)
    (injectedArgs : OrdDict String (Passed V)) (param : String × Option String) :
    Except InjectError (OrdDict String (Passed V)) :=
  match param.2 with
  | none => .ok (injectedArgs.set param.1 (.state state))
  | some field =>
    match state.get? field with
    | some value => .ok (injectedArgs.set param.1 (.field value))
    | none => if param.1 ∈ optionalStateArgs then .ok injectedArgs else .error (.missingField field)

def injectState (messagesKey toolName : String) (injected : InjectedArgs) (state : GraphState V) :
    Except InjectError (OrdDict String (Passed V)) :=
  if injected.state.entries = [] then .ok ∅
  else do
    let state ← stateForTool messagesKey toolName injected state
    injected.state.entries.foldlM (injectStateArg injected.optionalStateArgs state) ∅

def injectStore (injected : InjectedArgs) (store : Option V) (injectedArgs : OrdDict String (Passed V)) :
    Except InjectError (OrdDict String (Passed V)) :=
  match injected.store, store with
  | none, _ => .ok injectedArgs
  | some _, none => .error .missingStore
  | some name, some store => .ok (injectedArgs.set name (.store store))

def injectRuntime (injected : InjectedArgs) (runtime : ToolRuntime V)
    (injectedArgs : OrdDict String (Passed V)) : OrdDict String (Passed V) :=
  match injected.runtime with
  | none => injectedArgs
  | some name => injectedArgs.set name (.runtime runtime)

/-- What was found in a tool's annotations: when the node was built, if it knows the name of
    the call, whatever tool is run; else now. -/
def Node.injectedFor (node : Node) (name : String) (tool : Option Tool) :
    Except InjectError (Option InjectedArgs) :=
  match node.injectedArgs.get? name, tool with
  | some injected, _ => .ok (some injected)
  | none, some tool => (getAllInjectedArgs tool).map some
  | none, none => .ok none

/-- The injected arguments of a call. -/
def Node.trustedArgs (node : Node) (name : String) (injected : InjectedArgs) (runtime : ToolRuntime V) :
    Except InjectError (OrdDict String (Passed V)) := do
  let args ← injectState node.messagesKey name injected runtime.state
  let args ← injectStore injected runtime.store args
  pure (injectRuntime injected runtime args)

/-- The arguments of the call that the model may supply. -/
def strippedArgs (injected : InjectedArgs) (args : OrdDict String V) : OrdDict String (Passed V) :=
  args.filterMap fun k v => if k ∈ injected.allInjectedKeys then none else some (.arg v)

/-- `_inject_tool_args`: the arguments of the new call. -/
def Node.injectToolArgs (node : Node) (toolCall : ToolCall V) (runtime : ToolRuntime V)
    (tool : Option Tool) : Except InjectError (OrdDict String (Passed V)) := do
  match ← node.injectedFor toolCall.name tool with
  | none => pure (toolCall.args.filterMap fun _ v => some (.arg v))
  | some injected =>
    let injectedArgs ← node.trustedArgs toolCall.name injected runtime
    pure ((strippedArgs injected toolCall.args).merge injectedArgs)

/-- How far a request gets: an answer without a tool, or a tool and the arguments that its
    `invoke` is given. -/
inductive Executed (V : Type) where
  | invalidTool (requestedTool : String) (availableTools : List String)
  | invoked (tool : Tool) (args : OrdDict String (Passed V))

/-- `_execute_tool_sync` and `_execute_tool_async`, up to the tool's own code. -/
def Node.executeTool (node : Node) (request : Request V) : Except InjectError (Executed V) :=
  let call := request.toolCall
  match request.tool with
  | none =>
    if call.name ∈ node.toolsByName.keys then .error (.notRegistered call.name)
    else .ok (.invalidTool call.name node.toolsByName.keys)
  | some tool => do
    let args ← node.injectToolArgs call request.runtime (some tool)
    pure (.invoked tool args)

end Execution

/- ── What the scan of a signature finds ────────────────────────────────────── -/

/-- What stands for an injection of the kind in a hint that has at most one. -/
def Hint.injection? (kind : Kind) (type_ : Hint) : Option Match :=
  (type_.getInjectionFromType kind).toOption.join

def isStoreParam (param : String × Hint) : Bool := (param.2.injection? .store).isSome

def isRuntimeParam (param : String × Hint) : Bool :=
  param.1 = "runtime" || (param.2.injection? .runtime).isSome

/-- The last parameter of a signature with a property. -/
def lastParam (p : String × Hint → Bool) (signature : List (String × Hint)) : Option String :=
  ((signature.filter p).map Prod.fst).getLast?

theorem lastParam_cons (p : String × Hint → Bool) (param : String × Hint) (rest : List (String × Hint)) :
    lastParam p (param :: rest) =
      (lastParam p rest).or (if p param then some param.1 else none) := by
  by_cases h : p param = true
  · rw [lastParam, lastParam, List.filter_cons_of_pos h, List.map_cons, List.getLast?_cons, if_pos h]
    cases ((rest.filter p).map Prod.fst).getLast? <;> rfl
  · rw [lastParam, List.filter_cons_of_neg h, if_neg h, Option.or_none, lastParam]

/-- The state fields that a signature asks for. -/
def stateParams (signature : List (String × Hint)) : List (String × Option String) :=
  signature.filterMap fun param => (param.2.injection? .state).map fun inj => (param.1, inj.field?)

theorem injection?_of_ok {kind : Kind} {type_ : Hint} {found : Option Match}
    (h : type_.getInjectionFromType kind = .ok found) : type_.injection? kind = found := by
  rw [Hint.injection?, h]
  rfl

/-- What a scan of some parameters adds to what was found before. -/
structure Scanned (signature : List (String × Hint)) (before after : InjectedArgs) : Prop where
  keys : after.allInjectedKeys =
    before.allInjectedKeys ++ (signature.filter (·.2.isInjectedArgType)).map Prod.fst
  store : after.store = (lastParam isStoreParam signature).or before.store
  runtime : after.runtime = (lastParam isRuntimeParam signature).or before.runtime
  state : after.state = before.state.setAll (stateParams signature)

theorem scanned_one {tool : Tool} {before after : InjectedArgs} {param : String × Hint}
    (h : tool.scan before param = .ok after) : Scanned [param] before after := by
  obtain ⟨name, type_⟩ := param
  obtain ⟨stateInj, hstate, h⟩ := bind_ok h
  obtain ⟨storeInj, hstore, h⟩ := bind_ok h
  obtain ⟨runtimeInj, hruntime, h⟩ := bind_ok h
  cases h
  have hstate := injection?_of_ok hstate
  have hstore := injection?_of_ok hstore
  have hruntime := injection?_of_ok hruntime
  refine ⟨?_, ?_, ?_, ?_⟩
  · show (if type_.isInjectedArgType then _ else _) = _
    by_cases hi : type_.isInjectedArgType = true <;> simp [hi]
  · show (if storeInj.isSome then some name else before.store) = _
    rw [lastParam_cons, isStoreParam, hstore]
    cases storeInj <;> rfl
  · show (if runtimeInj.isSome then some name else _) = _
    rw [lastParam_cons, isRuntimeParam, hruntime]
    by_cases hn : name = "runtime" <;> cases runtimeInj <;> simp [hn, lastParam]
  · show (match stateInj with | none => before.state | some inj => _) = _
    rw [stateParams, List.filterMap_cons, hstate]
    cases stateInj <;> rfl

theorem scanned_cons {param : String × Hint} {rest : List (String × Hint)}
    {before between after : InjectedArgs} (h : Scanned [param] before between)
    (h' : Scanned rest between after) : Scanned (param :: rest) before after := by
  have hstate : stateParams (param :: rest) = stateParams [param] ++ stateParams rest :=
    List.filterMap_append (l := [param])
  refine ⟨?_, ?_, ?_, ?_⟩
  · rw [h'.keys, h.keys, List.append_assoc, ← List.map_append, ← List.filter_append]
    rfl
  · rw [h'.store, h.store, lastParam_cons, lastParam_cons _ _ rest, ← Option.or_assoc]
    rfl
  · rw [h'.runtime, h.runtime, lastParam_cons, lastParam_cons _ _ rest, ← Option.or_assoc]
    rfl
  · rw [h'.state, h.state, ← OrdDict.setAll_append, ← hstate]

theorem scanned_of_foldlM {tool : Tool} : ∀ {signature : List (String × Hint)}
    {before after : InjectedArgs}, signature.foldlM tool.scan before = .ok after →
      Scanned signature before after
  | [], before, after, h => by
    cases h
    exact ⟨(List.append_nil _).symm, rfl, rfl, rfl⟩
  | param :: rest, before, after, h => by
    rw [List.foldlM_cons] at h
    obtain ⟨between, hone, hrest⟩ := bind_ok h
    exact scanned_cons (scanned_one hone) (scanned_of_foldlM hrest)

/-- What was found in the annotations of a tool. -/
theorem scanned_getAllInjectedArgs {tool : Tool} {injected : InjectedArgs}
    (h : getAllInjectedArgs tool = .ok injected) :
    Scanned tool.allAnnotations.entries .empty injected :=
  scanned_of_foldlM h

/- ── What the node supplies ────────────────────────────────────────────────── -/

section Supplied

variable {V : Type}

/-- Whether the state has what a parameter asks for: all of it, or one of its fields. -/
def GraphState.provides (messagesKey : String) : GraphState V → Option String → Bool
  | _, none => true
  | .list _, some field => field == messagesKey
  | .dict entries, some field => (entries.get? field).isSome
  | .object attributes, some field => (attributes.get? field).isSome

/-- The value for a parameter that asks for the state. -/
def stateValue (state : GraphState V) : Option String → Option (Passed V)
  | none => some (.state state)
  | some field => (state.get? field).map .field

/-- Nothing in the arguments comes from the model. -/
def Trusted (args : OrdDict String (Passed V)) : Prop := ∀ k v, args.get? k ≠ some (.arg v)

theorem trusted_empty : Trusted (∅ : OrdDict String (Passed V)) := fun _ _ h => nomatch h

theorem trusted_set {args : OrdDict String (Passed V)} (h : Trusted args) (k : String)
    {passed : Passed V} (hp : ∀ v, passed ≠ .arg v) : Trusted (args.set k passed) := by
  intro k' v
  rw [OrdDict.get?_set]
  split
  · simpa using hp v
  · exact h k' v

theorem injectStateArg_ok {optional : List String} {state : GraphState V}
    {before after : OrdDict String (Passed V)} {param : String × Option String}
    (h : injectStateArg optional state before param = .ok after) :
    (Trusted before → Trusted after) ∧
      ∀ k, after.get? k = (if k = param.1 then stateValue state param.2 else none).or (before.get? k) := by
  obtain ⟨name, field⟩ := param
  cases field with
  | none =>
    cases h
    refine ⟨fun ht => trusted_set ht name fun v hv => (nomatch hv), fun k => ?_⟩
    rw [OrdDict.get?_set]
    by_cases hk : k = name <;> simp [hk, stateValue]
  | some field =>
    simp only [injectStateArg] at h
    cases hv : state.get? field with
    | some value =>
      rw [hv] at h
      cases h
      refine ⟨fun ht => trusted_set ht name fun v hv => (nomatch hv), fun k => ?_⟩
      rw [OrdDict.get?_set]
      by_cases hk : k = name <;> simp [hk, stateValue, hv]
    | none =>
      -- the parameter is optional: it keeps its default
      rw [hv] at h
      simp only at h
      split at h
      · cases h
        exact ⟨id, fun k => by by_cases hk : k = name <;> simp [hk, stateValue, hv]⟩
      · cases h

theorem injectStateArgs_ok {optional : List String} {state : GraphState V} :
    ∀ {params : List (String × Option String)} {before after : OrdDict String (Passed V)},
      (params.map Prod.fst).Nodup →
      params.foldlM (injectStateArg optional state) before = .ok after →
      (Trusted before → Trusted after) ∧ ∀ k, after.get? k =
        ((OrdDictEntries.get params k).bind (stateValue state)).or (before.get? k)
  | [], before, after, _, h => by
    cases h
    exact ⟨id, fun k => rfl⟩
  | (name, field) :: rest, before, after, hn, h => by
    rw [List.foldlM_cons] at h
    obtain ⟨between, hone, hrest⟩ := bind_ok h
    have hn := List.nodup_cons.mp hn
    obtain ⟨htrusted, hget⟩ := injectStateArg_ok hone
    obtain ⟨htrusted', hget'⟩ := injectStateArgs_ok hn.2 hrest
    refine ⟨fun ht => htrusted' (htrusted ht), fun k => ?_⟩
    rw [hget' k, hget k]
    by_cases hk : k = name
    · subst hk
      have hnone : OrdDictEntries.get rest k = none := OrdDictEntries.get_eq_none_iff.mpr hn.1
      simp [OrdDictEntries.get, hnone]
    · simp [OrdDictEntries.get, hk, Ne.symm hk]

theorem isSome_stateValue {messagesKey toolName : String} {injected : InjectedArgs}
    {state state' : GraphState V} (h : stateForTool messagesKey toolName injected state = .ok state')
    (field : Option String) : (stateValue state' field).isSome = state.provides messagesKey field := by
  cases field with
  | none => simp [stateValue, GraphState.provides]
  | some field =>
    cases state with
    | list messages =>
      simp only [stateForTool] at h
      split at h
      · cases h
        simp only [stateValue, GraphState.get?, GraphState.provides, Option.isSome_map, OrdDict.get?_set]
        by_cases hf : field = messagesKey <;> simp [hf]
      · cases h
    | dict entries =>
      cases h
      simp [stateValue, GraphState.get?, GraphState.provides]
    | object attributes =>
      cases h
      simp [stateValue, GraphState.get?, GraphState.provides]

/-- A parameter gets the state, or a field of it, if it asks for one and the state has it. -/
theorem injectState_ok {messagesKey toolName : String} {injected : InjectedArgs} {state : GraphState V}
    {args : OrdDict String (Passed V)} (h : injectState messagesKey toolName injected state = .ok args) :
    Trusted args ∧ ∀ k, (args.get? k).isSome = true ↔
      ∃ field, injected.state.get? k = some field ∧ state.provides messagesKey field = true := by
  unfold injectState at h
  split at h
  · next hnil =>
    cases h
    refine ⟨trusted_empty, fun k => ?_⟩
    have hnone : injected.state.get? k = none := by
      rw [OrdDict.get?, hnil]
      rfl
    simp [hnone]
  · obtain ⟨state', hstate, h⟩ := bind_ok h
    obtain ⟨htrusted, hget⟩ := injectStateArgs_ok injected.state.nodup h
    refine ⟨htrusted trusted_empty, fun k => ?_⟩
    rw [hget k, OrdDict.get?_emptyCollection, Option.or_none]
    show ((injected.state.get? k).bind _).isSome = true ↔ _
    cases injected.state.get? k with
    | none => simp
    | some field => simp [isSome_stateValue hstate]

theorem injectStore_ok {injected : InjectedArgs} {store : Option V} {before after : OrdDict String (Passed V)}
    (h : injectStore injected store before = .ok after) :
    (Trusted before → Trusted after) ∧ ∀ k, (after.get? k).isSome = true ↔
      injected.store = some k ∨ (before.get? k).isSome = true := by
  unfold injectStore at h
  split at h
  · next hnone =>
    cases h
    exact ⟨id, fun k => by simp [hnone]⟩
  · cases h
  · next name store hsome =>
    cases h
    refine ⟨fun ht => trusted_set ht name fun v hv => (nomatch hv), fun k => ?_⟩
    rw [OrdDict.get?_set, hsome]
    by_cases hk : k = name
    · simp [hk]
    · simp [hk, Ne.symm hk]

theorem injectRuntime_ok (injected : InjectedArgs) (runtime : ToolRuntime V)
    (before : OrdDict String (Passed V)) :
    (Trusted before → Trusted (injectRuntime injected runtime before)) ∧
      ∀ k, ((injectRuntime injected runtime before).get? k).isSome = true ↔
        injected.runtime = some k ∨ (before.get? k).isSome = true := by
  unfold injectRuntime
  cases injected.runtime with
  | none => exact ⟨id, fun k => by simp⟩
  | some name =>
    refine ⟨fun ht => trusted_set ht name fun v hv => (nomatch hv), fun k => ?_⟩
    simp only [OrdDict.get?_set]
    by_cases hk : k = name
    · simp [hk]
    · simp [hk, Ne.symm hk]

/-- The parameters that the node sets, and that it sets none of them to a model's argument. -/
theorem trustedArgs_ok {node : Node} {name : String} {injected : InjectedArgs} {runtime : ToolRuntime V}
    {args : OrdDict String (Passed V)} (h : node.trustedArgs name injected runtime = .ok args) :
    Trusted args ∧ ∀ k, (args.get? k).isSome = true ↔
      injected.runtime = some k ∨ injected.store = some k ∨
        ∃ field, injected.state.get? k = some field ∧
          runtime.state.provides node.messagesKey field = true := by
  obtain ⟨stateArgs, hstate, h⟩ := bind_ok h
  obtain ⟨storeArgs, hstore, h⟩ := bind_ok h
  cases h
  obtain ⟨ht, hs⟩ := injectState_ok hstate
  obtain ⟨ht', hs'⟩ := injectStore_ok hstore
  obtain ⟨ht'', hs''⟩ := injectRuntime_ok injected runtime storeArgs
  exact ⟨ht'' (ht' ht), fun k => by rw [hs'', hs', hs]⟩

theorem get?_strippedArgs (injected : InjectedArgs) (args : OrdDict String V) (k : String) :
    (strippedArgs injected args).get? k =
      if k ∈ injected.allInjectedKeys then none else (args.get? k).map .arg := by
  rw [strippedArgs, OrdDict.get?_filterMap]
  by_cases hk : k ∈ injected.allInjectedKeys <;> cases args.get? k <;> simp [hk]

end Supplied

/- ── Noninterference ───────────────────────────────────────────────────────── -/

section Noninterference

variable {V : Type}

/-- The parameter is one of the tool's injected parameters. -/
def Tool.Injects (tool : Tool) (k : String) : Prop :=
  ∃ type_, tool.allAnnotations.get? k = some type_ ∧ type_.marked = true

/-- The parameters that the node goes by for a call: those of the tool that it knows under the
    name of the call, else those of the tool that is run. -/
def Node.signature (node : Node) (name : String) (tool : Tool) : OrdDict String Hint :=
  ((node.toolsByName.get? name).getD tool).allAnnotations

/-- Where a tool is run, none of its injected parameters gets an argument of the model, and
    other arguments under their names change nothing. -/
def Noninterfering (node : Node) (name : String) (tool : Option Tool) (runtime : ToolRuntime V) : Prop :=
  ∀ args t passed, node.executeTool ⟨⟨name, args⟩, tool, runtime⟩ = .ok (.invoked t passed) →
    (∀ k, t.Injects k → ∀ v, passed.get? k ≠ some (.arg v)) ∧
    ∀ args' : OrdDict String V, (∀ k, ¬ t.Injects k → args'.get? k = args.get? k) →
      ∃ passed', node.executeTool ⟨⟨name, args'⟩, tool, runtime⟩ = .ok (.invoked t passed') ∧
        ∀ k, passed'.get? k = passed.get? k

/-- The node strips a parameter from the arguments, or sets it, for calls that it serves by a
    signature. -/
inductive Guarded (messagesKey : String) (signature : OrdDict String Hint) (state : GraphState V)
    (k : String) : Prop where
  | stripped (type_ : Hint) (h : signature.get? k = some type_) (ht : type_.isInjectedArgType = true)
  | state (type_ : Hint) (inj : Match) (h : signature.get? k = some type_)
    (hi : type_.injection? .state = some inj) (hp : state.provides messagesKey inj.field? = true)
  | store (h : lastParam isStoreParam signature.entries = some k)
  | runtime (h : lastParam isRuntimeParam signature.entries = some k)

theorem mem_allInjectedKeys {tool : Tool} {injected : InjectedArgs}
    (h : getAllInjectedArgs tool = .ok injected) {k : String} : k ∈ injected.allInjectedKeys ↔
      ∃ type_, tool.allAnnotations.get? k = some type_ ∧ type_.isInjectedArgType = true := by
  rw [(scanned_getAllInjectedArgs h).keys]
  simp [InjectedArgs.empty, OrdDict.get?_eq_some_iff]

theorem get?_state {tool : Tool} {injected : InjectedArgs} (h : getAllInjectedArgs tool = .ok injected)
    {k : String} {field : Option String} : injected.state.get? k = some field ↔
      ∃ type_ inj, tool.allAnnotations.get? k = some type_ ∧ type_.injection? .state = some inj ∧
        inj.field? = field := by
  have hmem : ∀ e, e ∈ stateParams tool.allAnnotations.entries ↔
      ∃ type_ inj, tool.allAnnotations.get? e.1 = some type_ ∧ type_.injection? .state = some inj ∧
        inj.field? = e.2 := by
    intro e
    simp only [stateParams, List.mem_filterMap, Option.map_eq_some_iff, OrdDict.get?_eq_some_iff]
    constructor
    · rintro ⟨⟨name, type_⟩, hparam, inj, hinj, rfl⟩
      exact ⟨type_, inj, hparam, hinj, rfl⟩
    · rintro ⟨type_, inj, hparam, hinj, hfield⟩
      exact ⟨(e.1, type_), hparam, inj, hinj, Prod.ext rfl hfield⟩
  rw [(scanned_getAllInjectedArgs h).state]
  show (OrdDict.ofList _).get? k = _ ↔ _
  rw [OrdDict.get?_ofList_eq_some_iff, hmem]
  intro e he e' he' hkey
  obtain ⟨type_, inj, htype, hinj, hfield⟩ := (hmem e).mp he
  obtain ⟨type_', inj', htype', hinj', hfield'⟩ := (hmem e').mp he'
  rw [hkey, htype'] at htype
  cases htype
  rw [hinj'] at hinj
  cases hinj
  exact Prod.ext hkey (hfield.symm.trans hfield')

/-- What the node goes by for a call is what it finds in the call's signature. -/
theorem injectedFor_some (node : Node) (name : String) (tool : Tool) :
    node.injectedFor name (some tool) =
      (getAllInjectedArgs ((node.toolsByName.get? name).getD tool)).map some := by
  obtain ⟨htool, hargs⟩ | ⟨registered, injected, htool, hargs, hscan⟩ := node.scanned name
  · unfold Node.injectedFor
    rw [htool, hargs]
    rfl
  · unfold Node.injectedFor
    rw [htool, hargs]
    show _ = (getAllInjectedArgs registered).map some
    rw [hscan]
    rfl

/-- A tool that is run: what was found for it, what the node sets, and the arguments. -/
theorem executeTool_invoked {node : Node} {name : String} {args : OrdDict String V} {tool : Option Tool}
    {runtime : ToolRuntime V} {t : Tool} {passed : OrdDict String (Passed V)} :
    node.executeTool ⟨⟨name, args⟩, tool, runtime⟩ = .ok (.invoked t passed) ↔
      tool = some t ∧ ∃ injected trusted,
        getAllInjectedArgs ((node.toolsByName.get? name).getD t) = .ok injected ∧
        node.trustedArgs name injected runtime = .ok trusted ∧
        passed = (strippedArgs injected args).merge trusted := by
  constructor
  · intro h
    cases tool with
    | none =>
      simp only [Node.executeTool] at h
      split at h <;> cases h
    | some run =>
      obtain ⟨passed', hinject, h⟩ := bind_ok h
      cases h
      obtain ⟨found, hfound, hinject⟩ := bind_ok hinject
      rw [injectedFor_some] at hfound
      cases hscan : getAllInjectedArgs ((node.toolsByName.get? name).getD t) with
      | error e =>
        rw [hscan] at hfound
        cases hfound
      | ok injected =>
        rw [hscan] at hfound
        cases hfound
        obtain ⟨trusted, htrusted, hinject⟩ := bind_ok hinject
        cases hinject
        exact ⟨rfl, injected, trusted, rfl, htrusted, rfl⟩
  · rintro ⟨rfl, injected, trusted, hscan, htrusted, rfl⟩
    have hfound : node.injectedFor name (some t) = .ok (some injected) := by
      rw [injectedFor_some, hscan]
      rfl
    simp only [Node.executeTool, Node.injectToolArgs, hfound]
    show (node.trustedArgs name injected runtime >>= _) >>= _ = _
    rw [htrusted]
    rfl

/-- A parameter is guarded if it is a key that is stripped or one that is set. -/
theorem guarded_iff {node : Node} {name : String} {tool : Tool} {injected : InjectedArgs}
    {runtime : ToolRuntime V} {trusted : OrdDict String (Passed V)}
    (h : getAllInjectedArgs ((node.toolsByName.get? name).getD tool) = .ok injected)
    (ht : node.trustedArgs name injected runtime = .ok trusted) (k : String) :
    Guarded node.messagesKey (node.signature name tool) runtime.state k ↔
      k ∈ injected.allInjectedKeys ∨ (trusted.get? k).isSome = true := by
  have hs := scanned_getAllInjectedArgs h
  have hstore : injected.store = lastParam isStoreParam (node.signature name tool).entries :=
    hs.store.trans (Option.or_none ..)
  have hruntime : injected.runtime = lastParam isRuntimeParam (node.signature name tool).entries :=
    hs.runtime.trans (Option.or_none ..)
  rw [(trustedArgs_ok ht).2, mem_allInjectedKeys h, hstore, hruntime]
  constructor
  · intro hg
    cases hg with
    | stripped type_ hk hi => exact .inl ⟨type_, hk, hi⟩
    | state type_ inj hk hi hp =>
      exact .inr (.inr (.inr ⟨inj.field?, (get?_state h).mpr ⟨type_, inj, hk, hi, rfl⟩, hp⟩))
    | store hk => exact .inr (.inr (.inl hk))
    | runtime hk => exact .inr (.inl hk)
  · rintro (⟨type_, hk, hi⟩ | hk | hk | ⟨field, hfield, hp⟩)
    · exact .stripped type_ hk hi
    · exact .runtime hk
    · exact .store hk
    · obtain ⟨type_, inj, hk, hi, rfl⟩ := (get?_state h).mp hfield
      exact .state type_ inj hk hi hp

/-- What a tool is passed under a guarded name does not depend on the model's arguments, and
    under another name it is the model's argument. -/
theorem get?_passed {injected : InjectedArgs} {trusted : OrdDict String (Passed V)}
    (args : OrdDict String V) (k : String) :
    ((strippedArgs injected args).merge trusted).get? k =
      if k ∈ injected.allInjectedKeys ∨ (trusted.get? k).isSome = true then trusted.get? k
      else (args.get? k).map .arg := by
  rw [OrdDict.get?_merge, get?_strippedArgs]
  cases trusted.get? k <;> by_cases hk : k ∈ injected.allInjectedKeys <;> simp [hk]

/-- What the model writes under an injected parameter reaches no tool, exactly where a request
    that runs a tool finds each injected parameter of that tool guarded. -/
theorem noninterference_iff [Inhabited V] (node : Node) (name : String) (tool : Option Tool)
    (runtime : ToolRuntime V) : Noninterfering node name tool runtime ↔
      ∀ args t passed, node.executeTool ⟨⟨name, args⟩, tool, runtime⟩ = .ok (.invoked t passed) →
        ∀ k, t.Injects k → Guarded node.messagesKey (node.signature name t) runtime.state k := by
  constructor
  · intro h args t passed hrun k hk
    obtain ⟨rfl, injected, trusted, hscan, htrusted, rfl⟩ := executeTool_invoked.mp hrun
    rw [guarded_iff hscan htrusted]
    by_contra hguard
    -- the same request with an argument of the model under the parameter
    have hforged := (h (OrdDict.empty.set k default) t _
      (executeTool_invoked.mpr ⟨rfl, injected, trusted, hscan, htrusted, rfl⟩)).1 k hk default
    rw [get?_passed, if_neg hguard, OrdDict.get?_set_self] at hforged
    exact hforged rfl
  · intro h args t passed hrun
    have hguard := h args t passed hrun
    obtain ⟨rfl, injected, trusted, hscan, htrusted, rfl⟩ := executeTool_invoked.mp hrun
    refine ⟨fun k hk v => ?_, fun args' hagree => ?_⟩
    · rw [get?_passed, if_pos ((guarded_iff hscan htrusted k).mp (hguard k hk))]
      exact (trustedArgs_ok htrusted).1 k v
    · refine ⟨_, executeTool_invoked.mpr ⟨rfl, injected, trusted, hscan, htrusted, rfl⟩, fun k => ?_⟩
      rw [get?_passed, get?_passed]
      by_cases hk : t.Injects k
      · have := (guarded_iff hscan htrusted k).mp (hguard k hk)
        rw [if_pos this, if_pos this]
      · rw [hagree k hk]

/-- `def lookup(user_id: Optional[Annotated[str, CurrentUser]] = None)`, where CurrentUser is a
    subclass of InjectedToolArg. -/
def lookup : Tool :=
  ⟨"lookup", ∅, OrdDict.empty.set "user_id" (.union [.annotated (.cls []) [.cls [.custom]], .cls []]),
    OrdDict.empty.set "user_id" false⟩

/-- The marker is inside an `Optional`: the key is not stripped, and the model says who the
    current user is. -/
theorem not_noninterfering :
    ¬ ∀ (node : Node) (runtime : ToolRuntime String), Node.init [lookup] "messages" = .ok node →
      Noninterfering node "lookup" (node.toolsByName.get? "lookup") runtime := by
  intro h
  have hforged := (h _ ⟨.dict ∅, none⟩ rfl (OrdDict.empty.set "user_id" "admin") lookup _ rfl).1
    "user_id" ⟨_, rfl, rfl⟩ "admin"
  exact hforged rfl

end Noninterference

end LangGraph.Injected
