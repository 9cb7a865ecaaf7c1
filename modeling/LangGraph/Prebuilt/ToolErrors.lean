import LangGraph.Lib.OrdDict
import LangGraph.Prebuilt.ToolOutputs

/- The errors of tool calls, with and without a wrapper around the call.

   Correspondence (source ↔ Lean):
     `handle_tool_errors` (tool_node.py)               ↔ `HandleToolErrors`
     `_handle_tool_error`, `_infer_handled_types`      ↔ `handleToolError`, `inferHandledTypes`
     `_default_handle_tool_errors`                     ↔ `defaultHandleToolErrors`
     `_execute_tool_sync`, `_execute_tool_async`       ↔ `executeTool` of `Tool.invoke`, `Tool.ainvoke`
     `_run_one`, `_arun_one`                           ↔ `runOne`, `arunOne`
     `_func`, `_afunc`                                 ↔ `func`, `afunc`
     `_inject_tool_args`, `tool.invoke`, `tool.ainvoke` ↔ the fields of `Tool`
   The calls of a node are answered in parallel: `func` raises the first error in the
   order of the calls, `asyncio.gather` in `afunc` the first in the order in which the
   calls end. `identity_transparent_iff`: when a wrapper that only executes the request
   changes nothing. -/
namespace LangGraph.ToolNode

variable {V E Cls : Type}

/- ── Exceptions and policies ───────────────────────────────────────────────── -/

/-- What the handlers ask of an exception. One that is no `Exception` is a bare
    `BaseException`; `message?` is the message of a `ToolInvocationError`. -/
structure Exceptions (V E Cls : Type) where
  isException : E → Bool
  isBubbleUp : E → Bool
  isValidation : E → Bool
  isinstance : E → Cls → Bool
  isExceptionClass : Cls → Bool
  repr : E → String
  valueError : String → E
  typeError : String → E
  invocation : ToolCall V → E → E
  message? : E → Option String

def Exceptions.ofToolError (ex : Exceptions V E Cls) : ToolError → E
  | .value text => ex.valueError text
  | .type text => ex.typeError text

/-- The annotation of the parameter of a handler, with its text. -/
inductive Annotation (Cls : Type) where
  | missing
  | union (args : List Cls) (text : String)
  | single (c : Cls) (text : String)

structure Handler (E Cls : Type) where
  call : E → Except E String
  annotation : Annotation Cls

inductive HandleToolErrors (E Cls : Type) where
  | bool (b : Bool)
  | text (s : String)
  | type (c : Cls)
  | types (cs : List Cls)
  | handler (h : Handler E Cls)

/-- `if handle_tool_errors`. -/
def HandleToolErrors.truthy : HandleToolErrors E Cls → Bool
  | .bool b => b
  | .text s => s ≠ ""
  | .types cs => !cs.isEmpty
  | _ => true

section

variable (ex : Exceptions V E Cls)

def defaultHandleToolErrors (exception : Cls) : Handler E Cls where
  call e :=
    match ex.message? e with
    | some text => .ok text
    | none => .error e
  annotation := .single exception "Exception"

def handleToolError (flag : HandleToolErrors E Cls) (e : E) : Except E String :=
  match flag with
  | .text s => .ok s
  | .handler h => h.call e
  | _ => .ok ("Error: " ++ ex.repr e ++ "\n Please fix your mistakes.")

/-- The types that a handler is annotated with; none stands for `Exception`. -/
def inferHandledTypes (h : Handler E Cls) : Except E (Option (List Cls)) :=
  match h.annotation with
  | .missing => .ok none
  | .union args text =>
    if args.all ex.isExceptionClass then .ok (some args)
    else .error (ex.valueError ("All types in the error handler error annotation must be " ++
      "Exception types. For example, `def custom_handler(e: Union[ValueError, TypeError])`. " ++
      "Got '" ++ text ++ "' instead."))
  | .single c text =>
    if ex.isExceptionClass c then .ok (some [c])
    else .error (ex.valueError ("Arbitrary types are not supported in the error handler " ++
      "signature. Please annotate the error with either a specific Exception type or a " ++
      "union of Exception types. For example, `def custom_handler(e: ValueError)` or " ++
      "`def custom_handler(e: Union[ValueError, TypeError])`. Got '" ++ text ++ "' instead."))

def handledTypes : HandleToolErrors E Cls → Except E (Option (List Cls))
  | .type c => .ok (some [c])
  | .types cs => .ok (some cs)
  | .handler h => inferHandledTypes ex h
  | _ => .ok none

def isHandled (e : E) : Option (List Cls) → Bool
  | none => ex.isException e
  | some cs => cs.any (ex.isinstance e)

end

/- ── Calls ─────────────────────────────────────────────────────────────────── -/

/-- A tool, as the node uses it. -/
structure Tool (V E : Type) where
  inject : ToolCall V → Except E (ToolCall V)
  invoke : ToolCall V → Except E (Response V)
  ainvoke : ToolCall V → Except E (Response V)

structure ToolCallRequest (V E : Type) where
  call : ToolCall V
  tool : Option (Tool V E)

structure Node (V E Cls : Type) where
  tools : OrdDict String (Tool V E)
  handle : HandleToolErrors E Cls
  messagesKey : String

/-- `wrap_tool_call`: it gets the request and the function that executes one. -/
abbrev Wrapper (V E : Type) :=
  ToolCallRequest V E → (ToolCallRequest V E → Except E (Output V)) → Except E (Output V)

/-- `lambda request, execute: execute(request)`. -/
def identity : Wrapper V E := fun request execute => execute request

/-- The error message that answers a call. -/
def errorMessage (call : ToolCall V) (content : String) : Output V :=
  .item (.message ⟨.text content, some call.name, call.id, "error"⟩)

section

variable (ex : Exceptions V E Cls) (texts : Texts V) (node : Node V E Cls)

def invalidToolName (call : ToolCall V) : String :=
  "Error: " ++ call.name ++ " is not a valid tool, try one of [" ++
    ", ".intercalate node.tools.keys ++ "]."

/-- Before the `try`: the tool with the arguments it is called with, or the answer to
    a call of a tool that does not exist. -/
def prepare (request : ToolCallRequest V E) :
    Except E (Output V ⊕ Tool V E × ToolCall V) :=
  match request.tool with
  | none =>
    if request.call.name ∉ node.tools.keys then
      .ok (.inl (errorMessage request.call (invalidToolName node request.call)))
    else
      .error (ex.typeError ("Tool " ++ request.call.name ++ " is not registered with ToolNode"))
  | some tool =>
    match tool.inject request.call with
    | .error e => .error e
    | .ok injected => .ok (.inr (tool, injected))

/-- Inside the `try`: the tool is called and its response validated. -/
def attempt (run : Tool V E → ToolCall V → Except E (Response V)) (call : ToolCall V)
    (inputType : InputType) (tool : Tool V E) (injected : ToolCall V) : Except E (Output V) :=
  match run tool injected with
  | .error e => .error (if ex.isValidation e then ex.invocation call e else e)
  | .ok response =>
    match normalizeToolResponse texts node.messagesKey call inputType response with
    | .error e => .error (ex.ofToolError e)
    | .ok output => .ok output

/-- The `except` clauses around the call. -/
def handleInner (call : ToolCall V) (e : E) : Except E (Output V) :=
  if ex.isBubbleUp e then .error e
  else if ex.isException e then
    match handledTypes ex node.handle with
    | .error e' => .error e'
    | .ok types =>
      if node.handle.truthy = false ∨ isHandled ex e types = false then .error e
      else (handleToolError ex node.handle e).map (errorMessage call)
  else .error e

def executeTool (run : Tool V E → ToolCall V → Except E (Response V)) (inputType : InputType)
    (request : ToolCallRequest V E) : Except E (Output V) :=
  match prepare ex node request with
  | .error e => .error e
  | .ok (.inl output) => .ok output
  | .ok (.inr (tool, injected)) =>
    match attempt ex texts node run request.call inputType tool injected with
    | .ok output => .ok output
    | .error e => handleInner ex node request.call e

/-- The `except` clause around the wrapper. -/
def handleOuter (call : ToolCall V) (e : E) : Except E (Output V) :=
  if ex.isException e then
    if node.handle.truthy = false then .error e
    else (handleToolError ex node.handle e).map (errorMessage call)
  else .error e

def requestOf (call : ToolCall V) : ToolCallRequest V E := ⟨call, node.tools.get? call.name⟩

def wrapped (wrap : Wrapper V E) (inputType : InputType) (call : ToolCall V) :
    Except E (Output V) :=
  match wrap (requestOf node call) (executeTool ex texts node Tool.invoke inputType) with
  | .ok output => .ok output
  | .error e => handleOuter ex node call e

def runOne (wrap : Option (Wrapper V E)) (inputType : InputType) (call : ToolCall V) :
    Except E (Output V) :=
  match wrap with
  | none => executeTool ex texts node Tool.invoke inputType (requestOf node call)
  | some wrap => wrapped ex texts node wrap inputType call

/-- The wrapper of the sync path executes the request with `_execute_tool_sync`. -/
def arunOne (wrap : Option (Wrapper V E)) (inputType : InputType) (call : ToolCall V) :
    Except E (Output V) :=
  match wrap with
  | none => executeTool ex texts node Tool.ainvoke inputType (requestOf node call)
  | some wrap => wrapped ex texts node wrap inputType call

end

/- ── The node ──────────────────────────────────────────────────────────────── -/

def error? {α : Type} : Except E α → Option E
  | .error e => some e
  | .ok _ => none

def ok? {α : Type} : Except E α → Option α
  | .error _ => none
  | .ok a => some a

/-- The outputs of all calls, or the first error, in the order the calls have ended. -/
def gather (inputType : InputType) (ended results : List (Except E (Output V))) :
    Except E (List (Combined V)) :=
  match (ended.filterMap error?).head? with
  | some e => .error e
  | none => .ok (combineToolOutputs inputType (results.filterMap ok?))

section

variable (ex : Exceptions V E Cls) (texts : Texts V) (node : Node V E Cls)

def func (wrap : Option (Wrapper V E)) (inputType : InputType) (calls : List (ToolCall V)) :
    Except E (List (Combined V)) :=
  let results := calls.map (runOne ex texts node wrap inputType)
  gather inputType results results

/-- `order` holds the positions of the calls in the order in which they end. Under a
    sync wrapper no call is suspended, and they end in their own order. -/
def afunc (wrap : Option (Wrapper V E)) (order : List Nat) (inputType : InputType)
    (calls : List (ToolCall V)) : Except E (List (Combined V)) :=
  let results := calls.map (arunOne ex texts node wrap inputType)
  match wrap with
  | none => gather inputType (order.filterMap (results[·]?)) results
  | some _ => gather inputType results results

end

/- ── When the wrapper changes nothing ──────────────────────────────────────── -/

section

variable (ex : Exceptions V E Cls) (texts : Texts V) (node : Node V E Cls)

/-- The exception that leaves the inner handlers for one that is raised in the call. -/
def letsThrough (e : E) : Option E :=
  if ex.isBubbleUp e = true ∨ ex.isException e = false then some e
  else
    match handledTypes ex node.handle with
    | .error e' => some e'
    | .ok types =>
      if node.handle.truthy = false ∨ isHandled ex e types = false then some e
      else error? (handleToolError ex node.handle e)

/-- The exception that leaves the outer handler, which asks neither for its type nor
    whether it bubbles up. -/
def rethrows (e : E) : Option E :=
  if ex.isException e = false ∨ node.handle.truthy = false then some e
  else error? (handleToolError ex node.handle e)

/-- The exception that leaves the inner handlers for the call. -/
def comesOut (run : Tool V E → ToolCall V → Except E (Response V)) (inputType : InputType)
    (call : ToolCall V) : Option E :=
  match prepare ex node (requestOf node call) with
  | .error e => some e
  | .ok (.inl _) => none
  | .ok (.inr (tool, injected)) =>
    (error? (attempt ex texts node run call inputType tool injected)).bind (letsThrough ex node)

/-- Of the exceptions that leave the inner handlers, in the order of the calls, the
    first that leaves the outer one is the first of all, unchanged. -/
def SyncTransparent (inputType : InputType) (calls : List (ToolCall V)) : Prop :=
  ((calls.filterMap (comesOut ex texts node Tool.invoke inputType)).filterMap
      (rethrows ex node)).head? =
    (calls.filterMap (comesOut ex texts node Tool.invoke inputType)).head?

/-- The first exception, among those of `invoke` that leave both handlers in the order of
    the calls, is the first of those of `ainvoke` in the order in which the calls end;
    and when there is none, the outputs of the two combine alike. -/
def AsyncTransparent (order : List Nat) (inputType : InputType) (calls : List (ToolCall V)) :
    Prop :=
  let raised := ((order.filterMap (calls[·]?)).filterMap
    (comesOut ex texts node Tool.ainvoke inputType)).head?
  ((calls.filterMap (comesOut ex texts node Tool.invoke inputType)).filterMap
      (rethrows ex node)).head? = raised ∧
    (raised = none →
      combineToolOutputs inputType (calls.filterMap fun call =>
          ok? (wrapped ex texts node identity inputType call)) =
        combineToolOutputs inputType (calls.filterMap fun call =>
          ok? (executeTool ex texts node Tool.ainvoke inputType (requestOf node call))))

end

section

variable {ex : Exceptions V E Cls} {texts : Texts V} {node : Node V E Cls}

theorem error?_map {α β : Type} (r : Except E α) (f : α → β) : error? (r.map f) = error? r := by
  cases r with
  | error e => rfl
  | ok a => rfl

theorem handleInner_error (call : ToolCall V) (e : E) :
    error? (handleInner ex node call e) = letsThrough ex node e := by
  unfold handleInner letsThrough
  cases hb : ex.isBubbleUp e with
  | true => rfl
  | false =>
    cases he : ex.isException e with
    | false => rfl
    | true =>
      simp only [Bool.false_eq_true, if_false, if_true, false_or, Bool.true_eq_false]
      split
      · rfl
      · split
        · rfl
        · exact error?_map _ _

theorem handleOuter_error (call : ToolCall V) (e : E) :
    error? (handleOuter ex node call e) = rethrows ex node e := by
  unfold handleOuter rethrows
  cases he : ex.isException e with
  | false => rfl
  | true =>
    simp only [if_true, false_or, Bool.true_eq_false]
    split
    · rfl
    · exact error?_map _ _

theorem executeTool_error (run : Tool V E → ToolCall V → Except E (Response V))
    (inputType : InputType) (call : ToolCall V) :
    error? (executeTool ex texts node run inputType (requestOf node call)) =
      comesOut ex texts node run inputType call := by
  unfold executeTool comesOut
  split
  · rfl
  · rfl
  · rename_i tool injected _
    show error? (match attempt ex texts node run call inputType tool injected with
      | .ok output => .ok output
      | .error e => handleInner ex node call e) = _
    cases attempt ex texts node run call inputType tool injected with
    | ok output => rfl
    | error e => exact handleInner_error call e

/-- An exception leaves the identity wrapper when it leaves both handlers. -/
theorem wrapped_error (inputType : InputType) (call : ToolCall V) :
    error? (wrapped ex texts node identity inputType call) =
      (comesOut ex texts node Tool.invoke inputType call).bind (rethrows ex node) := by
  rw [← executeTool_error]
  unfold wrapped identity
  cases executeTool ex texts node Tool.invoke inputType (requestOf node call) with
  | ok output => rfl
  | error e => exact handleOuter_error call e

/-- An output of the call stays what it is. -/
theorem wrapped_of_none (inputType : InputType) (call : ToolCall V)
    (h : comesOut ex texts node Tool.invoke inputType call = none) :
    wrapped ex texts node identity inputType call =
      executeTool ex texts node Tool.invoke inputType (requestOf node call) := by
  rw [← executeTool_error] at h
  unfold wrapped identity
  cases hexec : executeTool ex texts node Tool.invoke inputType (requestOf node call) with
  | ok output => rfl
  | error e =>
    rw [hexec] at h
    exact (nomatch h)

theorem gather_eq_iff {inputType : InputType} {ended ended' results results' :
    List (Except E (Output V))} :
    gather inputType ended results = gather inputType ended' results' ↔
      (ended.filterMap error?).head? = (ended'.filterMap error?).head? ∧
        ((ended'.filterMap error?).head? = none →
          combineToolOutputs inputType (results.filterMap ok?) =
            combineToolOutputs inputType (results'.filterMap ok?)) := by
  unfold gather
  cases (ended.filterMap error?).head? with
  | none =>
    cases (ended'.filterMap error?).head? with
    | none => simp
    | some e' => simp
  | some e =>
    cases (ended'.filterMap error?).head? with
    | none => simp
    | some e' => simp

theorem filterMap_map_error? {α : Type} (f : ToolCall V → Except E α) (calls : List (ToolCall V)) :
    (calls.map f).filterMap error? = calls.filterMap fun call => error? (f call) :=
  List.filterMap_map

theorem wrapped_errors (inputType : InputType) (calls : List (ToolCall V)) :
    (calls.map (wrapped ex texts node identity inputType)).filterMap error? =
      (calls.filterMap (comesOut ex texts node Tool.invoke inputType)).filterMap
        (rethrows ex node) := by
  rw [filterMap_map_error?, List.filterMap_filterMap]
  exact List.filterMap_congr fun call _ => wrapped_error inputType call

theorem direct_errors (run : Tool V E → ToolCall V → Except E (Response V))
    (inputType : InputType) (calls : List (ToolCall V)) :
    (calls.map fun call =>
        executeTool ex texts node run inputType (requestOf node call)).filterMap error? =
      calls.filterMap (comesOut ex texts node run inputType) := by
  rw [filterMap_map_error?]
  exact List.filterMap_congr fun call _ => executeTool_error run inputType call

end

section

variable {ex : Exceptions V E Cls} {texts : Texts V} {node : Node V E Cls}

/-- When every exception that can leave the inner handlers leaves the outer one as it is,
    the wrapper changes nothing in the sync path. -/
theorem syncTransparent_of_rethrows
    (h : ∀ e e', letsThrough ex node e = some e' → rethrows ex node e' = some e')
    (hout : ∀ call e, prepare ex node (requestOf node call) = .error e →
      rethrows ex node e = some e)
    (inputType : InputType) (calls : List (ToolCall V)) :
    SyncTransparent ex texts node inputType calls := by
  have hcall : ∀ call e, comesOut ex texts node Tool.invoke inputType call = some e →
      rethrows ex node e = some e := by
    intro call e he
    unfold comesOut at he
    split at he
    · rename_i e' hprepare
      rw [← Option.some_inj.mp he]
      exact hout call e' hprepare
    · exact (nomatch he)
    · obtain ⟨e', _, he'⟩ := Option.bind_eq_some_iff.mp he
      exact h e' e he'
  unfold SyncTransparent
  rw [List.filterMap_filterMap]
  congr 1
  apply List.filterMap_congr
  intro call _
  cases he : comesOut ex texts node Tool.invoke inputType call with
  | none => rfl
  | some e => exact hcall call e he

/-- A policy that handles nothing. -/
theorem syncTransparent_of_falsy (h : node.handle.truthy = false) (inputType : InputType)
    (calls : List (ToolCall V)) : SyncTransparent ex texts node inputType calls := by
  have hre : ∀ e, rethrows ex node e = some e := fun e => if_pos (.inr h)
  exact syncTransparent_of_rethrows (fun _ e' _ => hre e') (fun _ e _ => hre e) inputType calls

/-- `Exception` is the class of the exceptions that are no bare `BaseException`, and
    `ToolInvocationError` is one that does not bubble up. -/
structure Exceptions.Lawful (ex : Exceptions V E Cls) (exception : Cls) : Prop where
  isClass : ex.isExceptionClass exception = true
  isinstance : ∀ e, ex.isinstance e exception = ex.isException e
  message : ∀ e text, ex.message? e = some text →
    ex.isException e = true ∧ ex.isBubbleUp e = false

/-- The default policy, which handles the errors of invalid arguments alone, when the
    injection of arguments raises none. -/
theorem syncTransparent_default {exception : Cls} (hex : ex.Lawful exception)
    (hhandle : node.handle = .handler (defaultHandleToolErrors ex exception))
    (hprepare : ∀ call e, prepare ex node (requestOf node call) = .error e →
      ex.message? e = none)
    (inputType : InputType) (calls : List (ToolCall V)) :
    SyncTransparent ex texts node inputType calls := by
  have hre : ∀ e, ex.message? e = none → rethrows ex node e = some e := by
    intro e he
    unfold rethrows
    split
    · rfl
    · rw [hhandle]
      simp only [handleToolError, defaultHandleToolErrors, he]
      rfl
  apply syncTransparent_of_rethrows
  · intro e e' hlets
    cases hm : ex.message? e with
    | none =>
      have heq : letsThrough ex node e = some e := by
        unfold letsThrough
        split
        · rfl
        · rw [hhandle]
          simp only [handledTypes, inferHandledTypes, defaultHandleToolErrors, hex.isClass,
            if_true, handleToolError, hm]
          split
          · rfl
          · rfl
      rw [heq] at hlets
      exact Option.some_inj.mp hlets ▸ hre e hm
    | some text =>
      -- the error of invalid arguments is handled inside
      obtain ⟨hexc, hbub⟩ := hex.message e text hm
      have hnone : letsThrough ex node e = none := by
        unfold letsThrough
        rw [hhandle]
        simp only [hbub, hexc, handledTypes, inferHandledTypes, defaultHandleToolErrors,
          hex.isClass, if_true, handleToolError, hm, HandleToolErrors.truthy, isHandled,
          List.any_cons, List.any_nil, hex.isinstance, Bool.or_false]
        simp [error?]
      rw [hnone] at hlets
      exact (nomatch hlets)
  · exact fun call e he => hre e (hprepare call e he)

theorem executeTool_same {call : ToolCall V} (inputType : InputType)
    (h : ∀ tool, node.tools.get? call.name = some tool → tool.ainvoke = tool.invoke) :
    executeTool ex texts node Tool.ainvoke inputType (requestOf node call) =
      executeTool ex texts node Tool.invoke inputType (requestOf node call) := by
  unfold executeTool prepare requestOf
  cases htool : node.tools.get? call.name with
  | none =>
    by_cases hname : call.name ∈ node.tools.keys
    · simp only [hname, not_true_eq_false, if_false]
    · simp only [hname, not_false_eq_true, if_true]
  | some tool =>
    simp only
    cases tool.inject call with
    | error e => rfl
    | ok injected =>
      simp only [attempt, h tool htool]

theorem filterMap_range_getElem? : ∀ calls : List (ToolCall V),
    (List.range calls.length).filterMap (calls[·]?) = calls
  | [] => rfl
  | call :: calls => by
    rw [List.length_cons, List.range_succ_eq_map]
    show call :: ((List.range calls.length).map Nat.succ).filterMap ((call :: calls)[·]?) = _
    rw [List.filterMap_map]
    exact congrArg (call :: ·) (filterMap_range_getElem? calls)

/-- When the tools do the same by `ainvoke` as by `invoke` and the calls end in their
    order, the async path is transparent where the sync path is. -/
theorem asyncTransparent_iff_sync (inputType : InputType) (calls : List (ToolCall V))
    (hsame : ∀ call ∈ calls, ∀ tool, node.tools.get? call.name = some tool →
      tool.ainvoke = tool.invoke) :
    AsyncTransparent ex texts node (List.range calls.length) inputType calls ↔
      SyncTransparent ex texts node inputType calls := by
  have hout : ∀ call ∈ calls, comesOut ex texts node Tool.ainvoke inputType call =
      comesOut ex texts node Tool.invoke inputType call := by
    intro call hcall
    rw [← executeTool_error, ← executeTool_error, executeTool_same inputType (hsame call hcall)]
  unfold AsyncTransparent SyncTransparent
  rw [filterMap_range_getElem?, List.filterMap_congr hout]
  apply and_iff_left
  intro hnone
  have hall := List.filterMap_eq_nil_iff.mp (List.head?_eq_none_iff.mp hnone)
  congr 1
  apply List.filterMap_congr
  intro call hcall
  rw [wrapped_of_none inputType call (hall call hcall),
    executeTool_same inputType (hsame call hcall)]

end

/- ── An interrupt in a tool ────────────────────────────────────────────────── -/

inductive Raised where
  | graphInterrupt
  | other (text : String)
  deriving DecidableEq

def raisedExceptions : Exceptions Unit Raised Unit where
  isException _ := true
  isBubbleUp e := e = .graphInterrupt
  isValidation _ := false
  isinstance _ _ := true
  isExceptionClass _ := true
  repr _ := "GraphInterrupt()"
  valueError := .other
  typeError := .other
  invocation _ e := e
  message? _ := none

/-- A tool that asks a human. -/
def askHuman : Node Unit Raised Unit where
  tools := OrdDict.ofList
    [("ask", ⟨fun call => .ok call, fun _ => .error .graphInterrupt, fun _ => .error .graphInterrupt⟩)]
  handle := .bool true
  messagesKey := "messages"

end LangGraph.ToolNode
