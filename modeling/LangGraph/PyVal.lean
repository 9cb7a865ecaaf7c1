import Mathlib.Data.List.Basic

/- The Python values that travel through channels, writes and checkpoints, and
   the constants and errors of the runtime.

   Correspondence (source ↔ Lean):
     `Overwrite`, `Send` (types.py)                 ↔ `PyVal.overwrite`, `PyVal.send`
     `_DeltaSnapshot` (serde/types.py)              ↔ `PyVal.deltaSnapshot`
     `MISSING` (_internal/_typing.py)               ↔ `none : Option PyVal`
     `_internal/_constants.py`                      ↔ `Const`
     `EmptyChannelError`, `InvalidUpdateError`, …   ↔ `PyErr`
     `_get_overwrite` (channels/binop.py)           ↔ `getOverwrite`
   Values compare structurally. A float is its bit pattern; an instance of any
   other class is `obj` with its class name and its attributes. -/
namespace LangGraph

inductive PyVal where
  | none
  | bool (b : Bool)
  | int (n : Int)
  | float (bits : BitVec 64)
  | str (s : String)
  | list (xs : List PyVal)
  | tuple (xs : List PyVal)
  | set (xs : List PyVal)
  | dict (entries : List (PyVal × PyVal))
  | send (node : String) (arg : PyVal)
  | overwrite (value : PyVal)
  | deltaSnapshot (value : PyVal)
  | obj (cls : String) (attrs : List (String × PyVal))
  deriving Repr, Inhabited

namespace PyVal

mutual
/-- Structural equality. -/
def beq : PyVal → PyVal → Bool
  | .none, .none => true
  | .bool a, .bool b => a == b
  | .int a, .int b => a == b
  | .float a, .float b => a == b
  | .str a, .str b => a == b
  | .list a, .list b => beqList a b
  | .tuple a, .tuple b => beqList a b
  | .set a, .set b => beqList a b
  | .dict a, .dict b => beqDict a b
  | .send n a, .send m b => n == m && beq a b
  | .overwrite a, .overwrite b => beq a b
  | .deltaSnapshot a, .deltaSnapshot b => beq a b
  | .obj c a, .obj d b => c == d && beqAttrs a b
  | _, _ => false

def beqList : List PyVal → List PyVal → Bool
  | [], [] => true
  | a :: as, b :: bs => beq a b && beqList as bs
  | _, _ => false

def beqDict : List (PyVal × PyVal) → List (PyVal × PyVal) → Bool
  | [], [] => true
  | (k, a) :: as, (l, b) :: bs => beq k l && beq a b && beqDict as bs
  | _, _ => false

def beqAttrs : List (String × PyVal) → List (String × PyVal) → Bool
  | [], [] => true
  | (k, a) :: as, (l, b) :: bs => k == l && beq a b && beqAttrs as bs
  | _, _ => false
end

mutual
theorem beq_iff : ∀ a b : PyVal, beq a b = true ↔ a = b
  | .none, b => by cases b <;> simp [beq]
  | .bool a, b => by cases b <;> simp [beq]
  | .int a, b => by cases b <;> simp [beq]
  | .float a, b => by cases b <;> simp [beq]
  | .str a, b => by cases b <;> simp [beq]
  | .list a, b => by cases b <;> simp [beq, beqList_iff a]
  | .tuple a, b => by cases b <;> simp [beq, beqList_iff a]
  | .set a, b => by cases b <;> simp [beq, beqList_iff a]
  | .dict a, b => by cases b <;> simp [beq, beqDict_iff a]
  | .send n a, b => by cases b <;> simp [beq, beq_iff a]
  | .overwrite a, b => by cases b <;> simp [beq, beq_iff a]
  | .deltaSnapshot a, b => by cases b <;> simp [beq, beq_iff a]
  | .obj c a, b => by cases b <;> simp [beq, beqAttrs_iff a]

theorem beqList_iff : ∀ as bs : List PyVal, beqList as bs = true ↔ as = bs
  | [], bs => by cases bs <;> simp [beqList]
  | a :: as, bs => by cases bs <;> simp [beqList, beq_iff a, beqList_iff as]

theorem beqDict_iff : ∀ as bs : List (PyVal × PyVal), beqDict as bs = true ↔ as = bs
  | [], bs => by cases bs <;> simp [beqDict]
  | (_, _) :: _, [] => by simp [beqDict]
  | (k, a) :: as, (l, b) :: bs => by simp [beqDict, beq_iff k, beq_iff a, beqDict_iff as]

theorem beqAttrs_iff : ∀ as bs : List (String × PyVal), beqAttrs as bs = true ↔ as = bs
  | [], bs => by cases bs <;> simp [beqAttrs]
  | (_, _) :: _, [] => by simp [beqAttrs]
  | (k, a) :: as, (l, b) :: bs => by simp [beqAttrs, beq_iff a, beqAttrs_iff as]
end

instance : DecidableEq PyVal := fun a b => decidable_of_iff _ (beq_iff a b)

end PyVal

namespace Const

def INPUT := "__input__"
def INTERRUPT := "__interrupt__"
def RESUME := "__resume__"
def ERROR := "__error__"
def ERROR_SOURCE_NODE := "__error_source_node__"
def SCHEDULED := "__scheduled__"
def NO_WRITES := "__no_writes__"
def TASKS := "__pregel_tasks"
def RETURN := "__return__"
def PREVIOUS := "__previous__"
def PUSH := "__pregel_push"
def PULL := "__pregel_pull"
def NULL_TASK_ID := "00000000-0000-0000-0000-000000000000"
def OVERWRITE := "__overwrite__"

end Const

/-- The exceptions the modelled code raises. `notInBarrier` is the
    `InvalidUpdateError` "At key '…': Value … not in …" of the barrier channels;
    `raised` is an exception of code that the user supplies (a reducer, a node). -/
inductive PyErr where
  | emptyChannel
  | invalidUpdate (msg : String)
  | notInBarrier (key : String) (value : PyVal) (names : List PyVal)
  | raised (exc : PyVal)
  deriving DecidableEq, Repr

/-- `create_error_message` -/
def createErrorMessage (message errorCode : String) : String :=
  message ++ "\nFor troubleshooting, visit: https://docs.langchain.com/oss/python/langgraph/errors/"
    ++ errorCode

/-- `_get_overwrite`: the typed form, the sentinel-keyed dict, and the dict that
    a JSON-serialised `Overwrite` becomes. -/
def getOverwrite : PyVal → Option PyVal
  | .overwrite v => some v
  | .dict [(.str k, v)] => if k = Const.OVERWRITE then some v else none
  | .dict entries =>
    if entries.lookup (.str "type") = some (.str Const.OVERWRITE) then
      entries.lookup (.str "value")
    else none
  | _ => none

end LangGraph
