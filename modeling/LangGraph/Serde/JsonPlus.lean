import Mathlib.Algebra.Group.Int.Defs
import Mathlib.Data.List.Perm.Basic
import LangGraph.Lib.OrdDict
import LangGraph.Lib.Tree

/- What the checkpoint serializer writes for a value of the built-in types and
   what it reads back.

   Correspondence (source ↔ Lean):
     `JsonPlusSerializer` (serde/jsonplus.py) ↔ `JsonPlusSerializer`
     `dumps_typed`, `loads_typed`             ↔ `dumpsTyped`, `loadsTyped`
     `_msgpack_enc`                           ↔ `msgpackEnc`
     `_msgpack_default`                       ↔ `packNode`, `constructorExt`
     `ormsgpack.unpackb(…, ext_hook)`         ↔ `unpackb`
     `ext_hook`, `_check_allowed`             ↔ `extHook`, `checkAllowed`
     `SAFE_MSGPACK_TYPES` (serde/_msgpack.py) ↔ `safeMsgpackTypes`
   A msgpack text is the document it spells. The package packs a tuple as an
   array, gives every array back as a list, refuses an int outside 64 bits and
   hands the rest to the two hooks. A set stands for its elements in one order
   of iteration. -/
namespace LangGraph.Serde

inductive Atom where
  | none
  | bool (b : Bool)
  | int (n : Int)
  | float (bits : BitVec 64)
  | str (s : String)
  | bytes (bs : List UInt8)
  deriving Repr, DecidableEq

inductive Kind where
  | list
  | tuple
  | set
  | frozenset
  | deque
  | dict (keys : List String)
  deriving Repr, DecidableEq

abbrev Value := Tree Atom Kind

@[match_pattern] abbrev Value.none : Value := .leaf .none
@[match_pattern] abbrev Value.str (s : String) : Value := .leaf (.str s)

def Kind.hashable : Kind → Bool
  | .tuple | .frozenset => true
  | .list | .set | .deque | .dict _ => false

/-- `hash(v)` does not raise. -/
def Value.hashable (v : Value) : Bool := !v.anyNode fun k => !k.hashable

def Value.hasTuple (v : Value) : Bool := v.anyNode (· == .tuple)

/-- What the interpreter supplies: `==` of values, the call of a class that is
    not one of the three below, the other codes of the extension hook. -/
structure Python where
  eq : Value → Value → Bool
  call : String → String → Value → Option Value
  otherExt : Nat → Value → Value

/- ── Writing ───────────────────────────────────────────────────────────────── -/

/-- A msgpack document. -/
inductive Packed where
  | atom (a : Atom)
  | array (items : List Packed)
  | map (keys : List String) (items : List Packed)
  | ext (code : Nat) (data : Packed)

inductive SerdeError where
  | msgpackEncode
  | notImplemented (type_ : String)
  deriving Repr, DecidableEq

def EXT_CONSTRUCTOR_SINGLE_ARG := 0

/-- The ints of ormsgpack: signed or unsigned in 64 bits. -/
def Atom.fits : Atom → Bool
  | .int n => decide (-2 ^ 63 ≤ n ∧ n < 2 ^ 64)
  | _ => true

def packAtom (a : Atom) : Except SerdeError Packed :=
  if a.fits then .ok (.atom a) else .error .msgpackEncode

/-- `Ext(EXT_CONSTRUCTOR_SINGLE_ARG, _msgpack_enc((module, name, tuple(obj))))`
    with the elements packed. -/
def constructorExt (module name : String) (ms : List Packed) : Packed :=
  .ext EXT_CONSTRUCTOR_SINGLE_ARG (.array [.atom (.str module), .atom (.str name), .array ms])

def packNode : Kind → List Packed → Packed
  | .list, ms => .array ms
  | .tuple, ms => .array ms
  | .dict keys, ms => .map keys ms
  -- these three go through `_msgpack_default`, with the name of their class
  | .set, ms => constructorExt "builtins" "set" ms
  | .frozenset, ms => constructorExt "builtins" "frozenset" ms
  | .deque, ms => constructorExt "collections" "deque" ms

mutual
/-- `_msgpack_enc`. An error inside an extension is an error of the whole. -/
def msgpackEnc : Value → Except SerdeError Packed
  | .leaf a => packAtom a
  | .node k vs => do
    let ms ← msgpackEncAll vs
    .ok (packNode k ms)

def msgpackEncAll : List Value → Except SerdeError (List Packed)
  | [] => .ok []
  | v :: vs => do
    let m ← msgpackEnc v
    let ms ← msgpackEncAll vs
    .ok (m :: ms)
end

/-- The type tag of `dumps_typed` with the data under it. -/
inductive Typed where
  | null
  | bytes (bs : List UInt8)
  | msgpack (m : Packed)
  | pickle (v : Value)

/- ── Reading ───────────────────────────────────────────────────────────────── -/

def safeMsgpackTypes : List (String × String) :=
  [("datetime", "datetime"), ("datetime", "date"), ("datetime", "time"),
    ("datetime", "timedelta"), ("datetime", "timezone"), ("uuid", "UUID"),
    ("decimal", "Decimal"),
    ("builtins", "set"), ("builtins", "frozenset"), ("collections", "deque"),
    ("ipaddress", "IPv4Address"), ("ipaddress", "IPv4Interface"),
    ("ipaddress", "IPv4Network"), ("ipaddress", "IPv6Address"),
    ("ipaddress", "IPv6Interface"), ("ipaddress", "IPv6Network"),
    ("pathlib", "Path"), ("pathlib", "PosixPath"), ("pathlib", "WindowsPath"),
    ("pathlib._local", "Path"), ("pathlib._local", "PosixPath"),
    ("pathlib._local", "WindowsPath"), ("zoneinfo", "ZoneInfo"), ("re", "compile"),
    ("langchain_core.messages.base", "BaseMessage"),
    ("langchain_core.messages.base", "BaseMessageChunk"),
    ("langchain_core.messages.human", "HumanMessage"),
    ("langchain_core.messages.human", "HumanMessageChunk"),
    ("langchain_core.messages.ai", "AIMessage"),
    ("langchain_core.messages.ai", "AIMessageChunk"),
    ("langchain_core.messages.system", "SystemMessage"),
    ("langchain_core.messages.system", "SystemMessageChunk"),
    ("langchain_core.messages.chat", "ChatMessage"),
    ("langchain_core.messages.chat", "ChatMessageChunk"),
    ("langchain_core.messages.tool", "ToolMessage"),
    ("langchain_core.messages.tool", "ToolMessageChunk"),
    ("langchain_core.messages.function", "FunctionMessage"),
    ("langchain_core.messages.function", "FunctionMessageChunk"),
    ("langchain_core.messages.modifier", "RemoveMessage"),
    ("langchain_core.documents.base", "Document"),
    ("langgraph.types", "Send"), ("langgraph.types", "TimeoutPolicy"),
    ("langgraph.types", "Interrupt"), ("langgraph.types", "Command"),
    ("langgraph.types", "StateSnapshot"), ("langgraph.types", "PregelTask"),
    ("langgraph.types", "Overwrite"), ("langgraph.store.base", "Item"),
    ("langgraph.store.base", "GetOp")]

/-- `allowed_msgpack_modules` once normalized: `True`, a set of names, or `None`. -/
inductive AllowedModules where
  | all
  | these (keys : List (List String))
  | safeOnly

structure JsonPlusSerializer where
  pickleFallback : Bool
  allowedMsgpackModules : AllowedModules

def checkAllowed (allowed : AllowedModules) (module name : String) : Bool :=
  safeMsgpackTypes.contains (module, name) ||
    match allowed with
    | .all => true
    | .these keys => keys.contains [module, name]
    | .safeOnly => false

/-- The elements `iter(v)` runs over, when `v` has an iterator. -/
def iterate : Value → Option (List Value)
  | .node (.dict keys) _ => some (keys.map Value.str)
  | .node _ vs => some vs
  | .leaf (.str s) => some (s.toList.map fun c => Value.str (String.singleton c))
  | .leaf (.bytes bs) => some (bs.map fun b => .leaf (.int b.toNat))
  | .leaf _ => none

/-- The elements a hash table keeps of `vs`: of equal ones the first. -/
def distinct (eq : Value → Value → Bool) : List Value → List Value
  | [] => []
  | v :: vs => v :: (distinct eq vs).filter fun w => !eq v w

/-- `set(vs)` and `frozenset(vs)`, which raise on an unhashable element. -/
def hashed (py : Python) (k : Kind) (vs : List Value) : Option Value :=
  if vs.all Value.hashable then some (.node k (distinct py.eq vs)) else none

/-- `getattr(importlib.import_module(module), name)(arg)`, `none` when it raises. -/
def construct (py : Python) (module name : String) (arg : Value) : Option Value :=
  if (module, name) = ("builtins", "set") then (iterate arg).bind (hashed py .set)
  else if (module, name) = ("builtins", "frozenset") then
    (iterate arg).bind (hashed py .frozenset)
  else if (module, name) = ("collections", "deque") then (iterate arg).map (.node .deque)
  else py.call module name arg

/-- `ext_hook` on the data it has unpacked. For the single-argument code the
    data is the triple of `_msgpack_default`; every exception gives `None`. -/
def extHook (py : Python) (allowed : AllowedModules) (code : Nat) (data : Value) : Value :=
  if code = EXT_CONSTRUCTOR_SINGLE_ARG then
    match data with
    | .node .list (Value.str module :: Value.str name :: arg :: _) =>
      if checkAllowed allowed module name then (construct py module name arg).getD Value.none
      else arg
    | _ => Value.none
  else py.otherExt code data

/-- A dict from the pairs of a map: a key twice keeps its last value. -/
def dictOf (keys : List String) (vs : List Value) : Value :=
  let d := OrdDict.ofList (keys.zip vs)
  .node (.dict d.keys) d.values

mutual
def unpackb (py : Python) (allowed : AllowedModules) : Packed → Value
  | .atom a => .leaf a
  | .array ms => .node .list (unpackAll py allowed ms)
  | .map keys ms => dictOf keys (unpackAll py allowed ms)
  | .ext code data => extHook py allowed code (unpackb py allowed data)

def unpackAll (py : Python) (allowed : AllowedModules) : List Packed → List Value
  | [] => []
  | m :: ms => unpackb py allowed m :: unpackAll py allowed ms
end

namespace JsonPlusSerializer

def dumpsTyped (s : JsonPlusSerializer) (obj : Value) : Except SerdeError Typed :=
  match obj with
  | .leaf .none => .ok .null
  | .leaf (.bytes bs) => .ok (.bytes bs)
  | obj =>
    match msgpackEnc obj with
    | .ok m => .ok (.msgpack m)
    | .error .msgpackEncode =>
      if s.pickleFallback then .ok (.pickle obj) else .error .msgpackEncode
    | .error e => .error e

def loadsTyped (py : Python) (s : JsonPlusSerializer) (data : Typed) : Except SerdeError Value :=
  match data with
  | .null => .ok Value.none
  | .bytes bs => .ok (.leaf (.bytes bs))
  | .msgpack m => .ok (unpackb py s.allowedMsgpackModules m)
  | .pickle v => if s.pickleFallback then .ok v else .error (.notImplemented "pickle")

end JsonPlusSerializer
end LangGraph.Serde
