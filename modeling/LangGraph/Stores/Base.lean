import Mathlib.Data.List.Basic
import LangGraph.Lib.JoinedText

/- The operations of the key-value stores (`store/base/__init__.py`) and the
   JSON values that they keep.

   Correspondence (source ↔ Lean):
     `GetOp`, `SearchOp`, `PutOp`, `ListNamespacesOp`, `Op` ↔ the structures of the same names, `Op`
     `index: Literal[False] | list[str] | None`     ↔ `IndexArg`
     `_validate_namespace`                          ↔ `validateNamespace`
     `_namespace_to_text`, `_decode_ns_text`        ↔ `namespaceToText`, `decodeNsText`
   The field `namespace` is `ns`. A number of minutes and a float are their bits.
   `decodeNsText_namespaceToText`: a validated namespace survives its text. -/
namespace LangGraph.Stores

inductive Json where
  | null
  | bool (b : Bool)
  | int (n : Int)
  | float (bits : BitVec 64)
  | str (s : String)
  | list (xs : List Json)
  | dict (entries : List (String × Json))
  deriving Repr, Inhabited

namespace Json

mutual
/-- Structural equality. -/
def beq : Json → Json → Bool
  | .null, .null => true
  | .bool a, .bool b => a == b
  | .int a, .int b => a == b
  | .float a, .float b => a == b
  | .str a, .str b => a == b
  | .list a, .list b => beqList a b
  | .dict a, .dict b => beqDict a b
  | _, _ => false

def beqList : List Json → List Json → Bool
  | [], [] => true
  | a :: as, b :: bs => beq a b && beqList as bs
  | _, _ => false

def beqDict : List (String × Json) → List (String × Json) → Bool
  | [], [] => true
  | (k, a) :: as, (l, b) :: bs => k == l && beq a b && beqDict as bs
  | _, _ => false
end

mutual
theorem beq_iff : ∀ a b : Json, beq a b = true ↔ a = b
  | .null, b => by cases b <;> simp [beq]
  | .bool a, b => by cases b <;> simp [beq]
  | .int a, b => by cases b <;> simp [beq]
  | .float a, b => by cases b <;> simp [beq]
  | .str a, b => by cases b <;> simp [beq]
  | .list a, b => by cases b <;> simp [beq, beqList_iff a]
  | .dict a, b => by cases b <;> simp [beq, beqDict_iff a]

theorem beqList_iff : ∀ as bs : List Json, beqList as bs = true ↔ as = bs
  | [], bs => by cases bs <;> simp [beqList]
  | a :: as, bs => by cases bs <;> simp [beqList, beq_iff a, beqList_iff as]

theorem beqDict_iff : ∀ as bs : List (String × Json), beqDict as bs = true ↔ as = bs
  | [], bs => by cases bs <;> simp [beqDict]
  | (_, _) :: _, [] => by simp [beqDict]
  | (k, a) :: as, (l, b) :: bs => by simp [beqDict, beq_iff a, beqDict_iff as, and_assoc]
end

instance : DecidableEq Json := fun a b => decidable_of_iff _ (beq_iff a b)

end Json

abbrev Namespace := List String

abbrev Minutes := BitVec 64

structure GetOp where
  ns : Namespace
  key : String
  refreshTtl : Bool := true
  deriving DecidableEq, Repr

structure SearchOp where
  namespacePrefix : Namespace
  filter : Option (List (String × Json)) := none
  limit : Int := 10
  offset : Int := 0
  query : Option String := none
  refreshTtl : Bool := true
  deriving DecidableEq, Repr

inductive MatchType where
  | prefixed
  | suffixed
  deriving DecidableEq, Repr

structure MatchCondition where
  matchType : MatchType
  path : Namespace
  deriving DecidableEq, Repr

structure ListNamespacesOp where
  matchConditions : Option (List MatchCondition) := none
  maxDepth : Option Int := none
  limit : Int := 100
  offset : Int := 0
  deriving DecidableEq, Repr

/-- `index`: `None` is `default`, `False` is `off`. -/
inductive IndexArg where
  | default
  | off
  | paths (ps : List String)
  deriving DecidableEq, Repr

/-- A `PutOp` with the value `None` deletes. -/
structure PutOp where
  ns : Namespace
  key : String
  value : Option Json
  index : IndexArg := .default
  ttl : Option Minutes := none
  deriving DecidableEq, Repr

inductive Op where
  | get (op : GetOp)
  | search (op : SearchOp)
  | put (op : PutOp)
  | listNamespaces (op : ListNamespacesOp)
  deriving DecidableEq, Repr

/-- `_validate_namespace`; whether it raises. -/
def validateNamespace : Namespace → Bool
  | [] => false
  | root :: labels =>
    (root :: labels).all (fun label => !label.toList.contains '.' && label != "") &&
      root != "langgraph"

/-- `_namespace_to_text`, without wildcards. -/
def namespaceToText (ns : Namespace) : String := ".".intercalate ns

/-- `_decode_ns_text` -/
def decodeNsText (text : String) : Namespace := (text.toList.splitOn '.').map String.ofList

/-- What a namespace that passed `_validate_namespace` is. -/
structure ValidNamespace (ns : Namespace) : Prop where
  ne_nil : ns ≠ []
  no_dot : ∀ label ∈ ns, '.' ∉ label.toList
  label_ne : ∀ label ∈ ns, label ≠ ""

theorem ValidNamespace.of_validate {ns : Namespace} (h : validateNamespace ns = true) :
    ValidNamespace ns := by
  cases ns with
  | nil => cases h
  | cons root labels =>
    simp only [validateNamespace, Bool.and_eq_true, List.all_eq_true, Bool.not_eq_true',
      List.contains_eq_mem, decide_eq_false_iff_not, bne_iff_ne] at h
    exact ⟨List.cons_ne_nil _ _, fun l hl => (h.1 l hl).1, fun l hl => (h.1 l hl).2⟩

theorem toList_namespaceToText (ns : Namespace) :
    (namespaceToText ns).toList = ['.'].intercalate (ns.map String.toList) :=
  JoinedText.toList_join '.' ns

theorem decodeNsText_namespaceToText {ns : Namespace} (h : ValidNamespace ns) :
    decodeNsText (namespaceToText ns) = ns :=
  JoinedText.split_join ⟨h.ne_nil, h.no_dot⟩

/-- Two validated namespaces have different texts. -/
theorem namespaceToText_inj {ns ns' : Namespace} (h : ValidNamespace ns) (h' : ValidNamespace ns')
    (heq : namespaceToText ns = namespaceToText ns') : ns = ns' := by
  rw [← decodeNsText_namespaceToText h, heq, decodeNsText_namespaceToText h']

end LangGraph.Stores
