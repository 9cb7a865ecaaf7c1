import LangGraph.Stores.MemoryFilter

/- The WHERE conditions that `BaseSqliteStore` builds from a filter.

   Correspondence (source ↔ Lean):
     `_FILTER_PATTERN`, `_validate_filter_key`      ↔ `filterPattern`, `validateFilterKey`
     `orjson.dumps`                                 ↔ `orjsonDumps`
     `float(value)` as a parameter                  ↔ `floatParam`
     `_get_filter_condition`                        ↔ `getFilterCondition`
     the loop over `op.filter`                      ↔ `filterConditions`
     `json_extract`, `CAST(… AS REAL)`              ↔ `jsonExtract`, `SqlVal.cast`
     the WHERE clause, on a row's value             ↔ `whereFilter`
   A condition is kept as what its text says. `$` in the pattern also matches
   before a newline at the end. `castReal` is the number that SQLite reads from
   a text, `floatText` the text of a float. -/
namespace LangGraph.Stores

/-- The exceptions of building and running queries. -/
inductive StoreErr where
  | valueError (msg : String)
  | overflow
  | encode
  /-- The exception of a statement, of the embeddings or of a query's construction. -/
  | failed
  deriving DecidableEq, Repr

namespace Sqlite

inductive SqlOp where
  | eq
  | ne
  | gt
  | ge
  | lt
  | le
  deriving DecidableEq, Repr

inductive SqlParam where
  | text (s : String)
  | real (x : Binary64)
  | int (n : Int)
  | blob (s : String)
  deriving DecidableEq, Repr

/-- `json_extract(value, '$.key')` compared with a parameter, cast to REAL or
    not, or tested for NULL. -/
inductive SqlCond where
  | compare (key : String) (castReal : Bool) (op : SqlOp) (param : SqlParam)
  | isNull (key : String)
  | isNotNull (key : String)
  deriving DecidableEq, Repr

def isFilterChar (c : Char) : Bool :=
  ('a' ≤ c && c ≤ 'z') || ('A' ≤ c && c ≤ 'Z') || ('0' ≤ c && c ≤ '9') ||
    c == '_' || c == '.' || c == '-'

/-- `^[a-zA-Z0-9_.-]+$` -/
def filterPattern (key : String) : Bool :=
  let chars := if key.toList.getLast? = some '\n' then key.toList.dropLast else key.toList
  chars != [] && chars.all isFilterChar

/-- `_validate_filter_key` -/
def validateFilterKey (key : String) : Except StoreErr Unit :=
  if filterPattern key then .ok ()
  else .error (.valueError ("Invalid filter key: '" ++ key ++ "'. Filter keys must contain " ++
    "only alphanumeric characters, underscores, dots, and hyphens."))

/-- `float(value)` of a number. -/
def floatParam (value : Json) : Except StoreErr SqlParam :=
  match pyFloat value with
  | some x => .ok (.real x)
  | none => .error .overflow

section Dumps
variable (floatText : BitVec 64 → String)

mutual
/-- `orjson.dumps`: compact, keys in their order, integers of 64 bits. -/
def orjsonDumps : Json → Option String
  | .null => some "null"
  | .bool b => some (if b then "true" else "false")
  | .int n => if -2 ^ 63 ≤ n ∧ n < 2 ^ 64 then some (toString n) else none
  | .float bits => some (floatText bits)
  | .str s => some (jsonStr s)
  | .list xs => (orjsonDumpsList xs).map fun parts => "[" ++ ",".intercalate parts ++ "]"
  | .dict entries => (orjsonDumpsDict entries).map fun parts => "\x7b" ++ ",".intercalate parts ++ "\x7d"

def orjsonDumpsList : List Json → Option (List String)
  | [] => some []
  | x :: xs => (orjsonDumps x).bind fun t => (orjsonDumpsList xs).map (t :: ·)

def orjsonDumpsDict : List (String × Json) → Option (List String)
  | [] => some []
  | (k, x) :: xs =>
    (orjsonDumps x).bind fun t => (orjsonDumpsDict xs).map ((jsonStr k ++ ":" ++ t) :: ·)
end

def dumps (value : Json) : Except StoreErr String :=
  (orjsonDumps floatText value).elim (.error .encode) .ok

/-- The branches of `$gt`, `$gte`, `$lt` and `$lte`: only numbers are cast. -/
def orderCondition (key : String) (op : SqlOp) : Json → Except StoreErr SqlCond
  | .str s => .ok (.compare key false op (.text s))
  | .bool b => (floatParam (.bool b)).map (.compare key true op)
  | .int n => (floatParam (.int n)).map (.compare key true op)
  | .float bits => (floatParam (.float bits)).map (.compare key true op)
  | value => (dumps floatText value).map fun t => .compare key false op (.blob t)

/-- The branches of `$eq` and `$ne`. -/
def equalityCondition (key : String) (op : SqlOp) (onNull : SqlCond) :
    Json → Except StoreErr SqlCond
  | .str s => .ok (.compare key false op (.text s))
  | .null => .ok onNull
  | .bool b => .ok (.compare key false op (.int (if b then 1 else 0)))
  | .int n => (floatParam (.int n)).map (.compare key false op)
  | .float bits => (floatParam (.float bits)).map (.compare key false op)
  | value => (dumps floatText value).map fun t => .compare key false op (.blob t)

/-- `_get_filter_condition` -/
def getFilterCondition (key op : String) (value : Json) : Except StoreErr SqlCond := do
  validateFilterKey key
  if op = "$eq" then equalityCondition floatText key .eq (.isNull key) value
  else if op = "$gt" then orderCondition floatText key .gt value
  else if op = "$gte" then orderCondition floatText key .ge value
  else if op = "$lt" then orderCondition floatText key .lt value
  else if op = "$lte" then orderCondition floatText key .le value
  else if op = "$ne" then equalityCondition floatText key .ne (.isNotNull key) value
  else .error (.valueError ("Unsupported operator: " ++ op))

/-- The condition of a filter value that is no dict. -/
def literalCondition (key : String) : Json → Except StoreErr SqlCond
  | .str s => .ok (.compare key false .eq (.text s))
  | .null => .ok (.isNull key)
  | .bool b => .ok (.compare key false .eq (.int (if b then 1 else 0)))
  | .int n => (floatParam (.int n)).map (.compare key false .eq)
  | .float bits => (floatParam (.float bits)).map (.compare key false .eq)
  | value => (dumps floatText value).map fun t => .compare key false .eq (.text t)

/-- The conditions of one entry of the filter. -/
def entryConditions (entry : String × Json) : Except StoreErr (List SqlCond) := do
  validateFilterKey entry.1
  match entry.2 with
  | .dict ops => ops.mapM fun o => getFilterCondition floatText entry.1 o.1 o.2
  | value => return [← literalCondition floatText entry.1 value]

/-- The conditions that the loop over `op.filter` collects. -/
def filterConditions (filter : Option (List (String × Json))) : Except StoreErr (List SqlCond) :=
  return (← (filter.getD []).mapM (entryConditions floatText)).flatten

end Dumps

/-! ## What a condition selects -/

inductive SqlVal where
  | null
  | int (n : Int)
  | real (x : Binary64)
  | text (s : String)
  | blob (s : String)
  deriving DecidableEq, Repr

def SqlParam.toSql : SqlParam → SqlVal
  | .text s => .text s
  | .real .nan => .null
  | .real x => .real x
  | .int n => .int n
  | .blob s => .blob s

/-- The labels of the path `$.key`. -/
def pathOf (key : String) : List String := (key.toList.splitOn '.').map String.ofList

/-- The value at the labels, through nested objects. -/
def walkPath : List String → Json → Option Json
  | [], value => some value
  | label :: labels, .dict entries => (entries.lookup label).bind (walkPath labels)
  | _ :: _, _ => none

section Eval
variable (floatText : BitVec 64 → String) (castReal : String → Binary64)

/-- A JSON value as `json_extract` returns it: an array or object is its text. -/
def toSql : Json → SqlVal
  | .null => .null
  | .bool b => .int (if b then 1 else 0)
  | .int n => if -2 ^ 63 ≤ n ∧ n < 2 ^ 63 then .int n else .real (Binary64.ofRat n)
  | .float bits => (SqlParam.real (Binary64.ofBits bits)).toSql
  | .str s => .text s
  | value => .text ((orjsonDumps floatText value).getD "")

/-- `json_extract(value, '$.key')` -/
def jsonExtract (value : Json) (key : String) : SqlVal :=
  ((walkPath (pathOf key) value).map (toSql floatText)).getD .null

/-- `CAST(… AS REAL)`; `castReal` reads a text. -/
def SqlVal.cast : SqlVal → SqlVal
  | .null => .null
  | .int n => .real (Binary64.ofRat n)
  | .real x => .real x
  | .text s => .real (castReal s)
  | .blob s => .real (castReal s)

def SqlVal.number? : SqlVal → Option Binary64
  | .int n => some (.fin n)
  | .real x => some x
  | _ => none

/-- The comparison of two values: numbers before texts before blobs; `none` with NULL. -/
def sqlCompare : SqlVal → SqlVal → Option Ordering
  | .null, _ => none
  | _, .null => none
  | .text a, .text b => some (if a < b then .lt else if a = b then .eq else .gt)
  | .blob a, .blob b => some (if a < b then .lt else if a = b then .eq else .gt)
  | .text _, .blob _ => some .lt
  | .blob _, .text _ => some .gt
  | a, b =>
    match a.number?, b.number? with
    | some x, some y => some (if x.lt y then .lt else if x.eq y then .eq else .gt)
    | some _, none => some .lt
    | none, _ => some .gt

def SqlOp.holds : SqlOp → Ordering → Bool
  | .eq, o => o == .eq
  | .ne, o => o != .eq
  | .gt, o => o == .gt
  | .ge, o => o != .lt
  | .lt, o => o == .lt
  | .le, o => o != .gt

/-- Whether the condition is true of a row with the value. -/
def SqlCond.eval (value : Json) : SqlCond → Bool
  | .compare key castReal? op param =>
    let extracted := jsonExtract floatText value key
    match sqlCompare (if castReal? then extracted.cast castReal else extracted) param.toSql with
    | some o => op.holds o
    | none => false
  | .isNull key => jsonExtract floatText value key == .null
  | .isNotNull key => jsonExtract floatText value key != .null

/-- A path with an empty label is an error of `json_extract`. -/
def SqlCond.malformed : SqlCond → Bool
  | .compare key _ _ _ | .isNull key | .isNotNull key => (pathOf key).contains ""

/-- The test of the WHERE clause of a filter. -/
def whereFilter (filter : Option (List (String × Json))) : Except StoreErr (Json → Bool) :=
  match filterConditions floatText filter with
  | .error err => .error err
  | .ok conds =>
    if conds.any SqlCond.malformed then .error .failed
    else .ok fun value => conds.all (SqlCond.eval floatText castReal value)

end Eval
end Sqlite
end LangGraph.Stores
