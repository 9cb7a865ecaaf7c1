import LangGraph.Stores.SqliteFilter

/- The WHERE conditions that `BasePostgresStore` builds from a filter.

   Correspondence (source ↔ Lean):
     `str(value)`                                   ↔ `pyStr`
     `_get_filter_condition`                        ↔ `getFilterCondition`
     the loop over `op.filter`                      ↔ `filterConditions`
     `value->key`, `value->>key`                    ↔ `arrow`, `arrowText`
     `=` on jsonb                                   ↔ `jsonbEq`
     the WHERE clause, on a row's value             ↔ `whereFilter`
   `PgText` holds what the texts of floats, lists and dicts are, and the order
   of texts. A float that is no number is stored as null. -/
namespace LangGraph.Stores.Postgres

structure PgText where
  /-- The number that the shortest text of a finite float denotes. -/
  decimal : BitVec 64 → ℚ
  /-- `str` of a float, a list or a dict. -/
  strOf : Json → String
  /-- The text of a number with a fraction, an array or an object. -/
  jsonbText : Json → String
  /-- The collation of the database. -/
  lt : String → String → Bool

inductive PgCond where
  /-- `value->key = param::jsonb`, or `!=`. -/
  | contains (key : String) (equal : Bool) (param : Json)
  /-- `value->>key > param` and the like. -/
  | order (key : String) (op : Sqlite.SqlOp) (param : String)
  deriving DecidableEq, Repr

def isFinite (bits : BitVec 64) : Bool :=
  match Binary64.ofBits bits with
  | .fin _ => true
  | _ => false

/-- A text with a NUL is refused. -/
def hasNul (s : String) : Bool := s.toList.contains '\x00'

mutual
/-- Whether a text is refused by `::jsonb`: a string with a NUL, and, if `nan` holds,
    a float that is no number. -/
def refused (nan : Bool) : Json → Bool
  | .str s => hasNul s
  | .float bits => nan && !isFinite bits
  | .list xs => refusedList nan xs
  | .dict entries => refusedDict nan entries
  | _ => false

def refusedList (nan : Bool) : List Json → Bool
  | [] => false
  | x :: xs => refused nan x || refusedList nan xs

def refusedDict (nan : Bool) : List (String × Json) → Bool
  | [] => false
  | (k, x) :: xs => hasNul k || refused nan x || refusedDict nan xs
end

section Build
variable (pg : PgText) (floatText : BitVec 64 → String)

/-- `str(value)` -/
def pyStr : Json → String
  | .null => "None"
  | .bool b => if b then "True" else "False"
  | .int n => toString n
  | .str s => s
  | value => pg.strOf value

/-- `_get_filter_condition` -/
def getFilterCondition (key op : String) (value : Json) : Except StoreErr PgCond :=
  if op = "$eq" then .ok (.contains key true value)
  else if op = "$gt" then .ok (.order key .gt (pyStr pg value))
  else if op = "$gte" then .ok (.order key .ge (pyStr pg value))
  else if op = "$lt" then .ok (.order key .lt (pyStr pg value))
  else if op = "$lte" then .ok (.order key .le (pyStr pg value))
  else if op = "$ne" then .ok (.contains key false value)
  else .error (.valueError ("Unsupported operator: " ++ op))

/-- The conditions of one entry of the filter; a literal goes through `orjson.dumps`,
    which writes a float that is no number as null. -/
def entryConditions (entry : String × Json) : Except StoreErr (List PgCond) :=
  match entry.2 with
  | .dict ops => ops.mapM fun o => getFilterCondition pg entry.1 o.1 o.2
  | value => (Sqlite.dumps floatText value).map fun _ => [.contains entry.1 true value]

/-- The conditions that the loop over `op.filter` collects. -/
def filterConditions (filter : Option (List (String × Json))) : Except StoreErr (List PgCond) :=
  return (← (filter.getD []).mapM (entryConditions pg floatText)).flatten

/-- The entry has a parameter that the server or the driver refuses. -/
def entryRefused (entry : String × Json) : Bool :=
  hasNul entry.1 ||
    match entry.2 with
    | .dict ops => ops.any fun o =>
      if o.1 = "$eq" ∨ o.1 = "$ne" then refused true o.2 else hasNul (pyStr pg o.2)
    | value => refused false value

end Build

/-! ## What a condition selects -/

section Eval
variable (pg : PgText)

/-- A number of jsonb. -/
def number? : Json → Option ℚ
  | .int n => some n
  | .float bits => if isFinite bits then some (pg.decimal bits) else none
  | _ => none

def isNull : Json → Bool
  | .null => true
  | .float bits => !isFinite bits
  | _ => false

mutual
/-- `=` on jsonb. -/
def jsonbEq : Json → Json → Bool
  | .bool a, .bool b => a == b
  | .str a, .str b => a == b
  | .list a, .list b => jsonbEqList a b
  | .dict a, .dict b => a.length == b.length && jsonbEqDict a b
  | a, b =>
    match number? pg a, number? pg b with
    | some x, some y => x == y
    | _, _ => isNull a && isNull b

def jsonbEqList : List Json → List Json → Bool
  | [], [] => true
  | a :: as, b :: bs => jsonbEq a b && jsonbEqList as bs
  | _, _ => false

def jsonbEqDict : List (String × Json) → List (String × Json) → Bool
  | [], _ => true
  | (k, a) :: as, bs =>
    (match bs.lookup k with
      | some b => jsonbEq a b
      | none => false) && jsonbEqDict as bs
end

/-- `value->key`; `none` is NULL. -/
def arrow (value : Json) (key : String) : Option Json :=
  match value with
  | .dict entries => entries.lookup key
  | _ => none

/-- The text of a value of jsonb; `none` is NULL. -/
def textOf : Json → Option String
  | .null => none
  | .bool b => some (if b then "true" else "false")
  | .int n => some (toString n)
  | .str s => some s
  | value => if isNull value then none else some (pg.jsonbText value)

/-- `value->>key` -/
def arrowText (value : Json) (key : String) : Option String := (arrow value key).bind (textOf pg)

/-- The comparison of two texts: they are equal only if they are the same. -/
def compareText (a b : String) : Ordering :=
  if a = b then .eq else if pg.lt a b then .lt else .gt

/-- Whether the condition is true of a row with the value. -/
def PgCond.eval (value : Json) : PgCond → Bool
  | .contains key equal param =>
    match arrow value key with
    | some stored => jsonbEq pg stored param == equal
    | none => false
  | .order key op param =>
    match arrowText pg value key with
    | some text => op.holds (compareText pg text param)
    | none => false

/-- The test of the WHERE clause of a filter. -/
def whereFilter (floatText : BitVec 64 → String) (filter : Option (List (String × Json))) :
    Except StoreErr (Json → Bool) :=
  match filterConditions pg floatText filter with
  | .error err => .error err
  | .ok conds =>
    if (filter.getD []).any (entryRefused pg) then .error .failed
    else .ok fun value => conds.all (PgCond.eval pg value)

end Eval
end LangGraph.Stores.Postgres
