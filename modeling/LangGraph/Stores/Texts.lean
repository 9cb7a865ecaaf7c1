import Mathlib.Data.String.Basic
import LangGraph.Lib.SortBy
import LangGraph.Stores.Base

/- The texts that a store embeds for an item (`store/base/embed.py`).

   Correspondence (source ↔ Lean):
     `tokenize_path`                                ↔ `tokenizePath`
     `"$" | list[str]`, a path as it is configured  ↔ `TokenizedPath`
     `json.dumps(…, sort_keys=True, ensure_ascii=False)` ↔ `jsonDumps`
     `get_text_at_path`, `_extract_from_obj`        ↔ `getTextAtPath`, `extractFromObj`
     `pathname`                                     ↔ `pathnames`
   `floatRepr` is `float.__repr__`. `int(index)` is read for ASCII digits. -/
namespace LangGraph.Stores

/-- The state of the scan: the tokens, the pending characters, and inside a
    bracket its two characters and depth. -/
structure Scan where
  tokens : List String
  current : List Char
  bracket : Option (Char × Char × Nat)

def Scan.flush (s : Scan) : Scan :=
  if s.current = [] then s else { s with tokens := s.tokens ++ [String.ofList s.current], current := [] }

def Scan.step (s : Scan) (c : Char) : Scan :=
  match s.bracket with
  | some (opening, closing, depth) =>
    let depth := if c = opening then depth + 1 else if c = closing then depth - 1 else depth
    let s := { s with current := s.current ++ [c], bracket := some (opening, closing, depth) }
    if depth = 0 then { s.flush with bracket := none } else s
  | none =>
    if c = '[' then { s.flush with current := ['['], bracket := some ('[', ']', 1) }
    else if c = '{' then { s.flush with current := ['{'], bracket := some ('{', '}', 1) }
    else if c = '.' then s.flush
    else { s with current := s.current ++ [c] }

/-- `tokenize_path` -/
def tokenizePath (path : String) : List String :=
  (path.toList.foldl Scan.step ⟨[], [], none⟩).flush.tokens

inductive TokenizedPath where
  | root
  | tokens (ts : List String)
  deriving DecidableEq, Repr

/-- `(p, tokenize_path(p)) if p != "$" else (p, p)`, the default fields of an index. -/
def tokenizeField (p : String) : String × TokenizedPath :=
  (p, if p = "$" then .root else .tokens (tokenizePath p))

section Texts
variable (floatRepr : BitVec 64 → String)

def jsonEscape (c : Char) : String :=
  if c = '"' then "\\\""
  else if c = '\\' then "\\\\"
  else if c = '\n' then "\\n"
  else if c = '\r' then "\\r"
  else if c = '\t' then "\\t"
  else if c.toNat = 8 then "\\b"
  else if c.toNat = 12 then "\\f"
  else if c.toNat < 32 then
    "\\u00" ++ (if c.toNat < 16 then "0" else "1") ++ String.singleton (Nat.digitChar (c.toNat % 16))
  else String.singleton c

def jsonStr (s : String) : String := "\"" ++ String.join (s.toList.map jsonEscape) ++ "\""

mutual
/-- `json.dumps(obj, sort_keys=True, ensure_ascii=False)` -/
def jsonDumps : Json → String
  | .null => "null"
  | .bool b => if b then "true" else "false"
  | .int n => toString n
  | .float bits => floatRepr bits
  | .str s => jsonStr s
  | .list xs => "[" ++ ", ".intercalate (jsonDumpsList xs) ++ "]"
  | .dict entries =>
    "\x7b" ++ ", ".intercalate ((SortBy.sortBy Prod.fst (jsonDumpsDict entries)).map
      fun e => jsonStr e.1 ++ ": " ++ e.2) ++ "\x7d"

def jsonDumpsList : List Json → List String
  | [] => []
  | x :: xs => jsonDumps x :: jsonDumpsList xs

def jsonDumpsDict : List (String × Json) → List (String × String)
  | [] => []
  | (k, x) :: xs => (k, jsonDumps x) :: jsonDumpsDict xs
end

/-- The text of a value at the end of a path; `None` has none. -/
def leafText : Json → List String
  | .null => []
  | .bool b => [if b then "True" else "False"]
  | .int n => [toString n]
  | .float bits => [floatRepr bits]
  | .str s => [s]
  | value => [jsonDumps floatRepr value]

/-- The digits of an integer literal: single underscores may stand between digits. -/
def digitsOf : List Char → Option Nat → Option Nat
  | [], acc => acc
  | '_' :: c :: rest, some n =>
    if c.isDigit then digitsOf rest (some (10 * n + (c.toNat - '0'.toNat))) else none
  | c :: rest, acc =>
    if c.isDigit then digitsOf rest (some (10 * acc.getD 0 + (c.toNat - '0'.toNat))) else none

def strip (chars : List Char) : List Char :=
  ((chars.dropWhile Char.isWhitespace).reverse.dropWhile Char.isWhitespace).reverse

/-- `int(index)` -/
def pyInt (chars : List Char) : Option Int :=
  match strip chars with
  | '-' :: rest => (digitsOf rest none).map fun n => -(n : Int)
  | '+' :: rest => (digitsOf rest none).map Int.ofNat
  | rest => (digitsOf rest none).map Int.ofNat

/-- The walk of a field of a `{…}` token through nested dicts. -/
def walkFields : Json → List String → Option Json
  | obj, [] => some obj
  | .dict entries, t :: ts => (entries.lookup t).bind fun obj => walkFields obj ts
  | _, _ :: _ => none

/-- The texts of a `{…}` token. -/
def fieldsTexts (obj : Json) (fields : List (List Char)) : List String :=
  fields.flatMap fun field =>
    match tokenizePath (String.ofList (strip field)) with
    | [] => []
    | tokens => ((walkFields obj tokens).elim [] (leafText floatRepr))

/-- `list[idx]` with a negative index counted from the end. -/
def itemAt (xs : List Json) (idx : Int) : Option Json :=
  let idx := if idx < 0 then xs.length + idx else idx
  if 0 ≤ idx then xs[idx.toNat]? else none

/-- `_extract_from_obj` -/
def extractFromObj : List String → Json → List String
  | [], obj => leafText floatRepr obj
  | token :: rest, obj =>
    let inner := token.toList.tail.dropLast
    if token.toList.head? = some '[' ∧ token.toList.getLast? = some ']' then
      match obj with
      | .list xs =>
        if inner = ['*'] then xs.flatMap (extractFromObj rest)
        else ((pyInt inner).bind (itemAt xs)).elim [] (extractFromObj rest)
      | _ => []
    else if token.toList.head? = some '{' ∧ token.toList.getLast? = some '}' then
      match obj with
      | .dict _ => fieldsTexts floatRepr obj (inner.splitOn ',')
      | _ => []
    else if token = "*" then
      match obj with
      | .dict entries => entries.flatMap fun e => extractFromObj rest e.2
      | .list xs => xs.flatMap (extractFromObj rest)
      | _ => []
    else
      match obj with
      | .dict entries => (entries.lookup token).elim [] (extractFromObj rest)
      | _ => []

/-- `get_text_at_path` -/
def getTextAtPath (obj : Json) : TokenizedPath → List String
  | .root => [jsonDumps floatRepr obj]
  | .tokens [] => [jsonDumps floatRepr obj]
  | .tokens ts => extractFromObj floatRepr ts obj

/-- The rows `(pathname, text)` of a path: numbered where there are several texts. -/
def pathnames (path : String) (texts : List String) : List (String × String) :=
  if texts.length > 1 then texts.zipIdx.map fun t => (path ++ "." ++ toString t.2, t.1)
  else texts.map fun t => (path, t)

/-- The fields to embed of a put: `(pathname, text)`, in order; `fields` are the
    `__tokenized_fields` of the index. -/
def indexedTexts (fields : List (String × TokenizedPath)) (op : PutOp) : List (String × String) :=
  match op.value, op.index with
  | none, _ => []
  | some _, .off => []
  | some value, .default =>
    fields.flatMap fun f => pathnames f.1 (getTextAtPath floatRepr value f.2)
  | some value, .paths ps =>
    ps.flatMap fun p => pathnames p (getTextAtPath floatRepr value (.tokens (tokenizePath p)))

end Texts
end LangGraph.Stores
