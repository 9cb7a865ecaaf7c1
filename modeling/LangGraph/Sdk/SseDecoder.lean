import LangGraph.Sdk.LineDecoder

/- The events of a stream of server-sent events.

   Correspondence (source ↔ Lean):
     `StreamPart` (langgraph_sdk/schema.py)       ↔ `StreamPart`
     `SSEDecoder` (langgraph_sdk/sse.py)          ↔ `SSEDecoder`
     `last_event_id`, `decode`                    ↔ `SSEDecoder.last_event_id`, `decode`
     the loop over `iter_lines_raw` (`stream`)    ↔ `read`, `readChunks`
     `orjson.loads`                               ↔ the parameter `loads`
   `chunks_decode`: neither the lines nor the events depend on where the string is cut. -/
namespace LangGraph.Sdk

open Lines

variable {J : Type}

/-- `data` is `none` for Python's `None`. -/
structure StreamPart (J : Type) where
  event : String
  data : Option J
  id : Option String
  deriving DecidableEq

/- ── The fields of a line ──────────────────────────────────────────────────── -/

def COLON : UInt8 := 58
def SPACE : UInt8 := 32

-- b"event", b"data", b"id", b"retry"
def EVENT : Bytes := [101, 118, 101, 110, 116]
def DATA : Bytes := [100, 97, 116, 97]
def ID : Bytes := [105, 100]
def RETRY : Bytes := [114, 101, 116, 114, 121]

/-- `value.decode()`: none raises `UnicodeDecodeError`. -/
def utf8 (value : Bytes) : Option String := String.fromUTF8? ⟨value.toArray⟩

/-- `line.partition(b":")`, less the space that starts the value. -/
def field (line : Bytes) : Bytes × Bytes :=
  let value := (line.dropWhile (· ≠ COLON)).tail
  (line.takeWhile (· ≠ COLON), if value.head? = some SPACE then value.tail else value)

def isSpace (b : UInt8) : Bool := b = SPACE ∨ (9 ≤ b ∧ b ≤ 13)

/-- The digits of a number: an underscore stands between two of them. -/
def digits : Bool → Bytes → Option (List Nat)
  | after, [] => if after then some [] else none
  | after, b :: rest =>
    if b = 95 then if after then digits false rest else none
    else if 48 ≤ b ∧ b ≤ 57 then (digits true rest).map ((b.toNat - 48) :: ·)
    else none

/-- `int(value)`: none raises `ValueError`, as more than 4300 digits do. -/
def parseInt (value : Bytes) : Option Int :=
  let text := ((value.dropWhile isSpace).reverse.dropWhile isSpace).reverse
  let (sign, text) : Int × Bytes :=
    if text.head? = some 45 then (-1, text.tail)
    else if text.head? = some 43 then (1, text.tail)
    else (1, text)
  match digits false text with
  | none => none
  | some ds =>
    if 4300 < ds.length then none
    else some (sign * (ds.foldl (fun n d => 10 * n + d) 0 : Nat))

/- ── The decoder ───────────────────────────────────────────────────────────── -/

structure SSEDecoder where
  event : String
  data : Bytes
  lastEventId : String
  retry : Option Int
  deriving DecidableEq

namespace SSEDecoder

def init : SSEDecoder := ⟨"", [], "", none⟩

def last_event_id (d : SSEDecoder) : Option String :=
  if d.lastEventId = "" then none else some d.lastEventId

variable (loads : Bytes → Option (Option J))

/-- None raises: the data is no JSON text, or a value is no UTF-8 text. -/
def decode (d : SSEDecoder) (line : Bytes) : Option (Option (StreamPart J) × SSEDecoder) :=
  if line = [] then
    if d.event = "" ∧ d.data = [] ∧ d.lastEventId = "" ∧ d.retry = none then some (none, d)
    else
      match (if d.data = [] then some none else loads d.data) with
      | none => none
      | some data =>
        -- the last event id is not reset
        some (some ⟨d.event, data, d.last_event_id⟩,
          { d with event := "", data := [], retry := none })
  else if line.head? = some COLON then some (none, d)
  else
    let (fieldname, value) := field line
    if fieldname = EVENT then (utf8 value).map fun name => (none, { d with event := name })
    else if fieldname = DATA then some (none, { d with data := d.data ++ value })
    else if fieldname = ID then
      if 0 ∈ value then some (none, d)
      else (utf8 value).map fun i => (none, { d with lastEventId := i })
    else if fieldname = RETRY then
      some (none, { d with retry := (parseInt value).or d.retry })
    else some (none, d)

/-- `line.rstrip(b"\n")`. -/
def rstrip (line : Bytes) : Bytes := (line.reverse.dropWhile (· = LF)).reverse

/-- The events of the lines, up to one that raises; none when one did. -/
def read (d : SSEDecoder) : List Bytes → List (StreamPart J) × Option SSEDecoder
  | [] => ([], some d)
  | line :: lines =>
    match d.decode loads (rstrip line) with
    | none => ([], none)
    | some (sse, d') => (sse.toList ++ (d'.read lines).1, (d'.read lines).2)

/-- The events of the chunks: the lines of a chunk are decoded before the next chunk
    is asked for, and those of the flush after the last one. -/
def readChunks (lines : BytesLineDecoder) (d : SSEDecoder) :
    List Bytes → List (StreamPart J) × Option SSEDecoder
  | [] => d.read loads lines.flush
  | chunk :: chunks =>
    match d.read loads (lines.decode chunk).1 with
    | (parts, none) => (parts, none)
    | (parts, some d') =>
      (parts ++ (readChunks (lines.decode chunk).2 d' chunks).1,
        (readChunks (lines.decode chunk).2 d' chunks).2)

variable {loads}

theorem read_append (d : SSEDecoder) (y : List Bytes) : ∀ x : List Bytes,
    d.read loads (x ++ y) =
      match d.read loads x with
      | (parts, none) => (parts, none)
      | (parts, some d') => (parts ++ (d'.read loads y).1, (d'.read loads y).2)
  | [] => rfl
  | line :: x => by
    rw [List.cons_append]
    simp only [read]
    split
    · rfl
    · rename_i sse d' _
      rw [read_append d' y x]
      cases h : d'.read loads x with
      | mk parts d'' =>
        cases d'' with
        | none => rfl
        | some d'' => exact Prod.ext (List.append_assoc _ _ _).symm rfl

/-- Decoding chunk by chunk is decoding all their lines. -/
theorem readChunks_lines : ∀ (lines : BytesLineDecoder) (d : SSEDecoder) (chunks : List Bytes),
    readChunks loads lines d chunks =
      d.read loads ((lines.decodeAll chunks).1 ++ (lines.decodeAll chunks).2.flush)
  | _, _, [] => rfl
  | lines, d, chunk :: chunks => by
    show _ = d.read loads (((lines.decode chunk).1 ++
      ((lines.decode chunk).2.decodeAll chunks).1) ++ _)
    rw [List.append_assoc, read_append]
    simp only [readChunks]
    cases h : d.read loads (lines.decode chunk).1 with
    | mk parts d' =>
      cases d' with
      | none => rfl
      | some d' =>
        simp only [readChunks_lines (lines.decode chunk).2 d' chunks]
        rfl

end SSEDecoder

/-- However a string is cut into chunks, the lines are those of `bytes.splitlines` on
    the whole of it, and the events those of these lines. -/
theorem chunks_decode (loads : Bytes → Option (Option J)) (chunks : List Bytes) :
    linesRaw chunks = splitlines chunks.flatten ∧
      SSEDecoder.readChunks loads .init .init chunks =
        SSEDecoder.init.read loads (splitlines chunks.flatten) := by
  have hlines := linesRaw_eq chunks
  refine ⟨hlines, ?_⟩
  rw [SSEDecoder.readChunks_lines, ← hlines]
  rfl

end LangGraph.Sdk
