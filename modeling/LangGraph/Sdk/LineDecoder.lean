import LangGraph.Lib.Lines

/- The lines of a stream of server-sent events, whose bytes arrive in chunks.

   Correspondence (source ↔ Lean):
     `BytesLineDecoder` (langgraph_sdk/sse.py)  ↔ `BytesLineDecoder`
     `decode`, `flush`                          ↔ `decode` (its end `take`), `flush`
     `iter_lines_raw`, `aiter_lines_raw`        ↔ `linesRaw`
     `bytes.splitlines`                         ↔ `Lines.splitlines`
   `linesRaw_eq`: the lines do not depend on where the string is cut. -/
namespace LangGraph.Sdk

open Lines

structure BytesLineDecoder where
  buffer : Bytes
  trailingCr : Bool
  deriving DecidableEq

namespace BytesLineDecoder

def init : BytesLineDecoder := ⟨[], false⟩

/-- The text with the carriage return that was held back, and whether it ends with
    one that is held back now. -/
def pending (d : BytesLineDecoder) (text : Bytes) : Bytes :=
  if d.trailingCr then CR :: text else text

/-- The end of `decode`: the lines of a text, of which the buffer takes the last one
    when no break ends it. -/
def take (buffer : Bytes) (trailingCr trailingNewline : Bool) (lines : List Bytes) :
    List Bytes × BytesLineDecoder :=
  if lines.length = 1 ∧ trailingNewline = false then
    -- no new line: the input is buffered
    ([], ⟨buffer ++ lines.headD [], trailingCr⟩)
  else
    -- the buffer is the first portion of the first line
    let (lines, buffer) :=
      if buffer ≠ [] then ((buffer ++ lines.headD []) :: lines.tail, []) else (lines, buffer)
    if trailingNewline then (lines, ⟨buffer, trailingCr⟩)
    else (lines.dropLast, ⟨buffer ++ lines.getLastD [], trailingCr⟩)

def decode (d : BytesLineDecoder) (text : Bytes) : List Bytes × BytesLineDecoder :=
  let text := d.pending text
  let trailingCr := decide (text.getLast? = some CR)
  let text := if trailingCr then text.dropLast else text
  if text = [] then ([], ⟨d.buffer, trailingCr⟩)
  else
    let trailingNewline := decide (text.getLast? = some LF ∨ text.getLast? = some CR)
    take d.buffer trailingCr trailingNewline (splitlines text)

def flush (d : BytesLineDecoder) : List Bytes :=
  if d.buffer = [] ∧ d.trailingCr = false then [] else [d.buffer]

/-- The lines of the chunks, and the decoder after them. -/
def decodeAll (d : BytesLineDecoder) : List Bytes → List Bytes × BytesLineDecoder
  | [] => ([], d)
  | chunk :: chunks =>
    let (lines, d') := d.decode chunk
    ((lines ++ (d'.decodeAll chunks).1), (d'.decodeAll chunks).2)

/-- The text without the carriage return at its end. -/
def held (text : Bytes) : Bytes := if text.getLast? = some CR then text.dropLast else text

/-- The carriage return at the end of the text. -/
def heldCr (text : Bytes) : Bytes := if text.getLast? = some CR then [CR] else []

theorem held_append_heldCr (text : Bytes) : held text ++ heldCr text = text := by
  unfold held heldCr
  split
  · rename_i h
    obtain ⟨t, ht⟩ := List.getLast?_eq_some_iff.mp h
    rw [ht, List.dropLast_concat]
  · exact List.append_nil text

/-- The text ends with a break exactly when no line is in progress after it. -/
theorem trailingNewline_iff {text : Bytes} (h : text ≠ []) :
    (text.getLast? = some LF ∨ text.getLast? = some CR) ↔ (scan [] false text).2.1 = [] := by
  rw [← List.dropLast_append_getLast h, scan_eq_nil_iff, List.getLast?_concat,
    Option.some_inj, Option.some_inj]

/-- The scan of the text with the buffer before its first line. -/
theorem scan_buffer (buffer text : Bytes) :
    (scan buffer false text).1 = prepend buffer (scan [] false text).1 ∧
      (scan buffer false text).2.1 =
        if (scan [] false text).1 = [] then buffer ++ (scan [] false text).2.1
        else (scan [] false text).2.1 := by
  have hs := scan_of_line buffer [] text
  rw [List.append_nil] at hs
  exact ⟨hs.2, congrArg Prod.fst hs.1⟩

/-- What the end of `decode` makes of finished lines and a line in progress. -/
theorem take_lines (buffer : Bytes) (cr trailingNewline : Bool) {L : List Bytes} {p : Bytes}
    (htrail : trailingNewline = true ↔ p = []) (hL : p = [] → L ≠ []) :
    take buffer cr trailingNewline (L ++ remainder p) =
      (prepend buffer L, ⟨if L = [] then buffer ++ p else p, cr⟩) := by
  by_cases hp : p = []
  · -- the text ends with a break: every line is finished
    obtain ⟨l, ls, rfl⟩ := List.exists_cons_of_ne_nil (hL hp)
    have ht : trailingNewline = true := htrail.mpr hp
    by_cases hb : buffer = []
    · simp [take, remainder, prepend, ht, hp, hb]
    · simp [take, remainder, prepend, ht, hp, hb]
  · have ht : trailingNewline = false := by
      apply Bool.eq_false_iff.mpr
      exact fun h => hp (htrail.mp h)
    cases L with
    | nil => simp [take, remainder, prepend, ht, hp]
    | cons l ls =>
      -- the last line goes to the buffer, which is empty by then
      have hlen : ¬ ((l :: ls) ++ [p]).length = 1 := by simp
      have hdrop : ∀ l', (l' :: (ls ++ [p])).dropLast = l' :: ls := by
        intro l'
        rw [← List.cons_append]
        exact List.dropLast_concat
      have hlast : ∀ l', (l' :: (ls ++ [p])).getLastD [] = p := by
        intro l'
        rw [← List.cons_append]
        exact List.getLastD_concat
      have hone : l :: ls ≠ [] := List.cons_ne_nil l ls
      rw [take, remainder, if_neg hp, ht, if_neg (fun h => hlen h.1), if_neg hone]
      by_cases hb : buffer = []
      · rw [if_neg (not_not.mpr hb), hb, prepend, List.nil_append]
        show ((l :: (ls ++ [p])).dropLast,
          (⟨[] ++ (l :: (ls ++ [p])).getLastD [], cr⟩ : BytesLineDecoder)) = _
        rw [hdrop, hlast, List.nil_append]
      · rw [if_pos hb, prepend]
        show (((buffer ++ l) :: (ls ++ [p])).dropLast,
          (⟨[] ++ ((buffer ++ l) :: (ls ++ [p])).getLastD [], cr⟩ : BytesLineDecoder)) = _
        rw [hdrop, hlast, List.nil_append]

/-- A call takes the scan on, up to the carriage return it holds back. -/
theorem decode_eq (d : BytesLineDecoder) (text : Bytes) :
    d.decode text =
      ((scan d.buffer false (held (d.pending text))).1,
        ⟨(scan d.buffer false (held (d.pending text))).2.1,
          decide ((d.pending text).getLast? = some CR)⟩) := by
  have hheld : (if decide ((d.pending text).getLast? = some CR) = true then
      (d.pending text).dropLast else d.pending text) = held (d.pending text) := by
    simp only [decide_eq_true_eq, held]
  simp only [decode, hheld]
  generalize decide ((d.pending text).getLast? = some CR) = cr
  generalize held (d.pending text) = t
  by_cases ht : t = []
  · rw [if_pos ht, ht]
    rfl
  rw [if_neg ht]
  obtain ⟨hlines, hline⟩ := scan_buffer d.buffer t
  rw [hlines, hline]
  apply take_lines d.buffer cr
  · rw [decide_eq_true_eq]
    exact trailingNewline_iff ht
  · intro hp hL
    exact ht (eq_nil_of_scan hL hp)

/-- The carriage return that the decoder holds back. -/
def crs (d : BytesLineDecoder) : Bytes := if d.trailingCr then [CR] else []

theorem pending_eq (d : BytesLineDecoder) (text : Bytes) : d.pending text = d.crs ++ text := by
  unfold pending crs
  split
  · rfl
  · rfl

theorem held_append (x : Bytes) {y : Bytes} (hy : y ≠ []) : held (x ++ y) = x ++ held y := by
  unfold held
  rw [List.getLast?_append_of_ne_nil x hy]
  split
  · exact List.dropLast_append_of_ne_nil hy
  · rfl

/-- A carriage return before the text matters only when the text is a line feed. -/
theorem scan_held {line y : Bytes} {cr : Bool} (h : cr = true → ∃ z, y = CR :: z) :
    (scan line cr (held y)).1 = (scan line false (held y)).1 ∧
      (scan line cr (held y)).2.1 = (scan line false (held y)).2.1 := by
  cases cr with
  | false => exact ⟨rfl, rfl⟩
  | true =>
    obtain ⟨z, rfl⟩ := h rfl
    by_cases hz : z = []
    · rw [hz]
      exact ⟨rfl, rfl⟩
    · have hcons : held (CR :: z) = CR :: held z := held_append [CR] hz
      rw [hcons, scan_cr]
      exact ⟨rfl, rfl⟩

/-- What comes in two parts is scanned as one: the second part starts with what
    was held back of the first. -/
theorem scan_held_append (line x z : Bytes) :
    (scan line false (held (x ++ z))).1 =
        (scan line false (held x)).1 ++
          (scan (scan line false (held x)).2.1 false (held (heldCr x ++ z))).1 ∧
      (scan line false (held (x ++ z))).2.1 =
        (scan (scan line false (held x)).2.1 false (held (heldCr x ++ z))).2.1 := by
  have hsplit : held (x ++ z) = held x ++ held (heldCr x ++ z) := by
    by_cases hrest : heldCr x ++ z = []
    · obtain ⟨hx, hz⟩ := List.append_eq_nil_iff.mp hrest
      rw [hx, hz, List.append_nil]
      exact (List.append_nil _).symm
    · rw [← held_append (held x) hrest, ← List.append_assoc, held_append_heldCr]
  have hstart : (scan line false (held x)).2.2 = true → ∃ y, heldCr x ++ z = CR :: y := by
    intro hcr
    refine ⟨z, ?_⟩
    by_cases hx : x.getLast? = some CR
    · rw [heldCr, if_pos hx, List.singleton_append]
    · have hlast := getLast?_of_scan_cr hcr
      rw [held, if_neg hx] at hlast
      exact absurd hlast hx
  obtain ⟨hlines, hline⟩ := scan_held hstart
  rw [hsplit, scan_append, hlines, hline]
  exact ⟨rfl, rfl⟩

/-- The chunks are decoded as their concatenation is, after what was held back. -/
theorem decodeAll_eq : ∀ (d : BytesLineDecoder) (chunks : List Bytes),
    (d.decodeAll chunks).1 = (scan d.buffer false (held (d.crs ++ chunks.flatten))).1 ∧
      (d.decodeAll chunks).2 =
        ⟨(scan d.buffer false (held (d.crs ++ chunks.flatten))).2.1,
          decide ((d.crs ++ chunks.flatten).getLast? = some CR)⟩
  | ⟨buffer, trailingCr⟩, [] => by
    cases trailingCr with
    | false => exact ⟨rfl, rfl⟩
    | true => exact ⟨rfl, rfl⟩
  | d, chunk :: chunks => by
    have ih := decodeAll_eq (d.decode chunk).2 chunks
    have hcrs : (d.decode chunk).2.crs = heldCr (d.crs ++ chunk) := by
      rw [decode_eq, pending_eq, heldCr]
      by_cases hx : (d.crs ++ chunk).getLast? = some CR
      · rw [if_pos hx]
        exact if_pos (decide_eq_true hx)
      · rw [if_neg hx]
        exact if_neg fun h => hx (of_decide_eq_true h)
    have hlast : (heldCr (d.crs ++ chunk) ++ chunks.flatten).getLast? = some CR ↔
        (d.crs ++ chunk ++ chunks.flatten).getLast? = some CR := by
      by_cases hrest : heldCr (d.crs ++ chunk) ++ chunks.flatten = []
      · obtain ⟨hx, hz⟩ := List.append_eq_nil_iff.mp hrest
        rw [hx, hz, List.append_nil, List.append_nil]
        have hno : ¬ (d.crs ++ chunk).getLast? = some CR := by
          intro h
          rw [heldCr, if_pos h] at hx
          exact (nomatch hx)
        exact iff_of_false (fun h => nomatch h) hno
      · rw [← held_append_heldCr (d.crs ++ chunk), List.append_assoc,
          List.getLast?_append_of_ne_nil _ hrest, held_append_heldCr]
    obtain ⟨hlines, hline⟩ := scan_held_append d.buffer (d.crs ++ chunk) chunks.flatten
    rw [List.flatten_cons, ← List.append_assoc, hlines, hline]
    rw [hcrs, decode_eq, pending_eq] at ih
    show ((d.decode chunk).1 ++ ((d.decode chunk).2.decodeAll chunks).1 = _) ∧
      ((d.decode chunk).2.decodeAll chunks).2 = _
    rw [decode_eq, pending_eq, ih.1, ih.2]
    refine ⟨rfl, ?_⟩
    rw [decide_eq_decide.mpr hlast]

end BytesLineDecoder

/-- `iter_lines_raw`: the lines of the chunks, then those of the flush. -/
def linesRaw (chunks : List Bytes) : List Bytes :=
  (BytesLineDecoder.init.decodeAll chunks).1 ++ (BytesLineDecoder.init.decodeAll chunks).2.flush

/-- The lines of the chunks are those of the string they make up. -/
theorem linesRaw_eq (chunks : List Bytes) : linesRaw chunks = splitlines chunks.flatten := by
  obtain ⟨hlines, hlast⟩ := BytesLineDecoder.init.decodeAll_eq chunks
  have hcrs : BytesLineDecoder.init.crs ++ chunks.flatten = chunks.flatten := rfl
  rw [hcrs] at hlines hlast
  rw [linesRaw, hlines, hlast]
  generalize chunks.flatten = text
  by_cases hcr : text.getLast? = some CR
  · -- the carriage return that is held back ends the last line
    have htext : text = BytesLineDecoder.held text ++ [CR] := by
      conv => lhs; rw [← BytesLineDecoder.held_append_heldCr text]
      rw [BytesLineDecoder.heldCr, if_pos hcr]
    have hflush : ∀ line : Bytes,
        BytesLineDecoder.flush ⟨line, decide (text.getLast? = some CR)⟩ = [line] := by
      intro line
      rw [BytesLineDecoder.flush, if_neg]
      exact fun h => of_decide_eq_false h.2 hcr
    rw [hflush]
    conv => rhs; rw [htext, splitlines, scan_append, scan_cr]
    exact (List.append_nil _).symm
  · have hheld : BytesLineDecoder.held text = text := if_neg hcr
    rw [hheld, splitlines, remainder, BytesLineDecoder.flush, decide_eq_false hcr]
    simp [BytesLineDecoder.init]

end LangGraph.Sdk
