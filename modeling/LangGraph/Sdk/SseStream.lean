import LangGraph.Sdk.SseDecoder
import Mathlib.Data.List.TakeWhile

/- A stream of server-sent events that is taken up again where it broke off.

   Correspondence (source ↔ Lean):
     `HttpClient.stream` (langgraph_sdk/_async/http.py)  ↔ `stream`
     the `async with self.client.stream(...)` block      ↔ `receive`
     `if sse.event or sse.data is not None`              ↔ `visible`
     `last_event_id = decoder.last_event_id`             ↔ `note`
     `self.client.stream`, the checks of the response    ↔ the parameter `connect`
   `stream_exactly_once`: what is yielded, however often the connection breaks. -/
namespace LangGraph.Sdk

open Lines

variable {J : Type}

/- ── The client ────────────────────────────────────────────────────────────── -/

/-- What a request was answered with: the chunks of the body that arrived, whether the
    transport failed after them, and the `location` header. -/
structure Connection where
  chunks : List Bytes
  failed : Bool
  location : Option String

inductive Ending where
  | finished
  | dropped
  | raised
  deriving DecidableEq

/-- A part that has an event name or data is yielded, any other is skipped. -/
def visible (sse : StreamPart J) : Bool := sse.event ≠ "" ∨ sse.data.isSome

/-- The id that a reconnect asks for, after the parts: `decoder.last_event_id` is the
    id of the part it has just returned. -/
def note (last : Option String) (parts : List (StreamPart J)) : Option String :=
  parts.foldl (fun last sse => sse.id.or last) last

/-- The parts of a response, and how it ended. -/
def receive (loads : Bytes → Option (Option J)) (c : Connection) :
    List (StreamPart J) × Ending :=
  if c.failed then
    -- the lines of the chunks, without the flush
    match SSEDecoder.init.read loads (BytesLineDecoder.init.decodeAll c.chunks).1 with
    | (parts, none) => (parts, .raised)
    | (parts, some _) => (parts, .dropped)
  else
    match SSEDecoder.readChunks loads .init .init c.chunks with
    | (parts, none) => (parts, .raised)
    | (parts, some d) =>
      match d.decode loads [] with
      | none => (parts, .raised)
      | some (sse, _) => (parts ++ sse.toList, .finished)

/-- `connect` answers a request by its number, the reconnect path and the header
    `Last-Event-ID`; none raises before a line is read. `left` counts the reconnects
    that remain. The flag says that the loop ended without raising. -/
def stream (loads : Bytes → Option (Option J))
    (connect : Nat → Option String → Option String → Option Connection) :
    Nat → Nat → Option String → Option String → List (StreamPart J) × Bool
  | left, k, path, last =>
    match connect k path last with
    | none => ([], false)
    | some c =>
      -- an empty header is no location
      let path := (c.location.filter (· ≠ "")).or path
      match receive loads c with
      | (parts, .raised) => (parts.filter visible, false)
      | (parts, .finished) => (parts.filter visible, true)
      | (parts, .dropped) =>
        if path = none then (parts.filter visible, false)
        else
          match left with
          | 0 => (parts.filter visible, false)
          | left + 1 =>
            let (more, returned) := stream loads connect left (k + 1) path (note last parts)
            (parts.filter visible ++ more, returned)

def maxReconnectAttempts : Nat := 5

/- ── The server ────────────────────────────────────────────────────────────── -/

/-- The values of the lines that hold the field. -/
def values (name : Bytes) (lines : List Bytes) : List Bytes :=
  lines.filterMap fun line => if (field line).1 = name then some (field line).2 else none

/-- The text of the last value. -/
def lastText (vs : List Bytes) : Option String := vs.getLast?.bind utf8

/-- The lines of an event: the last name and id count, the data is joined. -/
structure Block (loads : Bytes → Option (Option J)) (lines : List Bytes) (e : StreamPart J) :
    Prop where
  nonblank : [] ∉ lines
  names : ∀ v ∈ values EVENT lines, (utf8 v).isSome
  ids : ∀ v ∈ values ID lines, 0 ∉ v ∧ (utf8 v).isSome
  event : e.event = (lastText (values EVENT lines)).getD ""
  data : (if (values DATA lines).flatten = [] then some none
    else loads (values DATA lines).flatten) = some e.data
  id : e.id = lastText (values ID lines)

/-- The lines of a body that holds the events: each is ended by a blank line, and
    blank lines and comments may stand between them. -/
inductive Encodes (loads : Bytes → Option (Option J)) :
    List (StreamPart J) → List Bytes → Prop where
  | nil : Encodes loads [] []
  | blank {E ls} : Encodes loads E ls → Encodes loads E ([] :: ls)
  | comment {E ls} (text : Bytes) :
      Encodes loads E ls → Encodes loads E ((COLON :: text) :: ls)
  | event {e E block ls} : Block loads block e → Encodes loads E ls →
      Encodes loads (e :: E) (block ++ [] :: ls)

/-- The events right after the one with the id, all of them when there is no id. -/
def after (log : List (StreamPart J)) : Option String → List (StreamPart J)
  | none => log
  | some i => (log.dropWhile (fun e => e.id ≠ some i)).tail

/-- Every event carries an id, and no two the same. -/
structure Numbered (log : List (StreamPart J)) : Prop where
  carries : ∀ e ∈ log, ∃ i, e.id = some i ∧ i ≠ ""
  distinct : (log.map (·.id)).Nodup

/-- Each body holds the events after the id that was asked for; a failing transport
    cuts it off at some byte. -/
def Serves (loads : Bytes → Option (Option J)) (log : List (StreamPart J))
    (connect : Nat → Option String → Option String → Option Connection) : Prop :=
  ∀ k path last c, connect k path last = some c →
    ∃ text, Encodes loads (after log last) (splitlines text) ∧
      c.chunks.flatten <+: text ∧ (c.failed = false → c.chunks.flatten = text)

/- ── Reading a part of a body ──────────────────────────────────────────────── -/

theorem values_append (name : Bytes) (x y : List Bytes) :
    values name (x ++ y) = values name x ++ values name y := List.filterMap_append

theorem values_singleton (name line : Bytes) :
    values name [line] = if (field line).1 = name then [(field line).2] else [] := by
  by_cases h : (field line).1 = name
  · simp [values, h]
  · simp [values, h]

theorem values_subset {name : Bytes} {x y : List Bytes} (h : x ⊆ y) :
    values name x ⊆ values name y := by
  intro v hv
  obtain ⟨line, hline, hval⟩ := List.mem_filterMap.mp hv
  exact List.mem_filterMap.mpr ⟨line, h hline, hval⟩

theorem lastText_append {vs : List Bytes} (us : List Bytes) (hvs : ∀ v ∈ vs, (utf8 v).isSome)
    (default : String) :
    (lastText (us ++ vs)).getD default = (lastText vs).getD ((lastText us).getD default) := by
  unfold lastText
  rw [List.getLast?_append]
  cases h : vs.getLast? with
  | none => rfl
  | some v =>
    obtain ⟨t, ht⟩ := Option.isSome_iff_exists.mp (hvs v (List.mem_of_getLast? h))
    simp [ht]

theorem rstrip_of_not_mem {line : Bytes} (h : LF ∉ line) : SSEDecoder.rstrip line = line := by
  have hlast : line.reverse.dropWhile (· = LF) = line.reverse := by
    apply List.dropWhile_eq_self_iff.mpr
    intro hl heq
    have hmem : line.reverse[0] ∈ line := List.mem_reverse.mp (List.getElem_mem hl)
    rw [of_decide_eq_true heq] at hmem
    exact h hmem
  rw [SSEDecoder.rstrip, hlast, List.reverse_reverse]

/-- The decoder after the lines of an event, or some of them. -/
def fieldsRead (d : SSEDecoder) (lines : List Bytes) (retry : Option Int) : SSEDecoder :=
  ⟨(lastText (values EVENT lines)).getD d.event, d.data ++ (values DATA lines).flatten,
    (lastText (values ID lines)).getD d.lastEventId, retry⟩

theorem fieldsRead_append (d : SSEDecoder) (x : List Bytes) {y : List Bytes} (r r' : Option Int)
    (hnames : ∀ v ∈ values EVENT y, (utf8 v).isSome)
    (hids : ∀ v ∈ values ID y, (utf8 v).isSome) :
    fieldsRead (fieldsRead d x r) y r' = fieldsRead d (x ++ y) r' := by
  simp only [fieldsRead, values_append, lastText_append _ hnames, lastText_append _ hids,
    List.flatten_append, List.append_assoc]

/-- A line that is not blank is read into the decoder. -/
theorem decode_field (loads : Bytes → Option (Option J)) {line : Bytes} (d : SSEDecoder)
    (hne : line ≠ []) (hnames : ∀ v ∈ values EVENT [line], (utf8 v).isSome)
    (hids : ∀ v ∈ values ID [line], 0 ∉ v ∧ (utf8 v).isSome) :
    ∃ retry, d.decode loads line = some (none, fieldsRead d [line] retry) := by
  have hdec : d.decode loads line = if line.head? = some COLON then some (none, d) else
      if (field line).1 = EVENT then (utf8 (field line).2).map fun name => (none, { d with event := name })
      else if (field line).1 = DATA then some (none, { d with data := d.data ++ (field line).2 })
      else if (field line).1 = ID then
        if 0 ∈ (field line).2 then some (none, d)
        else (utf8 (field line).2).map fun i => (none, { d with lastEventId := i })
      else if (field line).1 = RETRY then
        some (none, { d with retry := (parseInt (field line).2).or d.retry })
      else some (none, d) := if_neg hne
  have hED : EVENT ≠ DATA := by decide
  have hEI : EVENT ≠ ID := by decide
  have hDI : DATA ≠ ID := by decide
  -- a line of no field that counts leaves the rest as it is
  have hskip : ∀ retry, (field line).1 ≠ EVENT → (field line).1 ≠ DATA → (field line).1 ≠ ID →
      fieldsRead d [line] retry = { d with retry := retry } := by
    intro retry hE hD hI
    simp only [fieldsRead, values_singleton, if_neg hE, if_neg hD, if_neg hI]
    simp [lastText]
  rw [hdec]
  by_cases hc : line.head? = some COLON
  · have hname : (field line).1 = [] := by
      obtain ⟨rest, rfl⟩ := List.head?_eq_some_iff.mp hc
      rfl
    refine ⟨d.retry, ?_⟩
    rw [if_pos hc, hskip d.retry (hname ▸ by decide) (hname ▸ by decide) (hname ▸ by decide)]
  rw [if_neg hc]
  rw [values_singleton] at hnames hids
  by_cases hE : (field line).1 = EVENT
  · rw [if_pos hE] at hnames
    obtain ⟨name, hname⟩ := Option.isSome_iff_exists.mp
      (hnames (field line).2 List.mem_cons_self)
    refine ⟨d.retry, ?_⟩
    rw [if_pos hE, hname]
    simp only [fieldsRead, values_singleton, if_pos hE, if_neg (hE ▸ hED), if_neg (hE ▸ hEI)]
    simp [lastText, hname]
  by_cases hD : (field line).1 = DATA
  · refine ⟨d.retry, ?_⟩
    rw [if_neg hE, if_pos hD]
    simp only [fieldsRead, values_singleton, if_neg hE, if_pos hD, if_neg (hD ▸ hDI)]
    simp [lastText]
  by_cases hI : (field line).1 = ID
  · rw [if_pos hI] at hids
    obtain ⟨hzero, hsome⟩ := hids (field line).2 List.mem_cons_self
    obtain ⟨i, hi⟩ := Option.isSome_iff_exists.mp hsome
    refine ⟨d.retry, ?_⟩
    rw [if_neg hE, if_neg hD, if_pos hI, if_neg hzero, hi]
    simp only [fieldsRead, values_singleton, if_neg hE, if_neg hD, if_pos hI]
    simp [lastText, hi]
  rw [if_neg hE, if_neg hD, if_neg hI]
  by_cases hR : (field line).1 = RETRY
  · exact ⟨_, by rw [if_pos hR, hskip _ hE hD hI]⟩
  · exact ⟨d.retry, by rw [if_neg hR, hskip d.retry hE hD hI]⟩

/-- The lines of an event, or the first of them, are read into the decoder. -/
theorem read_fields (loads : Bytes → Option (Option J)) : ∀ (lines : List Bytes) (d : SSEDecoder),
    [] ∉ lines → (∀ l ∈ lines, LF ∉ l) →
    (∀ v ∈ values EVENT lines, (utf8 v).isSome) →
    (∀ v ∈ values ID lines, 0 ∉ v ∧ (utf8 v).isSome) →
    ∃ retry, d.read loads lines = ([], some (fieldsRead d lines retry))
  | [], d, _, _, _, _ => ⟨d.retry, by simp [SSEDecoder.read, fieldsRead, values, lastText]⟩
  | line :: lines, d, hblank, hlf, hnames, hids => by
    have hcons : line :: lines = [line] ++ lines := rfl
    rw [hcons, values_append] at hnames hids
    have hnames' := fun v h => hnames v (List.mem_append_right _ h)
    have hids' := fun v h => hids v (List.mem_append_right _ h)
    obtain ⟨r, hdecode⟩ := decode_field loads d (fun h => hblank (h ▸ List.mem_cons_self))
      (fun v h => hnames v (List.mem_append_left _ h)) (fun v h => hids v (List.mem_append_left _ h))
    obtain ⟨r', hread⟩ := read_fields loads lines (fieldsRead d [line] r)
      (fun h => hblank (List.mem_cons_of_mem _ h)) (fun l h => hlf l (List.mem_cons_of_mem _ h))
      hnames' hids'
    refine ⟨r', ?_⟩
    simp only [SSEDecoder.read, rstrip_of_not_mem (hlf line List.mem_cons_self), hdecode, hread]
    rw [fieldsRead_append d [line] r r' hnames' fun v h => (hids' v h).2]
    rfl

/-- The decoder between two events. -/
def between (lastEventId : String) : SSEDecoder := ⟨"", [], lastEventId, none⟩

theorem rstrip_nil : SSEDecoder.rstrip [] = [] := rfl

/-- A blank line between events yields nothing, and changes nothing. -/
theorem decode_blank (loads : Bytes → Option (Option J)) (i : String) :
    ∃ sse : Option (StreamPart J), (between i).decode loads [] = some (sse, between i) ∧
      sse.toList.filter visible = [] ∧
      ∀ last, i = "" ∨ last = some i → note last sse.toList = last := by
  by_cases hi : i = ""
  · refine ⟨none, ?_, rfl, fun _ _ => rfl⟩
    rw [hi]
    rfl
  · refine ⟨some ⟨"", none, some i⟩, ?_, rfl, ?_⟩
    · simp [between, SSEDecoder.decode, SSEDecoder.last_event_id, hi]
    · intro last h
      exact (h.resolve_left hi).symm

theorem note_append (last : Option String) (x y : List (StreamPart J)) :
    note last (x ++ y) = note (note last x) y := List.foldl_append

/-- What reading the first lines of a body gives: the first of its events, and the
    decoder between two of them when these are all the lines. -/
structure Part (E : List (StreamPart J)) (i : String) (whole : Prop)
    (parts : List (StreamPart J)) (d : SSEDecoder) (E₁ : List (StreamPart J)) : Prop where
  before : E₁ <+: E
  yields : parts.filter visible = E₁.filter visible
  notes : ∀ last, i = "" ∨ last = some i →
    note last parts = (E₁.getLast?.bind (·.id)).or last
  ends : whole → E₁ = E ∧ ∃ j, d = between j

/-- The lines of an event, with the blank line after them. -/
theorem Block.read {loads : Bytes → Option (Option J)} {block : List Bytes} {e : StreamPart J}
    (h : Block loads block e) (hlf : ∀ l ∈ block, LF ∉ l) (i : String) {j : String}
    (hj : e.id = some j) (hne : j ≠ "") :
    (between i).read loads (block ++ [[]]) = ([e], some (between j)) := by
  obtain ⟨r, hr⟩ := read_fields loads block (between i) h.nonblank hlf h.names h.ids
  have hid : (lastText (values ID block)).getD i = j := by
    rw [← h.id, hj]
    rfl
  have hblank : (⟨e.event, (values DATA block).flatten, j, r⟩ : SSEDecoder).decode loads [] =
      some (some e, between j) := by
    unfold SSEDecoder.decode
    rw [if_pos rfl, if_neg (fun hall => hne hall.2.2.1), h.data]
    simp only [SSEDecoder.last_event_id, if_neg hne, ← hj]
    rfl
  rw [SSEDecoder.read_append, hr]
  simp only [fieldsRead, between, List.nil_append] at hid ⊢
  rw [← h.event, hid]
  simp only [SSEDecoder.read, rstrip_nil, hblank]
  rfl

theorem Encodes.read {loads : Bytes → Option (Option J)} {E : List (StreamPart J)}
    {ls : List Bytes} (h : Encodes loads E ls)
    (hids : ∀ e ∈ E, ∃ i, e.id = some i ∧ i ≠ "") (hlf : ∀ l ∈ ls, LF ∉ l) :
    ∀ {p : List Bytes}, p <+: ls → ∀ i : String, ∃ parts d E₁,
      (between i).read loads p = (parts, some d) ∧ Part E i (p = ls) parts d E₁ := by
  have hstop : ∀ {E : List (StreamPart J)} {ls : List Bytes} (i : String), ls ≠ [] →
      Part E i ([] = ls) [] (between i) [] := fun i hls =>
    ⟨List.nil_prefix, rfl, fun _ _ => rfl, fun heq => absurd heq.symm hls⟩
  induction h with
  | nil =>
    intro p hp i
    rw [List.prefix_nil.mp hp]
    exact ⟨[], between i, [], rfl, List.nil_prefix, rfl, fun _ _ => rfl,
      fun _ => ⟨rfl, i, rfl⟩⟩
  | @blank E ls _ ih =>
    intro p hp i
    cases p with
    | nil => exact ⟨[], between i, [], rfl, hstop i (List.cons_ne_nil _ _)⟩
    | cons l p =>
      obtain ⟨rfl, hp'⟩ := List.cons_prefix_cons.mp hp
      obtain ⟨sse, hsse, hvis, hnote⟩ := decode_blank loads i
      obtain ⟨parts, d, E₁, hread, hpart⟩ :=
        ih hids (fun l hl => hlf l (List.mem_cons_of_mem _ hl)) hp' i
      refine ⟨sse.toList ++ parts, d, E₁, ?_, hpart.before, ?_, ?_, ?_⟩
      · simp only [SSEDecoder.read, rstrip_nil, hsse, hread]
      · rw [List.filter_append, hvis, List.nil_append, hpart.yields]
      · intro last hlast
        rw [note_append, hnote last hlast, hpart.notes last hlast]
      · intro heq
        exact hpart.ends (List.cons.inj heq).2
  | @comment E ls text _ ih =>
    intro p hp i
    cases p with
    | nil => exact ⟨[], between i, [], rfl, hstop i (List.cons_ne_nil _ _)⟩
    | cons l p =>
      obtain ⟨rfl, hp'⟩ := List.cons_prefix_cons.mp hp
      obtain ⟨parts, d, E₁, hread, hpart⟩ :=
        ih hids (fun l hl => hlf l (List.mem_cons_of_mem _ hl)) hp' i
      refine ⟨parts, d, E₁, ?_, hpart.before, hpart.yields, hpart.notes, ?_⟩
      · have hstrip := rstrip_of_not_mem (hlf (COLON :: text) List.mem_cons_self)
        simp only [SSEDecoder.read, hstrip, SSEDecoder.decode, List.cons_ne_nil, if_false,
          List.head?_cons, if_true, hread]
        rfl
      · intro heq
        exact hpart.ends (List.cons.inj heq).2
  | @event e E block ls hblock _ ih =>
    intro p hp i
    obtain ⟨j, hj, hne⟩ := hids e List.mem_cons_self
    have hlfblock : ∀ l ∈ block, LF ∉ l := fun l hl => hlf l (List.mem_append_left _ hl)
    by_cases hin : p <+: block
    · -- the event is not ended yet
      have hsub := hin.subset
      obtain ⟨r, hr⟩ := read_fields loads p (between i)
        (fun hmem => hblock.nonblank (hsub hmem)) (fun l hl => hlfblock l (hsub hl))
        (fun v hv => hblock.names v (values_subset hsub hv))
        (fun v hv => hblock.ids v (values_subset hsub hv))
      refine ⟨[], _, [], hr, List.nil_prefix, rfl, fun _ _ => rfl, ?_⟩
      intro heq
      have hlen := hin.length_le
      rw [heq, List.length_append, List.length_cons] at hlen
      omega
    · obtain ⟨q, rfl⟩ := (List.prefix_or_prefix_of_prefix hp
        (List.prefix_append block ([] :: ls))).resolve_left hin
      have hq := (List.prefix_append_right_inj block).mp hp
      cases q with
      | nil => exact absurd ((List.append_nil block).symm ▸ List.prefix_rfl) hin
      | cons l q =>
        obtain ⟨rfl, hq'⟩ := List.cons_prefix_cons.mp hq
        obtain ⟨parts, d, E₁, hread, hpart⟩ := ih
          (fun e' he => hids e' (List.mem_cons_of_mem _ he))
          (fun l hl => hlf l (List.mem_append_right _ (List.mem_cons_of_mem _ hl))) hq' j
        refine ⟨e :: parts, d, e :: E₁, ?_, ?_, ?_, ?_, ?_⟩
        · have hsplit : block ++ [] :: q = (block ++ [[]]) ++ q := by simp
          rw [hsplit, SSEDecoder.read_append, hblock.read hlfblock i hj hne]
          simp only [hread]
          rfl
        · exact List.cons_prefix_cons.mpr ⟨rfl, hpart.before⟩
        · rw [List.filter_cons, List.filter_cons, hpart.yields]
        · intro last _
          have hnext : note last (e :: parts) = note (some j) parts := by
            show note (e.id.or last) parts = _
            rw [hj, Option.some_or]
          rw [hnext, hpart.notes (some j) (.inr rfl), List.getLast?_cons]
          cases hlast : E₁.getLast? with
          | none => simp [hj]
          | some e' =>
            obtain ⟨j', hj', _⟩ := hids e'
              (List.mem_cons_of_mem _ (hpart.before.subset (List.mem_of_getLast? hlast)))
            simp [hj']
        · intro heq
          obtain ⟨hE, hd⟩ := hpart.ends (List.cons.inj (List.append_cancel_left heq)).2
          exact ⟨by rw [hE], hd⟩

/- ── Responses and reconnects ──────────────────────────────────────────────── -/

theorem prefix_of_held (text : Bytes) : BytesLineDecoder.held text <+: text :=
  ⟨BytesLineDecoder.heldCr text, BytesLineDecoder.held_append_heldCr text⟩

/-- The lines of the chunks that arrived are the first lines of the body. -/
theorem prefix_of_decodeAll {chunks : List Bytes} {text : Bytes} (h : chunks.flatten <+: text) :
    (BytesLineDecoder.init.decodeAll chunks).1 <+: splitlines text := by
  rw [(BytesLineDecoder.init.decodeAll_eq chunks).1]
  have hcrs : BytesLineDecoder.init.crs ++ chunks.flatten = chunks.flatten := rfl
  rw [hcrs]
  obtain ⟨rest, hrest⟩ := (prefix_of_held chunks.flatten).trans h
  rw [splitlines, ← hrest, scan_append, List.append_assoc]
  exact List.prefix_append _ _

/-- A response yields the first of the events of its body, all of them when it is not
    cut off, and it does not raise. -/
theorem receive_encoded {loads : Bytes → Option (Option J)} {E : List (StreamPart J)}
    {c : Connection} {text : Bytes} (hE : Encodes loads E (splitlines text))
    (hids : ∀ e ∈ E, ∃ i, e.id = some i ∧ i ≠ "") (hstart : c.chunks.flatten <+: text)
    (hwhole : c.failed = false → c.chunks.flatten = text) :
    ∃ parts E₁, E₁ <+: E ∧ parts.filter visible = E₁.filter visible ∧
      (receive loads c = (parts, .finished) ∧ E₁ = E ∨
        receive loads c = (parts, .dropped) ∧
          ∀ last, note last parts = (E₁.getLast?.bind (·.id)).or last) := by
  have hlf : ∀ l ∈ splitlines text, LF ∉ l := fun l hl => not_mem_splitlines hl
  unfold receive
  by_cases hfailed : c.failed = true
  · obtain ⟨parts, d, E₁, hread, hpart⟩ :=
      hE.read hids hlf (prefix_of_decodeAll hstart) ""
    refine ⟨parts, E₁, hpart.before, hpart.yields, .inr ⟨?_, fun last => hpart.notes last (.inl rfl)⟩⟩
    rw [if_pos hfailed]
    show (match SSEDecoder.read loads (between "") _ with
      | (parts, none) => (parts, Ending.raised)
      | (parts, some _) => (parts, Ending.dropped)) = _
    rw [hread]
  · obtain ⟨parts, d, E₁, hread, hpart⟩ := hE.read hids hlf List.prefix_rfl ""
    obtain ⟨hall, j, hd⟩ := hpart.ends rfl
    obtain ⟨sse, hsse, hvis, _⟩ := decode_blank loads j
    refine ⟨parts ++ sse.toList, E₁, hpart.before, ?_, .inl ⟨?_, hall⟩⟩
    · rw [List.filter_append, hvis, List.append_nil, hpart.yields]
    · rw [if_neg hfailed, (chunks_decode loads c.chunks).2,
        hwhole (Bool.eq_false_iff.mpr hfailed)]
      show (match SSEDecoder.read loads (between "") _ with
        | (parts, none) => (parts, Ending.raised)
        | (parts, some d) =>
          match d.decode loads [] with
          | none => (parts, Ending.raised)
          | some (sse, _) => (parts ++ sse.toList, Ending.finished)) = _
      rw [hread, hd]
      simp only [hsse]

/-- Right after the last of the events that were yielded come those that were not. -/
theorem after_yielded {done rest : List (StreamPart J)} (h : Numbered (done ++ rest)) :
    after (done ++ rest) (done.getLast?.bind (·.id)) = rest := by
  by_cases hdone : done = []
  · rw [hdone]
    rfl
  · obtain ⟨e, he⟩ : ∃ e, done = done.dropLast ++ [e] :=
      ⟨done.getLast hdone, (List.dropLast_append_getLast hdone).symm⟩
    rw [he] at h ⊢
    obtain ⟨i, hi, _⟩ := h.carries e (by simp)
    have hbefore : ∀ e' ∈ done.dropLast, e'.id ≠ some i := by
      intro e' he' heq
      have hnodup := h.distinct
      rw [List.append_assoc, List.map_append] at hnodup
      apply (List.nodup_append.mp hnodup).2.2 e'.id (List.mem_map_of_mem he') e.id
        (List.mem_map_of_mem (by simp))
      rw [heq, hi]
    rw [List.getLast?_concat]
    show after _ e.id = rest
    rw [hi, List.append_assoc, after, List.dropWhile_append_of_pos, List.singleton_append,
      List.dropWhile_cons_of_neg]
    · rfl
    · rw [decide_eq_true_eq]
      exact fun hne => hne hi
    · intro e' he'
      exact decide_eq_true (hbefore e' he')

/-- What is yielded is the first part of the events, and all of them on return. -/
def Delivers (rest : List (StreamPart J)) (result : List (StreamPart J) × Bool) : Prop :=
  result.1 <+: rest ∧ (result.2 = true → result.1 = rest)

/-- The id that a reconnect asks for is that of the last event that was yielded. -/
theorem getLast_id_append {done E : List (StreamPart J)}
    (h : ∀ e ∈ E, ∃ i, e.id = some i ∧ i ≠ "") :
    (E.getLast?.bind (·.id)).or (done.getLast?.bind (·.id)) =
      (done ++ E).getLast?.bind (·.id) := by
  rw [List.getLast?_append]
  cases hlast : E.getLast? with
  | none => rfl
  | some e =>
    obtain ⟨i, hi, _⟩ := h e (List.mem_of_getLast? hlast)
    simp [hi]

section

variable {loads : Bytes → Option (Option J)} {log : List (StreamPart J)}
  {connect : Nat → Option String → Option String → Option Connection}

/-- With `left` reconnects to go, the events that were not yielded yet are delivered. -/
def Resumes (loads : Bytes → Option (Option J)) (log : List (StreamPart J))
    (connect : Nat → Option String → Option String → Option Connection) (left : Nat) : Prop :=
  ∀ (k : Nat) (path : Option String) (done rest : List (StreamPart J)), log = done ++ rest →
    Delivers rest (stream loads connect left k path (done.getLast?.bind (·.id)))

/-- One request: what it yields, before those with one reconnect less. -/
theorem stream_step (hserves : Serves loads log connect) (hnum : Numbered log)
    (hvis : ∀ e ∈ log, visible e = true) {left : Nat}
    (hless : ∀ left', left = left' + 1 → Resumes loads log connect left') :
    Resumes loads log connect left := by
  intro k path done rest hlog
  unfold stream
  cases hc : connect k path (done.getLast?.bind (·.id)) with
  | none => exact ⟨List.nil_prefix, fun h => nomatch h⟩
  | some c =>
    obtain ⟨text, hE, hstart, hwhole⟩ := hserves k path _ c hc
    rw [hlog, after_yielded (hlog ▸ hnum)] at hE
    have hids : ∀ e ∈ rest, ∃ i, e.id = some i ∧ i ≠ "" := fun e he =>
      hnum.carries e (hlog ▸ List.mem_append_right _ he)
    obtain ⟨parts, E₁, hbefore, hyields, hending⟩ := receive_encoded hE hids hstart hwhole
    have hall : parts.filter visible = E₁ := by
      rw [hyields]
      apply List.filter_eq_self.mpr
      exact fun e he => hvis e (hlog ▸ List.mem_append_right _ (hbefore.subset he))
    have hsome : Delivers rest (parts.filter visible, false) :=
      ⟨hall.symm ▸ hbefore, fun h => nomatch h⟩
    cases hending with
    | inl hend =>
      simp only [hend.1]
      exact ⟨hall.symm ▸ hbefore, fun _ => hall.trans hend.2⟩
    | inr hend =>
      simp only [hend.1]
      split
      · exact hsome
      · cases left with
        | zero => exact hsome
        | succ left =>
          -- the reconnect goes on after the events of this response
          obtain ⟨rest', rfl⟩ := hbefore
          have hlog' : log = (done ++ E₁) ++ rest' := by rw [hlog, List.append_assoc]
          have hmore := hless left rfl (k + 1) ((c.location.filter (· ≠ "")).or path)
            (done ++ E₁) rest' hlog'
          simp only [hend.2,
            getLast_id_append (fun e he => hids e (List.mem_append_left _ he)), hall]
          exact ⟨(List.prefix_append_right_inj E₁).mpr hmore.1,
            fun h => congrArg (E₁ ++ ·) (hmore.2 h)⟩

theorem stream_resumes (hserves : Serves loads log connect) (hnum : Numbered log)
    (hvis : ∀ e ∈ log, visible e = true) : ∀ left : Nat, Resumes loads log connect left
  | 0 => stream_step hserves hnum hvis fun _ h => nomatch h
  | left + 1 => by
    apply stream_step hserves hnum hvis
    intro left' h
    cases h
    exact stream_resumes hserves hnum hvis left

end

/-- However often the connection breaks, and wherever, the yielded events are the
    first of the log, each once and in order, and the whole log when the loop returns. -/
theorem stream_exactly_once (loads : Bytes → Option (Option J)) (log : List (StreamPart J))
    (connect : Nat → Option String → Option String → Option Connection)
    (hserves : Serves loads log connect) (hnum : Numbered log)
    (hvis : ∀ e ∈ log, e.event ≠ "" ∨ e.data ≠ none) :
    Delivers log (stream loads connect maxReconnectAttempts 0 none none) := by
  apply stream_resumes hserves hnum _ maxReconnectAttempts 0 none [] log rfl
  intro e he
  apply decide_eq_true
  cases hvis e he with
  | inl h => exact .inl h
  | inr h => exact .inr (Option.isSome_iff_ne_none.mpr h)

/-- A drop inside the second event, and a reconnect after the first. -/
theorem stream_exactly_once_drop :
    Delivers [⟨"values", some "{}", some "1"⟩, ⟨"", some "{}", some "2"⟩]
      (stream (fun text => if text = [123, 125] then some (some "{}") else none)
        (fun _ _ last =>
          if last = none then
            -- id: 1, event: values, data: {}, and the start of the next event
            some ⟨[[105, 100, 58, 32, 49, 10, 101, 118, 101, 110, 116, 58, 32, 118],
              [97, 108, 117, 101, 115, 10, 100, 97, 116, 97, 58, 123, 125, 13, 10, 13],
              [10, 105, 100, 58, 32, 50, 10, 100, 97]], true, some "/runs/1/stream"⟩
          else if last = some "1" then
            -- id: 2, data: {}
            some ⟨[[105, 100, 58, 32, 50, 10, 100, 97, 116, 97, 58, 123, 125, 10, 10]],
              false, none⟩
          else none)
        maxReconnectAttempts 0 none none) := by
  have hone : Block (fun text => if text = [123, 125] then some (some "{}") else none)
      [[105, 100, 58, 32, 49], [101, 118, 101, 110, 116, 58, 32, 118, 97, 108, 117, 101, 115],
        [100, 97, 116, 97, 58, 123, 125]] ⟨"values", some "{}", some "1"⟩ :=
    ⟨by decide, by decide, by decide, by decide, by decide, by decide⟩
  have htwo : Block (fun text => if text = [123, 125] then some (some "{}") else none)
      [[105, 100, 58, 32, 50], [100, 97, 116, 97, 58, 123, 125]] ⟨"", some "{}", some "2"⟩ :=
    ⟨by decide, by decide, by decide, by decide, by decide, by decide⟩
  apply stream_exactly_once
  · intro k path last c hc
    beta_reduce at hc
    by_cases hlast : last = none
    · rw [if_pos hlast, Option.some_inj] at hc
      subst hc
      rw [hlast]
      refine ⟨[105, 100, 58, 32, 49, 10, 101, 118, 101, 110, 116, 58, 32, 118,
        97, 108, 117, 101, 115, 10, 100, 97, 116, 97, 58, 123, 125, 13, 10, 13,
        10, 105, 100, 58, 32, 50, 10, 100, 97, 116, 97, 58, 123, 125, 10, 10],
        .event hone (.event htwo .nil), by decide, fun h => nomatch h⟩
    · rw [if_neg hlast] at hc
      by_cases hone' : last = some "1"
      · rw [if_pos hone', Option.some_inj] at hc
        subst hc
        rw [hone']
        refine ⟨[105, 100, 58, 32, 50, 10, 100, 97, 116, 97, 58, 123, 125, 10, 10],
          .event htwo .nil, by decide, fun _ => by decide⟩
      · rw [if_neg hone'] at hc
        exact (nomatch hc)
  · refine ⟨?_, by decide⟩
    intro e he
    cases List.mem_cons.mp he with
    | inl h => exact ⟨"1", by rw [h], by decide⟩
    | inr h => exact ⟨"2", by rw [List.mem_singleton.mp h], by decide⟩
  · decide

/-- An event without a name whose data is null is skipped. -/
theorem not_stream_exactly_once :
    ¬ ∀ (loads : Bytes → Option (Option Unit)) (log : List (StreamPart Unit))
      (connect : Nat → Option String → Option String → Option Connection),
      Serves loads log connect → Numbered log →
        Delivers log (stream loads connect maxReconnectAttempts 0 none none) := by
  intro h
  -- id: 1, data: null
  have hone : Block (fun text => if text = [110, 117, 108, 108] then some none else none)
      [[105, 100, 58, 32, 49], [100, 97, 116, 97, 58, 32, 110, 117, 108, 108]]
      (⟨"", none, some "1"⟩ : StreamPart Unit) :=
    ⟨by decide, by decide, by decide, by decide, by decide, by decide⟩
  have hlost := h (fun text => if text = [110, 117, 108, 108] then some none else none)
    [⟨"", none, some "1"⟩]
    (fun _ _ last =>
      if last = none then
        some ⟨[[105, 100, 58, 32, 49, 10, 100, 97, 116, 97, 58, 32, 110, 117, 108, 108, 10, 10]],
          false, none⟩
      else none)
    (by
      intro k path last c hc
      beta_reduce at hc
      by_cases hlast : last = none
      · rw [if_pos hlast, Option.some_inj] at hc
        subst hc
        rw [hlast]
        exact ⟨[105, 100, 58, 32, 49, 10, 100, 97, 116, 97, 58, 32, 110, 117, 108, 108, 10, 10],
          .event hone .nil, by decide, fun _ => by decide⟩
      · rw [if_neg hlast] at hc
        exact (nomatch hc))
    ⟨fun e he => ⟨"1", by rw [List.mem_singleton.mp he], by decide⟩, by decide⟩
  exact absurd (hlost.2 (by decide)) (by decide)

end LangGraph.Sdk
