import LangGraph.Stream.MessagesHandler

/- How often a message of a node's output is sent. A message is the same as
   another when they are one object or have one id; the ids given on the way are
   new, so what is the same before a callback is the same after it. `seen` holds
   the id of everything sent, hence nothing is sent twice; what goes wrong is that
   the handler looks elsewhere than where messages are, in `found` and `mark`. -/
namespace LangGraph.StreamMessages

namespace NodeValue

/-- The values of a list of pairs `(key, value)`, the other form of an update. -/
def pairValues (xs : List NodeValue) : Option (List NodeValue) :=
  xs.mapM fun
    | tuple [str _, v] => some v
    | _ => none

theorem exists_of_mapM {f : NodeValue → Option NodeValue} {xs vs : List NodeValue}
    (h : xs.mapM f = some vs) {x : NodeValue} (hx : x ∈ xs) : ∃ v, f x = some v := by
  induction xs generalizing vs with
  | nil => cases hx
  | cons y xs ih =>
    rw [List.mapM_cons] at h
    obtain ⟨v, hv, h⟩ := Option.bind_eq_some_iff.mp h
    obtain ⟨ws, hws, _⟩ := Option.bind_eq_some_iff.mp h
    cases List.mem_cons.mp hx with
    | inl e => exact ⟨v, e ▸ hv⟩
    | inr hx => exact ih hws hx

/-- The messages of the update of a command. -/
def updateMessages (update : NodeValue) : List Nat :=
  match update.items.bind pairValues with
  | some vs => vs.flatMap fieldMessages
  | none => update.found

/-- The handler comes across no message in a list of pairs. -/
theorem found_of_pairs {update : NodeValue} {vs : List NodeValue}
    (h : update.items.bind pairValues = some vs) : update.found = [] := by
  obtain ⟨xs, hxs, hvs⟩ := Option.bind_eq_some_iff.mp h
  have hfound : update.found = messagesIn xs := by
    cases update with
    | message r => cases hxs
    | _ => simp only [found, hxs]
  rw [hfound, messagesIn, List.filterMap_eq_nil_iff]
  intro x hx
  obtain ⟨v, hv⟩ := exists_of_mapM hvs hx
  cases x with
  | message r => cases hv
  | _ => rfl

/-- The messages of a node's output. -/
def outputMessages : NodeValue → List Nat
  | command u => u.updateMessages
  | v =>
    match v.items with
    | some xs =>
      if xs.any isCommand then
        xs.flatMap fun
          | command u => u.updateMessages
          | x => x.found
      else v.found
    | none => v.found

/-- The messages of a node's input. -/
def inputMessages (inputs : NodeValue) : List Nat := inputs.found

end NodeValue

namespace World

/- ── The same message ──────────────────────────────────────────────────────── -/

def same (w : World) (r r' : Nat) : Bool :=
  r == r' || ((w.ids.get? r).isSome && w.ids.get? r == w.ids.get? r')

/-- The id of the message is in `seen`. -/
def HasSeen (w : World) (r : Nat) : Prop := ∃ id, w.ids.get? r = some id ∧ id ∈ w.handler.seen

/-- The message has been sent, as a whole or in parts. -/
def Streamed (w : World) (r : Nat) : Prop := ∃ c ∈ w.stream, w.ids.get? r = some c.id

section

variable {w : World} {r r' r'' : Nat}

theorem same_iff :
    w.same r r' = true ↔ r = r' ∨ ∃ id, w.ids.get? r = some id ∧ w.ids.get? r' = some id := by
  rw [same, Bool.or_eq_true, beq_iff_eq, Bool.and_eq_true, beq_iff_eq, Option.isSome_iff_exists]
  apply or_congr_right
  constructor
  · intro ⟨⟨id, h⟩, he⟩
    exact ⟨id, h, he ▸ h⟩
  · intro ⟨id, h, h'⟩
    exact ⟨⟨id, h⟩, h.trans h'.symm⟩

theorem same_refl : w.same r r = true := same_iff.mpr (.inl rfl)

theorem same_symm (h : w.same r r' = true) : w.same r' r = true := by
  cases same_iff.mp h with
  | inl e => exact e ▸ same_refl
  | inr h =>
    obtain ⟨id, hr, hr'⟩ := h
    exact same_iff.mpr (.inr ⟨id, hr', hr⟩)

theorem same_trans (h : w.same r r' = true) (h' : w.same r' r'' = true) :
    w.same r r'' = true := by
  cases same_iff.mp h with
  | inl e => exact e ▸ h'
  | inr h =>
    obtain ⟨id, hr, hr'⟩ := h
    cases same_iff.mp h' with
    | inl e => exact same_iff.mpr (.inr ⟨id, hr, e ▸ hr'⟩)
    | inr h' =>
      obtain ⟨id', hs, hs'⟩ := h'
      rw [hr'] at hs
      cases hs
      exact same_iff.mpr (.inr ⟨id, hr, hs'⟩)

theorem HasSeen.of_same (hs : w.HasSeen r) (h : w.same r r' = true) : w.HasSeen r' := by
  cases same_iff.mp h with
  | inl e => exact e ▸ hs
  | inr h =>
    obtain ⟨id, hr, hr'⟩ := h
    obtain ⟨id', hid, hmem⟩ := hs
    rw [hr] at hid
    cases hid
    exact ⟨id, hr', hmem⟩

end

/- ── A list of messages, sent once each ────────────────────────────────────── -/

/-- The id the message is sent under: its own, or a new one. -/
def idFor (u : Uuid4) (w : World) (r : Nat) : String := (w.ids.get? r).getD (u.draw w.ids)

/-- The message sent under its id. -/
def sendAs (u : Uuid4) (runMeta : Meta) (w : World) (r : Nat) : World :=
  { w with ids := w.ids.set r (idFor u w r) }.send runMeta r (idFor u w r)

/-- `_emit` with `dedupe`: the message is sent unless its id has been seen. -/
theorem emit_true (u : Uuid4) (runMeta : Meta) (w : World) (r : Nat) :
    w.HasSeen r ∧ emit u runMeta true w r = w ∨
      ¬ w.HasSeen r ∧ emit u runMeta true w r = sendAs u runMeta w r := by
  cases hr : w.ids.get? r with
  | none =>
    right
    constructor
    · intro ⟨id, hid, _⟩
      rw [hr] at hid
      cases hid
    · simp only [emit, sendAs, idFor, hr, Option.getD_none]
  | some id =>
    by_cases hs : id ∈ w.handler.seen
    · left
      refine ⟨⟨id, hr, hs⟩, ?_⟩
      simp only [emit, hr, List.contains_iff_mem.mpr hs, Bool.and_self, if_true]
    · right
      constructor
      · intro ⟨id', hid, hmem⟩
        rw [hr] at hid
        cases hid
        exact hs hmem
      · have hc : w.handler.seen.contains id = false := by
          rw [Bool.eq_false_iff, ne_eq, List.contains_iff_mem]
          exact hs
        simp only [emit, sendAs, idFor, hr, hc, Bool.and_false, Bool.false_eq_true, if_false,
          Option.getD_some, OrdDict.set_get? hr]

/-- One of the messages `ms` is this one, and it has not been seen. -/
def Wanted (w : World) (ms : List Nat) (r : Nat) : Prop :=
  (∃ m ∈ ms, w.same r m = true) ∧ ¬ w.HasSeen r

/-- What sending the messages `ms` from `w₀` has come to in `w`: the chunks `out`. -/
structure Sent (w₀ : World) (ms : List Nat) (w : World) (out : List Chunk) : Prop where
  stream : w.stream = w₀.stream ++ out
  unseen : ∀ c ∈ out, ¬ w₀.HasSeen c.message
  once : ∀ r, w₀.Wanted ms r → (out.map Chunk.message).countP (w₀.same r) = 1
  never : ∀ r, ¬ w₀.Wanted ms r → (out.map Chunk.message).countP (w₀.same r) = 0
  seen : ∀ r, w.HasSeen r ↔ w₀.HasSeen r ∨ ∃ m ∈ ms, w₀.same r m = true
  kept : ∀ r id, w₀.ids.get? r = some id → w.ids.get? r = some id
  unset : ∀ r, w₀.ids.get? r = none → r ∉ ms → w.ids.get? r = none

theorem Sent.nil (w : World) : Sent w [] w [] where
  stream := (List.append_nil _).symm
  unseen := by simp
  once _ h := by
    obtain ⟨⟨m, hm, _⟩, _⟩ := h
    cases hm
  never _ _ := rfl
  seen := by simp
  kept _ _ := id
  unset _ h _ := h

theorem exists_same_append {w : World} {ms : List Nat} {r m : Nat} :
    (∃ m' ∈ ms ++ [m], w.same r m' = true) ↔
      (∃ m' ∈ ms, w.same r m' = true) ∨ w.same r m = true := by
  constructor
  · intro ⟨m', hm, hs⟩
    cases List.mem_append.mp hm with
    | inl h => exact .inl ⟨m', h, hs⟩
    | inr h => exact .inr (List.mem_singleton.mp h ▸ hs)
  · intro h
    cases h with
    | inl h =>
      obtain ⟨m', hm, hs⟩ := h
      exact ⟨m', List.mem_append_left _ hm, hs⟩
    | inr h => exact ⟨m, List.mem_append_right _ List.mem_cons_self, h⟩

/-- A message that has been seen in the meantime changes nothing. -/
theorem Sent.skip {w₀ w : World} {ms : List Nat} {out : List Chunk} (h : Sent w₀ ms w out)
    {m : Nat} (hm : w.HasSeen m) : Sent w₀ (ms ++ [m]) w out := by
  -- what is the same as `m` has been seen before, or is the same as one of `ms`
  have hsame : ∀ r, w₀.same r m = true → w₀.HasSeen r ∨ ∃ m' ∈ ms, w₀.same r m' = true := by
    intro r hr
    cases (h.seen m).mp hm with
    | inl hs => exact .inl (hs.of_same (same_symm hr))
    | inr he =>
      obtain ⟨m', hm', hs⟩ := he
      exact .inr ⟨m', hm', same_trans hr hs⟩
  have hwanted : ∀ r, w₀.Wanted (ms ++ [m]) r ↔ w₀.Wanted ms r := by
    intro r
    unfold Wanted
    rw [exists_same_append]
    constructor
    · intro ⟨he, hn⟩
      refine ⟨?_, hn⟩
      cases he with
      | inl he => exact he
      | inr hr => exact (hsame r hr).resolve_left hn
    · intro ⟨he, hn⟩
      exact ⟨.inl he, hn⟩
  refine ⟨h.stream, h.unseen, ?_, ?_, ?_, h.kept, ?_⟩
  · exact fun r hr => h.once r ((hwanted r).mp hr)
  · exact fun r hr => h.never r fun hw => hr ((hwanted r).mpr hw)
  · intro r
    rw [h.seen, exists_same_append]
    constructor
    · exact fun hr => hr.imp_right .inl
    · intro hr
      cases hr with
      | inl hs => exact .inl hs
      | inr hr =>
        cases hr with
        | inl he => exact .inr he
        | inr hr => exact hsame r hr
  · exact fun r hr hn => h.unset r hr fun hmem => hn (List.mem_append_left _ hmem)

theorem idFor_of_some {u : Uuid4} {w : World} {r : Nat} {id : String}
    (h : w.ids.get? r = some id) : idFor u w r = id := by
  rw [idFor, h, Option.getD_some]

/-- The id a message is sent under is, where it is not seen yet, the id only of
    what was the same message at first. -/
theorem Sent.same_of_id {u : Uuid4} {w₀ w : World} {ms : List Nat} {out : List Chunk}
    (h : Sent w₀ ms w out) {m r : Nat}
    (hr : w.ids.get? r = some (idFor u w m)) (hns : idFor u w m ∉ w.handler.seen) :
    w₀.same r m = true := by
  -- an id that is not in `seen` is one the message had at first
  have hfirst : ∀ r, w.ids.get? r = some (idFor u w m) → w₀.ids.get? r = some (idFor u w m) := by
    intro r hr
    cases h₀ : w₀.ids.get? r with
    | some id =>
      have := h.kept r id h₀
      rw [hr] at this
      exact this.symm
    | none =>
      by_cases hmem : r ∈ ms
      · obtain ⟨id, hid, hs⟩ := (h.seen r).mpr (.inr ⟨r, hmem, same_refl⟩)
        rw [hr] at hid
        cases hid
        exact absurd hs hns
      · rw [h.unset r h₀ hmem] at hr
        cases hr
  cases hid : w.ids.get? m with
  | none =>
    rw [idFor, hid, Option.getD_none] at hr
    exact absurd hr (u.fresh w.ids r)
  | some id =>
    have hm' : w.ids.get? m = some (idFor u w m) := by rw [idFor_of_some hid, hid]
    exact same_iff.mpr (.inr ⟨_, hfirst r hr, hfirst m hm'⟩)

theorem Sent.send {u : Uuid4} {runMeta : Meta} {w₀ w : World} {ms : List Nat}
    {out : List Chunk} (h : Sent w₀ ms w out) {m : Nat} (hm : ¬ w.HasSeen m) :
    Sent w₀ (ms ++ [m]) (sendAs u runMeta w m)
      (out ++ [⟨runMeta.ns, m, idFor u w m, runMeta.metadata⟩]) := by
  have hm₀ : ¬ w₀.HasSeen m := fun hs => hm ((h.seen m).mpr (.inl hs))
  have hself : (w.ids.set m (idFor u w m)).get? m = some (idFor u w m) :=
    OrdDict.get?_set_self ..
  have hother : ∀ r, r ≠ m → (w.ids.set m (idFor u w m)).get? r = w.ids.get? r :=
    fun r hr => OrdDict.get?_set_of_ne hr _ _
  have hcount : ∀ r, ((out ++ [(⟨runMeta.ns, m, idFor u w m, runMeta.metadata⟩ : Chunk)]).map
      Chunk.message).countP (w₀.same r) =
      (out.map Chunk.message).countP (w₀.same r) + if w₀.same r m = true then 1 else 0 := by
    intro r
    rw [List.map_append, List.countP_append]
    simp only [List.map_cons, List.map_nil, List.countP_singleton]
  -- of what is the same as `m`, nothing has been sent
  have hnone : ∀ r, w₀.same r m = true → ¬ w₀.Wanted ms r := by
    intro r hr hw
    obtain ⟨m', hm', hs⟩ := hw.1
    exact hm ((h.seen m).mpr (.inr ⟨m', hm', same_trans (same_symm hr) hs⟩))
  refine ⟨?_, ?_, ?_, ?_, ?_, ?_, ?_⟩
  · show w.stream ++ [_] = _
    rw [h.stream, List.append_assoc]
  · intro c hc
    cases List.mem_append.mp hc with
    | inl hc => exact h.unseen c hc
    | inr hc =>
      cases List.mem_singleton.mp hc
      exact hm₀
  · intro r hw
    rw [hcount]
    by_cases hr : w₀.same r m = true
    · rw [h.never r (hnone r hr), if_pos hr]
    · rw [if_neg hr]
      exact h.once r ⟨(exists_same_append.mp hw.1).resolve_right hr, hw.2⟩
  · intro r hw
    rw [hcount]
    have hr : ¬ w₀.same r m = true := by
      intro hr
      exact hw ⟨exists_same_append.mpr (.inr hr), fun hs => hm₀ (hs.of_same hr)⟩
    rw [if_neg hr]
    exact h.never r fun hw' => hw ⟨exists_same_append.mpr (.inl hw'.1), hw'.2⟩
  · intro r
    rw [exists_same_append, ← or_assoc, ← h.seen]
    constructor
    · intro ⟨id, hid, hmem⟩
      by_cases hr : r = m
      · exact .inr (hr ▸ same_refl)
      · have hid' : w.ids.get? r = some id := (hother r hr).symm.trans hid
        by_cases hs : id ∈ w.handler.seen
        · exact .inl ⟨id, hid', hs⟩
        · have he : id = idFor u w m := (List.mem_cons.mp hmem).resolve_right hs
          exact .inr (h.same_of_id (he ▸ hid') (he ▸ hs))
    · intro hr
      cases hr with
      | inl hs =>
        obtain ⟨id, hid, hmem⟩ := hs
        have hne : r ≠ m := by
          intro e
          exact hm (e ▸ ⟨id, hid, hmem⟩)
        exact ⟨id, (hother r hne).trans hid, List.mem_cons_of_mem _ hmem⟩
      | inr hs =>
        refine ⟨idFor u w m, ?_, List.mem_cons_self⟩
        by_cases hr : r = m
        · exact hr ▸ hself
        · obtain ⟨id, hr₀, hm₀⟩ := (same_iff.mp hs).resolve_left hr
          refine (hother r hr).trans ?_
          rw [h.kept r id hr₀, idFor_of_some (h.kept m id hm₀)]
  · intro r id hid
    by_cases hr : r = m
    · rw [hr] at hid
      have he : idFor u w m = id := idFor_of_some (h.kept m id hid)
      rw [hr]
      exact hself.trans (congrArg some he)
    · exact (hother r hr).trans (h.kept r id hid)
  · intro r hr hn
    have hne : r ≠ m := by
      intro e
      exact hn (e ▸ List.mem_append_right _ List.mem_cons_self)
    exact (hother r hne).trans (h.unset r hr fun hmem => hn (List.mem_append_left _ hmem))

/-- The messages are sent once each, but for those seen before. -/
theorem sent_findAndEmitMessages (u : Uuid4) (w₀ : World) (runMeta : Meta) (ms : List Nat) :
    ∃ out, Sent w₀ ms (findAndEmitMessages u w₀ runMeta ms) out := by
  induction ms using List.reverseRecOn with
  | nil => exact ⟨[], Sent.nil w₀⟩
  | append_singleton ms m ih =>
    obtain ⟨out, h⟩ := ih
    have hstep : findAndEmitMessages u w₀ runMeta (ms ++ [m]) =
        emit u runMeta true (findAndEmitMessages u w₀ runMeta ms) m := by
      rw [findAndEmitMessages, List.foldl_append]
      rfl
    rw [hstep]
    cases emit_true u runMeta (findAndEmitMessages u w₀ runMeta ms) m with
    | inl hs =>
      rw [hs.2]
      exact ⟨out, h.skip hs.1⟩
    | inr hs =>
      rw [hs.2]
      exact ⟨_, h.send hs.1⟩

/- ── What a callback is to send ────────────────────────────────────────────── -/

/-- The message was in the input of the node. -/
def InInput (w : World) (n : NodeRun) (r : Nat) : Prop :=
  ∃ r' ∈ n.inputs.inputMessages, w.same r' r = true

/-- The message is new to the node and to the stream. -/
def New (w : World) (n : NodeRun) (r : Nat) : Prop := ¬ w.InInput n r ∧ ¬ w.Streamed r

/-- `n` is an open run of the node in which the model runs. -/
def ModelOf (w : World) (run : Nat) (n : NodeRun) : Prop :=
  ∃ r runMeta, w.nodes.get? r = some n ∧ w.handler.metadata.get? run = some runMeta ∧
    n.metadata.langgraphCheckpointNs = runMeta.metadata.langgraphCheckpointNs

/-- The messages sent from `w` to `w'`. -/
def sentTo (w w' : World) : List Nat := (w'.stream.drop w.stream.length).map Chunk.message

/-- The end of a node sends each new message of its output once and no other; the
    end of a model sends nothing again and nothing of its node's input. -/
def Once (w w' : World) : Event → Prop
  | .chainEnd run response =>
    (∀ m ∈ w.sentTo w', ¬ w.Streamed m) ∧
      ∀ n, w.nodes.get? run = some n → ∀ m ∈ response.outputMessages,
        (w.New n m → (w.sentTo w').countP (w.same m) = 1) ∧
        (¬ w.New n m → (w.sentTo w').countP (w.same m) = 0)
  | .llmEnd run _ =>
    ∀ m ∈ w.sentTo w', ¬ w.Streamed m ∧ ∀ n, w.ModelOf run n → ¬ w.InInput n m
  | _ => True

/-- The handler has recorded the run. -/
def Recorded (w : World) (run : Nat) : Prop := (w.handler.metadata.get? run).isSome

/-- The handler comes across the message in the response. -/
def Finds (w : World) (response : NodeValue) (m : Nat) : Prop :=
  ∃ m' ∈ response.searched, w.same m m' = true

/-- The handler looks where the messages are: a new message is found, in a run
    that is recorded, and has not been marked; one of the input that is found has
    been marked. -/
def LooksRight (w : World) : Event → Prop
  | .chainEnd run response =>
    ∀ n, w.nodes.get? run = some n → ∀ m ∈ response.outputMessages,
      (w.New n m → w.Recorded run ∧ w.Finds response m ∧ ¬ w.HasSeen m) ∧
      (w.InInput n m → w.Recorded run → w.Finds response m → w.HasSeen m)
  | .llmEnd run (some m) => ∀ n, w.ModelOf run n → w.InInput n m → w.HasSeen m
  | _ => True

/-- Everything sent has been seen. -/
def Inv (w : World) : Prop := ∀ c ∈ w.stream, c.id ∈ w.handler.seen

theorem Inv.hasSeen {w : World} (h : w.Inv) {m : Nat} (hs : w.Streamed m) : w.HasSeen m := by
  obtain ⟨c, hc, hid⟩ := hs
  exact ⟨c.id, hid, h c hc⟩

theorem Inv.send {w : World} (h : w.Inv) (runMeta : Meta) (m : Nat) (id : String) :
    (w.send runMeta m id).Inv := by
  intro c hc
  cases List.mem_append.mp hc with
  | inl hc => exact List.mem_cons_of_mem _ (h c hc)
  | inr hc =>
    cases List.mem_singleton.mp hc
    exact List.mem_cons_self

theorem Inv.emit {w : World} (h : w.Inv) (u : Uuid4) (runMeta : Meta) (dedupe : Bool) (m : Nat) :
    (World.emit u runMeta dedupe w m).Inv := by
  unfold World.emit
  split
  · split
    · exact h
    · exact Inv.send h runMeta m _
  · exact Inv.send (w := ⟨w.handler, _, w.stream, w.nodes⟩) h runMeta m _

theorem Inv.mark {w : World} (h : w.Inv) (m : Nat) : (w.mark m).Inv := by
  unfold World.mark
  split
  · exact fun c hc => List.mem_cons_of_mem _ (h c hc)
  · exact h

theorem Inv.onChatModelStart {w : World} (h : w.Inv) (run : Nat) (tags : List String)
    (metadata : Option RunMetadata) : (w.onChatModelStart run tags metadata).Inv := by
  cases metadata with
  | none => exact h
  | some metadata =>
    simp only [World.onChatModelStart]
    split
    · exact h
    · split
      · exact h
      · exact h

theorem Inv.onLlmNewToken {w : World} (h : w.Inv) (u : Uuid4) (run : Nat)
    (chunk : Option Nat) : (World.onLlmNewToken u w run chunk).Inv := by
  unfold World.onLlmNewToken
  split
  · split
    · exact Inv.emit h u _ false _
    · exact h
  · exact h

theorem Inv.onLlmEnd {w : World} (h : w.Inv) (u : Uuid4) (run : Nat)
    (message : Option Nat) : (World.onLlmEnd u w run message).Inv := by
  simp only [World.onLlmEnd]
  split
  · exact Inv.emit h u _ true _
  · exact h

theorem Inv.openNode {w : World} (h : w.Inv) (run : Nat) (name : String) (inputs : NodeValue)
    (tags : List String) (metadata : Option RunMetadata) :
    (w.openNode run name inputs tags metadata).Inv := by
  unfold World.openNode
  split
  · split
    · exact h
    · exact h
  · exact h

theorem Inv.onChainStart {w : World} (h : w.Inv) (run : Nat) (name : String)
    (inputs : NodeValue) (tags : List String) (metadata : Option RunMetadata) :
    (w.onChainStart run name inputs tags metadata).Inv := by
  cases metadata with
  | none => exact h
  | some metadata =>
    simp only [World.onChainStart]
    split
    · split
      · exact h
      · apply Machine.foldl_invariant (I := Inv)
        · exact h
        · exact fun _ m hw => hw.mark m
    · exact h

theorem Inv.onChainEnd {w : World} (h : w.Inv) (u : Uuid4) (run : Nat)
    (response : NodeValue) : (World.onChainEnd u w run response).Inv := by
  unfold World.onChainEnd
  split
  · apply Machine.foldl_invariant (I := Inv)
    · exact h
    · exact fun _ m hw => Inv.emit hw u _ true m
  · exact h

theorem Inv.assign {w : World} (h : w.Inv) (message : Nat) (id : String) :
    (w.assign message id).Inv := by
  unfold World.assign
  split
  · exact h
  · exact h

theorem Inv.step (u : Uuid4) {w : World} (h : w.Inv) (e : Event) : (World.step u w e).Inv := by
  cases e with
  | chatModelStart run tags metadata => exact h.onChatModelStart run tags metadata
  | llmNewToken run chunk => exact h.onLlmNewToken u run chunk
  | llmEnd run message => exact h.onLlmEnd u run message
  | llmError run => exact h
  | chainStart run name inputs tags metadata =>
    exact (h.openNode run name inputs tags metadata).onChainStart run name inputs tags metadata
  | chainEnd run response => exact h.onChainEnd u run response
  | chainError run => exact h
  | assign message id => exact h.assign message id

theorem sentTo_of_stream {w w' : World} (out : List Chunk) (h : w'.stream = w.stream ++ out) :
    w.sentTo w' = out.map Chunk.message := by
  rw [sentTo, h, List.drop_left]

/-- What the end of a run sends: once each message that is found and has not been
    seen, when the run is recorded. -/
theorem sentTo_chainEnd (u : Uuid4) (w : World) (run : Nat) (response : NodeValue) :
    (∀ m ∈ w.sentTo (step u w (.chainEnd run response)), ¬ w.HasSeen m) ∧
      ∀ r, (w.Recorded run ∧ w.Finds response r ∧ ¬ w.HasSeen r →
          (w.sentTo (step u w (.chainEnd run response))).countP (w.same r) = 1) ∧
        (¬ (w.Recorded run ∧ w.Finds response r ∧ ¬ w.HasSeen r) →
          (w.sentTo (step u w (.chainEnd run response))).countP (w.same r) = 0) := by
  cases hm : w.handler.metadata.get? run with
  | none =>
    have hsent : w.sentTo (step u w (.chainEnd run response)) = [] := by
      apply sentTo_of_stream []
      simp only [step, onChainEnd, hm, closeNode, List.append_nil]
    have hrec : ¬ w.Recorded run := by simp [Recorded, hm]
    rw [hsent]
    exact ⟨by simp, fun r => ⟨fun h => absurd h.1 hrec, fun _ => rfl⟩⟩
  | some runMeta =>
    obtain ⟨out, h⟩ := sent_findAndEmitMessages u (w.forget run) runMeta response.searched
    have hsent : w.sentTo (step u w (.chainEnd run response)) = out.map Chunk.message := by
      apply sentTo_of_stream out
      simp only [step, onChainEnd, hm, closeNode]
      exact h.stream
    have hrec : w.Recorded run := by simp [Recorded, hm]
    rw [hsent]
    constructor
    · intro m hmem
      obtain ⟨c, hc, rfl⟩ := List.mem_map.mp hmem
      exact h.unseen c hc
    · intro r
      exact ⟨fun hr => h.once r hr.2, fun hr => h.never r fun hw => hr ⟨hrec, hw⟩⟩

theorem sentTo_llmEnd (u : Uuid4) (w : World) (run : Nat) (message : Option Nat) :
    ∀ m, m ∈ w.sentTo (step u w (.llmEnd run message)) ↔
      message = some m ∧ w.Recorded run ∧ ¬ w.HasSeen m := by
  intro m
  cases hm : w.handler.metadata.get? run with
  | none =>
    have hsent : w.sentTo (step u w (.llmEnd run message)) = [] := by
      apply sentTo_of_stream []
      simp only [step, onLlmEnd, hm, forget, List.append_nil]
    rw [hsent]
    simp [Recorded, hm]
  | some runMeta =>
    cases message with
    | none =>
      have hsent : w.sentTo (step u w (.llmEnd run none)) = [] := by
        apply sentTo_of_stream []
        simp only [step, onLlmEnd, hm, forget, List.append_nil]
      rw [hsent]
      simp
    | some m' =>
      have hstream : (step u w (.llmEnd run (some m'))).stream =
          (emit u runMeta true w m').stream := by
        simp only [step, onLlmEnd, hm, forget]
      cases emit_true u runMeta w m' with
      | inl hs =>
        have hsent : w.sentTo (step u w (.llmEnd run (some m'))) = [] := by
          apply sentTo_of_stream []
          rw [hstream, hs.2, List.append_nil]
        rw [hsent]
        constructor
        · intro h
          cases h
        · intro ⟨he, _, hn⟩
          cases he
          exact absurd hs.1 hn
      | inr hs =>
        have hsent : w.sentTo (step u w (.llmEnd run (some m'))) = [m'] := by
          apply sentTo_of_stream [⟨runMeta.ns, m', idFor u w m', runMeta.metadata⟩]
          rw [hstream, hs.2]
          rfl
        rw [hsent, List.mem_singleton]
        constructor
        · intro he
          cases he
          exact ⟨rfl, by simp [Recorded, hm], hs.1⟩
        · intro ⟨he, _⟩
          exact (Option.some.inj he).symm

theorem metadata_foldl_mark (ms : List Nat) (w : World) :
    (ms.foldl mark w).handler.metadata = w.handler.metadata := by
  induction ms generalizing w with
  | nil => rfl
  | cons m ms ih =>
    have hm : (w.mark m).handler.metadata = w.handler.metadata := by
      unfold mark
      split
      · rfl
      · rfl
    rw [List.foldl_cons, ih, hm]

theorem handler_openNode (w : World) (run : Nat) (name : String) (inputs : NodeValue)
    (tags : List String) (metadata : Option RunMetadata) :
    (w.openNode run name inputs tags metadata).handler = w.handler := by
  unfold openNode
  split
  · split
    · rfl
    · rfl
  · rfl

/-- The start of a node is recorded with `subgraphs` or in the outermost graph:
    not in the graph the handler was created in, whose messages it streams. -/
theorem recorded_chainStart {u : Uuid4} {w : World} {run : Nat} {name : String}
    {inputs : NodeValue} {tags : List String} {metadata : RunMetadata}
    (hname : name = metadata.langgraphNode) (htags : TAG_HIDDEN ∉ tags)
    (hrun : ¬ w.Recorded run) :
    (step u w (.chainStart run name inputs tags (some metadata))).Recorded run ↔
      w.handler.subgraphs = true ∨ namespaceOf metadata.langgraphCheckpointNs = [] := by
  unfold Recorded at hrun ⊢
  simp only [step, onChainStart, hname, htags, not_false_eq_true, and_self, if_true,
    handler_openNode]
  by_cases hs : w.handler.subgraphs = true ∨ namespaceOf metadata.langgraphCheckpointNs = []
  · have hc : ¬ (!w.handler.subgraphs &&
        !(namespaceOf metadata.langgraphCheckpointNs).isEmpty) = true := by
      intro hc
      rw [Bool.and_eq_true, Bool.not_eq_true', Bool.not_eq_true'] at hc
      cases hs with
      | inl h => rw [h] at hc; cases hc.1
      | inr h => rw [h] at hc; cases hc.2
    rw [if_neg hc, metadata_foldl_mark, record, OrdDict.get?_set_self]
    simp [hs]
  · have hc : (!w.handler.subgraphs &&
        !(namespaceOf metadata.langgraphCheckpointNs).isEmpty) = true := by
      simpa [not_or] using hs
    rw [if_pos hc, handler_openNode]
    exact iff_of_false hrun hs

/- ── Every callback of a run ───────────────────────────────────────────────── -/

theorem once_chainEnd_iff (u : Uuid4) {w : World} (h : w.Inv) (run : Nat) (response : NodeValue) :
    w.Once (step u w (.chainEnd run response)) (.chainEnd run response) ↔
      w.LooksRight (.chainEnd run response) := by
  obtain ⟨hunseen, hcount⟩ := sentTo_chainEnd u w run response
  constructor
  · intro ⟨_, hsend⟩ n hn m hm
    obtain ⟨hnew, hold⟩ := hsend n hn m hm
    obtain ⟨_, hzero⟩ := hcount m
    constructor
    · intro hw
      by_contra hnot
      have h1 := hnew hw
      rw [hzero hnot] at h1
      cases h1
    · intro hin hrec hfind
      by_contra hseen
      have h0 := hold fun hw => hw.1 hin
      rw [(hcount m).1 ⟨hrec, hfind, hseen⟩] at h0
      cases h0
  · intro hlook
    refine ⟨fun m hm hs => hunseen m hm (h.hasSeen hs), ?_⟩
    intro n hn m hm
    obtain ⟨hnew, hold⟩ := hlook n hn m hm
    constructor
    · intro hw
      exact (hcount m).1 (hnew hw)
    · intro hw
      apply (hcount m).2
      intro ⟨hrec, hfind, hseen⟩
      apply hw
      exact ⟨fun hin => hseen (hold hin hrec hfind), fun hs => hseen (h.hasSeen hs)⟩

theorem once_llmEnd_iff (u : Uuid4) {w : World} (h : w.Inv) (run : Nat) (message : Option Nat) :
    w.Once (step u w (.llmEnd run message)) (.llmEnd run message) ↔
      w.LooksRight (.llmEnd run message) := by
  have hsent := sentTo_llmEnd u w run message
  constructor
  · intro hsend
    cases message with
    | none => trivial
    | some m =>
      intro n hn hin
      by_contra hseen
      have hrec : w.Recorded run := by
        obtain ⟨_, runMeta, _, hm, _⟩ := hn
        simp [Recorded, hm]
      exact (hsend m ((hsent m).mpr ⟨rfl, hrec, hseen⟩)).2 n hn hin
  · intro hlook m hm
    obtain ⟨he, _, hseen⟩ := (hsent m).mp hm
    cases he
    exact ⟨fun hs => hseen (h.hasSeen hs), fun n hn hin => hseen (hlook n hn hin)⟩

theorem once_iff (u : Uuid4) {w : World} (h : w.Inv) (e : Event) :
    w.Once (step u w e) e ↔ w.LooksRight e := by
  cases e with
  | chainEnd run response => exact once_chainEnd_iff u h run response
  | llmEnd run message => exact once_llmEnd_iff u h run message
  | _ => exact Iff.rfl

/-- The world after the callbacks, from a new handler. -/
def after (u : Uuid4) (subgraphs : Bool) (parentNs : Option (List String))
    (ids : OrdDict Nat String) (es : List Event) : World :=
  es.foldl (step u) (start subgraphs parentNs ids)

theorem inv_after (u : Uuid4) (subgraphs : Bool) (parentNs : Option (List String))
    (ids : OrdDict Nat String) (es : List Event) : (after u subgraphs parentNs ids es).Inv := by
  apply Machine.foldl_invariant (I := Inv)
  · intro _ hc
    cases hc
  · exact fun _ e hw => hw.step u e

/-- In a run of callbacks every message of a node's output is sent as it should
    be exactly when at every callback the handler looks where the messages are. -/
theorem sentOnce_iff (u : Uuid4) (subgraphs : Bool) (parentNs : Option (List String))
    (ids : OrdDict Nat String) (es : List Event) :
    (∀ pre e, pre ++ [e] <+: es →
      (after u subgraphs parentNs ids pre).Once (after u subgraphs parentNs ids (pre ++ [e])) e) ↔
    ∀ pre e, pre ++ [e] <+: es → (after u subgraphs parentNs ids pre).LooksRight e := by
  apply forall_congr'
  intro pre
  apply forall_congr'
  intro e
  apply imp_congr_right
  intro _
  have hstep : after u subgraphs parentNs ids (pre ++ [e]) =
      step u (after u subgraphs parentNs ids pre) e := by
    rw [after, List.foldl_append]
    rfl
  rw [hstep]
  exact once_iff u (inv_after u subgraphs parentNs ids pre) e

/-- An id longer than every id there is. -/
def longId (ids : OrdDict Nat String) : String := ids.values.foldr (· ++ ·) "id"

theorem length_lt_longId {l : List String} {s : String} (h : s ∈ l) :
    s.length < (l.foldr (· ++ ·) "id").length := by
  induction l with
  | nil => cases h
  | cons t l ih =>
    rw [List.foldr_cons, String.length_append]
    cases List.mem_cons.mp h with
    | inl e =>
      have hpos : 0 < (l.foldr (· ++ ·) "id").length := by
        clear ih h
        induction l with
        | nil => decide
        | cons t l ih =>
          rw [List.foldr_cons, String.length_append]
          omega
      rw [e]
      omega
    | inr h =>
      have := ih h
      omega

def uuid4 : Uuid4 where
  draw := longId
  fresh ids r h := by
    have hmem : longId ids ∈ ids.values :=
      List.mem_map.mpr ⟨_, OrdDict.get?_eq_some_iff.mp h, rfl⟩
    exact absurd (length_lt_longId hmem) (Nat.lt_irrefl _)

/-- A command that updates by a list of pairs: its message is never sent. -/
theorem not_sentOnce :
    ¬ ∀ (u : Uuid4) (subgraphs : Bool) (parentNs : Option (List String))
      (ids : OrdDict Nat String) (es pre : List Event) (e : Event), pre ++ [e] <+: es →
      (after u subgraphs parentNs ids pre).Once
        (after u subgraphs parentNs ids (pre ++ [e])) e := by
  intro h
  let node : Event := .chainStart 0 "n" (.state []) [] (some ⟨"n", "n:1", none⟩)
  let done : Event := .chainEnd 0 (.command (.list [.tuple [.str "messages", .message 7]]))
  have honce := (h uuid4 false none ∅ [node, done] [node] done (List.prefix_refl _)).2
  have hnode : (after uuid4 false none ∅ [node]).nodes.get? 0 =
      some ⟨[], ⟨"n", "n:1", none⟩, .state []⟩ := by rfl
  have hcount := (honce _ hnode 7 (List.mem_singleton.mpr rfl)).1
  have hnew : (after uuid4 false none ∅ [node]).New ⟨[], ⟨"n", "n:1", none⟩, .state []⟩ 7 := by
    constructor
    · intro ⟨r', hr, _⟩
      cases hr
    · intro ⟨c, hc, _⟩
      cases hc
  have hsent : (after uuid4 false none ∅ [node]).sentTo
      (after uuid4 false none ∅ ([node] ++ [done])) = [] := by rfl
  have hone := hcount hnew
  rw [hsent] at hone
  exact absurd hone Nat.zero_ne_one

end World
end LangGraph.StreamMessages
