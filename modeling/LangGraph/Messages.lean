import Mathlib.Data.List.Induction
import Mathlib.Data.List.ReduceOption
import LangGraph.Lib.Indexed
import LangGraph.PyVal

/- The reducers of message lists in `graph/message.py`.

   Correspondence (source ↔ Lean):
     a `BaseMessage`, a `RemoveMessage`             ↔ `Message`
     one write of a `DeltaChannel` of messages      ↔ `MessagesWrite`
     the loop of `_messages_delta_reducer`          ↔ `DeltaMerge.step`
     `_messages_delta_reducer`                      ↔ `messagesDeltaReducer`
     the loops that assign missing ids              ↔ `assignIds`
     `right[remove_all_idx + 1:]`                   ↔ `afterRemoveAll`
     the loop of `add_messages`                     ↔ `Merge.step`
     `add_messages`, with `format=None`             ↔ `addMessages`
   The arguments are lists of messages, as after `convert_to_messages`; what a
   message says besides its id is any type, and `uuid` gives the ids that
   `uuid4` makes. Both loops keep an index of the ids beside a list
   (`Indexed`). `messagesDeltaReducer_eq`: the tombstones of the first one do not
   show, so it is a fold over plain lists; `Merged.fold`: what the second one
   leaves is decided by the last right message of each id. -/
namespace LangGraph

/-- `REMOVE_ALL_MESSAGES` -/
def Const.REMOVE_ALL_MESSAGES := "__remove_all__"

inductive Message (α : Type) where
  | message (id : Option String) (content : α)
  | removeMessage (id : String)
  deriving DecidableEq

namespace Message
variable {α : Type}

def id : Message α → Option String
  | message id _ => id
  | removeMessage id => some id

/-- `isinstance(m, RemoveMessage)` -/
def isRemove : Message α → Bool
  | message _ _ => false
  | removeMessage _ => true

end Message

/-- A write is a list of messages or one message. -/
inductive MessagesWrite (α : Type) where
  | list (ms : List (Message α))
  | one (m : Message α)

def MessagesWrite.messages {α : Type} : MessagesWrite α → List (Message α)
  | list ms => ms
  | one m => [m]

section Delta
variable {α : Type}

/-! ## _messages_delta_reducer -/

/-- `index` and `result` in the loop; `none` is a tombstone. -/
structure DeltaMerge (α : Type) where
  index : OrdDict String Nat
  result : List (Option (Message α))

def slotKey (slot : Option (Message α)) : Option String := slot.bind Message.id

def DeltaMerge.step (s : DeltaMerge α) (msg : Message α) : DeltaMerge α :=
  match msg.id with
  | none => { s with result := s.result ++ [some msg] }
  | some mid =>
    if msg.isRemove then
      match s.index.get? mid with
      | some i => ⟨s.index.erase mid, s.result.set i none⟩
      | none => s
    else
      match s.index.get? mid with
      | some i => { s with result := s.result.set i (some msg) }
      | none => ⟨s.index.set mid s.result.length, s.result ++ [some msg]⟩

def DeltaMerge.start (state : List (Message α)) : DeltaMerge α :=
  ⟨indexFrom Message.id 0 state ∅, state.map some⟩

def messagesDeltaReducer (state : List (Message α)) (writes : List (MessagesWrite α)) :
    List (Message α) :=
  ((writes.flatMap MessagesWrite.messages).foldl DeltaMerge.step (.start state)).result.reduceOption

/-- One message on a plain list: a message replaces the one with its id, or is appended,
    and a `RemoveMessage` takes the one with its id away. -/
def addMessage (l : List (Message α)) (msg : Message α) : List (Message α) :=
  match msg.id with
  | none => l ++ [msg]
  | some mid =>
    if msg.isRemove then l.filter fun m => m.id ≠ some mid
    else if some mid ∈ l.map Message.id then l.map fun m => if m.id = some mid then msg else m
    else l ++ [msg]

/-- The index and the slots say the same. -/
def DeltaMerge.Valid (s : DeltaMerge α) : Prop := Indexed slotKey s.index s.result

theorem indexFrom_map_some : ∀ (l : List (Message α)) (n : Nat) (d : OrdDict String Nat),
    indexFrom slotKey n (l.map some) d = indexFrom Message.id n l d
  | [], _, _ => rfl
  | m :: l, n, d => by
    have hkey : slotKey (some m) = m.id := rfl
    rw [List.map_cons, indexFrom, indexFrom, hkey]
    cases m.id with
    | none => exact indexFrom_map_some l (n + 1) d
    | some k => exact indexFrom_map_some l (n + 1) _

theorem DeltaMerge.valid_start {state : List (Message α)} (h : (state.filterMap Message.id).Nodup) :
    (start state).Valid := by
  have hkeys : (([] ++ state.map some).filterMap slotKey).Nodup := by
    rw [List.nil_append, List.filterMap_map]
    exact h
  have hindex := indexed_indexFrom (state.map some) [] ∅ .nil hkeys
  rw [List.nil_append, List.length_nil, indexFrom_map_some] at hindex
  exact hindex

section Step
variable {s : DeltaMerge α} {msg : Message α} {mid : String} {i : Nat}

/-! What a step does, case by case. -/

theorem DeltaMerge.step_none (hid : msg.id = none) :
    s.step msg = { s with result := s.result ++ [some msg] } := by
  simp only [step, hid]

theorem DeltaMerge.step_absent (hid : msg.id = some mid) (hr : msg.isRemove = true)
    (hi : s.index.get? mid = none) : s.step msg = s := by
  simp only [step, hid, hr, hi, if_true]

theorem DeltaMerge.step_remove (hid : msg.id = some mid) (hr : msg.isRemove = true)
    (hi : s.index.get? mid = some i) :
    s.step msg = ⟨s.index.erase mid, s.result.set i none⟩ := by
  simp only [step, hid, hr, hi, if_true]

theorem DeltaMerge.step_new (hid : msg.id = some mid) (hr : msg.isRemove = false)
    (hi : s.index.get? mid = none) :
    s.step msg = ⟨s.index.set mid s.result.length, s.result ++ [some msg]⟩ := by
  simp only [step, hid, hr, hi, Bool.false_eq_true, if_false]

theorem DeltaMerge.step_replace (hid : msg.id = some mid) (hr : msg.isRemove = false)
    (hi : s.index.get? mid = some i) :
    s.step msg = { s with result := s.result.set i (some msg) } := by
  simp only [step, hid, hr, hi, Bool.false_eq_true, if_false]

end Step

theorem DeltaMerge.valid_step {s : DeltaMerge α} (h : s.Valid) (msg : Message α) :
    (s.step msg).Valid := by
  cases hid : msg.id with
  | none =>
    rw [step_none hid]
    exact h.append_none hid
  | some mid =>
    cases hr : msg.isRemove with
    | true =>
      cases hi : s.index.get? mid with
      | none => rwa [step_absent hid hr hi]
      | some i =>
        rw [step_remove hid hr hi]
        exact h.clear hi rfl
    | false =>
      cases hi : s.index.get? mid with
      | none =>
        rw [step_new hid hr hi]
        exact h.append_some hid hi
      | some i =>
        rw [step_replace hid hr hi]
        exact h.replace hi hid

theorem mem_map_id_reduceOption {l : List (Option (Message α))} {mid : String} :
    some mid ∈ l.reduceOption.map Message.id ↔ ∃ slot ∈ l, slotKey slot = some mid := by
  rw [List.mem_map]
  constructor
  · intro hex
    obtain ⟨m, hm, hid⟩ := hex
    exact ⟨some m, List.reduceOption_mem_iff.mp hm, hid⟩
  · intro hex
    obtain ⟨slot, hslot, hid⟩ := hex
    cases slot with
    | none => cases hid
    | some m => exact ⟨m, List.reduceOption_mem_iff.mpr hslot, hid⟩

theorem reduceOption_map_replace (mid : String) (msg : Message α) :
    ∀ l : List (Option (Message α)),
      (l.map fun c => if slotKey c = some mid then some msg else c).reduceOption =
        l.reduceOption.map fun m => if m.id = some mid then msg else m
  | [] => rfl
  | none :: l => by
    rw [List.map_cons, List.reduceOption_cons_of_none, ← reduceOption_map_replace mid msg l]
    rfl
  | some m :: l => by
    rw [List.map_cons, List.reduceOption_cons_of_some, List.map_cons,
      ← reduceOption_map_replace mid msg l]
    by_cases hm : m.id = some mid
    · have hk : slotKey (some m) = some mid := hm
      rw [if_pos hk, if_pos hm, List.reduceOption_cons_of_some]
    · have hk : slotKey (some m) ≠ some mid := hm
      rw [if_neg hk, if_neg hm, List.reduceOption_cons_of_some]

theorem reduceOption_map_clear (mid : String) : ∀ l : List (Option (Message α)),
    (l.map fun c => if slotKey c = some mid then none else c).reduceOption =
      l.reduceOption.filter fun m => m.id ≠ some mid
  | [] => rfl
  | none :: l => by
    rw [List.map_cons, List.reduceOption_cons_of_none, ← reduceOption_map_clear mid l]
    rfl
  | some m :: l => by
    rw [List.map_cons, List.reduceOption_cons_of_some, List.filter_cons,
      ← reduceOption_map_clear mid l]
    by_cases hm : m.id = some mid
    · have hk : slotKey (some m) = some mid := hm
      rw [if_pos hk, List.reduceOption_cons_of_none]
      simp [hm]
    · have hk : slotKey (some m) ≠ some mid := hm
      rw [if_neg hk, List.reduceOption_cons_of_some]
      simp [hm]

/-- The tombstones and the positions do not show in what the loop leaves. -/
theorem DeltaMerge.reduceOption_step {s : DeltaMerge α} (h : s.Valid) (msg : Message α) :
    (s.step msg).result.reduceOption = addMessage s.result.reduceOption msg := by
  have hpush : (s.result ++ [some msg]).reduceOption = s.result.reduceOption ++ [msg] := by
    rw [List.reduceOption_append]
    rfl
  cases hid : msg.id with
  | none =>
    rw [step_none hid, addMessage, hid]
    exact hpush
  | some mid =>
    have hmem : some mid ∈ s.result.reduceOption.map Message.id ↔
        ∃ slot ∈ s.result, slotKey slot = some mid := mem_map_id_reduceOption
    have hnone := h.none_iff mid
    cases hr : msg.isRemove with
    | true =>
      simp only [addMessage, hid, hr, if_true]
      cases hi : s.index.get? mid with
      | none =>
        -- nothing to take away
        rw [step_absent hid hr hi, eq_comm, List.filter_eq_self]
        intro m hm
        have hne := hnone.mp hi (some m) (List.reduceOption_mem_iff.mp hm)
        exact decide_eq_true hne
      | some i => rw [step_remove hid hr hi, h.set_eq_map hi, reduceOption_map_clear]
    | false =>
      simp only [addMessage, hid, hr, Bool.false_eq_true, if_false]
      cases hi : s.index.get? mid with
      | none =>
        have hnot : some mid ∉ s.result.reduceOption.map Message.id := by
          rw [hmem]
          intro hex
          obtain ⟨slot, hslot, hk⟩ := hex
          exact hnone.mp hi slot hslot hk
        rw [step_new hid hr hi, if_neg hnot]
        exact hpush
      | some i =>
        obtain ⟨slot, hslot, hk⟩ := (h mid i).mp hi
        have hin : some mid ∈ s.result.reduceOption.map Message.id :=
          hmem.mpr ⟨slot, List.mem_of_getElem? hslot, hk⟩
        rw [step_replace hid hr hi, if_pos hin, h.set_eq_map hi, reduceOption_map_replace]

theorem DeltaMerge.foldl_valid : ∀ (msgs : List (Message α)) {s : DeltaMerge α}, s.Valid →
    (msgs.foldl step s).Valid ∧
      (msgs.foldl step s).result.reduceOption = msgs.foldl addMessage s.result.reduceOption
  | [], _, h => ⟨h, rfl⟩
  | msg :: msgs, s, h => by
    rw [List.foldl_cons, List.foldl_cons, ← reduceOption_step h]
    exact foldl_valid msgs (valid_step h msg)

/-- The reducer is a fold over plain lists. -/
theorem messagesDeltaReducer_eq {state : List (Message α)} (h : (state.filterMap Message.id).Nodup)
    (writes : List (MessagesWrite α)) : messagesDeltaReducer state writes =
      (writes.flatMap MessagesWrite.messages).foldl addMessage state := by
  have hstart : (DeltaMerge.start state).result.reduceOption = state := by
    show (state.map some).reduceOption = state
    simp [List.reduceOption]
  rw [messagesDeltaReducer, (DeltaMerge.foldl_valid _ (DeltaMerge.valid_start h)).2, hstart]

/-- The ids that the reducer leaves are distinct. -/
theorem messagesDeltaReducer_nodup {state : List (Message α)}
    (h : (state.filterMap Message.id).Nodup) (writes : List (MessagesWrite α)) :
    ((messagesDeltaReducer state writes).filterMap Message.id).Nodup := by
  have hvalid := (DeltaMerge.foldl_valid (writes.flatMap MessagesWrite.messages)
    (DeltaMerge.valid_start h)).1.nodup
  rw [messagesDeltaReducer, List.reduceOption, List.filterMap_filterMap]
  exact hvalid

/-- A message adds no `RemoveMessage`. -/
theorem mem_of_mem_addMessage {l : List (Message α)} {msg m : Message α} (hm : m ∈ addMessage l msg)
    (hr : m.isRemove = true) : m ∈ l := by
  have hpush : msg.isRemove = false → m ∈ l ++ [msg] → m ∈ l := by
    intro hmr hmem
    apply (List.mem_append.mp hmem).resolve_right
    intro heq
    rw [List.mem_singleton.mp heq, hmr] at hr
    cases hr
  cases hid : msg.id with
  | none =>
    simp only [addMessage, hid] at hm
    refine hpush ?_ hm
    cases msg with
    | message _ _ => rfl
    | removeMessage _ => cases hid
  | some mid =>
    cases hmr : msg.isRemove with
    | true =>
      simp only [addMessage, hid, hmr, if_true] at hm
      exact List.mem_of_mem_filter hm
    | false =>
      simp only [addMessage, hid, hmr, Bool.false_eq_true, if_false] at hm
      split at hm
      · obtain ⟨m', hm', heq⟩ := List.mem_map.mp hm
        split at heq
        · rw [← heq, hmr] at hr
          cases hr
        · exact heq ▸ hm'
      · exact hpush hmr hm

theorem mem_of_mem_foldl_addMessage {m : Message α} (hr : m.isRemove = true) :
    ∀ (msgs : List (Message α)) {l : List (Message α)}, m ∈ msgs.foldl addMessage l → m ∈ l
  | [], _, hm => hm
  | _ :: msgs, _, hm => mem_of_mem_addMessage (mem_of_mem_foldl_addMessage hr msgs hm) hr

/-- The writes of two calls may be given to one, and what is left has distinct ids and
    only the `RemoveMessage`s that the state came with. -/
theorem messagesDeltaReducer_batches (state : List (Message α))
    (h : (state.filterMap Message.id).Nodup) (xs ys : List (MessagesWrite α)) :
    messagesDeltaReducer (messagesDeltaReducer state xs) ys = messagesDeltaReducer state (xs ++ ys) ∧
      ((messagesDeltaReducer state (xs ++ ys)).filterMap Message.id).Nodup ∧
      ∀ m ∈ messagesDeltaReducer state (xs ++ ys), m.isRemove = true → m ∈ state := by
  refine ⟨?_, messagesDeltaReducer_nodup h _, fun m hm hr => ?_⟩
  · rw [messagesDeltaReducer_eq (messagesDeltaReducer_nodup h xs), messagesDeltaReducer_eq h,
      messagesDeltaReducer_eq h, List.flatMap_append, List.foldl_append]
  · rw [messagesDeltaReducer_eq h] at hm
    exact mem_of_mem_foldl_addMessage hr _ hm

theorem messagesDeltaReducer_batches_chat :
    messagesDeltaReducer (messagesDeltaReducer [.message (some "1") "hi"]
      [.one (.removeMessage "1")]) [.list [.message (some "1") "again", .message (some "2") "yes"]] =
    messagesDeltaReducer [.message (some "1") "hi"]
      [.one (.removeMessage "1"), .list [.message (some "1") "again", .message (some "2") "yes"]] :=
  (messagesDeltaReducer_batches [.message (some "1") "hi"] (by decide)
    [.one (.removeMessage "1")] [.list [.message (some "1") "again", .message (some "2") "yes"]]).1

/-- A state that holds a `RemoveMessage`, as an `Overwrite` leaves it, keeps it. -/
theorem not_messagesDeltaReducer_batches : ¬ ∀ state : List (Message String),
    (state.filterMap Message.id).Nodup → ∀ xs ys : List (MessagesWrite String),
      messagesDeltaReducer (messagesDeltaReducer state xs) ys = messagesDeltaReducer state (xs ++ ys) ∧
        ((messagesDeltaReducer state (xs ++ ys)).filterMap Message.id).Nodup ∧
        ∀ m ∈ messagesDeltaReducer state (xs ++ ys), m.isRemove = false := by
  intro h
  have hrun := (h [.removeMessage "1"] (by decide) [] []).2.2 (.removeMessage "1") (by decide)
  cases hrun

end Delta

/-! ## add_messages -/

section Add
variable {α : Type}

/-- `str(uuid.uuid4())` for each message without an id; `n` counts the calls. -/
def assignIds (uuid : Nat → String) : Nat → List (Message α) → List (Message α) × Nat
  | n, [] => ([], n)
  | n, .message none content :: rest =>
    let r := assignIds uuid (n + 1) rest
    (.message (some (uuid n)) content :: r.1, r.2)
  | n, m :: rest =>
    let r := assignIds uuid n rest
    (m :: r.1, r.2)

/-- The messages after the last `RemoveMessage(REMOVE_ALL_MESSAGES)`, if there is one. -/
def afterRemoveAll : List (Message α) → Option (List (Message α))
  | [] => none
  | m :: rest =>
    match afterRemoveAll rest with
    | some tail => some tail
    | none =>
      match m with
      | .removeMessage id => if id = Const.REMOVE_ALL_MESSAGES then some rest else none
      | .message _ _ => none

/-- `merged`, `merged_by_id` and `ids_to_remove`. -/
structure Merge (α : Type) where
  merged : List (Message α)
  mergedById : OrdDict String Nat
  idsToRemove : List String

/-- The loop; it raises at a `RemoveMessage` whose id is not there. -/
def Merge.step (s : Merge α) (m : Message α) : Except PyErr (Merge α) :=
  match m.id with
  | none => .ok s -- not reached: the ids are assigned
  | some mid =>
    match s.mergedById.get? mid with
    | some existingIdx =>
      if m.isRemove then .ok { s with idsToRemove := s.idsToRemove.insert mid }
      else .ok { s with
        idsToRemove := s.idsToRemove.filter (· ≠ mid)
        merged := s.merged.set existingIdx m }
    | none =>
      if m.isRemove then
        .error (.raised (.obj "ValueError" [("args",
          .str ("Attempting to delete a message with an ID that doesn't exist ('" ++ mid ++ "')"))]))
      else .ok { s with
        mergedById := s.mergedById.set mid s.merged.length
        merged := s.merged ++ [m] }

def Merge.start (left : List (Message α)) : Merge α := ⟨left, indexFrom Message.id 0 left ∅, []⟩

def Merge.result (s : Merge α) : List (Message α) :=
  s.merged.filter fun m => m.id.all fun mid => !s.idsToRemove.contains mid

def addMessages (uuid : Nat → String) (left right : List (Message α)) :
    Except PyErr (List (Message α)) :=
  let (left, n) := assignIds uuid 0 left
  let (right, _) := assignIds uuid n right
  match afterRemoveAll right with
  | some tail => .ok tail
  | none =>
    match right.foldlM Merge.step (.start left) with
    | .ok s => .ok s.result
    | .error e => .error e

/-! ### What the loop keeps -/

/-- The last message of a list with this id. -/
def lastWith (mid : String) (l : List (Message α)) : Option (Message α) :=
  (l.filter fun m => m.id = some mid).getLast?

/-- The same, passing over the `RemoveMessage`s. -/
def lastMessage (mid : String) (l : List (Message α)) : Option (Message α) :=
  lastWith mid (l.filter fun m => !m.isRemove)

theorem lastWith_concat (mid : String) (l : List (Message α)) (m : Message α) :
    lastWith mid (l ++ [m]) = if m.id = some mid then some m else lastWith mid l := by
  by_cases h : m.id = some mid
  · simp [lastWith, h]
  · simp [lastWith, h]

theorem lastMessage_concat (mid : String) (l : List (Message α)) (m : Message α) :
    lastMessage mid (l ++ [m]) =
      if m.id = some mid ∧ m.isRemove = false then some m else lastMessage mid l := by
  unfold lastMessage
  cases hr : m.isRemove with
  | true => simp [List.filter_append, hr]
  | false =>
    have hfilter : (l ++ [m]).filter (fun m => !m.isRemove) = l.filter (fun m => !m.isRemove) ++ [m] := by
      simp [List.filter_append, hr]
    rw [hfilter, lastWith_concat]
    simp

theorem mem_of_lastWith {mid : String} {l : List (Message α)} {m : Message α}
    (h : lastWith mid l = some m) : m ∈ l ∧ m.id = some mid := by
  have hm := List.mem_filter.mp (List.mem_of_getLast? h)
  exact ⟨hm.1, by simpa using hm.2⟩

theorem lastWith_eq_none_iff {mid : String} {l : List (Message α)} :
    lastWith mid l = none ↔ ∀ m ∈ l, m.id ≠ some mid := by
  rw [lastWith, List.getLast?_eq_none_iff, List.filter_eq_nil_iff]
  simp

theorem lastMessage_eq {l : List (Message α)} (h : ∀ m ∈ l, m.isRemove = false) (mid : String) :
    lastMessage mid l = lastWith mid l := by
  rw [lastMessage, List.filter_eq_self.mpr]
  intro m hm
  rw [h m hm]
  rfl

/-- The last message of an id is found before or after the left ones. -/
theorem lastMessage_append (mid : String) (left : List (Message α)) (right : List (Message α)) :
    (∀ r, lastWith mid right = some r → r.isRemove = false →
      lastMessage mid (left ++ right) = some r) ∧
    (lastWith mid right = none → lastMessage mid (left ++ right) = lastMessage mid left) := by
  induction right using List.reverseRecOn with
  | nil =>
    rw [List.append_nil]
    exact ⟨(fun r hr => nomatch hr), fun _ => rfl⟩
  | append_singleton right m ih =>
    rw [← List.append_assoc, lastWith_concat, lastMessage_concat]
    by_cases hm : m.id = some mid
    · rw [if_pos hm]
      refine ⟨fun r hr hnot => ?_, fun hnone => nomatch hnone⟩
      cases hr
      rw [if_pos ⟨hm, hnot⟩]
    · rw [if_neg hm, if_neg fun h => hm h.1]
      exact ih

/-- The ids of a list, each once, in the order in which they first appear after those of `left`. -/
def mergedIds (left right : List (Message α)) : List String :=
  OrdDict.addKeys (left.filterMap Message.id) (right.filterMap Message.id)

/-- What the loop has after the messages `seen` of the right list. -/
structure Merged (left seen : List (Message α)) (s : Merge α) : Prop where
  indexed : Indexed Message.id s.mergedById s.merged
  ids : s.merged.map Message.id = (mergedIds left seen).map some
  content : ∀ m ∈ s.merged, ∀ mid, m.id = some mid → lastMessage mid (left ++ seen) = some m
  removed : ∀ mid, mid ∈ s.idsToRemove ↔ ∃ m, lastWith mid seen = some m ∧ m.isRemove = true

theorem Merged.mem_ids_iff {left seen : List (Message α)} {s : Merge α} (h : Merged left seen s)
    {mid : String} : mid ∈ mergedIds left seen ↔ ∃ i, s.mergedById.get? mid = some i := by
  have hmem : mid ∈ mergedIds left seen ↔ some mid ∈ s.merged.map Message.id := by
    rw [h.ids]
    simp
  rw [hmem, List.mem_map]
  constructor
  · intro hex
    obtain ⟨m, hm, hid⟩ := hex
    obtain ⟨i, hi⟩ := List.getElem?_of_mem hm
    exact ⟨i, (h.indexed mid i).mpr ⟨m, hi, hid⟩⟩
  · intro hex
    obtain ⟨i, hi⟩ := hex
    obtain ⟨m, hm, hid⟩ := (h.indexed mid i).mp hi
    exact ⟨m, List.mem_of_getElem? hm, hid⟩

theorem map_id_eq : ∀ {l : List (Message α)}, (∀ m ∈ l, m.id ≠ none) →
    l.map Message.id = (l.filterMap Message.id).map some
  | [], _ => rfl
  | m :: l, h => by
    have ih := map_id_eq fun m' hm' => h m' (List.mem_cons_of_mem m hm')
    cases hid : m.id with
    | none => exact absurd hid (h m List.mem_cons_self)
    | some mid => rw [List.map_cons, List.filterMap_cons_some hid, List.map_cons, hid, ih]

theorem Merged.start {left : List (Message α)} (hids : ∀ m ∈ left, m.id ≠ none)
    (hdistinct : (left.filterMap Message.id).Nodup) (hmessages : ∀ m ∈ left, m.isRemove = false) :
    Merged left [] (.start left) := by
  have hindex : Indexed Message.id (Merge.start left).mergedById left :=
    indexed_indexFrom left [] ∅ .nil hdistinct
  refine ⟨hindex, map_id_eq hids, fun m hm mid hid => ?_, fun mid => ?_⟩
  · rw [List.append_nil, lastMessage_eq hmessages]
    cases hlast : lastWith mid left with
    | none => exact absurd hid (lastWith_eq_none_iff.mp hlast m hm)
    | some m' =>
      -- the only one with this id
      obtain ⟨hm', hid'⟩ := mem_of_lastWith hlast
      obtain ⟨p, hp⟩ := List.getElem?_of_mem hm
      obtain ⟨q, hq⟩ := List.getElem?_of_mem hm'
      obtain rfl := hindex.position hp hq hid hid'
      exact hq.symm.trans hp
  · simp [lastWith, Merge.start]

/-- One message of the right list. -/
theorem Merged.step {left seen : List (Message α)} {s s' : Merge α} (h : Merged left seen s)
    {m : Message α} {mid : String} (hid : m.id = some mid) (hs : s.step m = .ok s') :
    Merged left (seen ++ [m]) s' := by
  have hids : mergedIds left (seen ++ [m]) =
      if mid ∈ mergedIds left seen then mergedIds left seen else mergedIds left seen ++ [mid] := by
    rw [mergedIds, List.filterMap_append, OrdDict.addKeys_append, List.filterMap_cons_some hid]
    rfl
  have hlast : ∀ k, lastWith k (seen ++ [m]) = if mid = k then some m else lastWith k seen := by
    intro k
    rw [lastWith_concat, hid]
    simp
  have hcontent : ∀ k, lastMessage k (left ++ (seen ++ [m])) =
      if mid = k ∧ m.isRemove = false then some m else lastMessage k (left ++ seen) := by
    intro k
    rw [← List.append_assoc, lastMessage_concat, hid]
    simp
  cases hi : s.mergedById.get? mid with
  | some i =>
    have hmem := h.mem_ids_iff.mpr ⟨i, hi⟩
    rw [if_pos hmem] at hids
    cases hr : m.isRemove with
    | true =>
      simp only [Merge.step, hid, hi, hr, if_true, Except.ok.injEq] at hs
      subst hs
      refine ⟨h.indexed, hids ▸ h.ids, fun c hc k hk => ?_, fun k => ?_⟩
      · rw [hcontent k, if_neg fun hand => by rw [hr] at hand; cases hand.2]
        exact h.content c hc k hk
      · rw [List.mem_insert_iff, hlast k, h.removed k]
        by_cases hk : mid = k
        · subst hk
          simp [hr]
        · rw [if_neg hk, or_iff_right (Ne.symm hk)]
    | false =>
      simp only [Merge.step, hid, hi, hr, Bool.false_eq_true, if_false, Except.ok.injEq] at hs
      subst hs
      have hset := h.indexed.set_eq_map hi m
      refine ⟨h.indexed.replace hi hid, ?_, fun c hc k hk => ?_, fun k => ?_⟩
      · show (s.merged.set i m).map Message.id = _
        rw [hids, ← h.ids, hset, List.map_map]
        apply List.map_congr_left
        intro c _
        show Message.id (if c.id = some mid then m else c) = c.id
        split
        · next hc => rw [hid, hc]
        · rfl
      · rw [hcontent k]
        have hc : c ∈ s.merged.set i m := hc
        rw [hset] at hc
        obtain ⟨c', hc', rfl⟩ := List.mem_map.mp hc
        split at hk
        · next heq =>
          rw [hid, Option.some.injEq] at hk
          rw [if_pos ⟨hk, hr⟩, if_pos heq]
        · next hne =>
          have hmk : mid ≠ k := fun heq => hne (heq ▸ hk)
          rw [if_neg fun hand => hmk hand.1, if_neg hne]
          exact h.content c' hc' k hk
      · rw [List.mem_filter, hlast k, h.removed k]
        by_cases hk : mid = k
        · subst hk
          simp [hr]
        · simp [hk, Ne.symm hk]
  | none =>
    have hnot : mid ∉ mergedIds left seen := by
      intro hmem
      obtain ⟨i, hi'⟩ := h.mem_ids_iff.mp hmem
      rw [hi] at hi'
      cases hi'
    rw [if_neg hnot] at hids
    cases hr : m.isRemove with
    | true =>
      simp only [Merge.step, hid, hi, hr, if_true] at hs
      cases hs
    | false =>
      simp only [Merge.step, hid, hi, hr, Bool.false_eq_true, if_false, Except.ok.injEq] at hs
      subst hs
      refine ⟨h.indexed.append_some hid hi, ?_, fun c hc k hk => ?_, fun k => ?_⟩
      · show (s.merged ++ [m]).map Message.id = _
        rw [hids, List.map_append, List.map_append, h.ids, List.map_singleton, hid]
        rfl
      · rw [hcontent k]
        rcases List.mem_append.mp hc with hc | hc
        · have hmk : mid ≠ k :=
            fun heq => (h.indexed.none_iff mid).mp hi c hc (heq ▸ hk)
          rw [if_neg fun hand => hmk hand.1]
          exact h.content c hc k hk
        · obtain rfl := List.mem_singleton.mp hc
          rw [hid, Option.some.injEq] at hk
          rw [if_pos ⟨hk, hr⟩]
      · rw [hlast k]
        show k ∈ s.idsToRemove ↔ _
        rw [h.removed k]
        by_cases hk : mid = k
        · -- a new id was not seen, so it was not removed
          subst hk
          have hnone : lastWith mid seen = none := by
            rw [lastWith_eq_none_iff]
            intro c hc hcid
            exact hnot (OrdDict.mem_addKeys.mpr (Or.inr (List.mem_filterMap.mpr ⟨c, hc, hcid⟩)))
          simp [hnone, hr]
        · rw [if_neg hk]

theorem Merged.fold {left : List (Message α)} : ∀ (right : List (Message α)) {seen : List (Message α)}
    {s s' : Merge α}, Merged left seen s → (∀ m ∈ right, m.id ≠ none) →
      right.foldlM Merge.step s = .ok s' → Merged left (seen ++ right) s'
  | [], seen, s, s', h, _, hs => by
    cases hs
    rwa [List.append_nil]
  | m :: right, seen, s, s', h, hids, hs => by
    rw [List.foldlM_cons] at hs
    cases hstep : s.step m with
    | error e =>
      rw [hstep] at hs
      cases hs
    | ok s₁ =>
      rw [hstep] at hs
      obtain ⟨mid, hid⟩ := Option.ne_none_iff_exists'.mp (hids m List.mem_cons_self)
      have hrest := Merged.fold right (h.step hid hstep)
        (fun m' hm' => hids m' (List.mem_cons_of_mem m hm')) hs
      rwa [List.append_assoc, List.singleton_append] at hrest

/-! ### What is left -/

/-- The message that stands for an id at the end: the last right one, unless it removes
    it, or else the left one. -/
def mergedMessage (left right : List (Message α)) (mid : String) : Option (Message α) :=
  match lastWith mid right with
  | some m => if m.isRemove then none else some m
  | none => lastWith mid left

/-- A well-formed merge of two lists: no id twice, no `RemoveMessage`, the left messages
    that survive in their places, and the new ones after them in the order in which
    their ids appear, each as the last right message of its id says. -/
structure WellMerged (left right result : List (Message α)) : Prop where
  ids : (result.map Message.id).Nodup
  messages : ∀ m ∈ result, m.isRemove = false
  merged : result = (mergedIds left right).filterMap (mergedMessage left right)

theorem filter_eq_filterMap {P : Message α → Bool} {f : String → Option (Message α)} :
    ∀ {l : List (Message α)} {ids : List String}, l.map Message.id = ids.map some →
      (∀ m ∈ l, ∀ mid, m.id = some mid → f mid = if P m then some m else none) →
      l.filter P = ids.filterMap f
  | [], ids, h, _ => by
    rw [List.map_nil, eq_comm, List.map_eq_nil_iff] at h
    subst h
    rfl
  | m :: l, [], h, _ => by
    cases h
  | m :: l, mid :: ids, h, hf => by
    rw [List.map_cons, List.map_cons, List.cons.injEq] at h
    have hm := hf m List.mem_cons_self mid h.1
    have ih := filter_eq_filterMap h.2 fun m' hm' => hf m' (List.mem_cons_of_mem m hm')
    rw [List.filter_cons]
    cases hP : P m with
    | true =>
      rw [hP, if_pos rfl] at hm
      rw [List.filterMap_cons_some hm, ih, if_pos rfl]
    | false =>
      rw [hP, if_neg Bool.false_ne_true] at hm
      rw [List.filterMap_cons_none hm, ih, if_neg Bool.false_ne_true]

theorem Merged.result {left right : List (Message α)} {s : Merge α} (h : Merged left right s)
    (hmessages : ∀ m ∈ left, m.isRemove = false) : WellMerged left right s.result := by
  have hkeep : ∀ (m : Message α) (mid : String), m.id = some mid →
      ((m.id.all fun mid => !s.idsToRemove.contains mid) = true ↔ mid ∉ s.idsToRemove) := by
    intro m mid hid
    rw [hid]
    simp
  refine ⟨?_, ?_, ?_⟩
  · have hsub : (s.result.map Message.id).Sublist (s.merged.map Message.id) :=
      List.filter_sublist.map _
    apply List.Nodup.sublist hsub
    have hnodup := h.indexed.nodup
    rw [h.ids]
    have hmap := congrArg (List.filterMap fun o : Option String => o) h.ids
    rw [List.filterMap_map, List.filterMap_map] at hmap
    have hids : (mergedIds left right).Nodup := by
      have hself : (mergedIds left right).filterMap ((fun o : Option String => o) ∘ some) =
          mergedIds left right := List.filterMap_some ..
      rw [← hself, ← hmap]
      exact hnodup
    exact hids.map fun _ _ h => Option.some.inj h
  · intro m hm
    obtain ⟨hm, hk⟩ := List.mem_filter.mp hm
    have hmem : m.id ∈ s.merged.map Message.id := List.mem_map_of_mem hm
    rw [h.ids, List.mem_map] at hmem
    obtain ⟨mid, -, hid⟩ := hmem
    -- what the loop keeps is no `RemoveMessage`
    have hin := (mem_of_lastWith (h.content m hm mid hid.symm)).1
    simpa using (List.mem_filter.mp hin).2
  · apply filter_eq_filterMap h.ids
    intro m hm mid hid
    have hcontent := h.content m hm mid hid
    obtain ⟨hlast, hnone⟩ := lastMessage_append mid left right
    unfold mergedMessage
    cases hl : lastWith mid right with
    | none =>
      have hnot : mid ∉ s.idsToRemove := by
        rw [h.removed mid]
        rintro ⟨r, hr, -⟩
        rw [hl] at hr
        cases hr
      rw [if_pos ((hkeep m mid hid).mpr hnot), ← lastMessage_eq hmessages, ← hnone hl]
      exact hcontent
    | some r =>
      cases hr : r.isRemove with
      | true =>
        have hin : mid ∈ s.idsToRemove := (h.removed mid).mpr ⟨r, hl, hr⟩
        rw [if_neg fun hk => (hkeep m mid hid).mp hk hin]
        simp [hr]
      | false =>
        have hnot : mid ∉ s.idsToRemove := by
          rw [h.removed mid]
          rintro ⟨r', hr', hrem⟩
          rw [hl, Option.some.injEq] at hr'
          rw [← hr', hr] at hrem
          cases hrem
        rw [if_pos ((hkeep m mid hid).mpr hnot)]
        simp only [hr, Bool.false_eq_true, if_false]
        exact (hlast r hl hr).symm.trans hcontent

/-! ### The ids that are assigned -/

section Assign
variable {uuid : Nat → String}

theorem assignIds_id : ∀ (l : List (Message α)) (n : Nat), ∀ m ∈ (assignIds uuid n l).1, m.id ≠ none
  | [], _, m, hm => absurd hm List.not_mem_nil
  | .message none content :: l, n, m, hm => by
    rcases List.mem_cons.mp hm with rfl | hm
    · exact Option.some_ne_none _
    · exact assignIds_id l (n + 1) m hm
  | .message (some i) content :: l, n, m, hm => by
    rcases List.mem_cons.mp hm with rfl | hm
    · exact Option.some_ne_none _
    · exact assignIds_id l n m hm
  | .removeMessage i :: l, n, m, hm => by
    rcases List.mem_cons.mp hm with rfl | hm
    · exact Option.some_ne_none _
    · exact assignIds_id l n m hm

theorem assignIds_isRemove : ∀ (l : List (Message α)) (n : Nat), (∀ m ∈ l, m.isRemove = false) →
    ∀ m ∈ (assignIds uuid n l).1, m.isRemove = false
  | [], _, _, m, hm => absurd hm List.not_mem_nil
  | .message none content :: l, n, h, m, hm => by
    rcases List.mem_cons.mp hm with rfl | hm
    · rfl
    · exact assignIds_isRemove l (n + 1) (fun m' hm' => h m' (List.mem_cons_of_mem _ hm')) m hm
  | .message (some i) content :: l, n, h, m, hm => by
    rcases List.mem_cons.mp hm with rfl | hm
    · rfl
    · exact assignIds_isRemove l n (fun m' hm' => h m' (List.mem_cons_of_mem _ hm')) m hm
  | .removeMessage i :: l, n, h, m, hm => absurd (h _ List.mem_cons_self) (by simp [Message.isRemove])

/-- A message that has an id already. -/
theorem assignIds_nodup_cons {l : List (Message α)} {n : Nat} {j : String} {m : Message α}
    (hid : m.id = some j) (h : ((m :: l).filterMap Message.id).Nodup)
    (hfresh : ∀ k, ∀ m' ∈ m :: l, m'.id ≠ some (uuid k))
    (ih : ((assignIds uuid n l).1.filterMap Message.id).Nodup ∧
      ∀ i ∈ (assignIds uuid n l).1.filterMap Message.id,
        i ∈ l.filterMap Message.id ∨ ∃ k, n ≤ k ∧ i = uuid k) :
    ((m :: (assignIds uuid n l).1).filterMap Message.id).Nodup ∧
      ∀ i ∈ (m :: (assignIds uuid n l).1).filterMap Message.id,
        i ∈ (m :: l).filterMap Message.id ∨ ∃ k, n ≤ k ∧ i = uuid k := by
  obtain ⟨hn, hfrom⟩ := ih
  rw [List.filterMap_cons_some hid] at h ⊢
  rw [List.filterMap_cons_some hid]
  have hnot : j ∉ (assignIds uuid n l).1.filterMap Message.id := by
    intro hmem
    rcases hfrom _ hmem with hl | ⟨k, hk, heq⟩
    · exact (List.nodup_cons.mp h).1 hl
    · exact hfresh k m List.mem_cons_self (heq ▸ hid)
  refine ⟨List.nodup_cons.mpr ⟨hnot, hn⟩, fun i hi => ?_⟩
  rcases List.mem_cons.mp hi with rfl | hi
  · exact Or.inl List.mem_cons_self
  · exact (hfrom i hi).imp (List.mem_cons_of_mem _) fun hk => hk

/-- Ids that `uuid` makes from `n` on are not in the list, and none is made twice. -/
theorem assignIds_nodup (hinj : Function.Injective uuid) : ∀ (l : List (Message α)) (n : Nat),
    (l.filterMap Message.id).Nodup → (∀ k, ∀ m ∈ l, m.id ≠ some (uuid k)) →
      ((assignIds uuid n l).1.filterMap Message.id).Nodup ∧
        ∀ i ∈ (assignIds uuid n l).1.filterMap Message.id,
          i ∈ l.filterMap Message.id ∨ ∃ k, n ≤ k ∧ i = uuid k
  | [], _, h, _ => ⟨h, fun i hi => Or.inl hi⟩
  | .message none content :: l, n, h, hfresh => by
    obtain ⟨hn, hfrom⟩ := assignIds_nodup hinj l (n + 1) h
      fun k m hm => hfresh k m (List.mem_cons_of_mem _ hm)
    have hnot : uuid n ∉ (assignIds uuid (n + 1) l).1.filterMap Message.id := by
      intro hmem
      rcases hfrom _ hmem with hl | ⟨k, hk, heq⟩
      · obtain ⟨m, hm, hid⟩ := List.mem_filterMap.mp hl
        exact hfresh n m (List.mem_cons_of_mem _ hm) hid
      · have := hinj heq
        omega
    refine ⟨List.nodup_cons.mpr ⟨hnot, hn⟩, fun i hi => ?_⟩
    rcases List.mem_cons.mp hi with rfl | hi
    · exact Or.inr ⟨n, Nat.le_refl n, rfl⟩
    · exact (hfrom i hi).imp (fun hl => hl) fun ⟨k, hk, heq⟩ => ⟨k, by omega, heq⟩
  | .message (some j) content :: l, n, h, hfresh =>
    assignIds_nodup_cons rfl h hfresh (assignIds_nodup hinj l n (List.nodup_cons.mp h).2
      fun k m hm => hfresh k m (List.mem_cons_of_mem _ hm))
  | .removeMessage j :: l, n, h, hfresh =>
    assignIds_nodup_cons rfl h hfresh (assignIds_nodup hinj l n (List.nodup_cons.mp h).2
      fun k m hm => hfresh k m (List.mem_cons_of_mem _ hm))

end Assign

/-- The two lists with their ids assigned. -/
def withIds (uuid : Nat → String) (left right : List (Message α)) :
    List (Message α) × List (Message α) :=
  ((assignIds uuid 0 left).1, (assignIds uuid (assignIds uuid 0 left).2 right).1)

/-- `add_messages` merged well: the right messages into the left ones, or those after the
    last `RemoveMessage(REMOVE_ALL_MESSAGES)` into none. -/
def MergedWell (uuid : Nat → String) (left right result : List (Message α)) : Prop :=
  let (left, right) := withIds uuid left right
  match afterRemoveAll right with
  | some tail => WellMerged [] tail result
  | none => WellMerged left right result

/-- What follows the last `RemoveMessage(REMOVE_ALL_MESSAGES)` is well formed already. -/
def RestWell (uuid : Nat → String) (left right : List (Message α)) : Prop :=
  ∀ tail, afterRemoveAll (withIds uuid left right).2 = some tail →
    (tail.map Message.id).Nodup ∧ ∀ m ∈ tail, m.isRemove = false

theorem afterRemoveAll_suffix : ∀ {l tail : List (Message α)}, afterRemoveAll l = some tail →
    ∀ m ∈ tail, m ∈ l
  | [], _, h, _, _ => by cases h
  | m₀ :: l, tail, h, m, hm => by
    unfold afterRemoveAll at h
    cases hl : afterRemoveAll l with
    | some tail' =>
      rw [hl] at h
      cases h
      exact List.mem_cons_of_mem _ (afterRemoveAll_suffix hl m hm)
    | none =>
      rw [hl] at h
      cases m₀ with
      | message _ _ => cases h
      | removeMessage i =>
        dsimp only at h
        split at h
        · cases h
          exact List.mem_cons_of_mem _ hm
        · cases h

/-- A list of messages that is well formed is merged with nothing. -/
theorem wellMerged_self {l : List (Message α)} (hids : ∀ m ∈ l, m.id ≠ none)
    (hn : (l.map Message.id).Nodup) (hmessages : ∀ m ∈ l, m.isRemove = false) :
    WellMerged [] l l := by
  have hmap := map_id_eq hids
  have hdistinct : (l.filterMap Message.id).Nodup := by
    rw [hmap] at hn
    exact hn.of_map _
  have hkeys : mergedIds [] l = l.filterMap Message.id := OrdDict.addKeys_of_nodup hdistinct
  have hstart := Merged.start hids hdistinct hmessages
  refine ⟨hn, hmessages, ?_⟩
  have hall := filter_eq_filterMap (P := fun _ => true) (f := mergedMessage [] l)
    (hmap.trans (congrArg _ hkeys.symm)) fun m hm mid hid => ?_
  · rwa [List.filter_true] at hall
  · have hcontent := hstart.content m hm mid hid
    rw [List.append_nil, lastMessage_eq hmessages] at hcontent
    rw [mergedMessage, hcontent]
    simp [hmessages m hm]

/-- What `add_messages` returns is merged well iff what follows the last
    `RemoveMessage(REMOVE_ALL_MESSAGES)` is well formed already: it is returned as it is. -/
theorem addMessages_mergedWell_iff (uuid : Nat → String) (hinj : Function.Injective uuid)
    (left right : List (Message α)) (hdistinct : (left.filterMap Message.id).Nodup)
    (hmessages : ∀ m ∈ left, m.isRemove = false) (hfresh : ∀ n, ∀ m ∈ left, m.id ≠ some (uuid n))
    (result : List (Message α)) (h : addMessages uuid left right = .ok result) :
    MergedWell uuid left right result ↔ RestWell uuid left right := by
  have hright : ∀ m ∈ (withIds uuid left right).2, m.id ≠ none := assignIds_id right _
  unfold addMessages at h
  dsimp only at h
  unfold MergedWell RestWell
  dsimp only
  cases htail : afterRemoveAll (withIds uuid left right).2 with
  | some tail =>
    have htail' : afterRemoveAll (assignIds uuid (assignIds uuid 0 left).2 right).1 = some tail := htail
    rw [htail'] at h
    cases h
    simp only [Option.some.injEq, forall_eq']
    constructor
    · exact fun hwell => ⟨hwell.ids, hwell.messages⟩
    · intro hrest
      exact wellMerged_self (fun m hm => hright m (afterRemoveAll_suffix htail m hm)) hrest.1 hrest.2
  | none =>
    have htail' : afterRemoveAll (assignIds uuid (assignIds uuid 0 left).2 right).1 = none := htail
    rw [htail'] at h
    dsimp only at h
    refine ⟨fun _ tail hsome => (nomatch hsome), fun _ => ?_⟩
    split at h
    · next s hs =>
      cases h
      have hleft : ∀ m ∈ (withIds uuid left right).1, m.isRemove = false :=
        assignIds_isRemove left 0 hmessages
      have hstart := Merged.start (assignIds_id left 0) (assignIds_nodup hinj left 0 hdistinct hfresh).1
        hleft
      exact (Merged.fold _ hstart hright hs).result hleft
    · cases h

/-! ### New messages -/

/-- A list of messages as a channel holds it: each with an id of its own. -/
structure StoredMessages (l : List (Message α)) : Prop where
  ids : ∀ m ∈ l, m.id ≠ none
  distinct : (l.filterMap Message.id).Nodup
  messages : ∀ m ∈ l, m.isRemove = false

theorem assignIds_of_ids (uuid : Nat → String) : ∀ (l : List (Message α)) (n : Nat),
    (∀ m ∈ l, m.id ≠ none) → assignIds uuid n l = (l, n)
  | [], _, _ => rfl
  | .message none _ :: _, _, h => absurd rfl (h _ List.mem_cons_self)
  | .message (some _) _ :: l, n, h => by
    rw [assignIds, assignIds_of_ids uuid l n fun m hm => h m (List.mem_cons_of_mem _ hm)]
    intro _ heq
    cases heq
  | .removeMessage _ :: l, n, h => by
    rw [assignIds, assignIds_of_ids uuid l n fun m hm => h m (List.mem_cons_of_mem _ hm)]
    intro _ heq
    cases heq

theorem afterRemoveAll_of_messages : ∀ {l : List (Message α)}, (∀ m ∈ l, m.isRemove = false) →
    afterRemoveAll l = none
  | [], _ => rfl
  | m :: l, h => by
    unfold afterRemoveAll
    rw [afterRemoveAll_of_messages fun m' hm' => h m' (List.mem_cons_of_mem m hm')]
    cases m with
    | message _ _ => rfl
    | removeMessage id => cases h _ List.mem_cons_self

theorem StoredMessages.append {left right : List (Message α)} (h : StoredMessages left) (h' : StoredMessages right)
    (hnew : ∀ m ∈ right, ∀ m' ∈ left, m'.id ≠ m.id) : StoredMessages (left ++ right) := by
  refine ⟨fun m hm => ?_, ?_, fun m hm => ?_⟩
  · exact (List.mem_append.mp hm).elim (h.ids m) (h'.ids m)
  · rw [List.filterMap_append]
    refine List.Nodup.append h.distinct h'.distinct ?_
    intro i hi hi'
    obtain ⟨m, hm, hid⟩ := List.mem_filterMap.mp hi
    obtain ⟨m', hm', hid'⟩ := List.mem_filterMap.mp hi'
    exact hnew m' hm' m hm (hid.trans hid'.symm)
  · exact (List.mem_append.mp hm).elim (h.messages m) (h'.messages m)

/-- The loop appends what is new. -/
theorem foldl_step_new : ∀ {right : List (Message α)} {s : Merge α},
    Indexed Message.id s.mergedById s.merged → s.idsToRemove = [] → StoredMessages (s.merged ++ right) →
      ∃ s', right.foldlM Merge.step s = .ok s' ∧ s'.merged = s.merged ++ right ∧ s'.idsToRemove = []
  | [], s, _, hremove, _ => ⟨s, rfl, (List.append_nil _).symm, hremove⟩
  | m :: right, s, hindex, hremove, hstored => by
    obtain ⟨mid, hid⟩ := Option.ne_none_iff_exists'.mp (hstored.ids m (by simp))
    have hdistinct := hstored.distinct
    rw [List.filterMap_append, List.filterMap_cons_some hid, List.nodup_append] at hdistinct
    have hnone : s.mergedById.get? mid = none := by
      rw [hindex.none_iff]
      intro m' hm' hid'
      exact hdistinct.2.2 mid (List.mem_filterMap.mpr ⟨m', hm', hid'⟩) mid List.mem_cons_self rfl
    have hr : m.isRemove = false := hstored.messages m (by simp)
    let s₁ : Merge α := ⟨s.merged ++ [m], s.mergedById.set mid s.merged.length, s.idsToRemove⟩
    have hstep : s.step m = .ok s₁ := by
      simp only [Merge.step, hid, hnone, hr, Bool.false_eq_true, if_false]
      rfl
    have happend : s₁.merged ++ right = s.merged ++ m :: right := List.append_assoc _ [m] right
    have hindex₁ : Indexed Message.id s₁.mergedById s₁.merged := hindex.append_some hid hnone
    obtain ⟨s', hs', hmerged, hremove'⟩ := foldl_step_new hindex₁ hremove (happend ▸ hstored)
    refine ⟨s', ?_, hmerged.trans happend, hremove'⟩
    rw [List.foldlM_cons, hstep]
    exact hs'

/-- Messages with ids that are not there yet are appended. -/
theorem addMessages_new {uuid : Nat → String} {left right : List (Message α)} (hleft : StoredMessages left)
    (hright : StoredMessages (assignIds uuid 0 right).1)
    (hnew : ∀ m ∈ (assignIds uuid 0 right).1, ∀ m' ∈ left, m'.id ≠ m.id) :
    addMessages uuid left right = .ok (left ++ (assignIds uuid 0 right).1) := by
  have hstart : Indexed Message.id (Merge.start left).mergedById left :=
    indexed_indexFrom left [] ∅ .nil hleft.distinct
  obtain ⟨s, hs, hmerged, hremove⟩ := foldl_step_new (s := .start left) hstart rfl
    (hleft.append hright hnew)
  have hfold : (assignIds uuid 0 right).1.foldlM Merge.step (.start left) = .ok s := hs
  unfold addMessages
  rw [assignIds_of_ids uuid left 0 hleft.ids]
  simp only [afterRemoveAll_of_messages hright.messages, hfold, Merge.result, hremove, hmerged]
  congr 1
  apply List.filter_eq_self.mpr
  intro m _
  cases m.id <;> rfl

def someUuid (n : Nat) : String := String.ofList ('u' :: List.replicate n '0')

theorem someUuid_injective : Function.Injective someUuid := by
  intro n n' h
  have hlen := congrArg (fun s : String => s.toList.length) h
  simpa [someUuid] using hlen

theorem addMessages_chat : MergedWell someUuid [.message (some "a") "hi", .message none "there"]
      [.removeMessage "a", .message (some "b") "new"]
      [.message (some "u") "there", .message (some "b") "new"] ↔
    RestWell someUuid [.message (some "a") "hi", .message none "there"]
      [.removeMessage "a", .message (some "b") "new"] := by
  apply addMessages_mergedWell_iff someUuid someUuid_injective _ _ (by decide) (by decide)
  · intro n m hm heq
    rcases List.mem_pair.mp hm with rfl | rfl
    · have hl := congrArg (fun o : Option String => o.map String.toList) heq
      simp [Message.id, someUuid] at hl
    · cases heq
  · rfl

/-- A message and its removal after a `RemoveMessage(REMOVE_ALL_MESSAGES)`. -/
theorem not_addMessages_mergedWell : ¬ ∀ uuid : Nat → String, Function.Injective uuid →
    ∀ left right : List (Message String), (left.filterMap Message.id).Nodup →
      (∀ m ∈ left, m.isRemove = false) → (∀ n, ∀ m ∈ left, m.id ≠ some (uuid n)) →
      ∀ result, addMessages uuid left right = .ok result → MergedWell uuid left right result := by
  intro h
  have hrun := h someUuid someUuid_injective []
    [.removeMessage Const.REMOVE_ALL_MESSAGES, .message (some "1") "hi", .removeMessage "1"]
    (by decide) (by decide) (fun _ _ hm => absurd hm List.not_mem_nil) _ rfl
  have hwell : WellMerged [] _ _ := hrun
  cases hwell.messages (.removeMessage "1") (by decide)

end Add

end LangGraph
