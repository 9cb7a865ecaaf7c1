import LangGraph.Lib.OrdDict
import LangGraph.PyVal

/- The result mapping that a finished task's writes are folded into, for the
   debug stream and for the tasks of a state snapshot.

   Correspondence (source ↔ Lean):
     `is_multiple_channel_write` (pregel/debug.py)  ↔ `isMultipleChannelWrite`
     `map_task_result_writes`                       ↔ `mapTaskResultWrites`
     `result` of `map_debug_task_results`           ↔ `mapDebugTaskResults`
   One slot of the mapping holds a plain value or the wrapper of several values,
   and the fold tells the two apart by looking at the value.

   Source detail: a wrapper's list is extended in place. That list is the fold's
   own unless the first value of the slot is a user's dict that looks like a
   wrapper, and then the slot is already wrong (`mapsAll_iff`). -/
namespace LangGraph

/-- `existing["$writes"]`, where it is a list. -/
def wrappedWrites : PyVal → Option (List PyVal)
  | .dict entries =>
    match OrdDictEntries.get entries (.str "$writes") with
    | some (.list writes) => some writes
    | _ => none
  | _ => none

/-- `is_multiple_channel_write` -/
def isMultipleChannelWrite (value : PyVal) : Bool := (wrappedWrites value).isSome

/-- The dict `{"$writes": channel_writes}`. -/
def wrapWrites (channelWrites : List PyVal) : PyVal :=
  .dict [(.str "$writes", .list channelWrites)]

@[simp] theorem wrappedWrites_wrapWrites (l : List PyVal) : wrappedWrites (wrapWrites l) = some l := by
  simp [wrappedWrites, wrapWrites, OrdDictEntries.get]

theorem wrapWrites_injective : Function.Injective wrapWrites := by
  intro l l' h
  have hw := congrArg wrappedWrites h
  simpa using hw

/-- One turn of the loop of `map_task_result_writes`. -/
def recordWrite (result : OrdDict String PyVal) (write : String × PyVal) : OrdDict String PyVal :=
  match result.get? write.1 with
  | none => result.set write.1 write.2
  | some existing =>
    -- `result.get(channel)` reads a recorded None as an absent channel
    if existing = .none then result.set write.1 write.2
    else
      let channelWrites := (wrappedWrites existing).getD [existing]
      result.set write.1 (wrapWrites (channelWrites ++ [write.2]))

/-- `map_task_result_writes` -/
def mapTaskResultWrites (writes : List (String × PyVal)) : OrdDict String PyVal :=
  writes.foldl recordWrite ∅

/-- The `result` of `map_debug_task_results`: the writes to the stream channels
    and the return value. -/
def mapDebugTaskResults (streamChannels : List String) (writes : List (String × PyVal)) :
    OrdDict String PyVal :=
  mapTaskResultWrites
    (writes.filter fun w => decide (w.1 ∈ streamChannels ∨ w.1 = Const.RETURN))

/-- The values a list of writes holds for one channel, in order. -/
def valuesFor (channel : String) (writes : List (String × PyVal)) : List PyVal :=
  (writes.filter fun w => w.1 = channel).map Prod.snd

theorem valuesFor_cons (c : String) (w : String × PyVal) (ws : List (String × PyVal)) :
    valuesFor c (w :: ws) = if w.1 = c then w.2 :: valuesFor c ws else valuesFor c ws := by
  unfold valuesFor
  by_cases h : w.1 = c <;> simp [h]

/-! ### One slot -/

/-- What a further value makes of the slot of its channel. -/
def recordValue (slot : Option PyVal) (value : PyVal) : Option PyVal :=
  match slot with
  | none => some value
  | some existing =>
    if existing = .none then some value
    else some (wrapWrites ((wrappedWrites existing).getD [existing] ++ [value]))

theorem get?_recordWrite (result : OrdDict String PyVal) (w : String × PyVal) (c : String) :
    (recordWrite result w).get? c =
      if w.1 = c then recordValue (result.get? c) w.2 else result.get? c := by
  by_cases hc : w.1 = c
  · subst hc
    rw [if_pos rfl]
    unfold recordWrite recordValue
    cases result.get? w.1 with
    | none => simp
    | some existing =>
      by_cases he : existing = .none
      · simp [he]
      · simp [he]
  · have hne : c ≠ w.1 := Ne.symm hc
    rw [if_neg hc]
    unfold recordWrite
    cases result.get? w.1 with
    | none => exact OrdDict.get?_set_of_ne hne _ _
    | some existing =>
      by_cases he : existing = .none
      · simp only [he, if_true]
        exact OrdDict.get?_set_of_ne hne _ _
      · simp only [he, if_false]
        exact OrdDict.get?_set_of_ne hne _ _

theorem get?_foldl_recordWrite (c : String) : ∀ (ws : List (String × PyVal))
    (result : OrdDict String PyVal),
      (ws.foldl recordWrite result).get? c = (valuesFor c ws).foldl recordValue (result.get? c)
  | [], _ => rfl
  | w :: ws, result => by
    rw [List.foldl_cons, get?_foldl_recordWrite c ws, get?_recordWrite, valuesFor_cons]
    by_cases hc : w.1 = c
    · simp only [hc, if_true, List.foldl_cons]
    · simp only [hc, if_false]

/-- The channels do not meet: the slot of a channel is the fold of its values. -/
theorem get?_mapTaskResultWrites (c : String) (ws : List (String × PyVal)) :
    (mapTaskResultWrites ws).get? c = (valuesFor c ws).foldl recordValue none :=
  get?_foldl_recordWrite c ws ∅

/-- From a wrapper on, the fold appends. -/
theorem foldl_recordValue_wrapWrites : ∀ (vs l : List PyVal),
    vs.foldl recordValue (some (wrapWrites l)) = some (wrapWrites (l ++ vs)) := by
  intro vs
  induction vs with
  | nil => simp
  | cons v vs ih =>
    intro l
    have hstep : recordValue (some (wrapWrites l)) v = some (wrapWrites (l ++ [v])) := by
      have hne : wrapWrites l ≠ .none := fun h => by cases h
      simp [recordValue, hne]
    rw [List.foldl_cons, hstep, ih, List.append_assoc]
    rfl

/-- A slot that holds something other than None gathers the further values
    behind the list it is read as. -/
theorem foldl_recordValue_of_ne {x : PyVal} (hx : x ≠ .none) (v : PyVal) (vs : List PyVal) :
    (v :: vs).foldl recordValue (some x)
      = some (wrapWrites ((wrappedWrites x).getD [x] ++ v :: vs)) := by
  have hstep : recordValue (some x) v
      = some (wrapWrites ((wrappedWrites x).getD [x] ++ [v])) := by
    simp [recordValue, hx]
  rw [List.foldl_cons, hstep, foldl_recordValue_wrapWrites, List.append_assoc]
  rfl

/-- A value is not among the values that it wraps. -/
theorem not_mem_wrappedWrites {x : PyVal} {l : List PyVal} (h : wrappedWrites x = some l) :
    x ∉ l := by
  intro hmem
  unfold wrappedWrites at h
  cases x with
  | dict entries =>
    simp only at h
    cases hg : OrdDictEntries.get entries (PyVal.str "$writes") with
    | none =>
      rw [hg] at h
      cases h
    | some y =>
      rw [hg] at h
      cases y with
      | list writes =>
        obtain rfl : writes = l := Option.some.inj h
        have h₁ := List.sizeOf_lt_of_mem hmem
        have h₂ := List.sizeOf_lt_of_mem (OrdDictEntries.mem_of_get hg)
        simp only [PyVal.dict.sizeOf_spec, Prod.mk.sizeOf_spec, PyVal.list.sizeOf_spec] at h₁ h₂
        omega
      | _ => cases h
  | _ => cases h

/-- A value is not recorded as a wrapper whose list it stands in. -/
theorem getD_wrappedWrites_ne {pre : List PyVal} (hpre : pre ≠ []) (x : PyVal) :
    (wrappedWrites x).getD [x] ≠ pre ++ [x] := by
  intro h
  match hw : wrappedWrites x with
  | none =>
    rw [hw] at h
    have hlen := congrArg List.length h
    have hpos := List.length_pos_of_ne_nil hpre
    simp only [Option.getD_none, List.length_singleton, List.length_append] at hlen
    omega
  | some l =>
    rw [hw] at h
    apply not_mem_wrappedWrites hw
    rw [show l = pre ++ [x] from h]
    simp

/-- A slot that holds None forgets that it does: whatever follows, the result is
    not the wrapper of `pre` and what follows. -/
theorem foldl_recordValue_none_ne : ∀ {us pre : List PyVal}, pre ≠ [] → us ≠ [] →
    us.foldl recordValue (some .none) ≠ some (wrapWrites (pre ++ us))
  | [], _, _, hus => absurd rfl hus
  | [u], pre, _, _ => by
    intro h
    have hu : u = wrapWrites (pre ++ [u]) := by simpa [recordValue] using h
    have hw : wrappedWrites u = some (pre ++ [u]) :=
      calc wrappedWrites u = wrappedWrites (wrapWrites (pre ++ [u])) := congrArg wrappedWrites hu
        _ = some (pre ++ [u]) := wrappedWrites_wrapWrites _
    exact not_mem_wrappedWrites hw (by simp)
  | u :: u' :: us, pre, hpre, _ => by
    intro h
    have hstep : recordValue (some .none) u = some u := by simp [recordValue]
    rw [List.foldl_cons, hstep] at h
    by_cases hu : u = .none
    · subst hu
      apply @foldl_recordValue_none_ne (u' :: us) (pre ++ [.none]) (by simp) (by simp)
      rw [h, List.append_assoc]
      rfl
    · rw [foldl_recordValue_of_ne hu] at h
      have hl : (wrappedWrites u).getD [u] ++ u' :: us = (pre ++ [u]) ++ u' :: us := by
        rw [wrapWrites_injective (Option.some.inj h), List.append_assoc]
        rfl
      exact getD_wrappedWrites_ne hpre u (List.append_cancel_right hl)

/-! ### The encoding -/

/-- The record of the values of one channel, as the docstring of
    `map_task_result_writes` has it: no entry, the value, or all values wrapped. -/
def recordOf : List PyVal → Option PyVal
  | [] => none
  | [v] => some v
  | vs => some (wrapWrites vs)

/-- The first of several values of a channel can be told from an empty slot and
    from a wrapper. -/
def PlainFirst : List PyVal → Prop
  | v :: _ :: _ => v ≠ .none ∧ isMultipleChannelWrite v = false
  | _ => True

/-- One slot keeps every value exactly where its first value is plain. -/
theorem foldl_recordValue_eq_recordOf_iff : ∀ vs : List PyVal,
    vs.foldl recordValue none = recordOf vs ↔ PlainFirst vs
  | [] => by simp [recordOf, PlainFirst]
  | [v] => by simp [recordOf, PlainFirst, recordValue]
  | v :: v' :: vs => by
    have hstart : (v :: v' :: vs).foldl recordValue none
        = (v' :: vs).foldl recordValue (some v) := rfl
    have hrecord : recordOf (v :: v' :: vs) = some (wrapWrites (v :: v' :: vs)) := rfl
    rw [hstart, hrecord]
    show _ ↔ v ≠ .none ∧ isMultipleChannelWrite v = false
    by_cases hv : v = .none
    · subst hv
      have hne := @foldl_recordValue_none_ne (v' :: vs) [.none] (by simp) (by simp)
      exact iff_of_false hne (fun h => h.1 rfl)
    · rw [foldl_recordValue_of_ne hv, Option.some.injEq, wrapWrites_injective.eq_iff]
      have hcancel : (wrappedWrites v).getD [v] ++ v' :: vs = v :: v' :: vs
          ↔ (wrappedWrites v).getD [v] = [v] := by
        rw [show v :: v' :: vs = [v] ++ v' :: vs from rfl]
        exact List.append_left_inj _
      rw [hcancel]
      unfold isMultipleChannelWrite
      match hw : wrappedWrites v with
      | none => simp [hv]
      | some l =>
        have hl : l ≠ [v] := by
          intro e
          exact not_mem_wrappedWrites hw (by rw [e]; simp)
        simp [hl]

/-- The mapping holds the record of every channel. -/
def MapsAll (writes : List (String × PyVal)) : Prop :=
  ∀ c, (mapTaskResultWrites writes).get? c = recordOf (valuesFor c writes)

theorem mapsAll_iff (ws : List (String × PyVal)) :
    MapsAll ws ↔ ∀ c, PlainFirst (valuesFor c ws) := by
  unfold MapsAll
  apply forall_congr'
  intro c
  rw [get?_mapTaskResultWrites]
  exact foldl_recordValue_eq_recordOf_iff _

/-- `vs` is a single value, and it looks like the wrapper of the several `vs'`. -/
def LooksLike (vs vs' : List PyVal) : Prop := vs = [wrapWrites vs'] ∧ 2 ≤ vs'.length

theorem recordOf_eq_iff (vs vs' : List PyVal) :
    recordOf vs = recordOf vs' ↔ vs = vs' ∨ LooksLike vs vs' ∨ LooksLike vs' vs := by
  unfold LooksLike
  match vs, vs' with
  | [], [] => simp [recordOf]
  | [], [_] => simp [recordOf]
  | [], _ :: _ :: _ => simp [recordOf]
  | [_], [] => simp [recordOf]
  | [_], [_] => simp [recordOf]
  | [_], _ :: _ :: _ => simp [recordOf]
  | _ :: _ :: _, [] => simp [recordOf]
  | _ :: _ :: _, [_] => simp [recordOf, eq_comm]
  | _ :: _ :: _, _ :: _ :: _ => simp [recordOf, wrapWrites_injective.eq_iff]

/-- Equal as mappings: the order of the keys is left out. -/
def SameMapping (ws ws' : List (String × PyVal)) : Prop :=
  ∀ c, (mapTaskResultWrites ws).get? c = (mapTaskResultWrites ws').get? c

def SameWrites (ws ws' : List (String × PyVal)) : Prop := ∀ c, valuesFor c ws = valuesFor c ws'

/-- Different writes, and where they differ one side writes once, a dict that
    looks like the wrapper of what the other side writes. -/
def LookAlike (ws ws' : List (String × PyVal)) : Prop :=
  ¬ SameWrites ws ws' ∧ ∀ c, valuesFor c ws = valuesFor c ws' ∨
    LooksLike (valuesFor c ws) (valuesFor c ws') ∨ LooksLike (valuesFor c ws') (valuesFor c ws)

/-- Every write of two tasks is kept, and the mappings tell the tasks apart,
    exactly where the first of several values of a channel is neither None nor a
    dict that looks like a wrapper, and the tasks are not look-alikes. -/
theorem mapTaskResultWrites_keeps_iff (ws ws' : List (String × PyVal)) :
    (MapsAll ws ∧ MapsAll ws' ∧ (SameMapping ws ws' → SameWrites ws ws')) ↔
      (∀ c, PlainFirst (valuesFor c ws)) ∧ (∀ c, PlainFirst (valuesFor c ws')) ∧
        ¬ LookAlike ws ws' := by
  rw [← mapsAll_iff, ← mapsAll_iff]
  apply and_congr_right
  intro hws
  apply and_congr_right
  intro hws'
  have hsame : SameMapping ws ws' ↔ ∀ c, valuesFor c ws = valuesFor c ws' ∨
      LooksLike (valuesFor c ws) (valuesFor c ws') ∨ LooksLike (valuesFor c ws') (valuesFor c ws) := by
    apply forall_congr'
    intro c
    rw [hws c, hws' c]
    exact recordOf_eq_iff _ _
  unfold LookAlike
  rw [hsame]
  tauto

theorem not_mapTaskResultWrites_keeps :
    ¬ ((∀ ws, MapsAll ws) ∧ ∀ ws ws', SameMapping ws ws' → SameWrites ws ws') ∧
      ¬ MapsAll [("a", .none), ("a", .int 1)] ∧
      (mapTaskResultWrites [("a", .none), ("a", .int 1)]).get? "a" = some (.int 1) := by
  have hlost : (mapTaskResultWrites [("a", .none), ("a", .int 1)]).get? "a" = some (.int 1) := by
    rw [get?_mapTaskResultWrites]
    simp [valuesFor, recordValue]
  have hnot : ¬ MapsAll [("a", .none), ("a", .int 1)] := by
    intro h
    have ha := h "a"
    rw [hlost] at ha
    simp [valuesFor, recordOf, wrapWrites] at ha
  exact ⟨fun h => hnot (h.1 _), hnot, hlost⟩

/-! ### The debug stream -/

theorem valuesFor_filter (p : String → Bool) (c : String) (ws : List (String × PyVal)) :
    valuesFor c (ws.filter fun w => p w.1) = if p c then valuesFor c ws else [] := by
  unfold valuesFor
  rw [List.filter_filter]
  have hpoint : ∀ w : String × PyVal, (decide (w.1 = c) && p w.1) = (decide (w.1 = c) && p c) := by
    intro w
    by_cases h : w.1 = c <;> simp [h]
  simp only [hpoint]
  by_cases hp : p c = true <;> simp [hp]

/-- The debug stream shows the record of every stream channel and of the return
    value, and no other channel. -/
theorem get?_mapDebugTaskResults {ws : List (String × PyVal)}
    (h : ∀ c, PlainFirst (valuesFor c ws)) (streamChannels : List String) (c : String) :
    (mapDebugTaskResults streamChannels ws).get? c =
      if c ∈ streamChannels ∨ c = Const.RETURN then recordOf (valuesFor c ws) else none := by
  unfold mapDebugTaskResults
  rw [get?_mapTaskResultWrites,
    valuesFor_filter (fun c => decide (c ∈ streamChannels ∨ c = Const.RETURN)) c ws]
  by_cases hc : c ∈ streamChannels ∨ c = Const.RETURN
  · simp only [decide_eq_true hc, if_true, if_pos hc]
    exact (foldl_recordValue_eq_recordOf_iff _).mpr (h c)
  · simp only [decide_eq_false hc, if_neg hc]
    rfl

end LangGraph
