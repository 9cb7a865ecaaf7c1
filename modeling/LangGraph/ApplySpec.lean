import Mathlib.Data.Option.Basic
import LangGraph.Algo
import LangGraph.TriggerChannels

/- What one call of `apply_writes` does, channel by channel.

   Correspondence (source ↔ Lean):
     the phases of `apply_writes` for one channel   ↔ `ChannelView.Applied`
     the writes of the call to one channel          ↔ `writesFor`
     the update of `versions_seen`                  ↔ `get?_versionsSeen`
   A phase visits a channel at most once and changes nothing of another one, so
   a call that raises nothing is known by what it does to each channel
   (`applyWrites_spec`). What the calls share is the new version, whether the
   channels are notified of a step, and whether they are finished. -/
namespace LangGraph

section Views
variable {V : Type}

/-- What the phases read and write of one channel. -/
structure ChannelView (V : Type) where
  channel : Channel
  version : Option V
  updated : Bool

def ApplyState.view (chan : String) (s : ApplyState V) : Option (ChannelView V) :=
  (s.channels.get? chan).map fun c =>
    ⟨c, s.checkpoint.channelVersions.get? chan, decide (chan ∈ s.updatedChannels)⟩

namespace ChannelView

def consume (v : V) (w : ChannelView V) : ChannelView V :=
  { w with
    channel := w.channel.consume.1
    version := if w.channel.consume.2 then some v else w.version }

def record (v : V) (c : Channel) (changed : Bool) (w : ChannelView V) : ChannelView V where
  channel := c
  version := if changed then some v else w.version
  updated := w.updated || (changed && c.isAvailable)

def finish (v : V) (w : ChannelView V) : ChannelView V :=
  w.record v w.channel.finish.1 w.channel.finish.2

/-- `update` returned. -/
def Updates (v : V) (vals : List PyVal) (w w' : ChannelView V) : Prop :=
  ∃ changed, w.channel.update vals = (w'.channel, .ok changed) ∧ w' = w.record v w'.channel changed

/-- The channel was notified of the step, if that was due. -/
def Bumps (v : V) (w w' : ChannelView V) : Prop :=
  if w.channel.isAvailable && !w.updated then w.Updates v [] w' else w' = w

/-- One channel through the phases of a call. -/
def Applied (v : V) (consumed : Bool) (vals : List PyVal) (bump finished : Bool)
    (w w' : ChannelView V) : Prop :=
  ∃ w₁ w₂ w₃, w₁ = (if consumed then w.consume v else w) ∧
    (if vals = [] then w₂ = w₁ else w₁.Updates v vals w₂) ∧
    (if bump then w₂.Bumps v w₃ else w₃ = w₂) ∧
    w' = if finished then w₃.finish v else w₃

/-- One channel through the phases before the end of the run. -/
def Notified (v : V) (consumed : Bool) (vals : List PyVal) (bump : Bool)
    (w w₃ : ChannelView V) : Prop :=
  ∃ w₁ w₂, w₁ = (if consumed then w.consume v else w) ∧
    (if vals = [] then w₂ = w₁ else w₁.Updates v vals w₂) ∧
    (if bump then w₂.Bumps v w₃ else w₃ = w₂)

end ChannelView

open ChannelView

/-! ## The phases -/

theorem view_consumeOne_self (v : V) (s : ApplyState V) (chan : String) :
    (consumeOne (some v) s chan).view chan = (s.view chan).map (ChannelView.consume v) := by
  unfold consumeOne ApplyState.view
  cases h : s.channels.get? chan with
  | none => simp [h]
  | some c =>
    rcases Bool.eq_false_or_eq_true c.consume.2 with hc | hc <;>
      simp [hc, ChannelView.consume, Checkpoint.setVersion]

theorem view_consumeOne_of_ne (v : V) (s : ApplyState V) {chan chan' : String} (h : chan' ≠ chan) :
    (consumeOne (some v) s chan).view chan' = s.view chan' := by
  unfold consumeOne ApplyState.view
  cases hs : s.channels.get? chan with
  | none => rfl
  | some c =>
    rcases Bool.eq_false_or_eq_true c.consume.2 with hc | hc <;>
      simp [hc, Checkpoint.setVersion, OrdDict.get?_set_of_ne h]

theorem view_recordUpdate_self (v : V) (s : ApplyState V) {chan : String} {c : Channel}
    (hc : s.channels.get? chan = some c) (c' : Channel) (changed : Bool) :
    (recordUpdate (some v) chan c' changed s).view chan =
      (s.view chan).map (ChannelView.record v c' changed) := by
  unfold recordUpdate ApplyState.view
  rw [hc]
  cases changed with
  | false => simp [ChannelView.record]
  | true =>
    rcases Bool.eq_false_or_eq_true c'.isAvailable with ha | ha <;>
      simp [ha, ChannelView.record, Checkpoint.setVersion]

theorem view_recordUpdate_of_ne (v : V) (s : ApplyState V) {chan chan' : String} (h : chan' ≠ chan)
    (c' : Channel) (changed : Bool) :
    (recordUpdate (some v) chan c' changed s).view chan' = s.view chan' := by
  unfold recordUpdate ApplyState.view
  cases changed with
  | false => simp [OrdDict.get?_set_of_ne h]
  | true =>
    rcases Bool.eq_false_or_eq_true c'.isAvailable with ha | ha <;>
      simp [ha, Checkpoint.setVersion, OrdDict.get?_set_of_ne h, h]

theorem updateOne_ok {v : V} {s s' : ApplyState V} {chan : String} {vals : List PyVal}
    (h : updateOne (some v) s chan vals = (s', .ok ())) :
    Option.Rel (Updates v vals) (s.view chan) (s'.view chan) ∧
      ∀ c, c ≠ chan → s'.view c = s.view c := by
  unfold updateOne at h
  cases hc : s.channels.get? chan with
  | none =>
    rw [hc] at h
    cases h
    exact ⟨by simp [ApplyState.view, hc], fun _ _ => rfl⟩
  | some c =>
    rw [hc] at h
    match hu : c.update vals with
    | (c', .error e) =>
      simp only [hu] at h
      cases h
    | (c', .ok changed) =>
      simp only [hu] at h
      cases h
      refine ⟨?_, fun c hne => view_recordUpdate_of_ne v s hne c' changed⟩
      rw [view_recordUpdate_self v s hc, ApplyState.view, hc]
      exact Option.Rel.some ⟨changed, hu, rfl⟩

theorem bumpOne_ok {v : V} {s s' : ApplyState V} {chan : String}
    (h : bumpOne (some v) s chan = (s', .ok ())) :
    Option.Rel (Bumps v) (s.view chan) (s'.view chan) ∧ ∀ c, c ≠ chan → s'.view c = s.view c := by
  unfold bumpOne at h
  cases hc : s.channels.get? chan with
  | none =>
    simp only [hc, Option.any_none, Bool.false_and, Bool.false_eq_true, if_false] at h
    cases h
    exact ⟨by simp [ApplyState.view, hc], fun _ _ => rfl⟩
  | some c =>
    have hview : s.view chan =
        some ⟨c, s.checkpoint.channelVersions.get? chan, decide (chan ∈ s.updatedChannels)⟩ := by
      rw [ApplyState.view, hc]
      rfl
    have hcond : ((s.channels.get? chan).any (·.isAvailable) && !s.updatedChannels.contains chan) =
        (c.isAvailable && !decide (chan ∈ s.updatedChannels)) := by
      rw [hc, Option.any_some, List.contains_eq_mem]
    rw [hcond] at h
    split at h
    · rename_i hb
      obtain ⟨hrel, hne⟩ := updateOne_ok h
      refine ⟨?_, hne⟩
      rw [hview] at hrel ⊢
      generalize s'.view chan = w at hrel ⊢
      cases hrel with
      | some hu =>
        refine Option.Rel.some ?_
        rw [Bumps, if_pos hb]
        exact hu
    · rename_i hb
      cases h
      refine ⟨?_, fun _ _ => rfl⟩
      rw [hview]
      refine Option.Rel.some ?_
      rw [Bumps, if_neg hb]

theorem view_finishOne_self (v : V) (s : ApplyState V) (chan : String) :
    (finishOne (some v) s chan).view chan = (s.view chan).map (ChannelView.finish v) := by
  unfold finishOne
  cases h : s.channels.get? chan with
  | none => simp [ApplyState.view, h]
  | some c =>
    simp only
    rw [view_recordUpdate_self v s h, ApplyState.view, h]
    rfl

theorem view_finishOne_of_ne (v : V) (s : ApplyState V) {chan chan' : String} (h : chan' ≠ chan) :
    (finishOne (some v) s chan).view chan' = s.view chan' := by
  unfold finishOne
  cases hc : s.channels.get? chan with
  | none => rfl
  | some c => exact view_recordUpdate_of_ne v s h _ _

/-! ## The arguments of the phases -/

/-- The writes of the tasks to one channel, in the order they are applied. -/
def writesFor (tasks : List TaskWrites) (chan : String) : List PyVal :=
  if controlChannels.contains chan then []
  else (tasks.flatMap (·.writes)).filterMap fun w => if w.1 = chan then some w.2 else none

theorem get?_groupWrites (tasks : List TaskWrites) (channels : OrdDict String Channel)
    (chan : String) : (groupWrites tasks channels).get? chan =
      if channels.contains chan = false ∨ writesFor tasks chan = [] then none
      else some (writesFor tasks chan) := by
  have hfold : ∀ (ws : List (String × PyVal)) (d : OrdDict String (List PyVal)),
      (ws.foldl (fun d w =>
        if controlChannels.contains w.1 then d
        else if channels.contains w.1 then d.set w.1 (d.getD w.1 [] ++ [w.2])
        else d) d).get? chan =
      let vs := if controlChannels.contains chan then []
        else ws.filterMap fun w => if w.1 = chan then some w.2 else none
      if channels.contains chan = false ∨ vs = [] then d.get? chan
      else some (d.getD chan [] ++ vs) := by
    intro ws
    induction ws with
    | nil => intro d; simp
    | cons w ws ih =>
      intro d
      rw [List.foldl_cons, ih]
      by_cases hw : w.1 = chan
      · subst hw
        cases hctl : controlChannels.contains w.1 with
        | true => simp
        | false =>
          cases hch : channels.contains w.1 with
          | false => simp
          | true =>
            simp only [Bool.false_eq_true, if_false, if_true, List.filterMap_cons]
            by_cases hnil : ws.filterMap (fun x => if x.1 = w.1 then some x.2 else none) = []
            · simp [hnil, OrdDict.getD]
            · simp [hnil, OrdDict.getD]
      · have hget : ∀ d' : OrdDict String (List PyVal),
            (d'.set w.1 (d'.getD w.1 [] ++ [w.2])).get? chan = d'.get? chan :=
          fun d' => OrdDict.get?_set_of_ne (Ne.symm hw) _ _
        have hsame : (if controlChannels.contains w.1 then d
            else if channels.contains w.1 then d.set w.1 (d.getD w.1 [] ++ [w.2])
            else d).get? chan = d.get? chan := by
          split
          · rfl
          · split
            · exact hget d
            · rfl
        simp only [OrdDict.getD, List.filterMap_cons, hw, if_false] at hsame ⊢
        rw [hsame]
  have h := hfold (tasks.flatMap (·.writes)) ∅
  rw [groupWrites, h, writesFor]
  simp [OrdDict.getD]

theorem writesFor_ne_nil_of_subset {tasks₀ tasks : List TaskWrites} (hsub : tasks₀ ⊆ tasks)
    {chan : String} (h : writesFor tasks₀ chan ≠ []) : writesFor tasks chan ≠ [] := by
  unfold writesFor at h ⊢
  split at h
  · exact absurd rfl h
  · rename_i hctl
    rw [if_neg hctl]
    obtain ⟨v, hv⟩ := List.exists_mem_of_ne_nil _ h
    obtain ⟨w, hw, hwv⟩ := List.mem_filterMap.mp hv
    obtain ⟨t, ht, hw⟩ := List.mem_flatMap.mp hw
    exact List.ne_nil_of_mem (List.mem_filterMap.mpr
      ⟨w, List.mem_flatMap.mpr ⟨t, hsub ht, hw⟩, hwv⟩)

theorem mem_triggerChannels {tasks : List TaskWrites} {channels : OrdDict String Channel}
    {chan : String} : chan ∈ triggerChannels tasks channels ↔
      (∃ t ∈ tasks, chan ∈ t.triggers) ∧ chan ∉ reserved ∧ (channels.get? chan).isSome := by
  simp [triggerChannels, OrdDict.contains]

/-- The version of a channel that a node has seen. -/
def Checkpoint.seenVersion (cp : Checkpoint V) (node chan : String) : Option V :=
  (cp.versionsSeen.get? node).bind (·.get? chan)

/-- Some task of the list has this name and this trigger. -/
def Marks (tasks : List TaskWrites) (node chan : String) : Prop :=
  ∃ t ∈ tasks, t.name = node ∧ chan ∈ t.triggers

theorem get?_setAll_seen (versions : OrdDict String V) (chan : String) :
    ∀ (trigs : List String) (d : OrdDict String V),
      (d.setAll (trigs.filterMap fun c => (versions.get? c).map (c, ·))).get? chan =
        if chan ∈ trigs ∧ (versions.get? chan).isSome then versions.get? chan else d.get? chan
  | [], d => by simp
  | c :: trigs, d => by
    cases hv : versions.get? c with
    | none =>
      rw [List.filterMap_cons_none (by simp [hv]), get?_setAll_seen versions chan trigs]
      by_cases hc : chan = c
      · subst hc
        simp [hv]
      · simp [hc]
    | some v =>
      rw [List.filterMap_cons_some (b := (c, v)) (by simp [hv]), OrdDict.setAll_cons,
        get?_setAll_seen versions chan trigs]
      by_cases hc : chan = c
      · subst hc
        simp [hv]
      · simp [hc, OrdDict.get?_set_of_ne hc]

theorem seenVersion_markSeen (cp : Checkpoint V) (t : TaskWrites) (node chan : String) :
    (markSeen cp t).seenVersion node chan =
      if t.name = node ∧ chan ∈ t.triggers ∧ (cp.channelVersions.get? chan).isSome then
        cp.channelVersions.get? chan
      else cp.seenVersion node chan := by
  unfold Checkpoint.seenVersion markSeen
  by_cases hn : t.name = node
  · subst hn
    simp only [OrdDict.get?_set_self, Option.bind_some, get?_setAll_seen, true_and, OrdDict.getD]
    split
    · rfl
    · cases cp.versionsSeen.get? t.name <;> rfl
  · simp [hn, OrdDict.get?_set_of_ne (Ne.symm hn)]

theorem channelVersions_foldl_markSeen : ∀ (tasks : List TaskWrites) (cp : Checkpoint V),
    (tasks.foldl markSeen cp).channelVersions = cp.channelVersions
  | [], _ => rfl
  | t :: tasks, cp => channelVersions_foldl_markSeen tasks (markSeen cp t)

theorem id_foldl_markSeen : ∀ (tasks : List TaskWrites) (cp : Checkpoint V),
    (tasks.foldl markSeen cp).id = cp.id
  | [], _ => rfl
  | t :: tasks, cp => id_foldl_markSeen tasks (markSeen cp t)

open Classical in
/-- `versions_seen` after the tasks: the versions of their own triggers. -/
theorem seenVersion_foldl_markSeen (node chan : String) :
    ∀ (tasks : List TaskWrites) (cp : Checkpoint V),
      (tasks.foldl markSeen cp).seenVersion node chan =
        if Marks tasks node chan ∧ (cp.channelVersions.get? chan).isSome then
          cp.channelVersions.get? chan
        else cp.seenVersion node chan
  | [], cp => by simp [Marks]
  | t :: tasks, cp => by
    have ih := seenVersion_foldl_markSeen node chan tasks (markSeen cp t)
    have hv : (markSeen cp t).channelVersions = cp.channelVersions := rfl
    rw [List.foldl_cons, ih, hv, seenVersion_markSeen]
    have hcons : Marks (t :: tasks) node chan ↔
        (t.name = node ∧ chan ∈ t.triggers) ∨ Marks tasks node chan := by
      simp [Marks]
    by_cases hm : Marks tasks node chan
    · simp only [hm, true_and, hcons, or_true]
      split
      · rfl
      · rename_i hs
        rw [if_neg fun h => hs h.2.2]
    · simp only [hm, false_and, if_false, hcons, or_false, and_assoc]

theorem isSome_versionsSeen_foldl_markSeen (node : String) :
    ∀ (tasks : List TaskWrites) (cp : Checkpoint V),
      ((tasks.foldl markSeen cp).versionsSeen.get? node).isSome ↔
        (cp.versionsSeen.get? node).isSome ∨ ∃ t ∈ tasks, t.name = node
  | [], cp => by simp
  | t :: tasks, cp => by
    rw [List.foldl_cons, isSome_versionsSeen_foldl_markSeen node tasks]
    have ht : ((markSeen cp t).versionsSeen.get? node).isSome ↔
        (cp.versionsSeen.get? node).isSome ∨ t.name = node := by
      unfold markSeen
      by_cases hn : t.name = node
      · subst hn
        simp
      · simp [hn, OrdDict.get?_set_of_ne (Ne.symm hn)]
    rw [ht]
    simp [or_assoc]

end Views

/-! ## The call -/

section Call
variable {V : Type} [LinearOrder V]

open ChannelView

/-- What no phase changes. -/
def ApplyState.frame (s : ApplyState V) :=
  (s.checkpoint.id, s.checkpoint.channelValues, s.checkpoint.versionsSeen,
    s.checkpoint.updatedChannels, s.channels.keys)

omit [LinearOrder V] in
theorem keys_set_of_get? {d : OrdDict String Channel} {chan : String} {c : Channel}
    (h : d.get? chan = some c) (c' : Channel) : (d.set chan c').keys = d.keys := by
  rw [OrdDict.keys_set, if_pos (OrdDict.mem_keys_iff.mpr ⟨c, h⟩)]

omit [LinearOrder V] in
theorem frame_consumeOne (v : V) (s : ApplyState V) (chan : String) :
    (consumeOne (some v) s chan).frame = s.frame := by
  unfold consumeOne
  cases h : s.channels.get? chan with
  | none => rfl
  | some c =>
    rcases Bool.eq_false_or_eq_true c.consume.2 with hc | hc <;>
      simp [hc, ApplyState.frame, Checkpoint.setVersion, keys_set_of_get? h]

omit [LinearOrder V] in
theorem frame_recordUpdate (v : V) (s : ApplyState V) {chan : String} {c : Channel}
    (h : s.channels.get? chan = some c) (c' : Channel) (changed : Bool) :
    (recordUpdate (some v) chan c' changed s).frame = s.frame := by
  unfold recordUpdate
  cases changed <;> simp [ApplyState.frame, Checkpoint.setVersion, keys_set_of_get? h]

omit [LinearOrder V] in
theorem frame_updateOne {v : V} {s s' : ApplyState V} {chan : String} {vals : List PyVal}
    (h : updateOne (some v) s chan vals = (s', .ok ())) : s'.frame = s.frame := by
  unfold updateOne at h
  cases hc : s.channels.get? chan with
  | none =>
    rw [hc] at h
    cases h
    rfl
  | some c =>
    rw [hc] at h
    match hu : c.update vals with
    | (c', .error e) =>
      simp only [hu] at h
      cases h
    | (c', .ok changed) =>
      simp only [hu] at h
      cases h
      exact frame_recordUpdate v s hc c' changed

omit [LinearOrder V] in
theorem frame_bumpOne {v : V} {s s' : ApplyState V} {chan : String}
    (h : bumpOne (some v) s chan = (s', .ok ())) : s'.frame = s.frame := by
  unfold bumpOne at h
  split at h
  · exact frame_updateOne h
  · cases h
    rfl

omit [LinearOrder V] in
theorem frame_finishOne (v : V) (s : ApplyState V) (chan : String) :
    (finishOne (some v) s chan).frame = s.frame := by
  unfold finishOne
  cases hc : s.channels.get? chan with
  | none => rfl
  | some c => exact frame_recordUpdate v s hc _ _

omit [LinearOrder V] in
theorem frame_foldl {f : ApplyState V → String → ApplyState V}
    (hf : ∀ s chan, (f s chan).frame = s.frame) :
    ∀ (l : List String) (s : ApplyState V), (l.foldl f s).frame = s.frame
  | [], _ => rfl
  | chan :: l, s => (frame_foldl hf l (f s chan)).trans (hf s chan)

omit [LinearOrder V] in
/-- The `update` phase. -/
theorem updateAll_ok {v : V} {s s' : ApplyState V} {entries : List (String × List PyVal)}
    (hn : (entries.map Prod.fst).Nodup) (h : updateAll (some v) s entries = (s', .ok ())) :
    s'.frame = s.frame ∧ (∀ chan, chan ∉ entries.map Prod.fst → s'.view chan = s.view chan) ∧
      ∀ e ∈ entries, Option.Rel (Updates v e.2) (s.view e.1) (s'.view e.1) := by
  refine ⟨?_, ?_⟩
  · refine KeyedFold.foldE_induction (P := fun t => t.frame = s.frame) ?_ h rfl
    intro t e t' ht hs
    exact (frame_updateOne ht).trans hs
  · exact KeyedFold.view_foldE Prod.fst (P := fun e w w' => Option.Rel (Updates v e.2) w w')
      (fun t e t' ht => (updateOne_ok ht).1) (fun t e t' c ht hc => (updateOne_ok ht).2 c hc) hn h

omit [LinearOrder V] in
/-- The notification of the channels. -/
theorem bumpAll_ok {v : V} {s s' : ApplyState V}
    (h : bumpAll (some v) s s.channels.keys = (s', .ok ())) :
    s'.frame = s.frame ∧ ∀ chan, Option.Rel (Bumps v) (s.view chan) (s'.view chan) := by
  have hn : (s.channels.keys.map id).Nodup := by
    rw [List.map_id]
    exact s.channels.keys_nodup
  obtain ⟨hout, hin⟩ := KeyedFold.view_foldE id
    (P := fun _ w w' => Option.Rel (Bumps v) w w')
    (fun t e t' ht => (bumpOne_ok ht).1) (fun t e t' c ht hc => (bumpOne_ok ht).2 c hc) hn h
  refine ⟨?_, ?_⟩
  · refine KeyedFold.foldE_induction (P := fun t => t.frame = s.frame) ?_ h rfl
    intro t e t' ht hs
    exact (frame_bumpOne ht).trans hs
  · intro chan
    by_cases hc : chan ∈ s.channels.keys
    · exact hin chan hc
    · rw [hout chan (by simpa using hc)]
      have hnone : s.view chan = none := by
        rw [ApplyState.view, OrdDict.get?_eq_none_iff.mpr hc]
        rfl
      rw [hnone]
      exact Option.Rel.none

/-- Everything a call that raises nothing does: `v` is the new version, and
    `finished` tells whether the call ended with `finish`. -/
structure ApplyResult (cp : Checkpoint V) (channels : OrdDict String Channel)
    (tasks : List TaskWrites) (v : V) (finished : Bool) (s : ApplyState V) : Prop where
  frame : s.frame = ApplyState.frame
    ⟨(SortBy.sortBy TaskWrites.sortKey tasks).foldl markSeen cp, channels, []⟩
  view : ∀ chan, Option.Rel
    (Applied v (decide (chan ∈ triggerChannels tasks channels))
      (writesFor (SortBy.sortBy TaskWrites.sortKey tasks) chan)
      (tasks.any fun t => !t.triggers.isEmpty) finished)
    (ApplyState.view chan ⟨cp, channels, []⟩) (s.view chan)

/-- The channels are notified of the end of the run: it was a step, and no channel
    that it updated triggers a node. -/
def finishes (ttn : TriggerToNodes) (bump : Bool) (s : ApplyState V) : Bool :=
  bump && s.updatedChannels.all fun chan => !ttn.contains chan

omit [LinearOrder V] in
/-- The notification, that leaves `s₃`, and the end of the run. -/
theorem endStep_ok {v : V} {bump : Bool} {ttn : TriggerToNodes} {s s' : ApplyState V}
    (h : endStep (some v) bump ttn s = (s', .ok ())) :
    ∃ s₃ : ApplyState V, s₃.frame = s.frame ∧ s'.frame = s.frame ∧
      (∀ chan, Option.Rel (fun w w₃ => if bump then Bumps v w w₃ else w₃ = w)
        (s.view chan) (s₃.view chan)) ∧
      ∀ chan, s'.view chan =
        (s₃.view chan).map fun w => if finishes ttn bump s₃ then w.finish v else w := by
  unfold endStep at h
  cases bump with
  | false =>
    cases h
    refine ⟨s, rfl, rfl, fun chan => ?_, fun chan => ?_⟩
    · cases s.view chan with
      | none => exact Option.Rel.none
      | some w => exact Option.Rel.some rfl
    · cases s.view chan <;> rfl
  | true =>
    simp only [if_true] at h
    rcases hb : bumpAll (some v) s s.channels.keys with ⟨s₃, e | ⟨⟩⟩
    · simp only [hb] at h
      cases h
    · obtain ⟨hframe, hview⟩ := bumpAll_ok hb
      simp only [hb] at h
      split at h
      · next hall =>
        cases h
        have hfin : finishes ttn true s₃ = true := hall
        refine ⟨s₃, hframe, (frame_foldl (frame_finishOne v) _ s₃).trans hframe, hview, fun chan => ?_⟩
        rw [hfin, KeyedFold.view_foldl
          (fun t c => view_finishOne_self v t c) (fun t c c' hc => view_finishOne_of_ne v t hc) chan
          s₃.channels.keys s₃ s₃.channels.keys_nodup]
        by_cases hmem : chan ∈ s₃.channels.keys
        · rw [if_pos hmem]
          rfl
        · have hnone : s₃.view chan = none := by
            rw [ApplyState.view, OrdDict.get?_eq_none_iff.mpr hmem]
            rfl
          rw [if_neg hmem, hnone]
          rfl
      · next hall =>
        cases h
        have hfin : finishes ttn true s' = false := Bool.eq_false_iff.mpr hall
        refine ⟨s', hframe, hframe, hview, fun chan => ?_⟩
        rw [hfin]
        cases s'.view chan <;> rfl

/-- The version that the channels which change in a call receive. -/
def Checkpoint.next (cp : Checkpoint V) (getNextVersion : GetNextVersion V) : V :=
  getNextVersion cp.channelVersions.values.max?

omit [LinearOrder V] in
/-- The consumption of the triggers. -/
theorem view_consumeAll (v : V) (tasks : List TaskWrites) (channels : OrdDict String Channel)
    (s : ApplyState V) (chan : String) :
    ((triggerChannels tasks channels).foldl (consumeOne (some v)) s).view chan =
      (s.view chan).map fun w =>
        if chan ∈ triggerChannels tasks channels then w.consume v else w := by
  have hn : (triggerChannels tasks channels).Nodup := List.nodup_dedup _
  rw [KeyedFold.view_foldl (fun t c => view_consumeOne_self v t c)
    (fun t c c' hc => view_consumeOne_of_ne v t hc) chan _ s hn]
  by_cases h : chan ∈ triggerChannels tasks channels
  · simp [h]
  · simp [h]

omit [LinearOrder V] in
theorem updateAll_groupWrites {v : V} {tasks : List TaskWrites} {channels : OrdDict String Channel}
    {s s' : ApplyState V} (hkeys : s.channels.keys = channels.keys)
    (h : updateAll (some v) s (groupWrites tasks channels).entries = (s', .ok ())) :
    s'.frame = s.frame ∧ ∀ chan, Option.Rel
      (fun w w' => if writesFor tasks chan = [] then w' = w
        else w.Updates v (writesFor tasks chan) w')
      (s.view chan) (s'.view chan) := by
  obtain ⟨hframe, hout, hin⟩ := updateAll_ok (groupWrites tasks channels).nodup h
  refine ⟨hframe, fun chan => ?_⟩
  have hgroup := get?_groupWrites tasks channels chan
  by_cases hskip : channels.contains chan = false ∨ writesFor tasks chan = []
  · rw [if_pos hskip] at hgroup
    rw [hout chan (OrdDict.get?_eq_none_iff.mp hgroup)]
    cases hv : s.view chan with
    | none => exact Option.Rel.none
    | some w =>
      refine Option.Rel.some ?_
      rcases hskip with hskip | hskip
      · have hmem : chan ∈ s.channels.keys := by
          rw [ApplyState.view, Option.map_eq_some_iff] at hv
          obtain ⟨c, hc, -⟩ := hv
          exact OrdDict.mem_keys_iff.mpr ⟨c, hc⟩
        rw [hkeys, ← OrdDict.contains_iff, hskip] at hmem
        cases hmem
      · rw [if_pos hskip]
  · rw [if_neg hskip] at hgroup
    have hrel := hin _ (OrdDict.get?_eq_some_iff.mp hgroup)
    rw [not_or] at hskip
    simp only [if_neg hskip.2]
    exact hrel

/-- What a call that raises nothing does, with the state `s₃` before the end of the run. -/
structure ApplyPhases (cp : Checkpoint V) (channels : OrdDict String Channel)
    (tasks : List TaskWrites) (v : V) (ttn : TriggerToNodes) (s₃ s : ApplyState V) : Prop where
  frame : s.frame = ApplyState.frame
    ⟨(SortBy.sortBy TaskWrites.sortKey tasks).foldl markSeen cp, channels, []⟩
  keys : s₃.channels.keys = channels.keys
  notified : ∀ chan, Option.Rel
    (Notified v (decide (chan ∈ triggerChannels tasks channels))
      (writesFor (SortBy.sortBy TaskWrites.sortKey tasks) chan)
      (tasks.any fun t => !t.triggers.isEmpty))
    (ApplyState.view chan ⟨cp, channels, []⟩) (s₃.view chan)
  finished : ∀ chan, s.view chan = (s₃.view chan).map fun w =>
    if finishes ttn (tasks.any fun t => !t.triggers.isEmpty) s₃ then w.finish v else w

theorem applyWrites_phases {cp : Checkpoint V} {channels : OrdDict String Channel}
    {tasks : List TaskWrites} {getNextVersion : GetNextVersion V} {ttn : TriggerToNodes}
    {s : ApplyState V}
    (h : applyWrites cp channels tasks (some getNextVersion) ttn = (s, .ok ())) :
    ∃ s₃, ApplyPhases cp channels tasks (cp.next getNextVersion) ttn s₃ s := by
  unfold applyWrites at h
  have hperm := SortBy.perm_sortBy TaskWrites.sortKey tasks
  generalize hsorted : SortBy.sortBy TaskWrites.sortKey tasks = sorted at h hperm
  have hnv : nextVersion (some getNextVersion) (sorted.foldl markSeen cp) =
      some (cp.next getNextVersion) := by
    rw [nextVersion, channelVersions_foldl_markSeen]
    rfl
  have hbump : (sorted.any fun t => !t.triggers.isEmpty) =
      tasks.any fun t => !t.triggers.isEmpty := by
    rw [Bool.eq_iff_iff, List.any_eq_true, List.any_eq_true]
    simp only [hperm.mem_iff]
  simp only [hnv, hbump] at h
  generalize cp.next getNextVersion = v at h
  have hview₀ : ∀ chan, ApplyState.view chan ⟨sorted.foldl markSeen cp, channels, []⟩ =
      ApplyState.view chan ⟨cp, channels, []⟩ := by
    intro chan
    simp only [ApplyState.view, channelVersions_foldl_markSeen]
  have htriggers : ∀ chan, chan ∈ triggerChannels sorted channels ↔
      chan ∈ triggerChannels tasks channels := by
    intro chan
    simp only [mem_triggerChannels, hperm.mem_iff]
  have hview₁ := view_consumeAll v sorted channels ⟨sorted.foldl markSeen cp, channels, []⟩
  have hframe₁ := frame_foldl (frame_consumeOne v) (triggerChannels sorted channels)
    ⟨sorted.foldl markSeen cp, channels, []⟩
  generalize (triggerChannels sorted channels).foldl (consumeOne (some v))
    ⟨sorted.foldl markSeen cp, channels, []⟩ = s₁ at h hview₁ hframe₁
  match hu : updateAll (some v) s₁ (groupWrites sorted channels).entries with
  | (s₂, .error e) =>
    simp only [hu] at h
    cases h
  | (s₂, .ok ()) =>
    simp only [hu] at h
    have hkeys : s₁.channels.keys = channels.keys := congrArg (fun f => f.2.2.2.2) hframe₁
    obtain ⟨hframe₂, hview₂⟩ := updateAll_groupWrites hkeys hu
    obtain ⟨s₃, hframe₃, hframe₄, hview₃, hview₄⟩ := endStep_ok h
    refine ⟨s₃, ⟨?_, ?_, fun chan => ?_, hview₄⟩⟩
    · rw [hsorted]
      exact hframe₄.trans (hframe₂.trans hframe₁)
    · exact congrArg (fun f => f.2.2.2.2) (hframe₃.trans (hframe₂.trans hframe₁))
    · rw [hsorted]
      have h₁ := hview₁ chan
      have h₂ := hview₂ chan
      have h₃ := hview₃ chan
      rw [hview₀ chan] at h₁
      rw [h₁] at h₂
      generalize ApplyState.view chan ⟨cp, channels, []⟩ = w at h₂ ⊢
      generalize s₂.view chan = w₂ at h₂ h₃
      generalize s₃.view chan = w₃ at h₃ ⊢
      cases w with
      | none =>
        cases h₂
        cases h₃
        exact Option.Rel.none
      | some w =>
        cases h₂ with
        | some hw₂ =>
          cases h₃ with
          | some hw₃ =>
            refine Option.Rel.some ⟨_, _, ?_, hw₂, hw₃⟩
            simp only [htriggers, decide_eq_true_eq]

theorem applyWrites_spec {cp : Checkpoint V} {channels : OrdDict String Channel}
    {tasks : List TaskWrites} {getNextVersion : GetNextVersion V} {ttn : TriggerToNodes}
    {s : ApplyState V}
    (h : applyWrites cp channels tasks (some getNextVersion) ttn = (s, .ok ())) :
    ∃ finished, ApplyResult cp channels tasks (cp.next getNextVersion) finished s := by
  obtain ⟨s₃, hphases⟩ := applyWrites_phases h
  refine ⟨finishes ttn (tasks.any fun t => !t.triggers.isEmpty) s₃, hphases.frame, fun chan => ?_⟩
  have hnotified := hphases.notified chan
  rw [hphases.finished chan]
  generalize ApplyState.view chan ⟨cp, channels, []⟩ = w at hnotified ⊢
  generalize s₃.view chan = w₃ at hnotified ⊢
  cases hnotified with
  | none => exact Option.Rel.none
  | some hw =>
    obtain ⟨w₁, w₂, h₁, h₂, h₃⟩ := hw
    exact Option.Rel.some ⟨w₁, w₂, _, h₁, h₂, h₃, rfl⟩

/-! ### What a call keeps, whether it raises or not -/

/-- What the phases make of a channel. -/
inductive Channel.Touched (c : Channel) : Channel → Prop where
  | consume : Channel.Touched c c.consume.1
  | update (vals : List PyVal) : Channel.Touched c (c.update vals).1
  | finish : Channel.Touched c c.finish.1

section Invariant
variable {P : Checkpoint V → OrdDict String Channel → Prop} {v : V}
  (htouch : ∀ cp channels chan c c', P cp channels → channels.get? chan = some c → c.Touched c' →
    P cp (channels.set chan c'))
  (hversion : ∀ cp channels chan, P cp channels → chan ∈ channels.keys →
    P (cp.setVersion chan v) channels)

include htouch hversion

omit [LinearOrder V] in
theorem consumeOne_invariant (s : ApplyState V) (chan : String) (h : P s.checkpoint s.channels) :
    P (consumeOne (some v) s chan).checkpoint (consumeOne (some v) s chan).channels := by
  unfold consumeOne
  cases hc : s.channels.get? chan with
  | none => exact h
  | some c =>
    have ht := htouch _ _ _ _ _ h hc .consume
    have hmem : chan ∈ (s.channels.set chan c.consume.1).keys :=
      OrdDict.mem_keys_set.mpr (Or.inl rfl)
    cases hb : c.consume.2 with
    | false =>
      simp only [hb]
      exact ht
    | true =>
      simp only [hb]
      exact hversion _ _ _ ht hmem

omit [LinearOrder V] in
theorem recordUpdate_invariant (s : ApplyState V) {chan : String} {c c' : Channel} (changed : Bool)
    (h : P s.checkpoint s.channels) (hc : s.channels.get? chan = some c) (ht : c.Touched c') :
    P (recordUpdate (some v) chan c' changed s).checkpoint
      (recordUpdate (some v) chan c' changed s).channels := by
  have hset := htouch _ _ _ _ _ h hc ht
  have hmem : chan ∈ (s.channels.set chan c').keys := OrdDict.mem_keys_set.mpr (Or.inl rfl)
  cases changed with
  | false => exact hset
  | true => exact hversion _ _ _ hset hmem

omit [LinearOrder V] in
theorem updateOne_invariant (s : ApplyState V) (chan : String) (vals : List PyVal)
    (h : P s.checkpoint s.channels) : P (updateOne (some v) s chan vals).1.checkpoint
      (updateOne (some v) s chan vals).1.channels := by
  unfold updateOne
  cases hc : s.channels.get? chan with
  | none => exact h
  | some c =>
    have ht : c.Touched (c.update vals).1 := .update vals
    match hu : c.update vals with
    | (c', .error e) =>
      rw [hu] at ht
      simp only [hu]
      exact htouch _ _ _ _ _ h hc ht
    | (c', .ok changed) =>
      rw [hu] at ht
      simp only [hu]
      exact recordUpdate_invariant htouch hversion s changed h hc ht

omit [LinearOrder V] in
theorem endStep_invariant (s : ApplyState V) (bump : Bool) (ttn : TriggerToNodes)
    (h : P s.checkpoint s.channels) : P (endStep (some v) bump ttn s).1.checkpoint
      (endStep (some v) bump ttn s).1.channels := by
  unfold endStep
  cases bump with
  | false => exact h
  | true =>
    have hb : P (bumpAll (some v) s s.channels.keys).1.checkpoint
        (bumpAll (some v) s s.channels.keys).1.channels := by
      refine KeyedFold.foldE_invariant (P := fun t : ApplyState V => P t.checkpoint t.channels)
        ?_ _ s h
      intro t chan ht
      unfold bumpOne
      split
      · exact updateOne_invariant htouch hversion t chan [] ht
      · exact ht
    simp only [if_true]
    rcases hs : bumpAll (some v) s s.channels.keys with ⟨s', e | ⟨⟩⟩
    · rw [hs] at hb
      exact hb
    · rw [hs] at hb
      simp only
      split
      · refine List.foldlRecOn (motive := fun t : ApplyState V => P t.checkpoint t.channels)
          _ _ hb ?_
        intro t ht chan _
        unfold finishOne
        cases hc : t.channels.get? chan with
        | none => exact ht
        | some c => exact recordUpdate_invariant htouch hversion t _ ht hc .finish
      · exact hb

/-- What the phases keep of the checkpoint and the channels holds at the end of a
    call, also when a channel raised. -/
theorem applyWrites_invariant (cp : Checkpoint V) (channels : OrdDict String Channel)
    (tasks : List TaskWrites) (getNextVersion : GetNextVersion V) (ttn : TriggerToNodes)
    (hv : cp.next getNextVersion = v)
    (h : P ((SortBy.sortBy TaskWrites.sortKey tasks).foldl markSeen cp) channels) :
    P (applyWrites cp channels tasks (some getNextVersion) ttn).1.checkpoint
      (applyWrites cp channels tasks (some getNextVersion) ttn).1.channels := by
  unfold applyWrites
  generalize SortBy.sortBy TaskWrites.sortKey tasks = sorted at h ⊢
  have hnv : nextVersion (some getNextVersion) (sorted.foldl markSeen cp) = some v := by
    rw [nextVersion, channelVersions_foldl_markSeen, ← hv]
    rfl
  simp only [hnv]
  have hconsumed : P ((triggerChannels sorted channels).foldl (consumeOne (some v))
      ⟨sorted.foldl markSeen cp, channels, []⟩).checkpoint
      ((triggerChannels sorted channels).foldl (consumeOne (some v))
      ⟨sorted.foldl markSeen cp, channels, []⟩).channels := by
    refine List.foldlRecOn (motive := fun t : ApplyState V => P t.checkpoint t.channels) _ _ h ?_
    exact fun t ht chan _ => consumeOne_invariant htouch hversion t chan ht
  generalize (triggerChannels sorted channels).foldl (consumeOne (some v))
    ⟨sorted.foldl markSeen cp, channels, []⟩ = s₁ at hconsumed ⊢
  have hupdated := KeyedFold.foldE_invariant
    (f := fun s (e : String × List PyVal) => updateOne (some v) s e.1 e.2)
    (P := fun t : ApplyState V => P t.checkpoint t.channels)
    (fun t e ht => updateOne_invariant htouch hversion t e.1 e.2 ht)
    (groupWrites sorted channels).entries s₁ hconsumed
  match hu : updateAll (some v) s₁ (groupWrites sorted channels).entries with
  | (s₂, .error e) =>
    rw [updateAll] at hu
    rwa [hu] at hupdated
  | (s₂, .ok ()) =>
    rw [updateAll] at hu
    rw [hu] at hupdated
    exact endStep_invariant htouch hversion s₂ _ ttn hupdated

end Invariant

end Call

/-! ## What a call leaves of a channel -/

section Channels
variable {V : Type} {v : V} {w w' : ChannelView V}

namespace ChannelView

theorem Updates.channel_eq {vals : List PyVal} (h : Updates v vals w w') :
    w'.channel = (w.channel.update vals).1 := by
  obtain ⟨changed, hu, -⟩ := h
  rw [hu]

section Invariant
variable {P : Channel → Prop} (hconsume : ∀ c, P c → P c.consume.1)
  (hupdate : ∀ c vals, P c → P (c.update vals).1) (hfinish : ∀ c, P c → P c.finish.1)

include hupdate in
theorem Bumps.invariant (h : Bumps v w w') (hw : P w.channel) : P w'.channel := by
  unfold Bumps at h
  split at h
  · rw [Updates.channel_eq h]
    exact hupdate _ _ hw
  · rw [h]
    exact hw

include hconsume hupdate hfinish in
/-- A call keeps what `consume`, `update` and `finish` keep. -/
theorem Applied.invariant {consumed bump finished : Bool} {vals : List PyVal}
    (h : Applied v consumed vals bump finished w w') (hw : P w.channel) : P w'.channel := by
  obtain ⟨w₁, w₂, w₃, h₁, h₂, h₃, h₄⟩ := h
  have hp₁ : P w₁.channel := by
    rw [h₁]
    split
    · exact hconsume _ hw
    · exact hw
  have hp₂ : P w₂.channel := by
    split at h₂
    · rw [h₂]
      exact hp₁
    · rw [Updates.channel_eq h₂]
      exact hupdate _ _ hp₁
  have hp₃ : P w₃.channel := by
    split at h₃
    · exact Bumps.invariant hupdate h₃ hp₂
    · rw [h₃]
      exact hp₂
  rw [h₄]
  split
  · exact hfinish _ hp₃
  · exact hp₃

end Invariant

/-- A call changes no more of a channel than `from_checkpoint` sets. -/
theorem Applied.sameSpec {consumed bump finished : Bool} {vals : List PyVal}
    (h : Applied v consumed vals bump finished w w') : w'.channel.SameSpec w.channel :=
  h.invariant (P := fun c => c.SameSpec w.channel) (fun c hc => c.sameSpec_consume.trans hc)
    (fun c vals hc => (c.sameSpec_update vals).trans hc) (fun c hc => c.sameSpec_finish.trans hc) rfl

/-- The phase gave the channel the new version, or it left the channel as it was. -/
def Kept (v : V) (w w' : ChannelView V) : Prop :=
  w'.version = some v ∨ w'.channel = w.channel ∧ w'.version = w.version

theorem Kept.trans {w'' : ChannelView V} (h : Kept v w w') (h' : Kept v w' w'') : Kept v w w'' := by
  rcases h' with hv | ⟨hc', hv'⟩
  · exact Or.inl hv
  · rcases h with hv | ⟨hc, hv⟩
    · exact Or.inl (hv'.trans hv)
    · exact Or.inr ⟨hc'.trans hc, hv'.trans hv⟩

theorem kept_refl (v : V) (w : ChannelView V) : Kept v w w := Or.inr ⟨rfl, rfl⟩

theorem Updates.kept {vals : List PyVal} (h : Updates v vals w w') : Kept v w w' := by
  obtain ⟨changed, hu, hw⟩ := h
  rw [hw]
  cases changed with
  | false =>
    rw [Channel.update_false hu]
    exact Or.inr ⟨rfl, rfl⟩
  | true => exact Or.inl rfl

theorem Bumps.kept (h : Bumps v w w') : Kept v w w' := by
  unfold Bumps at h
  split at h
  · exact Updates.kept h
  · rw [h]
    exact kept_refl v w

theorem finish_kept (v : V) (w : ChannelView V) : Kept v w (w.finish v) := by
  unfold finish
  cases hf : w.channel.finish.2 with
  | false =>
    rw [Channel.finish_false hf]
    exact Or.inr ⟨rfl, rfl⟩
  | true => exact Or.inl rfl

theorem consume_kept (v : V) (w : ChannelView V) : Kept v w (w.consume v) := by
  cases hc : w.channel.consume.2 with
  | false => exact Or.inr ⟨by simp [consume, Channel.consume_false hc], by simp [consume, hc]⟩
  | true => exact Or.inl (by simp [consume, hc])

/-- A call gives a channel the new version, or leaves it as it was. -/
theorem Applied.kept {consumed bump finished : Bool} {vals : List PyVal}
    (h : Applied v consumed vals bump finished w w') : Kept v w w' := by
  obtain ⟨w₁, w₂, w₃, h₁, h₂, h₃, h₄⟩ := h
  have hk₁ : Kept v w w₁ := by
    rw [h₁]
    split
    · exact consume_kept v w
    · exact kept_refl v w
  have hk₂ : Kept v w₁ w₂ := by
    split at h₂
    · rw [h₂]
      exact kept_refl v w₁
    · exact h₂.kept
  have hk₃ : Kept v w₂ w₃ := by
    split at h₃
    · exact h₃.kept
    · rw [h₃]
      exact kept_refl v w₂
  have hk₄ : Kept v w₃ w' := by
    rw [h₄]
    split
    · exact finish_kept v w₃
    · exact kept_refl v w₃
  exact ((hk₁.trans hk₂).trans hk₃).trans hk₄

/-- A channel keeps its version in a call, or gets the new one. -/
theorem Applied.version {consumed bump finished : Bool} {vals : List PyVal}
    (h : Applied v consumed vals bump finished w w') :
    w'.version = w.version ∨ w'.version = some v :=
  h.kept.elim Or.inr fun hk => Or.inl hk.2

/-- An available channel is among the updated ones, with the new version. -/
def Fresh (v : V) (w : ChannelView V) : Prop :=
  w.channel.isAvailable = true → w.updated = true ∧ w.version = some v

theorem fresh_record (c : Channel) : Fresh v (w.record v c true) := by
  intro ha
  have ha' : c.isAvailable = true := ha
  simp [record, ha']

theorem record_false : w.record v w.channel false = w := by
  simp [record]

theorem Updates.trigger {vals : List PyVal} (ht : w.channel.IsTrigger) (h : Updates v vals w w') :
    w'.channel.IsTrigger ∧ (w' = w ∨ Fresh v w') := by
  obtain ⟨changed, hu, hw⟩ := h
  have ht' := Channel.isTrigger_update ht vals
  rw [hu] at ht'
  refine ⟨ht', ?_⟩
  cases changed with
  | false =>
    rw [Channel.update_false hu] at hw
    exact Or.inl (hw.trans record_false)
  | true =>
    rw [hw]
    exact Or.inr (fresh_record _)

theorem Bumps.trigger (ht : w.channel.IsTrigger) (h : Bumps v w w') :
    w'.channel.IsTrigger ∧ (w' = w ∨ Fresh v w') := by
  unfold Bumps at h
  split at h
  · exact Updates.trigger ht h
  · rw [h]
    exact ⟨ht, Or.inl rfl⟩

/-- The notification clears an `EphemeralValue` that was not updated. -/
theorem Bumps.ephemeral (h : Bumps v w w') (he : w.channel.isEphemeral = true)
    (ha : w.channel.isAvailable = true) (hu : w.updated = false) :
    w'.channel.isAvailable = false := by
  rw [Bumps, if_pos (by rw [ha, hu]; rfl)] at h
  obtain ⟨changed, hup, -⟩ := h
  exact (Channel.update_nil_ephemeral he ha hup).2

theorem finish_trigger (ht : w.channel.IsTrigger) :
    (w.finish v).channel.IsTrigger ∧ (w.finish v = w ∨ Fresh v (w.finish v)) := by
  refine ⟨Channel.isTrigger_finish ht, ?_⟩
  unfold finish
  cases hf : w.channel.finish.2 with
  | false =>
    rw [Channel.finish_false hf]
    exact Or.inl record_false
  | true => exact Or.inr (fresh_record _)

/-- A trigger channel that is available after a call was updated in it, or it is
    as before: no task of the call consumed it, unless it is an `EphemeralValue`,
    and then no step ended. -/
theorem Applied.trigger {consumed bump finished : Bool} {vals : List PyVal}
    (ht : w.channel.IsTrigger) (hu : w.updated = false)
    (h : Applied v consumed vals bump finished w w') :
    w'.channel.IsTrigger ∧ (w'.channel.isAvailable = true →
      w'.updated = true ∧ w'.version = some v ∨
        w' = w ∧ (consumed = true → w.channel.isEphemeral = true) ∧
          (bump = true → w.channel.isEphemeral = false)) := by
  obtain ⟨w₁, w₂, w₃, h₁, h₂, h₃, h₄⟩ := h
  have ht₁ : w₁.channel.IsTrigger := by
    rw [h₁]
    split
    · exact Channel.isTrigger_consume ht
    · exact ht
  have hs₂ : w₂.channel.IsTrigger ∧ (w₂ = w₁ ∨ Fresh v w₂) := by
    split at h₂
    · rw [h₂]
      exact ⟨ht₁, Or.inl rfl⟩
    · exact Updates.trigger ht₁ h₂
  have hs₃ : w₃.channel.IsTrigger ∧ (w₃ = w₂ ∨ Fresh v w₃) := by
    split at h₃
    · exact Bumps.trigger hs₂.1 h₃
    · rw [h₃]
      exact ⟨hs₂.1, Or.inl rfl⟩
  have hs₄ : w'.channel.IsTrigger ∧ (w' = w₃ ∨ Fresh v w') := by
    rw [h₄]
    split
    · exact finish_trigger hs₃.1
    · exact ⟨hs₃.1, Or.inl rfl⟩
  refine ⟨hs₄.1, fun ha => ?_⟩
  -- the last phase that changed the channel left it fresh
  rcases hs₄.2 with e₄ | hfresh
  · rcases hs₃.2 with e₃ | hfresh
    · rcases hs₂.2 with e₂ | hfresh
      · right
        have e : w' = w₁ := e₄.trans (e₃.trans e₂)
        have hcons : consumed = true → w.channel.isEphemeral = true := by
          intro hc
          cases he : w.channel.isEphemeral with
          | true => rfl
          | false =>
            rw [e, h₁, if_pos hc] at ha
            exact absurd ha (by simp [consume, Channel.isAvailable_consume ht he])
        have e₁ : w₁ = w := by
          rw [h₁]
          split
          · rename_i hc
            simp [consume, Channel.consume_ephemeral (hcons hc)]
          · rfl
        refine ⟨e.trans e₁, hcons, fun hb => ?_⟩
        cases he : w.channel.isEphemeral with
        | false => rfl
        | true =>
          rw [if_pos hb, e₂, e₁] at h₃
          rw [e₄] at ha
          have hw : w.channel.isAvailable = true := by rw [← e₁, ← e₂, ← e₃]; exact ha
          rw [Bumps.ephemeral h₃ he hw hu] at ha
          cases ha
      · rw [← e₃, ← e₄] at hfresh
        exact Or.inl (hfresh ha)
    · rw [← e₄] at hfresh
      exact Or.inl (hfresh ha)
  · exact Or.inl (hfresh ha)

end ChannelView
end Channels
end LangGraph
