import Mathlib.Order.Nat
import LangGraph.ApplySpec

/- The read that a node and its conditional edges do of the state.

   Correspondence (source ↔ Lean):
     `local_read` (pregel/_algo.py)                 ↔ `localRead`
     the loop over `local_channels`                 ↔ `freshCopies`
     `read_channel`, `read_channels` (pregel/_io.py) ↔ `readChannels`
     `copy` and `update` of a channel object        ↔ `ChannelObject.copy`, `.update`
   A channel object of a `Topic` or of a barrier refers to a list or a set that
   `update` may change in place; `Heap` holds these, and a fresh read works on
   copies: `freshCopies_spec`. The values themselves are never changed in place:
   operators and reducers are functions. What the copies then hold is compared,
   channel by channel, with what `apply_writes` leaves (`Applied.get_eq`). -/
namespace LangGraph

/-! ## Channel objects -/

/-- The lists and sets that channel objects refer to, by address. -/
abbrev Heap := List (List PyVal)

/-- The list or set in a channel. -/
def Channel.contents : Channel → List PyVal
  | .topic c => c.values
  | .namedBarrierValue c => c.seen
  | .namedBarrierValueAfterFinish c => c.seen
  | _ => []

def Channel.withContents : Channel → List PyVal → Channel
  | .topic c, vs => .topic { c with values := vs }
  | .namedBarrierValue c, vs => .namedBarrierValue { c with seen := vs }
  | .namedBarrierValueAfterFinish c, vs => .namedBarrierValueAfterFinish { c with seen := vs }
  | c, _ => c

/-- A topic that does not accumulate is given a new list by `update`. -/
def Channel.rebinds : Channel → Bool
  | .topic c => !c.accumulate
  | _ => false

/-- A channel object: its own attributes, and the list or set that it refers to. -/
structure ChannelObject where
  shell : Channel
  ref : Option Nat

namespace ChannelObject

/-- The channel as it is seen. -/
def deref (heap : Heap) (o : ChannelObject) : Channel :=
  match o.ref with
  | some a => o.shell.withContents (heap.getD a [])
  | none => o.shell

def copy (heap : Heap) (o : ChannelObject) : Heap × ChannelObject :=
  match o.ref with
  | some a => (heap ++ [heap.getD a []], { o with ref := some heap.length })
  | none => (heap, o)

def update (heap : Heap) (o : ChannelObject) (vals : List PyVal) :
    Heap × ChannelObject × Except PyErr Bool :=
  let r := (o.deref heap).update vals
  match o.ref with
  | some a =>
    if o.shell.rebinds then (heap ++ [r.1.contents], ⟨r.1, some heap.length⟩, r.2)
    else (heap.set a r.1.contents, ⟨r.1, some a⟩, r.2)
  | none => (heap, ⟨r.1, none⟩, r.2)

/-- `cc = channels[k].copy()` and `cc.update(vals)` -/
def updatedCopy (heap : Heap) (o : ChannelObject) (vals : List PyVal) :
    Heap × ChannelObject × Except PyErr Bool :=
  let r := o.copy heap
  r.2.update r.1 vals

end ChannelObject

def derefAll (heap : Heap) (objects : OrdDict String ChannelObject) : OrdDict String Channel :=
  objects.filterMap fun _ o => some (o.deref heap)

/-! ## Reading -/

inductive ReadError where
  | keyError (chan : String)
  | update (e : PyErr)

inductive Reading where
  | value (v : PyVal)
  | mapping (values : OrdDict String PyVal)

/-- The loop of `read_channels`; an empty channel is passed over. -/
def readEach (channels : OrdDict String Channel) :
    OrdDict String PyVal → List String → Except ReadError (OrdDict String PyVal)
  | values, [] => .ok values
  | values, k :: ks =>
    match channels.get? k with
    | none => .error (.keyError k)
    | some c => readEach channels (match c.get with | some v => values.set k v | none => values) ks

/-- `read_channels` -/
def readChannels (channels : OrdDict String Channel) : NodeInput → Except ReadError Reading
  | .single k =>
    match channels.get? k with
    | none => .error (.keyError k)
    | some c => .ok (.value (c.get.getD .none))
  | .list ks => (readEach channels ∅ ks).map .mapping

/-- The keys of managed values are taken out of a list of keys. -/
def managedKeys (managed : OrdDict String PyVal) : NodeInput → List String
  | .single _ => []
  | .list ks => ks.filter fun k => managed.contains k

def stateKeys (managed : OrdDict String PyVal) : NodeInput → NodeInput
  | .single k => .single k
  | .list ks => .list (ks.filter fun k => !managed.contains k)

/-- The channels that the keys name. -/
def selected : NodeInput → List String
  | .single k => [k]
  | .list ks => ks

/-- `values.update({k: managed[k].get(scratchpad) for k in managed_keys})` -/
def withManaged (managed : OrdDict String PyVal) (keys : List String) : Reading → Reading
  | .value v => .value v
  | .mapping values => .mapping (values.setAll (keys.map fun k => (k, managed.getD k .none)))

/-- What a read of channels and managed values returns. -/
def readState (channels : OrdDict String Channel) (managed : OrdDict String PyVal)
    (select : NodeInput) : Except ReadError Reading :=
  (readChannels channels (stateKeys managed select)).map (withManaged managed (managedKeys managed select))

/-- `updated[k]` -/
def updatesOf (writes : List (String × PyVal)) (select : List String) (k : String) : List PyVal :=
  (writes.filter fun w => w.1 ∈ select && w.1 = k).map Prod.snd

/-- The copies of all channels, each updated. -/
def freshCopies (updates : String → List PyVal) :
    Heap → List (String × ChannelObject) → Heap × Except PyErr (List (String × ChannelObject))
  | heap, [] => (heap, .ok [])
  | heap, (k, o) :: objects =>
    match o.updatedCopy heap (updates k) with
    | (heap, _, .error e) => (heap, .error e)
    | (heap, cc, .ok _) =>
      match freshCopies updates heap objects with
      | (heap, .error e) => (heap, .error e)
      | (heap, .ok copies) => (heap, .ok ((k, cc) :: copies))

/-- `local_read`; `managed` has what `get` of each managed value returns. -/
def localRead (heap : Heap) (objects : OrdDict String ChannelObject) (managed : OrdDict String PyVal)
    (writes : List (String × PyVal)) (select : NodeInput) (fresh : Bool) :
    Heap × Except ReadError Reading :=
  if fresh then
    match freshCopies (updatesOf writes (selected (stateKeys managed select))) heap objects.entries with
    | (heap, .error e) => (heap, .error (.update e))
    | (heap, .ok copies) => (heap, readState (derefAll heap (OrdDict.ofList copies)) managed select)
  else (heap, readState (derefAll heap objects) managed select)

/-! ## The copies -/

@[simp] theorem Channel.withContents_contents (c : Channel) : c.withContents c.contents = c := by
  cases c <;> rfl

namespace ChannelObject

/-- The address is one of the heap. -/
def Valid (heap : Heap) (o : ChannelObject) : Prop := ∀ a, o.ref = some a → a < heap.length

theorem getD_eq_of_extends {heap heap' : Heap} (h : heap <+: heap') {a : Nat} (ha : a < heap.length) :
    heap'.getD a [] = heap.getD a [] := by
  obtain ⟨more, rfl⟩ := h
  rw [List.getD_eq_getElem?_getD, List.getD_eq_getElem?_getD, List.getElem?_append_left ha]

theorem getD_concat (heap : Heap) (vs : List PyVal) : (heap ++ [vs]).getD heap.length [] = vs := by simp

/-- An object is not touched by what is put behind the heap. -/
theorem deref_eq_of_extends {heap heap' : Heap} (h : heap <+: heap') {o : ChannelObject} (ho : o.Valid heap) :
    o.deref heap' = o.deref heap := by
  unfold deref
  cases href : o.ref with
  | none => rfl
  | some a => simp only [getD_eq_of_extends h (ho a href)]

theorem Valid.mono {heap heap' : Heap} (h : heap <+: heap') {o : ChannelObject} (ho : o.Valid heap) :
    o.Valid heap' := fun a ha => Nat.lt_of_lt_of_le (ho a ha) h.length_le

/-- The update of a copy changes nothing that was in the heap. -/
theorem updatedCopy_spec (heap : Heap) (o : ChannelObject) (vals : List PyVal) :
    ∃ heap' cc, o.updatedCopy heap vals = (heap', cc, ((o.deref heap).update vals).2) ∧
      heap <+: heap' ∧ cc.Valid heap' ∧ cc.deref heap' = ((o.deref heap).update vals).1 := by
  obtain ⟨shell, ref⟩ := o
  cases ref with
  | none => exact ⟨heap, _, rfl, List.prefix_rfl, (fun _ ha => nomatch ha), rfl⟩
  | some a =>
    have hcopy : deref (heap ++ [heap.getD a []]) ⟨shell, some heap.length⟩ =
        deref heap ⟨shell, some a⟩ := by
      show shell.withContents ((heap ++ [heap.getD a []]).getD heap.length []) = _
      rw [getD_concat]
      rfl
    have hupdate : updatedCopy heap ⟨shell, some a⟩ vals =
        update (heap ++ [heap.getD a []]) ⟨shell, some heap.length⟩ vals := rfl
    rw [hupdate, update, hcopy]
    generalize (deref heap ⟨shell, some a⟩).update vals = r
    cases hre : shell.rebinds with
    | true =>
      -- the new list is behind the copied one
      refine ⟨heap ++ [heap.getD a []] ++ [r.1.contents], ⟨r.1, some (heap.length + 1)⟩, ?_, ?_, ?_, ?_⟩
      · simp
      · rw [List.append_assoc]
        exact List.prefix_append _ _
      · intro b hb
        cases hb
        simp
      · show r.1.withContents ((heap ++ [heap.getD a []] ++ [r.1.contents]).getD (heap.length + 1) []) = _
        have hlen : (heap ++ [heap.getD a []]).length = heap.length + 1 := by simp
        rw [← hlen, getD_concat, Channel.withContents_contents]
    | false =>
      refine ⟨heap ++ [r.1.contents], ⟨r.1, some heap.length⟩, ?_, List.prefix_append _ _, ?_, ?_⟩
      · simp
      · intro b hb
        cases hb
        simp
      · show r.1.withContents ((heap ++ [r.1.contents]).getD heap.length []) = _
        rw [getD_concat, Channel.withContents_contents]

end ChannelObject

open ChannelObject in
/-- Whether they raise or not, the copies leave the heap as it was; if no channel refuses its
    updates, they hold the updated channels. -/
theorem freshCopies_spec (updates : String → List PyVal) : ∀ (objects : List (String × ChannelObject))
    (heap : Heap), (∀ e ∈ objects, e.2.Valid heap) →
    heap <+: (freshCopies updates heap objects).1 ∧
      ((∀ e ∈ objects, ∃ changed, ((e.2.deref heap).update (updates e.1)).2 = .ok changed) →
        ∃ copies, (freshCopies updates heap objects).2 = .ok copies ∧
          copies.map (fun e => (e.1, e.2.deref (freshCopies updates heap objects).1)) =
            objects.map fun e => (e.1, ((e.2.deref heap).update (updates e.1)).1))
  | [], heap, _ => ⟨List.prefix_rfl, fun _ => ⟨[], rfl, rfl⟩⟩
  | (k, o) :: objects, heap, hvalid => by
    obtain ⟨heap₁, cc, hcopy, hpre, hcc, hderef⟩ := updatedCopy_spec heap o (updates k)
    have htail : ∀ e ∈ objects, e.2.Valid heap := fun e he => hvalid e (List.mem_cons_of_mem _ he)
    obtain ⟨hpre', hrest⟩ := freshCopies_spec updates objects heap₁ fun e he => (htail e he).mono hpre
    rw [freshCopies, hcopy]
    cases hr : ((o.deref heap).update (updates k)).2 with
    | error e =>
      refine ⟨hpre, fun hok => ?_⟩
      obtain ⟨changed, hchanged⟩ := hok (k, o) List.mem_cons_self
      rw [hr] at hchanged
      cases hchanged
    | ok changed =>
      have hsame : ∀ e ∈ objects, e.2.deref heap₁ = e.2.deref heap :=
        fun e he => deref_eq_of_extends hpre (htail e he)
      dsimp only
      generalize freshCopies updates heap₁ objects = r at hpre' hrest ⊢
      obtain ⟨heap₂, res⟩ := r
      have hfinal : heap <+: heap₂ := hpre.trans hpre'
      refine ⟨?_, fun hok => ?_⟩
      · cases res <;> exact hfinal
      · obtain ⟨copies, hres, hmap⟩ := hrest fun e he => by
          rw [hsame e he]
          exact hok e (List.mem_cons_of_mem _ he)
        obtain rfl : res = .ok copies := hres
        refine ⟨(k, cc) :: copies, rfl, ?_⟩
        have hhead : cc.deref heap₂ = ((o.deref heap).update (updates k)).1 :=
          (deref_eq_of_extends hpre' hcc).trans hderef
        have htails : objects.map (fun e => (e.1, ((e.2.deref heap₁).update (updates e.1)).1)) =
            objects.map fun e => (e.1, ((e.2.deref heap).update (updates e.1)).1) := by
          apply List.map_congr_left
          intro e he
          rw [hsame e he]
        simp only [List.map_cons, hhead]
        rw [← htails, ← hmap]

theorem entries_derefAll (heap : Heap) (objects : OrdDict String ChannelObject) :
    (derefAll heap objects).entries = objects.entries.map fun e => (e.1, e.2.deref heap) := by
  simp [derefAll, OrdDict.filterMap]

/-- Every object of the channels is in the heap. -/
def WellFormed (heap : Heap) (objects : OrdDict String ChannelObject) : Prop :=
  ∀ e ∈ objects.entries, e.2.Valid heap

theorem derefAll_eq_of_extends {heap heap' : Heap} (h : heap <+: heap') {objects : OrdDict String ChannelObject}
    (hw : WellFormed heap objects) : derefAll heap' objects = derefAll heap objects := by
  apply OrdDict.ext
  rw [entries_derefAll, entries_derefAll]
  apply List.map_congr_left
  intro e he
  rw [ChannelObject.deref_eq_of_extends h (hw e he)]

/-- The channels after each has got its updates. -/
def updatedEach (updates : String → List PyVal) (channels : OrdDict String Channel) :
    OrdDict String Channel := channels.filterMap fun k c => some (c.update (updates k)).1

theorem derefAll_copies {updates : String → List PyVal} {heap heap' : Heap}
    {objects : OrdDict String ChannelObject} {copies : List (String × ChannelObject)}
    (hmap : copies.map (fun e => (e.1, e.2.deref heap')) =
      objects.entries.map fun e => (e.1, ((e.2.deref heap).update (updates e.1)).1)) :
    derefAll heap' (OrdDict.ofList copies) = updatedEach updates (derefAll heap objects) := by
  have hkeys : copies.map Prod.fst = objects.keys := by
    have hfst := congrArg (List.map Prod.fst) hmap
    rwa [List.map_map, List.map_map] at hfst
  have hcopies : (OrdDict.ofList copies).entries = copies :=
    OrdDict.entries_ofList_of_nodup (hkeys ▸ objects.keys_nodup)
  apply OrdDict.ext
  rw [entries_derefAll, hcopies, hmap]
  show _ = (derefAll heap objects).entries.filterMap _
  rw [entries_derefAll, List.filterMap_map]
  simp

/-! ## The reading -/

theorem readEach_congr {channels channels' : OrdDict String Channel} : ∀ (ks : List String)
    (values : OrdDict String PyVal),
    (∀ k ∈ ks, (channels.get? k).map Channel.get = (channels'.get? k).map Channel.get) →
    readEach channels values ks = readEach channels' values ks
  | [], _, _ => rfl
  | k :: ks, values, h => by
    have hk := h k List.mem_cons_self
    have ih := fun values => readEach_congr ks values fun k' hk' => h k' (List.mem_cons_of_mem k hk')
    rw [readEach, readEach]
    cases hc : channels.get? k with
    | none =>
      cases hc' : channels'.get? k with
      | none => rfl
      | some c' => simp [hc, hc'] at hk
    | some c =>
      cases hc' : channels'.get? k with
      | none => simp [hc, hc'] at hk
      | some c' =>
        have hget : c.get = c'.get := by simpa [hc, hc'] using hk
        simp only [hget]
        exact ih _

theorem readState_congr {channels channels' : OrdDict String Channel} (managed : OrdDict String PyVal)
    (select : NodeInput) (h : ∀ k ∈ selected (stateKeys managed select),
      (channels.get? k).map Channel.get = (channels'.get? k).map Channel.get) :
    readState channels managed select = readState channels' managed select := by
  have hread : readChannels channels (stateKeys managed select) =
      readChannels channels' (stateKeys managed select) := by
    generalize stateKeys managed select = keys at h ⊢
    cases keys with
    | single k =>
      have hk := h k List.mem_cons_self
      rw [readChannels, readChannels]
      cases hc : channels.get? k with
      | none =>
        cases hc' : channels'.get? k with
        | none => rfl
        | some c' => simp [hc, hc'] at hk
      | some c =>
        cases hc' : channels'.get? k with
        | none => simp [hc, hc'] at hk
        | some c' =>
          have hget : c.get = c'.get := by simpa [hc, hc'] using hk
          simp only [hget]
    | list ks => rw [readChannels, readChannels, readEach_congr ks ∅ h]
  rw [readState, readState, hread]

/-! ## What `apply_writes` makes of a channel -/

namespace Channel

/-- The channel becomes available only when the run finishes. -/
def afterFinish : Channel → Bool
  | .lastValueAfterFinish _ => true
  | .namedBarrierValueAfterFinish _ => true
  | _ => false

theorem finish_of_not_afterFinish {c : Channel} (h : c.afterFinish = false) : c.finish = (c, false) := by
  cases c with
  | lastValueAfterFinish c => cases h
  | namedBarrierValueAfterFinish c => cases h
  | _ => rfl

theorem afterFinish_update (c : Channel) (vals : List PyVal) :
    (c.update vals).1.afterFinish = c.afterFinish := by
  cases c <;> rfl

/-- A notification of an empty channel leaves it empty. -/
theorem get_update_nil {c : Channel} (h : c.isAvailable = false) : (c.update []).1.get = none := by
  have hget : c.get = none := by
    rw [isAvailable_eq_isSome_get] at h
    exact Option.not_isSome_iff_eq_none.mp (by simp [h])
  cases c with
  | ephemeralValue c => rfl
  | anyValue c => rfl
  | topic c =>
    have hnil : c.values = [] := by simpa [isAvailable] using h
    simp [update, Topic.update, Topic.flatten, hnil, get, Topic.get]
  | _ => exact hget

/-- The notification after values that changed nothing changes nothing. -/
theorem update_nil_of_update_false {c : Channel} {vals : List PyVal} (hne : vals ≠ [])
    (h : (c.update vals).2 = .ok false) : (c.update []).1 = c := by
  obtain ⟨v, hv⟩ := Option.isSome_iff_exists.mp (List.getLast?_isSome.mpr hne)
  cases c with
  | ephemeralValue c =>
    simp only [update, EphemeralValue.update, hv, Prod.map, id] at h
    split at h <;> cases h
  | anyValue c =>
    simp only [update, AnyValue.update, hv, Prod.map, id] at h
    cases h
  | topic c =>
    simp only [update, Topic.update, Prod.map, id, Except.ok.injEq, Bool.or_eq_false_iff] at h
    obtain ⟨key, accumulate, values⟩ := c
    cases accumulate with
    | true => simp [update, Topic.update, Topic.flatten]
    | false =>
      have hnil : values = [] := by simpa using h.1
      simp [update, Topic.update, Topic.flatten, hnil]
  | _ => rfl

end Channel

open ChannelView in
/-- What a step leaves to be read of a channel is what its update alone would. -/
theorem Applied.get_eq {V : Type} {w w' : ChannelView V} {v : V} {consumed finished : Bool}
    {vals : List PyVal} (h : Applied v consumed vals true finished w w') (hupdated : w.updated = false)
    (hfinish : w.channel.afterFinish = false)
    (hconsume : consumed = true → w.channel.consume = (w.channel, false)) :
    (∃ changed, (w.channel.update vals).2 = .ok changed) ∧
      w'.channel.get = (w.channel.update vals).1.get := by
  obtain ⟨w₁, w₂, w₃, h₁, h₂, h₃, rfl⟩ := h
  have hw₁ : w₁.channel = w.channel ∧ w₁.updated = false := by
    cases consumed with
    | false =>
      rw [h₁]
      exact ⟨rfl, hupdated⟩
    | true =>
      rw [h₁]
      exact ⟨congrArg Prod.fst (hconsume rfl), hupdated⟩
  -- finishing the run does nothing to the channel
  have hlast : w₃.channel.afterFinish = false →
      (if finished then w₃.finish v else w₃).channel = w₃.channel := by
    intro hw₃
    cases finished with
    | false => rfl
    | true =>
      show w₃.channel.finish.1 = w₃.channel
      rw [Channel.finish_of_not_afterFinish hw₃]
  simp only [if_true, Bumps] at h₃
  by_cases hnil : vals = []
  · subst hnil
    obtain rfl : w₂ = w₁ := h₂
    obtain ⟨c', changed, hupdate⟩ := Channel.update_nil w.channel
    refine ⟨⟨changed, by rw [hupdate]⟩, ?_⟩
    cases havail : w.channel.isAvailable with
    | true =>
      rw [hw₁.1, havail, hw₁.2] at h₃
      obtain ⟨_, hc, -⟩ := h₃
      rw [hw₁.1] at hc
      have hw₃ : w₃.channel = (w.channel.update []).1 := by rw [hc]
      rw [hlast (by rw [hw₃, Channel.afterFinish_update, hfinish]), hw₃]
    | false =>
      rw [hw₁.1, havail] at h₃
      obtain rfl : w₃ = w₂ := h₃
      rw [hlast (by rw [hw₁.1, hfinish]), hw₁.1, Channel.get_update_nil havail]
      rw [Channel.isAvailable_eq_isSome_get] at havail
      exact Option.not_isSome_iff_eq_none.mp (by simp [havail])
  · rw [if_neg hnil] at h₂
    obtain ⟨changed, hc, hw₂⟩ := h₂
    rw [hw₁.1] at hc
    have hchannel : w₂.channel = (w.channel.update vals).1 := by rw [hc]
    refine ⟨⟨changed, by rw [hc]⟩, ?_⟩
    have hkind : w₂.channel.afterFinish = false := by rw [hchannel, Channel.afterFinish_update, hfinish]
    split at h₃
    · next hbump =>
      -- it is notified only if the update changed nothing
      have hfalse : changed = false := by
        rw [Bool.and_eq_true] at hbump
        have hrec : w₂.updated = (w₁.updated || (changed && w₂.channel.isAvailable)) :=
          congrArg ChannelView.updated hw₂
        rw [hw₁.2, hbump.1, Bool.false_or, Bool.and_true] at hrec
        rw [← hrec]
        simpa using hbump.2
      subst hfalse
      have hsame : w₂.channel = w.channel := Channel.update_false hc
      obtain ⟨_, hb, -⟩ := h₃
      have hw₃ : w₃.channel = w₂.channel := by
        rw [hsame] at hb
        have hagain := Channel.update_nil_of_update_false hnil (show (w.channel.update vals).2 = .ok false by rw [hc])
        rw [hb] at hagain
        rw [hsame]
        exact hagain
      rw [hlast (by rw [hw₃, hkind]), hw₃, hchannel]
    · obtain rfl : w₃ = w₂ := h₃
      rw [hlast hkind, hchannel]

/-! ## The read predicts the step -/

/-- A channel of the state, as the task may read it: none that `apply_writes` passes over, that
    becomes available only by the end of the run, or that the task consumes. -/
def ReadableBy (t : TaskWrites) (channels : OrdDict String Channel) (k : String) : Prop :=
  k ∉ controlChannels ∧ ∀ c, channels.get? k = some c →
    c.afterFinish = false ∧ (k ∈ t.triggers → c.consume = (c, false))

theorem updatesOf_eq {writes : List (String × PyVal)} {select : List String} {k : String}
    (hk : k ∈ select) :
    updatesOf writes select k = writes.filterMap fun w => if w.1 = k then some w.2 else none := by
  unfold updatesOf
  induction writes with
  | nil => rfl
  | cons w writes ih =>
    by_cases hw : w.1 = k
    · rw [List.filter_cons_of_pos (by simp [hw, hk]), List.filterMap_cons, if_pos hw, List.map_cons, ih]
    · rw [List.filter_cons_of_neg (by simp [hw]), List.filterMap_cons, if_neg hw, ih]

theorem updatesOf_of_not_mem {writes : List (String × PyVal)} {select : List String} {k : String}
    (hk : k ∉ select) : updatesOf writes select k = [] := by
  unfold updatesOf
  rw [List.map_eq_nil_iff, List.filter_eq_nil_iff]
  intro w _
  simp only [Bool.and_eq_true, decide_eq_true_eq, not_and]
  intro hmem heq
  exact hk (heq ▸ hmem)

theorem writesFor_single {t : TaskWrites} {k : String} (hk : k ∉ controlChannels) :
    writesFor (SortBy.sortBy TaskWrites.sortKey [t]) k =
      t.writes.filterMap fun w => if w.1 = k then some w.2 else none := by
  have hsort : SortBy.sortBy TaskWrites.sortKey [t] = [t] :=
    SortBy.sortBy_eq_self (List.pairwise_singleton _ _)
  have hcontrol : controlChannels.contains k = false := by simpa using hk
  rw [hsort, writesFor, hcontrol]
  simp

variable {V : Type} [LinearOrder V]

/-- The call on the task alone, at a channel that the task may read. -/
theorem applied_get {cp : Checkpoint V} {channels : OrdDict String Channel} {t : TaskWrites}
    {getNextVersion : GetNextVersion V} {ttn : TriggerToNodes} {s : ApplyState V}
    (hs : applyWrites cp channels [t] (some getNextVersion) ttn = (s, .ok ())) (htriggers : t.triggers ≠ [])
    {select : List String} {k : String} (hread : ReadableBy t channels k) (hk : k ∈ select) {c : Channel}
    (hc : channels.get? k = some c) :
    (∃ changed, (c.update (updatesOf t.writes select k)).2 = .ok changed) ∧
      ∃ c', s.channels.get? k = some c' ∧ c'.get = (c.update (updatesOf t.writes select k)).1.get := by
  obtain ⟨finished, hresult⟩ := applyWrites_spec hs
  have hview := hresult.view k
  obtain ⟨hafter, hconsume⟩ := hread.2 c hc
  have hbump : ([t].any fun t => !t.triggers.isEmpty) = true := by simpa using htriggers
  rw [hbump, writesFor_single hread.1, ← updatesOf_eq hk] at hview
  have hstart : ApplyState.view k ⟨cp, channels, []⟩ = some ⟨c, cp.channelVersions.get? k, false⟩ := by
    rw [ApplyState.view, hc]
    rfl
  rw [hstart] at hview
  cases hend : s.view k with
  | none =>
    rw [hend] at hview
    cases hview
  | some w' =>
    rw [hend] at hview
    cases hview with
    | some happlied =>
      obtain ⟨hok, hget⟩ := Applied.get_eq happlied rfl hafter fun hconsumed => by
        apply hconsume
        obtain ⟨t', ht', hk'⟩ := (mem_triggerChannels.mp (of_decide_eq_true hconsumed)).1
        rwa [List.mem_singleton.mp ht'] at hk'
      obtain ⟨c', hc', hw'⟩ := Option.map_eq_some_iff.mp hend
      refine ⟨hok, c', hc', ?_⟩
      rw [← hget, ← hw']

/-- A fresh read before the step returns what the channels hold after it. -/
theorem localRead_fresh (cp : Checkpoint V) (heap : Heap) (objects : OrdDict String ChannelObject)
    (hw : WellFormed heap objects) (managed : OrdDict String PyVal) (t : TaskWrites)
    (htriggers : t.triggers ≠ []) (select : NodeInput)
    (hselect : ∀ k ∈ selected (stateKeys managed select), ReadableBy t (derefAll heap objects) k)
    (getNextVersion : GetNextVersion V) (ttn : TriggerToNodes) :
    derefAll (localRead heap objects managed t.writes select true).1 objects = derefAll heap objects ∧
      ∀ s, applyWrites cp (derefAll heap objects) [t] (some getNextVersion) ttn = (s, .ok ()) →
        (localRead heap objects managed t.writes select true).2 = readState s.channels managed select := by
  set sel := selected (stateKeys managed select) with hsel
  set channels := derefAll heap objects with hchannels
  obtain ⟨hpre, hcopies⟩ := freshCopies_spec (updatesOf t.writes sel) objects.entries heap hw
  refine ⟨?_, fun s hs => ?_⟩
  · have hheap : (localRead heap objects managed t.writes select true).1 =
        (freshCopies (updatesOf t.writes sel) heap objects.entries).1 := by
      unfold localRead
      rw [if_pos rfl]
      generalize freshCopies (updatesOf t.writes sel) heap objects.entries = r
      obtain ⟨heap', res⟩ := r
      cases res <;> rfl
    rw [hheap, derefAll_eq_of_extends hpre hw]
  · have happlied := fun k hk (c : Channel) (hc : channels.get? k = some c) =>
      applied_get hs htriggers (hselect k hk) hk hc
    obtain ⟨copies, hres, hmap⟩ := hcopies fun e he => by
      have hget : channels.get? e.1 = some (e.2.deref heap) := by
        rw [OrdDict.get?_eq_some_iff, hchannels, entries_derefAll]
        exact List.mem_map.mpr ⟨e, he, rfl⟩
      by_cases hmem : e.1 ∈ sel
      · exact (happlied e.1 hmem _ hget).1
      · rw [updatesOf_of_not_mem hmem]
        obtain ⟨c', changed, hupdate⟩ := Channel.update_nil (e.2.deref heap)
        exact ⟨changed, by rw [hupdate]⟩
    have hread : (localRead heap objects managed t.writes select true).2 =
        readState (updatedEach (updatesOf t.writes sel) channels) managed select := by
      unfold localRead
      rw [if_pos rfl, ← derefAll_copies hmap]
      generalize freshCopies (updatesOf t.writes sel) heap objects.entries = r at hres
      obtain ⟨heap', res⟩ := r
      obtain rfl : res = .ok copies := hres
      rfl
    rw [hread]
    apply readState_congr
    intro k hk
    rw [updatedEach, OrdDict.get?_filterMap]
    cases hc : channels.get? k with
    | none =>
      obtain ⟨finished, hresult⟩ := applyWrites_spec hs
      have hkeys : s.channels.keys = channels.keys := congrArg (fun f => f.2.2.2.2) hresult.frame
      rw [OrdDict.get?_eq_none_iff, ← hkeys, ← OrdDict.get?_eq_none_iff] at hc
      rw [hc]
      rfl
    | some c =>
      obtain ⟨-, c', hc', hget⟩ := happlied k hk c hc
      rw [hc']
      simp [hget]

/-- A channel with a list, one that the step clears, one that the task does not read, and the branch
    that triggered the task. -/
def readObjects : OrdDict String ChannelObject :=
  OrdDict.ofList [("log", ⟨.topic ⟨"log", true, []⟩, some 0⟩), ("x", ⟨.ephemeralValue ⟨"x", true, some (.int 1)⟩, none⟩),
    ("y", ⟨.lastValue ⟨"y", none⟩, none⟩), ("branch:to:n", ⟨.ephemeralValue ⟨"branch:to:n", false, some .none⟩, none⟩)]

def readTask : TaskWrites where
  path := [.str Const.PULL, .str "n"]
  name := "n"
  writes := [("log", .list [.int 2, .int 3]), ("y", .int 4), (Const.TASKS, .send "m" .none), ("log", .int 5)]
  triggers := ["branch:to:n"]

def readCheckpoint : Checkpoint Nat where
  id := "1ef4f797"
  channelValues := ∅
  channelVersions := OrdDict.ofList [("branch:to:n", 1)]
  versionsSeen := ∅
  updatedChannels := none

def readSelect : NodeInput := .list ["log", "x", "is_last_step"]

def readManaged : OrdDict String PyVal := OrdDict.ofList [("is_last_step", .bool false)]

def readStep : ApplyState Nat × Except PyErr Unit :=
  applyWrites readCheckpoint (derefAll [[.int 1]] readObjects) [readTask] (some fun v => v.getD 0 + 1) ∅

theorem localRead_fresh_log :
    derefAll (localRead [[.int 1]] readObjects readManaged readTask.writes readSelect true).1 readObjects =
        derefAll [[.int 1]] readObjects ∧
      (localRead [[.int 1]] readObjects readManaged readTask.writes readSelect true).2 =
        readState readStep.1.channels readManaged readSelect := by
  have hentries : readObjects.entries = _ := OrdDict.entries_ofList_of_nodup (by decide)
  have hvalid : WellFormed [[.int 1]] readObjects := by
    rw [WellFormed, hentries]
    simp [ChannelObject.Valid]
  have hok : readStep.2 = .ok () := by decide +kernel
  have hselect : ∀ k ∈ selected (stateKeys readManaged readSelect),
      ReadableBy readTask (derefAll [[.int 1]] readObjects) k := by
    have hkeys : selected (stateKeys readManaged readSelect) = ["log", "x"] := by decide
    have hlog : (derefAll [[.int 1]] readObjects).get? "log" = some (.topic ⟨"log", true, [.int 1]⟩) := rfl
    have hx : (derefAll [[.int 1]] readObjects).get? "x" = some (.ephemeralValue ⟨"x", true, some (.int 1)⟩) := rfl
    rw [hkeys]
    intro k hk
    rcases List.mem_cons.mp hk with rfl | hk
    · refine ⟨by decide, fun c hc => ?_⟩
      obtain rfl := Option.some.inj (hlog.symm.trans hc)
      exact ⟨rfl, fun _ => rfl⟩
    · obtain rfl := List.mem_singleton.mp hk
      refine ⟨by decide, fun c hc => ?_⟩
      obtain rfl := Option.some.inj (hx.symm.trans hc)
      exact ⟨rfl, fun _ => rfl⟩
  obtain ⟨hsame, hread⟩ := localRead_fresh readCheckpoint [[.int 1]] readObjects hvalid readManaged readTask
    (by decide) readSelect hselect (fun v => v.getD 0 + 1) ∅
  exact ⟨hsame, hread readStep.1 (show readStep = _ from Prod.ext rfl hok)⟩

/-- A channel that becomes available when the run finishes. -/
def lateObjects : OrdDict String ChannelObject :=
  OrdDict.ofList [("x", ⟨.lastValueAfterFinish ⟨"x", none, false⟩, none⟩)]

def lateTask : TaskWrites where
  path := [.str Const.PULL, .str "n"]
  name := "n"
  writes := [("x", .int 1)]
  triggers := ["branch:to:n"]

/-- The step finishes the run, which the read does not. -/
theorem not_localRead_fresh :
    let step := applyWrites readCheckpoint (derefAll [] lateObjects) [lateTask] (some fun v => v.getD 0 + 1) ∅
    step.2 = .ok () ∧ readState step.1.channels ∅ (.single "x") = .ok (.value (.int 1)) ∧
      (localRead [] lateObjects ∅ lateTask.writes (.single "x") true).2 = .ok (.value .none) :=
  ⟨rfl, rfl, rfl⟩

end LangGraph
