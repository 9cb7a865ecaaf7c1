import LangGraph.Channels

/- What the methods of a channel keep, and how the channels behave that a
   compiled graph triggers its nodes by.

   `SameSpec`: `update`, `consume` and `finish` change only what
   `from_checkpoint` sets. `IsTrigger` is the invariant of the trigger channels
   of a compiled graph: an `EphemeralValue`, a `LastValueAfterFinish`, or a
   barrier that waits for some name. Such a channel becomes available only by a
   call that returns `True`, and `consume` leaves it unavailable, unless it is
   an `EphemeralValue`, which the next `update` clears. -/
namespace LangGraph

theorem BinaryOperatorAggregate.updateLoop_ne_false {operator : PyVal → PyVal → Except PyErr PyVal} :
    ∀ (value : PyVal) (vs : List PyVal) (seenOverwrite : Bool),
      (updateLoop operator value vs seenOverwrite).2 ≠ .ok false
  | value, [], _ => by simp [updateLoop]
  | value, v :: vs, seenOverwrite => by
    unfold updateLoop
    split
    · split
      · simp
      · exact updateLoop_ne_false _ _ _
    · split
      · exact updateLoop_ne_false _ _ _
      · split
        · exact updateLoop_ne_false _ _ _
        · simp

namespace Channel

/-- The channels that a checkpoint restores the same way: they differ in what
    their methods change only. -/
def SameSpec (c c' : Channel) : Prop := c.fromCheckpoint = c'.fromCheckpoint

theorem sameSpec_update (c : Channel) (vs : List PyVal) : (c.update vs).1.SameSpec c := by
  cases c with
  | lastValue c =>
    show Channel.fromCheckpoint (.lastValue (c.update vs).1) = _
    unfold LastValue.update
    split <;> rfl
  | lastValueAfterFinish c =>
    show Channel.fromCheckpoint (.lastValueAfterFinish (c.update vs).1) = _
    funext v
    unfold LastValueAfterFinish.update
    split <;> simp only [fromCheckpoint, LastValueAfterFinish.fromCheckpoint]
  | ephemeralValue c =>
    show Channel.fromCheckpoint (.ephemeralValue (c.update vs).1) = _
    unfold EphemeralValue.update
    split
    · rfl
    · split <;> rfl
  | anyValue c =>
    show Channel.fromCheckpoint (.anyValue (c.update vs).1) = _
    unfold AnyValue.update
    split <;> rfl
  | untrackedValue c =>
    show Channel.fromCheckpoint (.untrackedValue (c.update vs).1) = _
    unfold UntrackedValue.update
    split
    · rfl
    · split <;> rfl
  | topic c =>
    funext v
    simp only [update, fromCheckpoint, Prod.map_fst, Topic.update]
    unfold Topic.fromCheckpoint
    split <;> rfl
  | namedBarrierValue c =>
    funext v
    simp only [update, fromCheckpoint, Prod.map_fst, NamedBarrierValue.update]
    unfold NamedBarrierValue.fromCheckpoint
    split <;> rfl
  | namedBarrierValueAfterFinish c =>
    funext v
    simp only [update, fromCheckpoint, Prod.map_fst, NamedBarrierValueAfterFinish.update]
    unfold NamedBarrierValueAfterFinish.fromCheckpoint
    split <;> rfl
  | binaryOperatorAggregate c =>
    show Channel.fromCheckpoint (.binaryOperatorAggregate (c.update vs).1) = _
    funext v
    unfold BinaryOperatorAggregate.update
    split <;> simp only [fromCheckpoint, BinaryOperatorAggregate.fromCheckpoint]
  | deltaChannel c =>
    show Channel.fromCheckpoint (.deltaChannel (c.update vs).1) = _
    funext v
    unfold DeltaChannel.update
    split
    · rfl
    · split
      · rfl
      · cases v with
        | none => rfl
        | some v => cases v <;> rfl
      · split
        · cases v with
          | none => rfl
          | some v => cases v <;> rfl
        · rfl

theorem sameSpec_consume (c : Channel) : c.consume.1.SameSpec c := by
  cases c with
  | lastValueAfterFinish c =>
    funext v
    simp only [consume, fromCheckpoint, Prod.map_fst, LastValueAfterFinish.consume]
    split
    · unfold LastValueAfterFinish.fromCheckpoint
      split <;> rfl
    · rfl
  | namedBarrierValue c =>
    funext v
    simp only [consume, fromCheckpoint, Prod.map_fst, NamedBarrierValue.consume]
    split
    · unfold NamedBarrierValue.fromCheckpoint
      split <;> rfl
    · rfl
  | namedBarrierValueAfterFinish c =>
    funext v
    simp only [consume, fromCheckpoint, Prod.map_fst, NamedBarrierValueAfterFinish.consume]
    split
    · unfold NamedBarrierValueAfterFinish.fromCheckpoint
      split <;> rfl
    · rfl
  | _ => rfl

theorem sameSpec_finish (c : Channel) : c.finish.1.SameSpec c := by
  cases c with
  | lastValueAfterFinish c =>
    funext v
    simp only [finish, fromCheckpoint, Prod.map_fst, LastValueAfterFinish.finish]
    split
    · unfold LastValueAfterFinish.fromCheckpoint
      split <;> rfl
    · rfl
  | namedBarrierValueAfterFinish c =>
    funext v
    simp only [finish, fromCheckpoint, Prod.map_fst, NamedBarrierValueAfterFinish.finish]
    split
    · unfold NamedBarrierValueAfterFinish.fromCheckpoint
      split <;> rfl
    · rfl
  | _ => rfl

theorem sameSpec_fromCheckpoint (c : Channel) (v : Option PyVal) :
    (c.fromCheckpoint v).SameSpec c := by
  cases c with
  | lastValueAfterFinish c =>
    funext u
    simp only [fromCheckpoint]
    unfold LastValueAfterFinish.fromCheckpoint
    split <;> split <;> rfl
  | topic c =>
    funext u
    simp only [fromCheckpoint]
    unfold Topic.fromCheckpoint
    split <;> split <;> rfl
  | namedBarrierValue c =>
    funext u
    simp only [fromCheckpoint]
    unfold NamedBarrierValue.fromCheckpoint
    split <;> split <;> rfl
  | namedBarrierValueAfterFinish c =>
    funext u
    simp only [fromCheckpoint]
    unfold NamedBarrierValueAfterFinish.fromCheckpoint
    split <;> split <;> rfl
  | binaryOperatorAggregate c =>
    funext u
    simp only [fromCheckpoint]
    unfold BinaryOperatorAggregate.fromCheckpoint
    split <;> split <;> rfl
  | deltaChannel c =>
    funext u
    simp only [fromCheckpoint]
    unfold DeltaChannel.fromCheckpoint
    split <;> split <;> rfl
  | _ => rfl

/-! ## Trigger channels -/

def IsTrigger : Channel → Prop
  | .ephemeralValue _ => True
  | .lastValueAfterFinish c => c.value = none → c.finished = false
  | .namedBarrierValue c => c.names ≠ []
  | .namedBarrierValueAfterFinish c => c.names ≠ []
  | _ => False

def isEphemeral : Channel → Bool
  | .ephemeralValue _ => true
  | _ => false

theorem setEq_nil_left {names : List PyVal} (h : names ≠ []) : setEq [] names = false := by
  cases names with
  | nil => exact absurd rfl h
  | cons x xs => simp [setEq]

/-- The loop of a barrier only returns `False` when it has not changed the set. -/
theorem barrierUpdate_false {key : String} {names : List PyVal} :
    ∀ {seen vs : List PyVal} {updated : Bool} {r : List PyVal × Except PyErr Bool},
      barrierUpdate key names seen vs updated = r → r.2 = .ok false → r.1 = seen ∧ updated = false
  | seen, [], updated, r, h, hr => by
    subst h
    simp only [barrierUpdate, Except.ok.injEq] at hr
    exact ⟨rfl, hr⟩
  | seen, v :: vs, updated, r, h, hr => by
    unfold barrierUpdate at h
    split at h
    · split at h
      · exact barrierUpdate_false h hr
      · have := (barrierUpdate_false h hr).2
        cases this
    · subst h
      cases hr

theorem isTrigger_update {c : Channel} (h : c.IsTrigger) (vs : List PyVal) :
    (c.update vs).1.IsTrigger := by
  cases c with
  | ephemeralValue c => exact trivial
  | lastValueAfterFinish c =>
    show Channel.IsTrigger (.lastValueAfterFinish (c.update vs).1)
    unfold LastValueAfterFinish.update
    split
    · exact h
    · exact fun _ => rfl
  | namedBarrierValue c => exact h
  | namedBarrierValueAfterFinish c => exact h
  | _ => exact absurd h (by simp [IsTrigger])

theorem isTrigger_consume {c : Channel} (h : c.IsTrigger) : c.consume.1.IsTrigger := by
  cases c with
  | lastValueAfterFinish c =>
    show Channel.IsTrigger (.lastValueAfterFinish c.consume.1)
    unfold LastValueAfterFinish.consume
    split
    · exact fun _ => rfl
    · exact h
  | namedBarrierValue c =>
    show Channel.IsTrigger (.namedBarrierValue c.consume.1)
    unfold NamedBarrierValue.consume
    split <;> exact h
  | namedBarrierValueAfterFinish c =>
    show Channel.IsTrigger (.namedBarrierValueAfterFinish c.consume.1)
    unfold NamedBarrierValueAfterFinish.consume
    split <;> exact h
  | _ => exact h

theorem isTrigger_finish {c : Channel} (h : c.IsTrigger) : c.finish.1.IsTrigger := by
  cases c with
  | lastValueAfterFinish c =>
    show Channel.IsTrigger (.lastValueAfterFinish c.finish.1)
    unfold LastValueAfterFinish.finish
    split
    · rename_i hf
      intro hv
      simp only at hv
      simp [hv] at hf
    · exact h
  | namedBarrierValueAfterFinish c =>
    show Channel.IsTrigger (.namedBarrierValueAfterFinish c.finish.1)
    unfold NamedBarrierValueAfterFinish.finish
    split <;> exact h
  | _ => exact h

theorem isTrigger_fromCheckpoint {c : Channel} (h : c.IsTrigger) (v : Option PyVal) :
    (c.fromCheckpoint v).IsTrigger := by
  cases c with
  | ephemeralValue c => exact trivial
  | lastValueAfterFinish c =>
    show Channel.IsTrigger (.lastValueAfterFinish (c.fromCheckpoint v))
    unfold LastValueAfterFinish.fromCheckpoint
    split <;> simp [IsTrigger]
  | namedBarrierValue c =>
    show Channel.IsTrigger (.namedBarrierValue (c.fromCheckpoint v))
    unfold NamedBarrierValue.fromCheckpoint
    split <;> exact h
  | namedBarrierValueAfterFinish c =>
    show Channel.IsTrigger (.namedBarrierValueAfterFinish (c.fromCheckpoint v))
    unfold NamedBarrierValueAfterFinish.fromCheckpoint
    split <;> exact h
  | _ => exact absurd h (by simp [IsTrigger])

/-- `update` returns `False` only when it leaves the channel as it was. -/
theorem update_false {c c' : Channel} {vs : List PyVal} (hu : c.update vs = (c', .ok false)) :
    c' = c := by
  cases c with
  | lastValue c =>
    simp only [update, LastValue.update, Prod.map, id] at hu
    split at hu <;> simp at hu
    exact hu.symm
  | lastValueAfterFinish c =>
    simp only [update, LastValueAfterFinish.update, Prod.map, id] at hu
    split at hu <;> simp at hu
    exact hu.symm
  | ephemeralValue c =>
    simp only [update, EphemeralValue.update, Prod.map, id] at hu
    split at hu
    · rename_i hl
      cases c with
      | mk key guard value =>
        cases value with
        | none => simp at hu; exact hu.symm
        | some v => simp at hu
    · split at hu <;> simp at hu
  | anyValue c =>
    simp only [update, AnyValue.update, Prod.map, id] at hu
    split at hu
    · cases c with
      | mk key value =>
        cases value with
        | none => simp at hu; exact hu.symm
        | some v => simp at hu
    · simp at hu
  | untrackedValue c =>
    simp only [update, UntrackedValue.update, Prod.map, id] at hu
    split at hu
    · simp at hu
      exact hu.symm
    · split at hu <;> simp at hu
  | topic c =>
    simp only [update, Topic.update, Prod.map, id, Prod.mk.injEq, Except.ok.injEq,
      Bool.or_eq_false_iff] at hu
    obtain ⟨rfl, hcleared, hflat⟩ := hu
    rw [Bool.not_eq_false', List.isEmpty_iff] at hflat
    cases c with
    | mk key accumulate values =>
      cases accumulate with
      | true => simp [hflat]
      | false =>
        have hnil : values = [] := by simpa using hcleared
        simp [hflat, hnil]
  | namedBarrierValue c =>
    simp only [update, NamedBarrierValue.update, Prod.map, id, Prod.mk.injEq] at hu
    obtain ⟨hseen, -⟩ := barrierUpdate_false rfl hu.2
    rw [← hu.1, hseen]
  | namedBarrierValueAfterFinish c =>
    simp only [update, NamedBarrierValueAfterFinish.update, Prod.map, id, Prod.mk.injEq] at hu
    obtain ⟨hseen, -⟩ := barrierUpdate_false rfl hu.2
    rw [← hu.1, hseen]
  | binaryOperatorAggregate c =>
    simp only [update, BinaryOperatorAggregate.update, Prod.map, id] at hu
    split at hu
    · simp at hu
      exact hu.symm
    · rw [Prod.mk.injEq] at hu
      exact absurd hu.2 (BinaryOperatorAggregate.updateLoop_ne_false _ _ _)
    · rw [Prod.mk.injEq] at hu
      exact absurd hu.2 (BinaryOperatorAggregate.updateLoop_ne_false _ _ _)
  | deltaChannel c =>
    simp only [update, DeltaChannel.update, Prod.map, id] at hu
    split at hu
    · simp at hu
      exact hu.symm
    · split at hu
      · simp at hu
      · simp at hu
      · split at hu <;> simp at hu

/-- The notification of a step does not raise. -/
theorem update_nil (c : Channel) : ∃ c' changed, c.update [] = (c', .ok changed) := by
  cases c <;> exact ⟨_, _, rfl⟩

theorem finish_false {c : Channel} (hf : c.finish.2 = false) : c.finish.1 = c := by
  cases c with
  | lastValueAfterFinish c =>
    simp only [finish, LastValueAfterFinish.finish, Prod.map, id] at hf ⊢
    split at hf
    · cases hf
    · rename_i hc
      rw [if_neg hc]
  | namedBarrierValueAfterFinish c =>
    simp only [finish, NamedBarrierValueAfterFinish.finish, Prod.map, id] at hf ⊢
    split at hf
    · cases hf
    · rename_i hc
      rw [if_neg hc]
  | _ => rfl

theorem consume_false {c : Channel} (hf : c.consume.2 = false) : c.consume.1 = c := by
  cases c with
  | lastValueAfterFinish c =>
    simp only [consume, LastValueAfterFinish.consume, Prod.map, id] at hf ⊢
    split at hf
    · cases hf
    · rename_i hc
      rw [if_neg hc]
  | namedBarrierValue c =>
    simp only [consume, NamedBarrierValue.consume, Prod.map, id] at hf ⊢
    split at hf
    · cases hf
    · rename_i hc
      rw [if_neg hc]
  | namedBarrierValueAfterFinish c =>
    simp only [consume, NamedBarrierValueAfterFinish.consume, Prod.map, id] at hf ⊢
    split at hf
    · cases hf
    · rename_i hc
      rw [if_neg hc]
  | _ => rfl

theorem consume_ephemeral {c : Channel} (h : c.isEphemeral = true) : c.consume = (c, false) := by
  cases c <;> first | rfl | simp [isEphemeral] at h

/-- A barrier or deferred channel is not available once it was consumed. -/
theorem isAvailable_consume {c : Channel} (h : c.IsTrigger) (he : c.isEphemeral = false) :
    c.consume.1.isAvailable = false := by
  cases c with
  | lastValueAfterFinish c =>
    simp only [consume, LastValueAfterFinish.consume, Prod.map]
    split
    · rfl
    · rename_i hf
      simp [isAvailable, hf]
  | namedBarrierValue c =>
    simp only [consume, NamedBarrierValue.consume, Prod.map]
    split
    · exact setEq_nil_left h
    · rename_i hf
      simpa [isAvailable, NamedBarrierValue.isAvailable] using hf
  | namedBarrierValueAfterFinish c =>
    simp only [consume, NamedBarrierValueAfterFinish.consume, Prod.map]
    split
    · rfl
    · rename_i hf
      simpa [isAvailable, NamedBarrierValueAfterFinish.isAvailable] using hf
  | ephemeralValue c => cases he
  | _ => exact absurd h (by simp [IsTrigger])

/-- An `EphemeralValue` that no value is written to is cleared. -/
theorem update_nil_ephemeral {c c' : Channel} (he : c.isEphemeral = true)
    (ha : c.isAvailable = true) {r : Except PyErr Bool} (hu : c.update [] = (c', r)) :
    r = .ok true ∧ c'.isAvailable = false := by
  cases c with
  | ephemeralValue c =>
    simp only [update, EphemeralValue.update, Prod.map, id, List.getLast?_nil, Prod.mk.injEq] at hu
    simp only [isAvailable] at ha
    rw [← hu.1, ← hu.2, ha]
    exact ⟨rfl, rfl⟩
  | _ => cases he

theorem isAvailable_fromCheckpoint_none {c : Channel} (h : c.IsTrigger) :
    (c.fromCheckpoint none).isAvailable = false := by
  cases c with
  | ephemeralValue c => rfl
  | lastValueAfterFinish c => rfl
  | namedBarrierValue c => exact setEq_nil_left h
  | namedBarrierValueAfterFinish c => rfl
  | _ => exact absurd h (by simp [IsTrigger])

/-- A trigger channel that is restored from its own checkpoint is as available as it was. -/
theorem isAvailable_restored {c : Channel} (h : c.IsTrigger) :
    (c.fromCheckpoint c.checkpoint).isAvailable = c.isAvailable := by
  cases c with
  | ephemeralValue c => rfl
  | lastValueAfterFinish c =>
    cases c with
    | mk key value finished => cases value <;> rfl
  | namedBarrierValue c => rfl
  | namedBarrierValueAfterFinish c => rfl
  | _ => exact absurd h (by simp [IsTrigger])

/-! ## What a checkpoint restores -/

/-- Restored from its own checkpoint, the channel has the same checkpoint. -/
def Restorable (c : Channel) : Prop := (c.fromCheckpoint c.checkpoint).checkpoint = c.checkpoint

/-- Only an aggregate without a value may be restored with one. -/
theorem restorable_iff (c : Channel) : c.Restorable ↔
    ∀ b, c = .binaryOperatorAggregate b → b.value = none → b.typ = none := by
  cases c with
  | lastValueAfterFinish c =>
    refine iff_of_true ?_ nofun
    cases c with
    | mk key value finished => cases value <;> rfl
  | binaryOperatorAggregate c =>
    cases c with
    | mk key operator typ value =>
      cases value with
      | none => simp [Restorable, checkpoint, fromCheckpoint, BinaryOperatorAggregate.fromCheckpoint]
      | some v => simp [Restorable, checkpoint, fromCheckpoint, BinaryOperatorAggregate.fromCheckpoint]
  | _ => exact iff_of_true rfl nofun

theorem restorable_fromCheckpoint (c : Channel) (v : Option PyVal) :
    (c.fromCheckpoint v).Restorable := by
  rw [restorable_iff]
  intro b hb hnone
  cases c with
  | binaryOperatorAggregate c =>
    cases hb
    cases v with
    | none => exact hnone
    | some v => cases hnone
  | _ => cases hb

theorem Restorable.update {c : Channel} (h : c.Restorable) (vs : List PyVal) :
    (c.update vs).1.Restorable := by
  rw [restorable_iff] at h ⊢
  intro b hb hnone
  cases c with
  | binaryOperatorAggregate c =>
    simp only [Channel.update, BinaryOperatorAggregate.update, Prod.map] at hb
    split at hb
    · cases hb
      exact h c rfl hnone
    · cases hb
      cases hnone
    · cases hb
      cases hnone
  | _ => cases hb

theorem Restorable.consume {c : Channel} (h : c.Restorable) : c.consume.1.Restorable := by
  cases c with
  | binaryOperatorAggregate c => exact h
  | _ => exact (restorable_iff _).mpr nofun

theorem Restorable.finish {c : Channel} (h : c.Restorable) : c.finish.1.Restorable := by
  cases c with
  | binaryOperatorAggregate c => exact h
  | _ => exact (restorable_iff _).mpr nofun

end Channel
end LangGraph
