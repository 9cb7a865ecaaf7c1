import LangGraph.FastPath

/- A process that stops after a checkpoint and is started again.

   The new process enters the saved checkpoint and resumes (`_first` with no input). For
   a graph without `DeltaChannel` and `UntrackedValue` channels it then has the channels
   of the process that stopped (`Loop.Reloads.load`), and from there on the same steps
   lead to the same tasks and the same saved checkpoints (`restart_continues`). The two
   loops are `Alike`: they differ in what was seen by `INTERRUPT`, which only the resumed
   one has marked, and in how the updated channels are listed.

   A channel restores itself when `from_checkpoint` of its `checkpoint` is the channel
   again (`Channel.Reloads`). `create_checkpoint` leaves out the channels without a
   version: they are as `from_checkpoint(MISSING)` makes them (`Loop.Reloads.channel`). -/
namespace LangGraph

namespace Channel

/-- The channel is restored from its own checkpoint. -/
def Reloads : Channel → Prop
  | .lastValueAfterFinish c => c.value = none → c.finished = false
  | .binaryOperatorAggregate c => c.value = none → c.typ = none
  | .untrackedValue _ => False
  | .deltaChannel _ => False
  | _ => True

/-- `UntrackedValue` keeps nothing, a `DeltaChannel` is rebuilt from writes. -/
def isStored (c : Channel) : Bool := c.asDelta.isNone && !c.isUntracked

theorem Reloads.fromCheckpoint_checkpoint {c : Channel} (h : c.Reloads) :
    c.fromCheckpoint c.checkpoint = c := by
  cases c with
  | lastValueAfterFinish c =>
    cases c with
    | mk key value finished =>
      cases value with
      | none =>
        have hf : finished = false := h rfl
        rw [hf]
        rfl
      | some v => rfl
  | binaryOperatorAggregate c =>
    cases c with
    | mk key operator typ value =>
      cases value with
      | none =>
        have ht : typ = none := h rfl
        rw [ht]
        rfl
      | some v => rfl
  | untrackedValue c => exact h.elim
  | deltaChannel c => exact h.elim
  | _ => rfl

theorem reloads_fromCheckpoint {c : Channel} (h : c.isStored = true) (v : Option PyVal) :
    (c.fromCheckpoint v).Reloads := by
  cases c with
  | lastValueAfterFinish c =>
    show (c.fromCheckpoint v).value = none → (c.fromCheckpoint v).finished = false
    unfold LastValueAfterFinish.fromCheckpoint
    split
    · intro hnone
      cases hnone
    · exact fun _ => rfl
  | binaryOperatorAggregate c =>
    cases v with
    | none => exact id
    | some v =>
      intro hnone
      cases hnone
  | untrackedValue c => cases h
  | deltaChannel c => cases h
  | _ => trivial

theorem Reloads.update {c : Channel} (h : c.Reloads) (vs : List PyVal) : (c.update vs).1.Reloads := by
  cases c with
  | lastValueAfterFinish c =>
    show (c.update vs).1.value = none → (c.update vs).1.finished = false
    unfold LastValueAfterFinish.update
    split
    · exact h
    · exact fun _ => rfl
  | binaryOperatorAggregate c =>
    show (c.update vs).1.value = none → (c.update vs).1.typ = none
    unfold BinaryOperatorAggregate.update
    split
    · exact h
    · intro hnone
      cases hnone
    · intro hnone
      cases hnone
  | untrackedValue c => exact h.elim
  | deltaChannel c => exact h.elim
  | _ => trivial

theorem Reloads.consume {c : Channel} (h : c.Reloads) : c.consume.1.Reloads := by
  cases c with
  | lastValueAfterFinish c =>
    show c.consume.1.value = none → c.consume.1.finished = false
    unfold LastValueAfterFinish.consume
    split
    · exact fun _ => rfl
    · exact h
  | _ => exact h

theorem Reloads.finish {c : Channel} (h : c.Reloads) : c.finish.1.Reloads := by
  cases c with
  | lastValueAfterFinish c =>
    show c.finish.1.value = none → c.finish.1.finished = false
    unfold LastValueAfterFinish.finish
    split
    · rename_i hf
      intro hnone
      have hnone' : c.value = none := hnone
      rw [hnone'] at hf
      simp at hf
    · exact h
  | _ => exact h

/-- A channel is of the kind of the one it was restored from. -/
theorem SameSpec.isStored {c c' : Channel} (h : c.SameSpec c') : c.isStored = c'.isStored := by
  have hkind : ∀ c : Channel, (c.fromCheckpoint none).isStored = c.isStored := by
    intro c
    cases c <;> rfl
  have hsame : c.fromCheckpoint none = c'.fromCheckpoint none := congrFun h none
  rw [← hkind c, hsame, hkind c']

end Channel

/- ── Loops that differ in what only a resumed one marks ────────── -/

section Alike
variable {V : Type}

/-- The same channels are updated; no hint is as the empty one. -/
def SameHint (us us' : Option (List String)) : Prop :=
  ∀ chan, chan ∈ us.getD [] ↔ chan ∈ us'.getD []

structure Checkpoint.Alike (cp cp' : Checkpoint V) : Prop where
  id : cp'.id = cp.id
  values : cp'.channelValues = cp.channelValues
  versions : cp'.channelVersions = cp.channelVersions
  seen : ∀ node, node ≠ Const.INTERRUPT → cp'.versionsSeen.get? node = cp.versionsSeen.get? node
  hint : SameHint cp.updatedChannels cp'.updatedChannels

structure ApplyState.Alike (s s' : ApplyState V) : Prop where
  checkpoint : s.checkpoint.Alike s'.checkpoint
  channels : s'.channels = s.channels
  updatedChannels : s'.updatedChannels = s.updatedChannels

structure Loop.Alike (l l' : Loop V) : Prop where
  checkpoint : l.checkpoint.Alike l'.checkpoint
  channels : l'.channels = l.channels
  hint : SameHint l.updatedChannels l'.updatedChannels
  unread : l'.unread = l.unread

theorem Checkpoint.Alike.refl (cp : Checkpoint V) : cp.Alike cp :=
  ⟨rfl, rfl, rfl, fun _ _ => rfl, fun _ => Iff.rfl⟩

/- ── apply_writes ──────────────────────────────────────────────── -/

section Apply
variable {cp cp' : Checkpoint V} {s s' : ApplyState V}

theorem Checkpoint.Alike.setVersion (h : cp.Alike cp') (chan : String) (v : V) :
    (cp.setVersion chan v).Alike (cp'.setVersion chan v) where
  id := h.id
  values := h.values
  versions := by
    show cp'.channelVersions.set chan v = cp.channelVersions.set chan v
    rw [h.versions]
  seen := h.seen
  hint := h.hint

theorem Checkpoint.Alike.markSeen (h : cp.Alike cp') (t : TaskWrites) :
    (LangGraph.markSeen cp t).Alike (LangGraph.markSeen cp' t) where
  id := h.id
  values := h.values
  versions := h.versions
  seen := by
    intro node hne
    unfold LangGraph.markSeen
    simp only [OrdDict.get?_set]
    split
    · -- the task is of this node, whose seen versions are the same
      rename_i heq
      rw [← heq, OrdDict.getD, OrdDict.getD, h.versions, h.seen node hne]
    · exact h.seen node hne
  hint := h.hint

theorem Checkpoint.Alike.foldl_markSeen : ∀ (tasks : List TaskWrites) {cp cp' : Checkpoint V},
    cp.Alike cp' → (tasks.foldl LangGraph.markSeen cp).Alike (tasks.foldl LangGraph.markSeen cp')
  | [], _, _, h => h
  | t :: tasks, _, _, h => foldl_markSeen tasks (h.markSeen t)

namespace ApplyState.Alike

theorem consumeOne (h : s.Alike s') (nv : Option V) (chan : String) :
    (consumeOne nv s chan).Alike (consumeOne nv s' chan) := by
  unfold LangGraph.consumeOne
  rw [h.channels]
  cases hc : s.channels.get? chan with
  | none => exact h
  | some c =>
    simp only
    cases c.consume.2 <;> cases nv
    · exact ⟨h.checkpoint, rfl, h.updatedChannels⟩
    · exact ⟨h.checkpoint, rfl, h.updatedChannels⟩
    · exact ⟨h.checkpoint, rfl, h.updatedChannels⟩
    · exact ⟨h.checkpoint.setVersion _ _, rfl, h.updatedChannels⟩

theorem recordUpdate (h : s.Alike s') (nv : Option V) (chan : String) (c : Channel)
    (changed : Bool) :
    (recordUpdate nv chan c changed s).Alike (recordUpdate nv chan c changed s') := by
  unfold LangGraph.recordUpdate
  simp only [h.channels, h.updatedChannels]
  cases changed <;> cases nv
  · exact ⟨h.checkpoint, rfl, rfl⟩
  · exact ⟨h.checkpoint, rfl, rfl⟩
  · exact ⟨h.checkpoint, rfl, rfl⟩
  · exact ⟨h.checkpoint.setVersion _ _, rfl, rfl⟩

theorem updateOne (h : s.Alike s') (nv : Option V) (chan : String) (vals : List PyVal) :
    (updateOne nv s chan vals).1.Alike (updateOne nv s' chan vals).1 ∧
      (updateOne nv s chan vals).2 = (updateOne nv s' chan vals).2 := by
  unfold LangGraph.updateOne
  rw [h.channels]
  cases s.channels.get? chan with
  | none => exact ⟨h, rfl⟩
  | some c =>
    simp only
    generalize c.update vals = r
    obtain ⟨c', e⟩ := r
    cases e with
    | error e => exact ⟨⟨h.checkpoint, rfl, h.updatedChannels⟩, rfl⟩
    | ok changed => exact ⟨h.recordUpdate nv chan c' changed, rfl⟩

theorem bumpOne (h : s.Alike s') (nv : Option V) (chan : String) :
    (bumpOne nv s chan).1.Alike (bumpOne nv s' chan).1 ∧
      (bumpOne nv s chan).2 = (bumpOne nv s' chan).2 := by
  unfold LangGraph.bumpOne
  rw [h.channels, h.updatedChannels]
  split
  · exact h.updateOne nv chan []
  · exact ⟨h, rfl⟩

theorem finishOne (h : s.Alike s') (nv : Option V) (chan : String) :
    (finishOne nv s chan).Alike (finishOne nv s' chan) := by
  unfold LangGraph.finishOne
  rw [h.channels]
  cases s.channels.get? chan with
  | none => exact h
  | some c => exact h.recordUpdate nv chan _ _

theorem endStep (h : s.Alike s') (nv : Option V) (bumpStep : Bool) (ttn : TriggerToNodes) :
    (endStep nv bumpStep ttn s).1.Alike (endStep nv bumpStep ttn s').1 ∧
      (endStep nv bumpStep ttn s).2 = (endStep nv bumpStep ttn s').2 := by
  obtain ⟨hb, hr⟩ := KeyedFold.foldE_rel (f := LangGraph.bumpOne nv) (R := Alike)
    (fun _ _ chan hs => bumpOne hs nv chan) s.channels.keys h
  unfold LangGraph.endStep bumpAll
  cases bumpStep with
  | false => exact ⟨h, rfl⟩
  | true =>
    rw [h.channels]
    simp only [if_true]
    generalize KeyedFold.foldE (LangGraph.bumpOne nv) s s.channels.keys = r at hb hr
    generalize KeyedFold.foldE (LangGraph.bumpOne nv) s' s.channels.keys = r' at hb hr
    obtain ⟨t, e⟩ := r
    obtain ⟨t', e'⟩ := r'
    obtain rfl : e = e' := hr
    cases e with
    | error e => exact ⟨hb, rfl⟩
    | ok u =>
      replace hb : t.Alike t' := hb
      simp only [hb.channels, hb.updatedChannels]
      split
      · exact ⟨List.foldl_rel hb fun chan _ c c' hc => finishOne hc nv chan, rfl⟩
      · exact ⟨hb, rfl⟩

end ApplyState.Alike

theorem Checkpoint.Alike.applyWrites [LinearOrder V] (h : cp.Alike cp')
    (channels : OrdDict String Channel) (tasks : List TaskWrites)
    (getNextVersion : Option (GetNextVersion V)) (ttn : TriggerToNodes) :
    (applyWrites cp channels tasks getNextVersion ttn).1.Alike
        (applyWrites cp' channels tasks getNextVersion ttn).1 ∧
      (applyWrites cp channels tasks getNextVersion ttn).2 =
        (applyWrites cp' channels tasks getNextVersion ttn).2 := by
  unfold LangGraph.applyWrites
  generalize SortBy.sortBy TaskWrites.sortKey tasks = sorted
  have hseen := Checkpoint.Alike.foldl_markSeen sorted h
  have hnv : nextVersion getNextVersion (sorted.foldl LangGraph.markSeen cp') =
      nextVersion getNextVersion (sorted.foldl LangGraph.markSeen cp) := by
    rw [nextVersion, nextVersion, hseen.versions]
  have hinit : ApplyState.Alike ⟨sorted.foldl LangGraph.markSeen cp, channels, []⟩
      ⟨sorted.foldl LangGraph.markSeen cp', channels, []⟩ := ⟨hseen, rfl, rfl⟩
  simp only [hnv]
  generalize nextVersion getNextVersion (sorted.foldl LangGraph.markSeen cp) = nv
  have hconsumed := List.foldl_rel (l := triggerChannels sorted channels) hinit
    fun chan _ _ _ hc => ApplyState.Alike.consumeOne hc nv chan
  obtain ⟨hu, hr⟩ := KeyedFold.foldE_rel (R := ApplyState.Alike)
    (f := fun s (e : String × List PyVal) => updateOne nv s e.1 e.2)
    (fun _ _ e hs => ApplyState.Alike.updateOne hs nv e.1 e.2)
    (groupWrites sorted channels).entries hconsumed
  unfold updateAll
  generalize KeyedFold.foldE _ _ (groupWrites sorted channels).entries = r at hu hr
  generalize KeyedFold.foldE _ _ (groupWrites sorted channels).entries = r' at hu hr
  obtain ⟨t, e⟩ := r
  obtain ⟨t', e'⟩ := r'
  obtain rfl : e = e' := hr
  cases e with
  | error e => exact ⟨hu, rfl⟩
  | ok u => exact hu.endStep nv _ ttn

end Apply

/- ── The tasks of the next step ────────────────────────────────── -/

section Tasks
variable {cp cp' : Checkpoint V}

theorem SameHint.nil_iff {us us' : Option (List String)} (h : SameHint us us') :
    us.getD [] = [] ↔ us'.getD [] = [] := by
  rw [List.eq_nil_iff_forall_not_mem, List.eq_nil_iff_forall_not_mem]
  exact forall_congr' fun chan => not_congr (h chan)

variable [LinearOrder V] [OrderBot V]

omit [LinearOrder V] [OrderBot V] in
theorem candidateNodes_congr (ctx : TaskContext) (h : cp.Alike cp') (ttn : Option TriggerToNodes)
    {us us' : Option (List String)} (hus : SameHint us us') :
    candidateNodes ctx cp' ttn us' = candidateNodes ctx cp ttn us := by
  unfold candidateNodes
  simp only [h.versions, ne_eq, hus.nil_iff]
  split
  · -- the nodes are sorted and distinct, so that the order of the channels is lost
    apply SortBy.sortBy_eq_of_perm
    · rw [List.perm_ext_iff_of_nodup (List.nodup_dedup _) (List.nodup_dedup _)]
      intro node
      simp only [List.mem_dedup, List.mem_flatMap, hus _]
    · intro a _ b _ hab
      exact hab
  · rfl

theorem Checkpoint.Alike.prepareSingleTask {ctx : TaskContext} (h : cp.Alike cp')
    (hctx : ctx.processes.get? Const.INTERRUPT = none) (channels : OrdDict String Channel)
    (step : Int) (forExecution : Bool) (path : TaskPath) :
    prepareSingleTask ctx cp' channels step forExecution path =
      prepareSingleTask ctx cp channels step forExecution path := by
  have hpush : ∀ idx, preparePushTaskSend ctx cp' channels step idx =
      preparePushTaskSend ctx cp channels step idx := by
    intro idx
    unfold preparePushTaskSend
    rw [h.id]
  have hpull : ∀ name, preparePullTask ctx cp' channels step forExecution name =
      preparePullTask ctx cp channels step forExecution name := by
    intro name
    unfold preparePullTask
    by_cases hname : name = Const.INTERRUPT
    · rw [hname, hctx]
    · rw [h.id, h.versions, h.seen name hname]
  unfold LangGraph.prepareSingleTask
  simp only [hpush, hpull]

theorem Loop.Alike.tasks {p : Program V} {l l' : Loop V} (h : l.Alike l') (info : StepInfo)
    (forExecution : Bool) : l'.tasks p info forExecution = l.tasks p info forExecution := by
  have hctx : (p.ctx info.managed).processes.get? Const.INTERRUPT = none := by
    cases hp : p.nodes.get? Const.INTERRUPT with
    | none => exact hp
    | some proc => exact absurd (by decide) (not_reserved_of_validateGraph p.valid hp)
  unfold Loop.tasks nextTaskList nextTaskPaths
  rw [h.channels, candidateNodes_congr _ h.checkpoint _ h.hint]
  apply List.filterMap_congr
  intro path _
  exact h.checkpoint.prepareSingleTask hctx _ _ _ path

end Tasks

/- ── The steps of a run that goes on ───────────────────────────── -/

section Steps
variable {cp cp' : Checkpoint V}

theorem SameHint.all_eq {us us' : Option (List String)} (h : SameHint us us') (k : String) :
    (us'.all fun updated => !updated.contains k) = us.all fun updated => !updated.contains k := by
  have hgetD : ∀ us : Option (List String), (us.all fun updated => !updated.contains k) =
      !(us.getD []).contains k := by
    intro us
    cases us <;> rfl
  rw [hgetD, hgetD, Bool.eq_iff_iff]
  simp [h k]

theorem Checkpoint.Alike.createCheckpoint (h : cp.Alike cp')
    (channels : Option (OrdDict String Channel)) (id : String) {us us' : Option (List String)}
    (hus : SameHint us us') (g : Option (GetNextVersion V)) (toSnapshot : List String) :
    (createCheckpoint cp channels id us g toSnapshot).Alike
      (createCheckpoint cp' channels id us' g toSnapshot) where
  id := rfl
  values := by
    unfold LangGraph.createCheckpoint
    rw [h.values, h.versions]
  versions := by
    unfold LangGraph.createCheckpoint snapshotVersion
    simp only [h.versions, hus.all_eq]
  seen := h.seen
  hint := by
    have hmem : ∀ (us : Option (List String)) (chan : String),
        chan ∈ (us.map (SortBy.sortBy fun c => c)).getD [] ↔ chan ∈ us.getD [] := by
      intro us chan
      cases us with
      | none => rfl
      | some updated => exact SortBy.mem_sortBy
    intro chan
    exact (hmem us chan).trans ((hus chan).trans (hmem us' chan).symm)

theorem Checkpoint.Alike.sanitizeTasks (h : cp.Alike cp') (channels : OrdDict String Channel) :
    (sanitizeTasks channels cp).Alike (sanitizeTasks channels cp') := by
  unfold LangGraph.sanitizeTasks
  rw [h.values]
  split
  · split
    · exact ⟨h.id, rfl, h.versions, h.seen, h.hint⟩
    · exact h
  · exact h

structure Saved.Alike (s s' : Saved V) : Prop where
  checkpoint : s.checkpoint.Alike s'.checkpoint
  unread : s'.unread = s.unread

variable [LinearOrder V] [OrderBot V]

/-- The same checkpoints are saved, and the same tasks are due. -/
structure World.Alike (p : Program V) (w w' : World V) : Prop where
  saved : List.Forall₂ Saved.Alike w.saved w'.saved
  loop : Option.Rel Loop.Alike w.loop w'.loop
  tasks : ∀ l l', w.loop = some l → w'.loop = some l' → ∀ info forExecution,
    l'.tasks p info forExecution = l.tasks p info forExecution

theorem World.alike_of_loop {p : Program V} {saved saved' : List (Saved V)} {l l' : Loop V}
    (hs : List.Forall₂ Saved.Alike saved saved') (hl : l.Alike l') :
    World.Alike p ⟨saved, some l⟩ ⟨saved', some l'⟩ where
  saved := hs
  loop := .some hl
  tasks := by
    intro m m' hm hm' info forExecution
    cases hm
    cases hm'
    exact hl.tasks info forExecution

omit [OrderBot V] in
theorem Loop.Alike.apply {p : Program V} {l l' : Loop V} (h : l.Alike l')
    (tasks : List TaskWrites) :
    Option.Rel (fun r r' => r.1.Alike r'.1 ∧ r'.2 = r.2) (l.apply p tasks) (l'.apply p tasks) := by
  obtain ⟨hs, hr⟩ := h.checkpoint.applyWrites l.channels tasks (some p.getNextVersion)
    p.triggerToNodes
  unfold Loop.apply
  rw [h.channels]
  generalize applyWrites l.checkpoint l.channels tasks _ _ = r at hs hr
  generalize applyWrites l'.checkpoint l.channels tasks _ _ = r' at hs hr
  obtain ⟨t, e⟩ := r
  obtain ⟨t', e'⟩ := r'
  obtain rfl : e = e' := hr
  cases e with
  | error e => exact .none
  | ok u =>
    refine .some ⟨⟨hs.checkpoint, hs.channels, h.hint, ?_⟩, hs.updatedChannels⟩
    have hu : t'.updatedChannels = t.updatedChannels := hs.updatedChannels
    unfold Loop.after
    rw [h.unread, hu]

/-- The events of a run between its entry and its end. -/
def Event.continues : Event → Bool
  | .superstep _ _ _ => true
  | .putCheckpoint _ _ _ => true
  | .advance _ => true
  | _ => false

theorem World.Alike.step {p : Program V} {w w' : World V} (h : w.Alike p w') {e : Event}
    (he : e.continues = true) :
    Option.Rel (World.Alike p) (LangGraph.step p w e) (LangGraph.step p w' e) := by
  obtain ⟨saved, loop⟩ := w
  obtain ⟨saved', loop'⟩ := w'
  have hs : List.Forall₂ Saved.Alike saved saved' := h.saved
  cases h.loop with
  | none =>
    cases e with
    | superstep info outputs pushed => exact .none
    | putCheckpoint id toSnapshot hinted => exact .none
    | advance id => exact .none
    | _ => cases he
  | @some l l' hl =>
    cases e with
    | superstep info outputs pushed =>
      simp only [LangGraph.step, Option.bind_some, hl.tasks info true]
      split
      · exact .none
      · have happly := hl.apply (p := p)
          (taskWrites (l.tasks p info true) outputs ++ pushed.map Pushed.toTaskWrites)
        generalize l.apply p _ = r at happly
        generalize l'.apply p _ = r' at happly
        cases happly with
        | none => exact .none
        | @some r r' hr =>
          obtain ⟨hm, hus⟩ := hr
          refine .some (World.alike_of_loop hs ⟨hm.checkpoint, hm.channels, ?_, hm.unread⟩)
          rw [hus]
          exact fun _ => Iff.rfl
    | putCheckpoint id toSnapshot hinted =>
      have hhint : SameHint (if hinted then l.updatedChannels else none)
          (if hinted then l'.updatedChannels else none) := by
        cases hinted with
        | true => exact hl.hint
        | false => exact fun _ => Iff.rfl
      have hcp := (hl.checkpoint.createCheckpoint (some l.channels) id hhint
        (some p.getNextVersion) (l.deltaChannels toSnapshot)).sanitizeTasks l.channels
      have hdelta : l'.deltaChannels toSnapshot = l.deltaChannels toSnapshot := by
        unfold Loop.deltaChannels
        rw [hl.channels]
      simp only [LangGraph.step, Option.map_some, hl.channels, hdelta]
      apply Option.Rel.some
      apply World.alike_of_loop
      · exact List.rel_append hs (.cons ⟨hcp, hl.unread⟩ .nil)
      · exact ⟨hcp, rfl, hl.hint, hl.unread⟩
    | advance id =>
      have hcp := (hl.checkpoint.createCheckpoint none id hl.hint none []).sanitizeTasks l.channels
      simp only [LangGraph.step, Option.map_some, hl.channels]
      exact .some (World.alike_of_loop hs ⟨hcp, rfl, hl.hint, hl.unread⟩)
    | _ => cases he

theorem World.Alike.run {p : Program V} : ∀ (events : List Event) {w w' : World V}, w.Alike p w' →
    (∀ e ∈ events, e.continues = true) →
      Option.Rel (World.Alike p) (Machine.run (LangGraph.step p) w events)
        (Machine.run (LangGraph.step p) w' events)
  | [], _, _, h, _ => .some h
  | e :: events, w, w', h, he => by
    have hstep := h.step (he e List.mem_cons_self)
    rw [Machine.run, Machine.run]
    generalize LangGraph.step p w e = r at hstep
    generalize LangGraph.step p w' e = r' at hstep
    cases hstep with
    | none => exact .none
    | some hw => exact World.Alike.run events hw fun e' he' => he e' (List.mem_cons_of_mem e he')

end Steps

end Alike

/- ── What holds of a thread ────────────────────────────────────── -/

section Reloads
variable {V : Type}

/-- Every channel of the graph is stored in the checkpoints. -/
def Program.StoresAll (p : Program V) : Prop :=
  ∀ k spec, p.specs.get? k = some spec → spec.isStored = true

/-- Only what has a version has a value. -/
def Checkpoint.Versioned (cp : Checkpoint V) : Prop :=
  ∀ k, cp.channelVersions.get? k = none → cp.channelValues.get? k = none

/-- The channels are what their checkpoint restores. -/
structure Loop.Reloads (p : Program V) (l : Loop V) : Prop where
  keys : l.channels.keys = p.specs.keys
  channel : ∀ k ch, l.channels.get? k = some ch → ∃ spec, p.specs.get? k = some spec ∧
    ch.SameSpec spec ∧ ch.Reloads ∧
      (l.checkpoint.channelVersions.get? k = none → ch = spec.fromCheckpoint none)
  versioned : l.checkpoint.Versioned

structure World.Reloads (p : Program V) (w : World V) : Prop where
  saved : ∀ s ∈ w.saved, s.checkpoint.Versioned
  loop : ∀ l, w.loop = some l → l.Reloads p

section Checkpoints
variable {cp : Checkpoint V} {channels : OrdDict String Channel}

theorem Checkpoint.versioned_create (cp : Checkpoint V) (channels : OrdDict String Channel)
    (id : String) (us : Option (List String)) (g : Option (GetNextVersion V))
    (toSnapshot : List String) :
    (createCheckpoint cp (some channels) id us g toSnapshot).Versioned := by
  intro k hnone
  rw [get?_channelVersions_create, Option.map_eq_none_iff] at hnone
  rw [get?_channelValues_create, OrdDict.contains, hnone]
  rfl

theorem Checkpoint.Versioned.sanitizeTasks (h : cp.Versioned)
    (channels : OrdDict String Channel) : (sanitizeTasks channels cp).Versioned := by
  intro k hnone
  rw [channelVersions_sanitizeTasks] at hnone
  have hk := h k hnone
  unfold LangGraph.sanitizeTasks
  split
  · rename_i hsends
    split
    · have hne : k ≠ Const.TASKS := by
        intro heq
        rw [heq, hsends] at hk
        cases hk
      exact (OrdDict.get?_set_of_ne hne _ _).trans hk
    · exact hk
  · exact hk

/-- Nothing is taken out of a `Send` where no channel is untracked. -/
theorem sanitizeTasks_eq_self (h : ∀ k ch, channels.get? k = some ch → ch.isStored = true)
    (cp : Checkpoint V) : sanitizeTasks channels cp = cp := by
  have hany : channels.values.any Channel.isUntracked = false := by
    rw [List.any_eq_false]
    intro ch hch
    obtain ⟨k, hk⟩ := OrdDict.mem_values_iff.mp hch
    have hs := h k ch hk
    rw [Channel.isStored, Bool.and_eq_true, Bool.not_eq_true'] at hs
    rw [hs.2]
    exact Bool.false_ne_true
  unfold sanitizeTasks
  rw [hany]
  split <;> rfl

/-- Without a `DeltaChannel` the channels are restored whatever the history. -/
theorem hydrateAll_ok {histories : OrdDict String DeltaChannelHistory}
    {values : OrdDict String PyVal} : ∀ {specs : List (String × Channel)}
    (d : OrdDict String Channel), (∀ e ∈ specs, e.2.asDelta = none) →
      ∃ channels, hydrateAll histories values specs d = .ok channels
  | [], d, _ => ⟨d, rfl⟩
  | (k, spec) :: rest, d, h => by
    have hspec : spec.asDelta = none := h (k, spec) List.mem_cons_self
    have hy : hydrate histories k spec (values.get? k) =
        .ok (spec.fromCheckpoint (values.get? k)) := by
      unfold hydrate
      rw [hspec]
      split
      · rename_i heq
        cases heq
      · rfl
    unfold hydrateAll
    rw [hy]
    exact hydrateAll_ok _ fun e he => h e (List.mem_cons_of_mem _ he)

end Checkpoints

variable {p : Program V}

theorem Program.StoresAll.asDelta (hp : p.StoresAll) {k : String} {spec : Channel}
    (h : p.specs.get? k = some spec) : spec.asDelta = none := by
  have hs := hp k spec h
  rw [Channel.isStored, Bool.and_eq_true, Option.isNone_iff_eq_none] at hs
  exact hs.1

theorem Loop.Reloads.of_load (hp : p.StoresAll) {s : Saved V} (hs : s.checkpoint.Versioned)
    {history : History} {l : Loop V} (h : s.load p history = some l) : l.Reloads p := by
  obtain ⟨hchannels, hcp, -, -⟩ := Saved.load_eq_some h
  have hkeys := channelsFromCheckpoint_keys hchannels
  refine ⟨hkeys, ?_, hcp ▸ hs⟩
  intro k ch hch
  obtain ⟨spec, hspec⟩ : ∃ spec, p.specs.get? k = some spec := by
    rw [← OrdDict.mem_keys_iff, ← hkeys]
    exact OrdDict.mem_keys_iff.mpr ⟨ch, hch⟩
  have hget := channelsFromCheckpoint_get? hchannels hspec (hp.asDelta hspec)
  obtain rfl := Option.some.inj (hch.symm.trans hget)
  refine ⟨spec, hspec, Channel.sameSpec_fromCheckpoint spec _,
    Channel.reloads_fromCheckpoint (hp k spec hspec) _, ?_⟩
  intro hnone
  rw [hcp] at hnone
  rw [hs k hnone]

variable {l : Loop V}

theorem Loop.Reloads.stored (h : l.Reloads p) (hp : p.StoresAll) {k : String} {ch : Channel}
    (hch : l.channels.get? k = some ch) : ch.isStored = true := by
  obtain ⟨spec, hspec, hsame, -⟩ := h.channel k ch hch
  rw [hsame.isStored]
  exact hp k spec hspec

theorem Loop.Reloads.deltaChannels (h : l.Reloads p) (hp : p.StoresAll) (names : List String) :
    l.deltaChannels names = [] := by
  unfold Loop.deltaChannels
  rw [List.filter_eq_nil_iff]
  intro k _
  cases hch : l.channels.get? k with
  | none => exact Bool.false_ne_true
  | some ch =>
    have hs := h.stored hp hch
    rw [Channel.isStored, Bool.and_eq_true, Option.isNone_iff_eq_none] at hs
    rw [Option.any_some, hs.1]
    exact Bool.false_ne_true

/-- The stored checkpoint restores the channels as they are. -/
theorem Loop.Reloads.load (h : l.Reloads p) (hp : p.StoresAll) (id : String)
    (us : Option (List String)) (g : Option (GetNextVersion V)) (history : History) :
    channelsFromCheckpoint p.specs (createCheckpoint l.checkpoint (some l.channels) id us g [])
      history = .ok l.channels := by
  have hdelta : ∀ e ∈ p.specs.entries, e.2.asDelta = none := fun e he =>
    hp.asDelta (OrdDict.get?_eq_some_iff.mpr he)
  generalize hcp : createCheckpoint l.checkpoint (some l.channels) id us g [] = cp
  obtain ⟨channels, hok⟩ : ∃ channels, channelsFromCheckpoint p.specs cp history = .ok channels :=
    hydrateAll_ok _ hdelta
  have heq : channels = l.channels := by
    apply OrdDict.ext_get? ((channelsFromCheckpoint_keys hok).trans h.keys.symm)
    intro k
    cases hch : l.channels.get? k with
    | none =>
      rw [OrdDict.get?_eq_none_iff, channelsFromCheckpoint_keys hok, ← h.keys]
      exact OrdDict.get?_eq_none_iff.mp hch
    | some ch =>
      obtain ⟨spec, hspec, hsame, hreloads, hnone⟩ := h.channel k ch hch
      rw [channelsFromCheckpoint_get? hok hspec (hp.asDelta hspec), ← hcp,
        get?_channelValues_create, OrdDict.contains, hch, Option.bind_some]
      cases hver : l.checkpoint.channelVersions.get? k with
      | none => exact congrArg some (hnone hver).symm
      | some v =>
        have hrestored := hreloads.fromCheckpoint_checkpoint
        rw [congrFun hsame ch.checkpoint] at hrestored
        exact congrArg some hrestored
  rw [hok, heq]

/-- The loop has other versions, seen versions and hints. -/
theorem Loop.Reloads.withCheckpoint (h : l.Reloads p) {cp : Checkpoint V} (hcp : cp.Versioned)
    (hversions : ∀ k, cp.channelVersions.get? k = none →
      l.checkpoint.channelVersions.get? k = none)
    (us : Option (List String)) (unread : Unread) :
    Loop.Reloads p ⟨cp, l.channels, us, unread⟩ where
  keys := h.keys
  channel := by
    intro k ch hch
    obtain ⟨spec, hspec, hsame, hreloads, hnone⟩ := h.channel k ch hch
    exact ⟨spec, hspec, hsame, hreloads, fun hv => hnone (hversions k hv)⟩
  versioned := hcp

section Steps
variable [LinearOrder V]

omit [LinearOrder V] in
theorem Checkpoint.Versioned.foldl_markSeen {cp : Checkpoint V} (h : cp.Versioned) :
    ∀ tasks : List TaskWrites, (tasks.foldl markSeen cp).Versioned
  | [] => h
  | t :: tasks => by
    have ht : (markSeen cp t).Versioned := h
    exact foldl_markSeen ht tasks

theorem Checkpoint.Versioned.applyWrites {cp : Checkpoint V} (h : cp.Versioned)
    (channels : OrdDict String Channel) (tasks : List TaskWrites)
    (getNextVersion : GetNextVersion V) (ttn : TriggerToNodes) :
    (applyWrites cp channels tasks (some getNextVersion) ttn).1.checkpoint.Versioned := by
  apply applyWrites_invariant (P := fun cp _ => cp.Versioned) (v := cp.next getNextVersion)
  · exact fun _ _ _ _ _ hcp _ _ => hcp
  · intro cp _ chan hcp _ k hnone
    apply hcp k
    by_cases hk : k = chan
    · rw [hk, Checkpoint.setVersion, OrdDict.get?_set_self] at hnone
      cases hnone
    · rw [Checkpoint.setVersion, OrdDict.get?_set_of_ne hk] at hnone
      exact hnone
  · rfl
  · exact h.foldl_markSeen _

theorem Loop.Reloads.apply (h : l.Reloads p) {l' : Loop V} {tasks : List TaskWrites}
    {updated : List String} (happly : l.apply p tasks = some (l', updated)) : l'.Reloads p := by
  have hversioned : l'.checkpoint.Versioned := by
    have hcp := h.versioned.applyWrites l.channels tasks p.getNextVersion p.triggerToNodes
    unfold Loop.apply at happly
    generalize applyWrites l.checkpoint l.channels tasks _ _ = r at happly hcp
    obtain ⟨s, e⟩ := r
    cases e with
    | error e => cases happly
    | ok u =>
      cases happly
      exact hcp
  obtain ⟨s, finished, hr, rfl, rfl⟩ := Loop.apply_eq_some happly
  have hkeys : s.channels.keys = l.channels.keys := congrArg (fun f => f.2.2.2.2) hr.frame
  refine ⟨hkeys.trans h.keys, ?_, hversioned⟩
  intro k ch' hch'
  obtain ⟨ch, hch⟩ : ∃ ch, l.channels.get? k = some ch := by
    rw [← OrdDict.mem_keys_iff, ← hkeys]
    exact OrdDict.mem_keys_iff.mpr ⟨ch', hch'⟩
  obtain ⟨spec, hspec, hsame, hreloads, hnone⟩ := h.channel k ch hch
  have hview := hr.view k
  have hbefore : ApplyState.view k ⟨l.checkpoint, l.channels, []⟩ =
      some ⟨ch, l.checkpoint.channelVersions.get? k, false⟩ := by
    simp [ApplyState.view, hch]
  have hafter : s.view k = some ⟨ch', s.checkpoint.channelVersions.get? k,
      s.updatedChannels.contains k⟩ := by
    have hch'' : s.channels.get? k = some ch' := hch'
    simp [ApplyState.view, hch'']
  rw [hbefore, hafter] at hview
  cases hview with
  | some happ =>
    refine ⟨spec, hspec, happ.sameSpec.trans hsame,
      happ.invariant (fun _ => Channel.Reloads.consume) (fun _ vals hc => hc.update vals)
        (fun _ => Channel.Reloads.finish) hreloads, ?_⟩
    intro hv
    cases happ.kept with
    | inl hnew =>
      have hv' : s.checkpoint.channelVersions.get? k = none := hv
      rw [hv'] at hnew
      cases hnew
    | inr hkept =>
      obtain ⟨heq, hver⟩ := hkept
      exact heq.trans (hnone (hver.symm.trans hv))

omit [LinearOrder V] in
theorem World.Reloads.source {w : World V} (h : w.Reloads p) {source : Option Nat} {id : String}
    {s : Saved V} (hs : w.source source id = some s) : s.checkpoint.Versioned := by
  cases source with
  | none =>
    cases hs
    exact fun _ _ => rfl
  | some idx => exact h.saved s (List.mem_of_getElem? hs)

omit [LinearOrder V] in
theorem World.Reloads.put {w : World V} (h : w.Reloads p) (l : Loop V) {cp : Checkpoint V}
    (hcp : cp.Versioned) : (w.put l cp).Reloads p where
  saved := by
    intro s hs
    cases List.mem_append.mp hs with
    | inl hs => exact h.saved s hs
    | inr hs =>
      rw [List.mem_singleton.mp hs]
      exact hcp
  loop := h.loop

variable [OrderBot V]

theorem World.Reloads.step (hp : p.StoresAll) {w w' : World V} (h : w.Reloads p) {e : Event}
    (hstep : LangGraph.step p w e = some w') : w'.Reloads p := by
  have hloop : ∀ {l : Loop V}, l.Reloads p → World.Reloads p { w with loop := some l } := by
    intro l hl
    refine ⟨h.saved, ?_⟩
    intro l' hl'
    cases hl'
    exact hl
  cases e with
  | enter source id history =>
    obtain ⟨s, hs, hstep⟩ := Option.bind_eq_some_iff.mp hstep
    obtain ⟨l, hl, rfl⟩ := Option.map_eq_some_iff.mp hstep
    exact hloop (Loop.Reloads.of_load hp (h.source hs) hl)
  | update source id history c =>
    obtain ⟨s, hs, hstep⟩ := Option.bind_eq_some_iff.mp hstep
    obtain ⟨l, hl, hstep⟩ := Option.bind_eq_some_iff.mp hstep
    obtain ⟨l', hl', rfl⟩ := Option.map_eq_some_iff.mp hstep
    apply h.put
    cases c with
    | copy =>
      -- the values and the versions stay
      cases hl'
      exact (Loop.Reloads.of_load hp (h.source hs) hl).versioned
    | asNodes updates => exact Checkpoint.versioned_create _ _ _ _ _ _
    | asInput writes => exact Checkpoint.versioned_create _ _ _ _ _ _
    | clear info nullWrites outputs => exact Checkpoint.versioned_create _ _ _ _ _ _
  | command writes =>
    obtain ⟨l, hl, hstep⟩ := Option.bind_eq_some_iff.mp hstep
    obtain ⟨r, hr, rfl⟩ := Option.map_eq_some_iff.mp hstep
    have hr' := (h.loop l hl).apply hr
    exact hloop ⟨hr'.keys, hr'.channel, hr'.versioned⟩
  | resume =>
    obtain ⟨l, hl, rfl⟩ := Option.map_eq_some_iff.mp hstep
    have hl' := h.loop l hl
    exact hloop ⟨hl'.keys, hl'.channel, hl'.versioned⟩
  | input info writes =>
    obtain ⟨l, hl, hstep⟩ := Option.bind_eq_some_iff.mp hstep
    obtain ⟨r, hr, rfl⟩ := Option.map_eq_some_iff.mp hstep
    have hr' := (h.loop l hl).apply hr
    exact hloop ⟨hr'.keys, hr'.channel, hr'.versioned⟩
  | superstep info outputs pushed =>
    obtain ⟨l, hl, hstep⟩ := Option.bind_eq_some_iff.mp hstep
    simp only at hstep
    split at hstep
    · cases hstep
    · obtain ⟨r, hr, rfl⟩ := Option.map_eq_some_iff.mp hstep
      have hr' := (h.loop l hl).apply hr
      exact hloop ⟨hr'.keys, hr'.channel, hr'.versioned⟩
  | putCheckpoint id toSnapshot hinted =>
    obtain ⟨l, hl, rfl⟩ := Option.map_eq_some_iff.mp hstep
    have hcp := (Checkpoint.versioned_create l.checkpoint l.channels id
      (if hinted then l.updatedChannels else none) (some p.getNextVersion)
      (l.deltaChannels toSnapshot)).sanitizeTasks l.channels
    refine ⟨(h.put l hcp).saved, ?_⟩
    intro l' hl'
    cases hl'
    refine (h.loop l hl).withCheckpoint hcp ?_ _ _
    intro k hnone
    rw [channelVersions_sanitizeTasks, get?_channelVersions_create, Option.map_eq_none_iff] at hnone
    exact hnone
  | advance id =>
    obtain ⟨l, hl, rfl⟩ := Option.map_eq_some_iff.mp hstep
    have hcp : (createCheckpoint l.checkpoint none id l.updatedChannels none []).Versioned :=
      (h.loop l hl).versioned
    refine hloop ((h.loop l hl).withCheckpoint (hcp.sanitizeTasks l.channels) ?_ _ _)
    intro k hnone
    rw [channelVersions_sanitizeTasks] at hnone
    exact hnone

theorem World.reloads_of_reachable (hp : p.StoresAll) {w : World V}
    (h : Machine.Reachable (LangGraph.step p) (fun _ _ => True) ⟨[], none⟩ w) : w.Reloads p := by
  apply Machine.Reachable.invariant _ _ h
  · exact ⟨fun _ hs => absurd hs List.not_mem_nil, fun _ hl => by cases hl⟩
  · exact fun _ _ _ hw _ hstep => hw.step hp hstep

end Steps

end Reloads

theorem storesAll_joinProgram : joinProgram.StoresAll := by
  have hall : ∀ e ∈ joinProgram.specs.entries, e.2.isStored = true := by decide +kernel
  exact fun k spec h => hall (k, spec) (OrdDict.get?_eq_some_iff.mp h)

end LangGraph
