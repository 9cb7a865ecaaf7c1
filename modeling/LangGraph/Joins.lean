import LangGraph.JoinChannels
import LangGraph.DiscardedTasks

/- Edges with several starts over the runs of a thread.

   Correspondence (source ↔ Lean):
     the `ChannelWrite`s of `attach_edge`           ↔ `Publishes`
     the calls of `apply_writes` of a step          ↔ `World.callLog`
   `Logged` is the thread with the calls that led to its loop and to each of its
   checkpoints, the latest first. The calls since the barrier last fired
   (`sinceFired`) say what it has seen: `Tracks` is kept by every event. `Joined`
   is what follows for the steps of a run; the target can run by its other
   triggers in the meantime, which leaves what the barrier has seen. -/
namespace LangGraph

/-! ## Calls -/

/-- The node of the task ran to its end: a task that is discarded, or one that
    failed and has an error handler, writes no values. -/
def TaskWrites.completed (t : TaskWrites) : Bool :=
  !t.writes.isEmpty && t.writes.all fun w => w.1 != Const.ERROR

/-- The values that the task writes to a channel. -/
def TaskWrites.valuesFor (t : TaskWrites) (chan : String) : List PyVal :=
  t.writes.filterMap fun w => if w.1 = chan then some w.2 else none

/-- The starts of the edges to a node write their names to the barriers when they have
    run, and nothing else writes there. -/
def Publishes (g : StateGraph) (t : TaskWrites) : Prop :=
  ∀ e ∈ g.waitingEdges, (∀ v ∈ t.valuesFor (joinName e.1 e.2), v = .str t.name) ∧
    (t.valuesFor (joinName e.1 e.2) ≠ [] ↔ t.completed = true ∧ ∃ e' ∈ g.waitingEdges,
      e'.2 ≠ Const.END ∧ joinName e'.1 e'.2 = joinName e.1 e.2 ∧ t.name ∈ e'.1)

instance (g : StateGraph) (t : TaskWrites) : Decidable (Publishes g t) :=
  inferInstanceAs (Decidable (∀ e ∈ g.waitingEdges, _ ∧ (_ ↔ _ ∧ ∃ e' ∈ g.waitingEdges, _)))

/-- A call of `apply_writes`, and the channels that are available before it. -/
structure Call where
  tasks : List TaskWrites
  available : String → Bool

namespace Call

/-- A task of the node ran. -/
def ran (c : Call) (node : String) : Bool := c.tasks.any fun t => t.name == node && t.completed

/-- The barrier was complete, and triggered a task. -/
def fired (chan : String) (c : Call) : Bool :=
  c.available chan && c.tasks.any fun t => t.triggers.contains chan

end Call

/-- The calls from the latest on that stops, which is the last one of the list. -/
def since (stop : Call → Bool) : List Call → List Call
  | [] => []
  | c :: log => if stop c then [c] else c :: since stop log

/-- The calls since the barrier of the edge last fired. -/
def sinceFired (e : List String × String) (log : List Call) : List Call :=
  since (Call.fired (joinName e.1 e.2)) log

/-- Every start ran in one of the calls. -/
def RoundDone (e : List String × String) (calls : List Call) : Prop :=
  ∀ start ∈ e.1, ∃ c ∈ calls, c.ran start = true

instance (e : List String × String) (calls : List Call) : Decidable (RoundDone e calls) :=
  inferInstanceAs (Decidable (∀ start ∈ e.1, ∃ c ∈ calls, c.ran start = true))

section Runs
variable {V : Type} [LinearOrder V] [OrderBot V]

def Loop.call (l : Loop V) (tasks : List TaskWrites) : Call :=
  ⟨tasks, fun chan => (l.channels.get? chan).any (·.isAvailable)⟩

/-- The calls of an event, the latest first. -/
def World.callLog (p : Program V) (w : World V) (e : Event) : List Call :=
  (w.calls p e).reverse.map fun c => c.1.call c.2

/-- A thread with the calls that led to its loop, and to each saved checkpoint. -/
structure Logged (V : Type) where
  world : World V
  log : List Call
  savedLogs : Nat → List Call

namespace Logged

def start : Logged V := ⟨⟨[], none⟩, [], fun _ => []⟩

/-- The calls that led to the checkpoint, or to an empty one. -/
def source (s : Logged V) : Option Nat → List Call
  | some idx => s.savedLogs idx
  | none => []

/-- A checkpoint is saved, with the calls that led to it. -/
def saveLog (s : Logged V) (log : List Call) : Nat → List Call :=
  fun idx => if idx = s.world.saved.length then log else s.savedLogs idx

def step (p : Program V) (s : Logged V) (e : Event) : Option (Logged V) :=
  (LangGraph.step p s.world e).map fun w =>
    match e with
    | .enter source _ _ => { s with world := w, log := s.source source }
    | .update source _ _ _ =>
      { s with world := w, savedLogs := s.saveLog (s.world.callLog p e ++ s.source source) }
    | .putCheckpoint .. => { s with world := w, savedLogs := s.saveLog s.log }
    | _ => { s with world := w, log := s.world.callLog p e ++ s.log }

end Logged

/-- What the nodes write to the barriers, beside the condition of the hints. -/
def JoinOk (p : Program V) (s : Logged V) (e : Event) : Prop :=
  FastPathOk p s.world e ∧ ∀ c ∈ s.world.calls p e, ∀ t ∈ c.2, Publishes p.builder t

instance (p : Program V) (s : Logged V) (e : Event) : Decidable (JoinOk p s e) :=
  inferInstanceAs (Decidable (_ ∧ ∀ c ∈ s.world.calls p e, ∀ t ∈ c.2, Publishes p.builder t))

/-- The barrier of the edge is available. -/
def Loop.released (l : Loop V) (e : List String × String) : Bool :=
  (l.channels.get? (joinName e.1 e.2)).any (·.isAvailable)

/-! ## Checkpoints that are loaded again -/

/-- The trigger channels of the second loop are those of the first, or what a checkpoint of
    it restores. -/
def Loop.Restores (p : Program V) (l l₂ : Loop V) : Prop :=
  ∀ node chan, p.Triggers node chan → ∀ ch, l.channels.get? chan = some ch →
    l₂.checkpoint.channelVersions.get? chan = l.checkpoint.channelVersions.get? chan ∧
      (l₂.channels.get? chan = some ch ∨
        l₂.channels.get? chan = some (ch.fromCheckpoint
          (if (l.checkpoint.channelVersions.get? chan).isSome then ch.checkpoint else none)))

omit [LinearOrder V] [OrderBot V] in
theorem Loop.restores_of_eq {p : Program V} {l l₂ : Loop V} (hch : l₂.channels = l.channels)
    (hver : ∀ node chan, p.Triggers node chan →
      l₂.checkpoint.channelVersions.get? chan = l.checkpoint.channelVersions.get? chan) :
    l.Restores p l₂ := by
  intro node chan ht ch hget
  exact ⟨hver node chan ht, Or.inl (hch ▸ hget)⟩

omit [LinearOrder V] [OrderBot V] in
/-- A checkpoint of the loop stores the trigger channels that have a version. -/
theorem Loop.Wired.storedValue {p : Program V} {l : Loop V} (hw : l.Wired p) {id : String}
    {updated : Option (List String)} {g : Option (GetNextVersion V)} {toSnapshot : List String}
    {cp : Checkpoint V}
    (hcp : cp = createCheckpoint l.checkpoint (some l.channels) id updated g toSnapshot)
    (hdelta : ∀ k ∈ toSnapshot, (l.channels.get? k).any (·.asDelta.isSome) = true) :
    ∀ node chan ch, p.Triggers node chan → l.channels.get? chan = some ch →
      cp.channelVersions.get? chan = l.checkpoint.channelVersions.get? chan ∧
        cp.channelValues.get? chan =
          if (l.checkpoint.channelVersions.get? chan).isSome then ch.checkpoint else none := by
  intro node chan ch ht hch
  obtain ⟨ch', spec, hch', hspec, htr, -⟩ := hw node chan ht
  obtain rfl := Option.some.inj (hch'.symm.trans hch)
  have hsnap : chan ∉ toSnapshot := by
    intro hm
    have hd := hdelta chan hm
    rw [hch, Option.any_some, asDelta_of_isTrigger htr] at hd
    cases hd
  refine ⟨(hw.stored ht hspec hcp hdelta).1, ?_⟩
  rw [hcp, get?_channelValues_create, hch, Option.bind_some, snapshotValue, if_neg hsnap]
  rfl

omit [LinearOrder V] [OrderBot V] in
theorem Loop.Wired.restores {p : Program V} {l l₂ : Loop V} (hw : l.Wired p)
    (hc : p.builder.compile.Wired) {s : Saved V} {history : History}
    (hstored : ∀ node chan ch, p.Triggers node chan → l.channels.get? chan = some ch →
      s.checkpoint.channelVersions.get? chan = l.checkpoint.channelVersions.get? chan ∧
        s.checkpoint.channelValues.get? chan =
          if (l.checkpoint.channelVersions.get? chan).isSome then ch.checkpoint else none)
    (h : s.load p history = some l₂) : l.Restores p l₂ := by
  intro node chan ht ch hch
  obtain ⟨ch', spec, hch', hspec, -, hsame, -⟩ := hw node chan ht
  obtain rfl := Option.some.inj (hch'.symm.trans hch)
  obtain ⟨spec', hspec', -, hch₂⟩ := Saved.load_trigger hc h ht
  obtain rfl := Option.some.inj (hspec'.symm.trans hspec)
  obtain ⟨hver, hval⟩ := hstored node chan ch' ht hch
  refine ⟨by rw [(Saved.load_eq_some h).2.1]; exact hver, Or.inr ?_⟩
  rw [hch₂, hval, hsame]

namespace Channel

theorem settled_fromCheckpoint_none (c : Channel) : (c.fromCheckpoint none).Settled := by
  cases c with
  | namedBarrierValueAfterFinish c => exact fun h => nomatch h
  | _ => exact trivial

theorem Settled.restored {c : Channel} (h : c.Settled) : (c.fromCheckpoint c.checkpoint).Settled := by
  cases c with
  | namedBarrierValueAfterFinish c => exact h
  | _ => exact trivial

end Channel

/-! ## What the barrier has seen -/

/-- The barrier has seen the starts that ran since it last fired; without a version it is as
    it was built. -/
structure Tracks (p : Program V) (e : List String × String) (defer : Bool) (l : Loop V)
    (log : List Call) : Prop where
  barrier : ∃ seen finished, l.channels.get? (joinName e.1 e.2) = some (barrier e defer seen finished) ∧
    ∀ x, x ∈ seen ↔ ∃ start ∈ e.1, x = .str start ∧ ∃ c ∈ sinceFired e log, c.ran start = true
  unversioned : l.checkpoint.channelVersions.get? (joinName e.1 e.2) = none →
    l.channels.get? (joinName e.1 e.2) = some (LangGraph.barrier e defer [] false)
  settled : l.Settled p

variable {p : Program V} {e : List String × String} {spec : StateNodeSpec}

omit [LinearOrder V] [OrderBot V] in
theorem StateGraph.Joins.triggers (hjoin : p.builder.Joins e spec) : p.Triggers e.2 (joinName e.1 e.2) := by
  obtain ⟨-, hproc, -⟩ := StateGraph.compile_join hjoin
  exact hproc

omit [LinearOrder V] [OrderBot V] in
theorem Tracks.restores {l l₂ : Loop V} {log : List Call} (h : Tracks p e spec.defer l log)
    (hjoin : p.builder.Joins e spec) (hr : l.Restores p l₂) (hw : l.Wired p) :
    Tracks p e spec.defer l₂ log := by
  obtain ⟨seen, finished, hch, hseen⟩ := h.barrier
  obtain ⟨hver, hcases⟩ := hr e.2 (joinName e.1 e.2) hjoin.triggers _ hch
  have hch₂ : l₂.channels.get? (joinName e.1 e.2) = some (LangGraph.barrier e spec.defer seen finished) := by
    rcases hcases with hsame | hrestored
    · exact hsame
    · rw [hrestored]
      cases hv : l.checkpoint.channelVersions.get? (joinName e.1 e.2) with
      | some v => rw [Option.isSome_some, if_pos rfl, fromCheckpoint_barrier]
      | none => rw [if_neg (by simp), fromCheckpoint_barrier_none, ← h.unversioned hv, hch]
  refine ⟨⟨seen, finished, hch₂, hseen⟩, ?_, ?_⟩
  · intro hv
    rw [hch₂, ← hch]
    exact h.unversioned (hver ▸ hv)
  · intro node chan ht ch₂ hget₂
    obtain ⟨ch, -, hget, -⟩ := hw node chan ht
    have hs := h.settled node chan ht ch hget
    rcases (hr node chan ht ch hget).2 with hsame | hrestored
    · obtain rfl := Option.some.inj (hsame.symm.trans hget₂)
      exact hs
    · obtain rfl := Option.some.inj (hrestored.symm.trans hget₂)
      split
      · exact hs.restored
      · exact Channel.settled_fromCheckpoint_none ch

omit [LinearOrder V] [OrderBot V] in
/-- A loop on an empty checkpoint. -/
theorem Tracks.fresh (hjoin : p.builder.Joins e spec) (hc : p.builder.compile.Wired) {s : Saved V}
    (hnone : ∀ chan, s.checkpoint.channelValues.get? chan = none) {history : History} {l : Loop V}
    (h : s.load p history = some l) : Tracks p e spec.defer l [] := by
  obtain ⟨spec', hspec', -, hch⟩ := Saved.load_trigger hc h hjoin.triggers
  obtain rfl := Option.some.inj (hspec'.symm.trans (StateGraph.compile_join hjoin).1)
  rw [hnone, fromCheckpoint_barrier_none] at hch
  refine ⟨⟨[], false, hch, fun x => ?_⟩, fun _ => hch, ?_⟩
  · refine iff_of_false List.not_mem_nil fun hx => ?_
    obtain ⟨start, -, -, c, hmem, -⟩ := hx
    cases hmem
  · intro node chan ht ch hget
    obtain ⟨spec₁, -, -, hget₁⟩ := Saved.load_trigger hc h ht
    rw [hnone] at hget₁
    obtain rfl := Option.some.inj (hget₁.symm.trans hget)
    exact Channel.settled_fromCheckpoint_none spec₁

theorem joinName_not_control (starts : List String) (target : String) :
    controlChannels.contains (joinName starts target) = false := by
  rw [← Bool.not_eq_true, List.contains_iff_mem]
  intro h
  have hp : ∀ r ∈ controlChannels, r.toList.take 5 ≠ "join:".toList := by decide
  refine hp _ h ?_
  simp [joinName, String.toList_append]

theorem mem_writesFor {tasks : List TaskWrites} {chan : String}
    (hcontrol : controlChannels.contains chan = false) {x : PyVal} :
    x ∈ writesFor (SortBy.sortBy TaskWrites.sortKey tasks) chan ↔
      ∃ t ∈ tasks, x ∈ t.valuesFor chan := by
  rw [writesFor, hcontrol, if_neg Bool.false_ne_true, List.filterMap_flatMap, List.mem_flatMap]
  simp only [SortBy.mem_sortBy, TaskWrites.valuesFor]

/-- What a call writes to the barrier: the names of the starts that ran in it. -/
theorem mem_writesFor_join {g : StateGraph} (hjoin : g.Joins e spec) {tasks : List TaskWrites}
    (hpub : ∀ t ∈ tasks, Publishes g t) (available : String → Bool) {x : PyVal} :
    x ∈ writesFor (SortBy.sortBy TaskWrites.sortKey tasks) (joinName e.1 e.2) ↔
      ∃ start ∈ e.1, x = .str start ∧ (⟨tasks, available⟩ : Call).ran start = true := by
  have hran : ∀ start, (⟨tasks, available⟩ : Call).ran start = true ↔
      ∃ t ∈ tasks, t.name = start ∧ t.completed = true := by
    intro start
    rw [Call.ran, List.any_eq_true]
    simp only [Bool.and_eq_true, beq_iff_eq]
  rw [mem_writesFor (joinName_not_control e.1 e.2)]
  constructor
  · intro h
    obtain ⟨t, ht, hx⟩ := h
    obtain ⟨hname, hsome⟩ := hpub t ht e hjoin.edge
    obtain ⟨hcompleted, e', he', -, hsame, hstart⟩ := hsome.mp (List.ne_nil_of_mem hx)
    rw [hjoin.unshared e' he' hsame] at hstart
    exact ⟨t.name, hstart, hname x hx, (hran t.name).mpr ⟨t, ht, rfl, hcompleted⟩⟩
  · intro h
    obtain ⟨start, hstart, rfl, hr⟩ := h
    obtain ⟨t, ht, rfl, hcompleted⟩ := (hran start).mp hr
    obtain ⟨hname, hsome⟩ := hpub t ht e hjoin.edge
    obtain ⟨v, hv⟩ := List.exists_mem_of_ne_nil _
      (hsome.mpr ⟨hcompleted, e, hjoin.edge, hjoin.notEnd, rfl, hstart⟩)
    rw [← hname v hv]
    exact ⟨t, ht, hv⟩

omit [LinearOrder V] [OrderBot V] in
/-- The barrier fires in a call that consumes it while it is available. -/
theorem Loop.fired_call {l : Loop V} {ch : Channel}
    (hch : l.channels.get? (joinName e.1 e.2) = some ch) (tasks : List TaskWrites) :
    (l.call tasks).fired (joinName e.1 e.2) =
      (decide (joinName e.1 e.2 ∈ triggerChannels tasks l.channels) && ch.isAvailable) := by
  have hres : joinName e.1 e.2 ∉ reserved :=
    fun hm => joinName_not_reserved e.1 e.2 (List.mem_cons_of_mem _ hm)
  have htriggers : decide (joinName e.1 e.2 ∈ triggerChannels tasks l.channels) =
      tasks.any fun t => t.triggers.contains (joinName e.1 e.2) := by
    rw [Bool.eq_iff_iff, decide_eq_true_eq, mem_triggerChannels, List.any_eq_true, hch]
    simp [hres]
  rw [htriggers, Bool.and_comm]
  show ((l.channels.get? (joinName e.1 e.2)).any (·.isAvailable) && _) = _
  rw [hch, Option.any_some]
  rfl

omit [OrderBot V] in
theorem Tracks.apply {l l' : Loop V} {log : List Call} {tasks : List TaskWrites} {us : List String}
    (hl : Tracks p e spec.defer l log) (hjoin : p.builder.Joins e spec) (hw : l.Wired p)
    (hpub : ∀ t ∈ tasks, Publishes p.builder t) (h : l.apply p tasks = some (l', us)) :
    Tracks p e spec.defer l' (l.call tasks :: log) := by
  obtain ⟨seen, finished, hch, hseen⟩ := hl.barrier
  obtain ⟨ch', hch', -, -, hkept⟩ := Loop.apply_channel h hch
  obtain ⟨s₃, s, hphases, rfl, rfl⟩ := Loop.apply_phases h
  have hfired := Loop.fired_call hch tasks
  obtain ⟨seen', hbarrier, hseen'⟩ := hphases.barrier rfl hch hfired
  refine ⟨⟨seen', _, hbarrier, fun x => ?_⟩, ?_, ?_⟩
  · rw [hseen', hseen, mem_writesFor_join hjoin hpub (l.call tasks).available]
    show _ ↔ ∃ start ∈ e.1, x = .str start ∧ ∃ c ∈ since _ (l.call tasks :: log), c.ran start = true
    rw [since]
    cases hf : (l.call tasks).fired (joinName e.1 e.2) with
    | true => simp [Loop.call]
    | false =>
      simp only [true_and, Bool.false_eq_true, if_false, List.exists_mem_cons_iff]
      constructor
      · intro hx
        rcases hx with ⟨start, hs, hx, hc⟩ | ⟨start, hs, hx, hc⟩
        · exact ⟨start, hs, hx, Or.inr hc⟩
        · exact ⟨start, hs, hx, Or.inl hc⟩
      · intro hx
        obtain ⟨start, hs, hx, hc | hc⟩ := hx
        · exact Or.inr ⟨start, hs, hx, hc⟩
        · exact Or.inl ⟨start, hs, hx, hc⟩
  · intro hv
    rcases hkept with hnew | ⟨rfl, hold⟩
    · rw [hnew] at hv
      cases hv
    · rw [hch', ← hch]
      exact hl.unversioned (hold ▸ hv)
  · intro node chan ht ch₂ hget₂
    obtain ⟨ch, -, hget, -⟩ := hw node chan ht
    obtain ⟨w₃, hnotified, -, hview⟩ := hphases.channel hget
    obtain ⟨hsettled, -⟩ := hnotified.released (hl.settled node chan ht ch hget) rfl
    have hchannel := (ApplyState.view_eq_some hview).1
    obtain rfl := Option.some.inj (hchannel.symm.trans hget₂)
    split
    · exact hsettled.finish
    · exact hsettled

/-! ## Runs -/

structure Logged.Tracks (p : Program V) (e : List String × String) (defer : Bool) (s : Logged V) : Prop where
  loop : ∀ l, s.world.loop = some l → LangGraph.Tracks p e defer l s.log
  saved : ∀ idx sv, s.world.saved[idx]? = some sv → ∀ history l, sv.load p history = some l →
    LangGraph.Tracks p e defer l (s.savedLogs idx)

variable {s s' : Logged V}

omit [LinearOrder V] [OrderBot V] in
theorem Logged.Tracks.source (hs : s.Tracks p e spec.defer) (hjoin : p.builder.Joins e spec)
    (hc : p.builder.compile.Wired) {source : Option Nat} {id : String} {sv : Saved V}
    (h : s.world.source source id = some sv) {history : History} {l : Loop V}
    (hl : sv.load p history = some l) : LangGraph.Tracks p e spec.defer l (s.source source) := by
  cases source with
  | some idx => exact hs.saved idx sv h history l hl
  | none =>
    cases h
    exact LangGraph.Tracks.fresh hjoin hc (fun _ => rfl) hl

omit [LinearOrder V] [OrderBot V] in
/-- A checkpoint is saved that restores what is tracked by the log. -/
theorem Logged.Tracks.put (hs : s.Tracks p e spec.defer) {l : Loop V} {cp : Checkpoint V} {log : List Call}
    (h : ∀ history l₂, Saved.load p ⟨cp, l.unread⟩ history = some l₂ →
      LangGraph.Tracks p e spec.defer l₂ log) :
    ∀ idx sv, (s.world.put l cp).saved[idx]? = some sv → ∀ history l₂, sv.load p history = some l₂ →
      LangGraph.Tracks p e spec.defer l₂ (s.saveLog log idx) := by
  intro idx sv hsv history l₂ hl₂
  unfold Logged.saveLog
  rw [World.put, List.getElem?_append] at hsv
  split at hsv
  · next hlt =>
    rw [if_neg (Nat.ne_of_lt hlt)]
    exact hs.saved idx sv hsv history l₂ hl₂
  · next hge =>
    obtain ⟨hlt, hget⟩ := List.getElem?_eq_some_iff.mp hsv
    have hidx : idx = s.world.saved.length := by
      rw [List.length_singleton] at hlt
      omega
    subst hidx
    rw [if_pos rfl]
    simp only [Nat.sub_self, List.getElem_cons_zero] at hget
    subst hget
    exact h history l₂ hl₂

theorem Tracks.change {l l' : Loop V} {log : List Call} (hl : Tracks p e spec.defer l log)
    (hjoin : p.builder.Joins e spec) (hw : l.Wired p) (hc : p.builder.compile.Wired) {c : Update}
    (hpub : ∀ a ∈ l.changeCalls p c, ∀ t ∈ a.2, Publishes p.builder t) (h : l.change p c = some l') :
    Tracks p e spec.defer l' (((l.changeCalls p c).reverse.map fun a => a.1.call a.2) ++ log) ∧
      l'.Wired p := by
  have hcall : ∀ {l l' : Loop V} {log : List Call} {tasks : List TaskWrites},
      Tracks p e spec.defer l log → l.Wired p → (∀ t ∈ tasks, Publishes p.builder t) →
      (l.apply p tasks).map Prod.fst = some l' →
        Tracks p e spec.defer l' (l.call tasks :: log) ∧ l'.Wired p := by
    intro l l' log tasks hl hw hpub h
    obtain ⟨r, hr, rfl⟩ := Option.map_eq_some_iff.mp h
    exact ⟨hl.apply hjoin hw hpub hr, hw.apply hc hr⟩
  cases c with
  | asNodes updates => exact hcall hl hw (hpub _ List.mem_cons_self) h
  | asInput writes => exact hcall hl hw (hpub _ List.mem_cons_self) h
  | clear info nullWrites outputs =>
    unfold Loop.change at h
    unfold Loop.changeCalls at hpub ⊢
    dsimp only at h hpub ⊢
    split at h
    · next hnil =>
      rw [if_pos hnil] at hpub ⊢
      exact hcall hl hw (hpub _ List.mem_cons_self) h
    · next hne =>
      obtain ⟨r, hr, h⟩ := Option.bind_eq_some_iff.mp h
      rw [if_neg hne, hr, Option.map_some, Option.toList_some] at hpub ⊢
      obtain ⟨h₁, hw₁⟩ := hcall hl hw (hpub _ List.mem_cons_self)
        (Option.map_eq_some_iff.mpr ⟨r, hr, rfl⟩)
      exact hcall h₁ hw₁ (hpub _ (List.mem_cons_of_mem _ List.mem_cons_self)) h
  | copy =>
    cases h
    exact ⟨hl, hw⟩

theorem Logged.Tracks.update (hs : s.Tracks p e spec.defer) (hjoin : p.builder.Joins e spec)
    (hc : p.builder.compile.Wired) (hw : s.world.Holds p (Loop.Wired p)) {source : Option Nat}
    {id : String} {history : History} {c : Update}
    (hpub : ∀ a ∈ s.world.calls p (.update source id history c), ∀ t ∈ a.2, Publishes p.builder t)
    (h : Logged.step p s (.update source id history c) = some s') : s'.Tracks p e spec.defer := by
  obtain ⟨w', hworld, rfl⟩ := Option.map_eq_some_iff.mp h
  obtain ⟨sv, hsv, h⟩ := Option.bind_eq_some_iff.mp hworld
  obtain ⟨l, hl, h⟩ := Option.bind_eq_some_iff.mp h
  obtain ⟨l', hl', rfl⟩ := Option.map_eq_some_iff.mp h
  have hwl : l.Wired p := by
    cases source with
    | some idx => exact hw.saved sv (List.mem_of_getElem? hsv) history l hl
    | none =>
      cases hsv
      refine Loop.Wired.of_load hc hl fun node chan spec ht hspec ha => ?_
      obtain ⟨spec', hspec', htr, -⟩ := Saved.load_trigger hc hl ht
      obtain rfl := Option.some.inj (hspec'.symm.trans hspec)
      rw [show (emptyCheckpoint (V := V) id).channelValues.get? chan = none from rfl,
        Channel.isAvailable_fromCheckpoint_none htr] at ha
      cases ha
  have htl : LangGraph.Tracks p e spec.defer l.unhinted (s.source source) :=
    (hs.source hjoin hc hsv hl).restores hjoin (Loop.restores_of_eq rfl fun _ _ _ => rfl) hwl
  have hcalls : s.world.calls p (.update source id history c) = l.unhinted.changeCalls p c := by
    simp [World.calls, hsv, hl]
  rw [hcalls] at hpub
  obtain ⟨htl', hwl'⟩ := htl.change hjoin hwl hc hpub hl'
  refine ⟨?_, hs.put fun history₂ l₂ hl₂ => ?_⟩
  · exact hs.loop
  · rw [World.callLog, hcalls]
    refine htl'.restores hjoin ?_ hwl'
    cases hk : c.keepsChannels with
    | true =>
      cases c with
      | copy =>
        cases hl'
        -- the copy stores what the loop was restored from
        intro node chan ht ch hch
        obtain ⟨spec₁, hspec₁, -, hch₁⟩ := Saved.load_trigger hc hl ht
        obtain ⟨spec₂, hspec₂, -, hch₂⟩ := Saved.load_trigger hc hl₂ ht
        obtain rfl := Option.some.inj (hspec₁.symm.trans hspec₂)
        refine ⟨by rw [(Saved.load_eq_some hl₂).2.1]; rfl, Or.inl ?_⟩
        rw [hch₂, ← hch]
        show _ = l.channels.get? chan
        rw [hch₁, ← (Saved.load_eq_some hl).2.1]
        rfl
      | _ => cases hk
    | false =>
      rw [hk] at hl₂
      exact hwl'.restores hc
        (hwl'.storedValue rfl (fun _ hm => absurd hm List.not_mem_nil)) hl₂

theorem Logged.Tracks.step (hs : s.Tracks p e spec.defer) (hjoin : p.builder.Joins e spec)
    (hc : p.builder.compile.Wired) (hw : s.world.Holds p (Loop.Wired p)) {ev : Event}
    (hpub : ∀ a ∈ s.world.calls p ev, ∀ t ∈ a.2, Publishes p.builder t)
    (h : Logged.step p s ev = some s') : s'.Tracks p e spec.defer := by
  -- an event with one call on the loop
  have hcall : ∀ {l : Loop V} {tasks : List TaskWrites} {r : Loop V × List String}
      {us : Option (List String)}, s.world.loop = some l → s.world.calls p ev = [(l, tasks)] →
      l.apply p tasks = some r →
        Logged.Tracks p e spec.defer { s with
          world := { s.world with loop := some { r.1 with updatedChannels := us } }
          log := s.world.callLog p ev ++ s.log } := by
    intro l tasks r us hl hcalls hr
    rw [hcalls] at hpub
    have hwl := hw.loop l hl
    have hr' := (hs.loop l hl).apply hjoin hwl (hpub _ List.mem_cons_self) hr
    refine ⟨fun l' hl' => ?_, hs.saved⟩
    cases hl'
    have hlog : s.world.callLog p ev ++ s.log = l.call tasks :: s.log := by
      rw [World.callLog, hcalls]
      rfl
    show LangGraph.Tracks p e spec.defer _ (s.world.callLog p ev ++ s.log)
    rw [hlog]
    exact hr'.restores hjoin (Loop.restores_of_eq rfl fun _ _ _ => rfl) (hwl.apply hc hr)
  cases ev with
  | enter source id history =>
    obtain ⟨w', hworld, rfl⟩ := Option.map_eq_some_iff.mp h
    obtain ⟨sv, hsv, h⟩ := Option.bind_eq_some_iff.mp hworld
    obtain ⟨l, hl, rfl⟩ := Option.map_eq_some_iff.mp h
    refine ⟨fun l' hl' => ?_, hs.saved⟩
    cases hl'
    exact hs.source hjoin hc hsv hl
  | command writes =>
    obtain ⟨w', hworld, rfl⟩ := Option.map_eq_some_iff.mp h
    obtain ⟨l, hl, h⟩ := Option.bind_eq_some_iff.mp hworld
    obtain ⟨r, hr, rfl⟩ := Option.map_eq_some_iff.mp h
    exact hcall hl (by simp [World.calls, hl]) hr
  | resume =>
    obtain ⟨w', hworld, rfl⟩ := Option.map_eq_some_iff.mp h
    obtain ⟨l, hl, rfl⟩ := Option.map_eq_some_iff.mp hworld
    refine ⟨fun l' hl' => ?_, hs.saved⟩
    cases hl'
    exact (hs.loop l hl).restores hjoin (Loop.restores_of_eq rfl fun _ _ _ => rfl) (hw.loop l hl)
  | input info writes =>
    obtain ⟨w', hworld, rfl⟩ := Option.map_eq_some_iff.mp h
    obtain ⟨l, hl, h⟩ := Option.bind_eq_some_iff.mp hworld
    obtain ⟨r, hr, rfl⟩ := Option.map_eq_some_iff.mp h
    exact hcall hl (by simp [World.calls, hl]) hr
  | superstep info outputs pushed =>
    obtain ⟨w', hworld, rfl⟩ := Option.map_eq_some_iff.mp h
    obtain ⟨l, hl, h⟩ := Option.bind_eq_some_iff.mp hworld
    simp only at h
    split at h
    · cases h
    · obtain ⟨r, hr, rfl⟩ := Option.map_eq_some_iff.mp h
      exact hcall hl (by simp [World.calls, hl]) hr
  | putCheckpoint id toSnapshot hinted =>
    obtain ⟨w', hworld, rfl⟩ := Option.map_eq_some_iff.mp h
    obtain ⟨l, hl, rfl⟩ := Option.map_eq_some_iff.mp hworld
    have hwl := hw.loop l hl
    generalize hcp : createCheckpoint l.checkpoint (some l.channels) id
      (if hinted then l.updatedChannels else none) (some p.getNextVersion)
      (l.deltaChannels toSnapshot) = cp
    have hstored := hwl.storedValue hcp.symm fun k hm => (List.mem_filter.mp hm).2
    have hrestored : ∀ history l₂,
        Saved.load p ⟨sanitizeTasks l.channels cp, l.unread⟩ history = some l₂ →
        LangGraph.Tracks p e spec.defer l₂ s.log := fun history l₂ hl₂ => by
      refine (hs.loop l hl).restores hjoin (hwl.restores hc (fun node chan ch ht hch => ?_) hl₂) hwl
      rw [channelVersions_sanitizeTasks, get?_channelValues_sanitizeTasks _ _ (p.triggers_ne_tasks hc ht)]
      exact hstored node chan ch ht hch
    have hput := hs.put hrestored
    refine ⟨fun l' hl' => ?_, hput⟩
    cases hl'
    refine (hs.loop l hl).restores hjoin (Loop.restores_of_eq rfl fun node chan ht => ?_) hwl
    obtain ⟨ch, -, hch, -⟩ := hwl node chan ht
    rw [channelVersions_sanitizeTasks]
    exact (hstored node chan ch ht hch).1
  | advance id =>
    obtain ⟨w', hworld, rfl⟩ := Option.map_eq_some_iff.mp h
    obtain ⟨l, hl, rfl⟩ := Option.map_eq_some_iff.mp hworld
    refine ⟨fun l' hl' => ?_, hs.saved⟩
    cases hl'
    refine (hs.loop l hl).restores hjoin (Loop.restores_of_eq rfl fun node chan ht => ?_) (hw.loop l hl)
    rw [channelVersions_sanitizeTasks]
    rfl
  | update source id history c => exact hs.update hjoin hc hw hpub h

/-- The thread of a logged run is one of the runs of the loop. -/
theorem Logged.reachable_world (h : Machine.Reachable (Logged.step p) (JoinOk p) Logged.start s) :
    Machine.Reachable (LangGraph.step p) (FastPathOk p) ⟨[], none⟩ s.world := by
  refine Machine.Reachable.invariant (P := fun s : Logged V =>
    Machine.Reachable (LangGraph.step p) (FastPathOk p) ⟨[], none⟩ s.world) .start ?_ h
  intro s ev s' hs hok hstep
  obtain ⟨w', hw', rfl⟩ := Option.map_eq_some_iff.mp hstep
  have hnext := Machine.Reachable.step hs hok.1 hw'
  cases ev <;> exact hnext

theorem Logged.tracks_of_reachable (hjoin : p.builder.Joins e spec) (hg : p.builder.WaitsForSome)
    (h : Machine.Reachable (Logged.step p) (JoinOk p) Logged.start s) : s.Tracks p e spec.defer := by
  have hc := p.builder.compile_wired hg
  have hboth := Machine.Reachable.invariant (P := fun s : Logged V =>
    Machine.Reachable (LangGraph.step p) (FastPathOk p) ⟨[], none⟩ s.world ∧ s.Tracks p e spec.defer)
    ?_ ?_ h
  · exact hboth.2
  · exact ⟨.start, ⟨fun l hl => (nomatch hl), fun idx sv hsv => (nomatch hsv)⟩⟩
  · intro s ev s' hs hok hstep
    have hholds := (hinted_loopInvariant p hc).reachable hc hs.1
    have hw : s.world.Holds p (Loop.Wired p) :=
      ⟨fun sv hsv history l hl => (hholds.saved sv hsv history l hl).1, fun l hl => (hholds.loop l hl).1⟩
    refine ⟨?_, hs.2.step hjoin hc hw hok.2 hstep⟩
    obtain ⟨w', hw', rfl⟩ := Option.map_eq_some_iff.mp hstep
    have hnext := Machine.Reachable.step hs.1 hok.1 hw'
    cases ev <;> exact hnext

/-! ## The steps of a run -/

/-- A trigger of the target other than the barrier is available and unread. -/
def Loop.DueOtherwise (p : Program V) (l : Loop V) (e : List String × String) : Prop :=
  ∃ proc, p.nodes.get? e.2 = some proc ∧ ∃ chan ∈ proc.triggers, chan ≠ joinName e.1 e.2 ∧
    (l.channels.get? chan).any (·.isAvailable) = true ∧ l.unread e.2 chan = true

/-- Some task beside those that wait for the end of the run is due: a send, or a node. -/
def Loop.OthersPending (p : Program V) (l : Loop V) : Prop :=
  pendingSends l.channels ≠ [] ∨ l.Pending p

theorem mem_barrierNames {x : PyVal} : x ∈ barrierNames e ↔ ∃ start ∈ e.1, x = .str start := by
  rw [barrierNames, List.mem_dedup, List.mem_map]
  simp only [eq_comm]

/-- A barrier that has seen the starts that ran is complete when all of them did. -/
theorem complete_iff {seen : List PyVal} {calls : List Call}
    (hseen : ∀ x, x ∈ seen ↔ ∃ start ∈ e.1, x = .str start ∧ ∃ c ∈ calls, c.ran start = true) :
    complete e seen = true ↔ RoundDone e calls := by
  rw [complete, setEq_iff]
  constructor
  · intro h start hstart
    obtain ⟨start', -, heq, hran⟩ :=
      (hseen _).mp ((h (.str start)).mpr (mem_barrierNames.mpr ⟨start, hstart, rfl⟩))
    rw [PyVal.str.inj heq]
    exact hran
  · intro h x
    rw [hseen, mem_barrierNames]
    constructor
    · intro hx
      obtain ⟨start, hstart, heq, -⟩ := hx
      exact ⟨start, hstart, heq⟩
    · intro hx
      obtain ⟨start, hstart, heq⟩ := hx
      exact ⟨start, hstart, heq, h start hstart⟩

omit [LinearOrder V] [OrderBot V] in
/-- The barrier of a target that is not deferred is available when all starts ran since it
    last fired. -/
theorem Tracks.released_iff {l : Loop V} {log : List Call} (h : Tracks p e false l log) :
    l.released e = true ↔ RoundDone e (sinceFired e log) := by
  obtain ⟨seen, finished, hch, hseen⟩ := h.barrier
  rw [Loop.released, hch, Option.any_some, isAvailable_barrier, Bool.not_false, Bool.true_or,
    Bool.and_true]
  exact complete_iff hseen

/-- The tasks that the barrier triggers are the one of its target. -/
theorem Loop.preparePullTask_of_mem (hjoin : p.builder.Joins e spec) {l : Loop V} {info : StepInfo}
    {t : Task} (ht : t ∈ l.tasks p info true) (hmem : joinName e.1 e.2 ∈ t.triggers) :
    preparePullTask (p.ctx info.managed) l.checkpoint l.channels info.step true e.2 = some t ∧
      t.name = e.2 := by
  rcases mem_nextTaskList.mp ht with ⟨i, -, hi⟩ | ⟨node, -, hnode⟩
  · rw [(preparePushTaskSend_path hi).2, List.mem_singleton] at hmem
    exact absurd hmem fun heq => joinName_not_reserved e.1 e.2 (heq ▸ by decide)
  · obtain ⟨proc, hproc, -, -, hname, -, htriggers⟩ := preparePullTask_eq_some hnode
    rw [htriggers, SortBy.mem_sortBy] at hmem
    obtain rfl := (StateGraph.compile_join hjoin).2.2 node proc hproc hmem
    exact ⟨hnode, hname⟩

/-- What is known of a loop that a logged run reaches. -/
structure Loop.Sound (p : Program V) (l : Loop V) : Prop where
  wired : l.Wired p
  hinted : l.Hinted p
  current : l.Current p

theorem Logged.sound_of_reachable (hg : p.builder.WaitsForSome) (hinc : Increasing p.getNextVersion)
    (h : Machine.Reachable (Logged.step p) (JoinOk p) Logged.start s) {l : Loop V}
    (hl : s.world.loop = some l) : l.Sound p := by
  have hc := p.builder.compile_wired hg
  have hworld := Logged.reachable_world h
  obtain ⟨hw, hh⟩ := ((hinted_loopInvariant p hc).reachable hc hworld).loop l hl
  have htrue : Machine.Reachable (LangGraph.step p) (fun _ _ => True) ⟨[], none⟩ s.world :=
    hworld.mono fun _ _ _ => trivial
  exact ⟨hw, hh, (((current_loopInvariant p hc hinc).reachable hc htrue).loop l hl).2.2⟩

/-- A trigger that is available fires. -/
theorem Loop.Sound.fires {l : Loop V} (h : l.Sound p) {node chan : String} (ht : p.Triggers node chan)
    (ha : (l.channels.get? chan).any (·.isAvailable) = true) : l.fires node chan = true :=
  Loop.fires_iff.mpr ⟨(Option.any_eq_true _ _).mp ha, Or.inr (h.current node chan ht ha).2⟩

/-- In a step the complete barrier triggers the one task of its target. -/
theorem Loop.Sound.exists_task {l : Loop V} (h : l.Sound p) (hjoin : p.builder.Joins e spec)
    (hg : p.builder.WaitsForSome) {defer : Bool} {log : List Call} (htracks : Tracks p e defer l log)
    (hdrops : l.DropsOnlyEphemeral p) (info : StepInfo) (hreleased : l.released e = true) :
    ∃ t ∈ l.tasks p info true, t.name = e.2 ∧
      ∀ t' ∈ l.tasks p info true, joinName e.1 e.2 ∈ t'.triggers ↔ t' = t := by
  have hc := p.builder.compile_wired hg
  obtain ⟨-, ⟨proc, hp, hchan⟩, -⟩ := StateGraph.compile_join hjoin
  have hfires := h.fires hjoin.triggers hreleased
  have hin : hasInput proc l.channels = true := by
    refine (hdrops _ (OrdDict.get?_eq_some_iff.mp hp) _ hchan hfires).resolve_right fun he => ?_
    obtain ⟨seen, finished, hch, -⟩ := htracks.barrier
    rw [hch, Option.any_some, LangGraph.barrier] at he
    split at he <;> cases he
  obtain ⟨t, ht, hname, hmem⟩ := Loop.exists_mem_allTasks h.wired hc info true hp hchan hfires hin
  have ht' : t ∈ l.tasks p info true := (h.hinted.mem_tasks_iff h.wired).mpr ht
  refine ⟨t, ht', hname, fun t' ht'' => ⟨fun hmem' => ?_, fun heq => heq ▸ hmem⟩⟩
  have hone := (Loop.preparePullTask_of_mem hjoin ht' hmem).1
  exact Option.some.inj ((Loop.preparePullTask_of_mem hjoin ht'' hmem').1.symm.trans hone)

omit [OrderBot V] in
/-- After a step that consumes the barrier if it is available, the barrier of a deferred target
    is available when all starts ran since it last fired, and nothing else is due. -/
theorem Tracks.released_of_call {l l' : Loop V} {log log' : List Call} {tasks : List TaskWrites}
    {us : List String} (hl : Tracks p e true l log) (hl' : Tracks p e true l' log') (hw : l.Wired p)
    (hjoin : p.builder.Joins e spec) (h : l.apply p tasks = some (l', us)) (hstep : isStep tasks = true)
    (hfires : l.released e = true → (l.call tasks).fired (joinName e.1 e.2) = true)
    (hover : ∀ node chan, p.Triggers node chan → ∀ ch, l'.channels.get? chan = some ch →
      ch.isAvailable = true → chan ∈ us) :
    l'.released e = true ↔ RoundDone e (sinceFired e log') ∧ ¬l'.Pending p := by
  obtain ⟨seen, finished, hch, -⟩ := hl.barrier
  obtain ⟨seen', finished', hch', hseen'⟩ := hl'.barrier
  obtain ⟨s₃, st, hphases, rfl, rfl⟩ := Loop.apply_phases h
  have hends := hphases.finishes_iff hw hl.settled hstep hover
  have hfired := Loop.fired_call hch tasks
  obtain ⟨seen'', hbarrier, -⟩ := hphases.barrier rfl hch hfired
  have hsame := Option.some.inj (hch'.symm.trans hbarrier)
  obtain ⟨rfl, rfl⟩ : seen' = seen'' ∧ finished' = _ := by
    simpa only [LangGraph.barrier, if_true, Channel.namedBarrierValueAfterFinish.injEq,
      NamedBarrierValueAfterFinish.mk.injEq, true_and] using hsame
  -- a barrier that was released is consumed, and one that was not is not finished
  have hnot : (finished && !(l.call tasks).fired (joinName e.1 e.2)) = false := by
    cases hf : finished with
    | false => rfl
    | true =>
      have hcomplete : complete e seen = true := hl.settled _ _ hjoin.triggers _ hch hf
      rw [hfires (by rw [Loop.released, hch, Option.any_some, isAvailable_barrier, hcomplete, hf]; rfl)]
      rfl
  rw [Loop.released, hch', Option.any_some, isAvailable_barrier, hnot, ← hends, ← complete_iff hseen']
  simp only [Bool.not_true, Bool.false_or, Bool.and_eq_true]
  tauto

/-- A superstep of a run: the calls, and the two loops. -/
structure Logged.Superstep (p : Program V) (s s' : Logged V) (info : StepInfo) (l l' : Loop V) : Prop where
  step : ∃ outputs pushed, JoinOk p s (.superstep info outputs pushed) ∧
    Logged.step p s (.superstep info outputs pushed) = some s'
  before : s.world.loop = some l
  after : s'.world.loop = some l'

/-- The call of a superstep, which has the tasks. -/
theorem Logged.Superstep.call {info : StepInfo} {l l' : Loop V}
    (h : Logged.Superstep p s s' info l l') : ∃ tasks l₁ us, l.apply p tasks = some (l₁, us) ∧
      l' = { l₁ with updatedChannels := some us } ∧ s'.log = l.call tasks :: s.log ∧
      l.DropsOnlyEphemeral p ∧ isStep tasks = true ∧
      ∀ t ∈ l.tasks p info true, ∃ t' ∈ tasks, t'.triggers = t.triggers := by
  obtain ⟨⟨outputs, pushed, hok, hs'⟩, hl, hl'⟩ := h
  obtain ⟨hdrops, hids⟩ := hok.1 l hl
  obtain ⟨w', hworld, rfl⟩ := Option.map_eq_some_iff.mp hs'
  obtain ⟨l₀, hl₀, hworld⟩ := Option.bind_eq_some_iff.mp hworld
  obtain rfl := Option.some.inj (hl₀.symm.trans hl)
  simp only at hworld
  split at hworld
  · cases hworld
  · next hne =>
    obtain ⟨r, hr, rfl⟩ := Option.map_eq_some_iff.mp hworld
    refine ⟨_, r.1, r.2, hr, (Option.some.inj hl').symm, ?_, hdrops, ?_, ?_⟩
    · show s.world.callLog p _ ++ s.log = _
      simp [World.callLog, World.calls, hl₀]
    · obtain ⟨t, ht⟩ := List.exists_mem_of_ne_nil _ hne
      obtain ⟨t₀, ht₀, rfl⟩ := List.mem_map.mp ht
      rw [isStep, List.any_eq_true]
      refine ⟨_, List.mem_append_left _ ht, ?_⟩
      have := triggers_ne_nil_of_mem ((mem_values_tasksById hids.inj).mp ht₀)
      simpa [Task.toTaskWrites] using this
    · intro t ht
      exact ⟨_, List.mem_append_left _ (mem_taskWrites hids ht), rfl⟩

/-- The barrier of the edge over the steps of a run. When the target is not deferred, the barrier is
    available exactly while all starts ran since it last fired. Each superstep with an available
    barrier runs one task of the target for it, after which the round starts again; the target
    runs without it only when another trigger is due. When the target is deferred, the barrier is
    available after a superstep that leaves no sends iff all starts ran since it last fired and
    nothing else is due. -/
theorem joined (p : Program V) (hg : p.builder.WaitsForSome) (hinc : Increasing p.getNextVersion)
    {e : List String × String} {spec : StateNodeSpec} (hjoin : p.builder.Joins e spec) {s : Logged V}
    (h : Machine.Reachable (Logged.step p) (JoinOk p) Logged.start s) :
    (spec.defer = false → ∀ l, s.world.loop = some l →
      (l.released e = true ↔ RoundDone e (sinceFired e s.log))) ∧
    ∀ s' info l l', Logged.Superstep p s s' info l l' →
      (l.released e = true → (∃ t ∈ l.tasks p info true, t.name = e.2 ∧
          ∀ t' ∈ l.tasks p info true, joinName e.1 e.2 ∈ t'.triggers ↔ t' = t) ∧
        sinceFired e s'.log = s'.log.take 1) ∧
      (Pulls (l.tasks p info true) e.2 → l.released e = true ∨ l.DueOtherwise p e) ∧
      (spec.defer = true → pendingSends l'.channels = [] →
        (l'.released e = true ↔ RoundDone e (sinceFired e s'.log) ∧ ¬l'.OthersPending p)) := by
  have htracks := Logged.tracks_of_reachable hjoin hg h
  refine ⟨?_, ?_⟩
  · intro hdefer l hl
    have hl' := htracks.loop l hl
    rw [hdefer] at hl'
    exact hl'.released_iff
  intro s' info l l' hstep
  have hl := htracks.loop l hstep.before
  have hsound := Logged.sound_of_reachable hg hinc h hstep.before
  obtain ⟨tasks, l₁, us, hr, rfl, hlog, hdrops, hisStep, hran⟩ := hstep.call
  have hone := hsound.exists_task hjoin hg hl hdrops info
  have hfires : l.released e = true → (l.call tasks).fired (joinName e.1 e.2) = true := by
    intro hreleased
    obtain ⟨t, ht, -, hiff⟩ := hone hreleased
    obtain ⟨t', ht', htriggers⟩ := hran t ht
    rw [Call.fired, Bool.and_eq_true, List.any_eq_true]
    refine ⟨hreleased, t', ht', ?_⟩
    rw [htriggers, List.contains_iff_mem]
    exact (hiff t ht).mpr rfl
  refine ⟨?_, ?_, ?_⟩
  · intro hreleased
    refine ⟨hone hreleased, ?_⟩
    rw [hlog, sinceFired, since, if_pos (hfires hreleased)]
    rfl
  · intro hpulls
    obtain ⟨-, ⟨proc, hp, -⟩, -⟩ := StateGraph.compile_join hjoin
    have hworld : Machine.Reachable (LangGraph.step p) (fun _ _ => True) ⟨[], none⟩ s.world :=
      (Logged.reachable_world h).mono fun _ _ _ => trivial
    obtain ⟨-, hdue, -⟩ := pulls_iff_due p hg hinc hworld hstep.before hp info true
    obtain ⟨⟨chan, hchan, ha, hunread⟩, -⟩ := hdue hpulls
    by_cases heq : chan = joinName e.1 e.2
    · subst heq
      exact Or.inl ha
    · exact Or.inr ⟨proc, hp, chan, hchan, heq, ha, hunread⟩
  · intro hdefer hsends
    obtain ⟨outputs, pushed, hok, hs'⟩ := hstep.step
    have h' := h.step hok hs'
    have hsound' := Logged.sound_of_reachable hg hinc h' hstep.after
    have hl₁ : Tracks p e spec.defer l₁ s'.log :=
      ((Logged.tracks_of_reachable hjoin hg h').loop _ hstep.after).restores hjoin
        (Loop.restores_of_eq rfl fun _ _ _ => rfl) hsound'.wired
    rw [hdefer] at hl hl₁
    have hover : ∀ node chan, p.Triggers node chan → ∀ ch, l₁.channels.get? chan = some ch →
        ch.isAvailable = true → chan ∈ us := by
      intro node chan ht ch hch ha
      refine hsound'.hinted us rfl node chan ht (hsound'.fires ht ?_)
      show (l₁.channels.get? chan).any _ = true
      rw [hch, Option.any_some]
      exact ha
    have hiff := hl.released_of_call hl₁ hsound.wired hjoin hr hisStep hfires hover
    rw [Loop.OthersPending, hsends, ne_self_iff_false, false_or]
    exact hiff

end Runs

/-! ## A target with another trigger -/

section Rejoin

/-- `START → A`, `A → B`, `A → T`, `[A, B] → T`. -/
def rejoinGraph : StateGraph where
  channels := .ofList [("x", .lastValue ⟨"x", none⟩)]
  nodes := .ofList [("A", ⟨["x"], none, false, none⟩), ("B", ⟨["x"], none, false, none⟩),
    ("T", ⟨["x"], none, false, none⟩)]
  edges := [(Const.START, "A"), ("A", "B"), ("A", "T")]
  waitingEdges := [(["A", "B"], "T")]
  waiting_ends := by decide

def rejoinProgram : Program Nat where
  builder := rejoinGraph
  managedKeys := []
  outputChannels := ["x"]
  interruptNodes := []
  parentNs := ""
  xxh3 := fun _ s => s
  getNextVersion := fun v => v.getD 0 + 1
  valid := by decide +kernel

def rejoinEdge : List String × String := (["A", "B"], "T")

/-- `T` runs by the edge from `A` in the step of `B`. -/
def rejoinRun : List Event :=
  [.enter none "1" noHistory,
    .input (unmanaged (-1)) [(Const.START, .int 5)], .putCheckpoint "2" [] true,
    .superstep (unmanaged 0) (fun _ => [("x", .int 5), (branchTo "A", .none)]) [],
    .putCheckpoint "3" [] true,
    .superstep (unmanaged 1) (fun _ => [(branchTo "B", .none), (branchTo "T", .none),
      ("join:A+B:T", .str "A")]) [],
    .putCheckpoint "4" [] true,
    .superstep (unmanaged 2) (fun id => if id = "B2B__pregel_pullbranch:to:B" then
      [("join:A+B:T", .str "B")] else [("x", .int 6)]) [],
    .putCheckpoint "5" [] true]

theorem increasing_rejoinProgram : Increasing rejoinProgram.getNextVersion where
  first := by decide
  next := fun v => Nat.lt_succ_self v

theorem joins_rejoinEdge : rejoinProgram.builder.Joins rejoinEdge ⟨["x"], none, false, none⟩ where
  edge := by decide
  target := rfl
  notEnd := by decide
  unshared := by decide

theorem rejoinRun_ok :
    Machine.Meets (Logged.step rejoinProgram) (JoinOk rejoinProgram) Logged.start rejoinRun := by
  decide +kernel

/-- The barrier is available, `T` is among the tasks, and the starts have not all run since it was. -/
theorem exists_rejoin : ∃ s l, s.world.loop = some l ∧
    Machine.Reachable (Logged.step rejoinProgram) (JoinOk rejoinProgram) Logged.start s ∧
    l.released rejoinEdge = true ∧ Pulls (l.tasks rejoinProgram (unmanaged 3) true) "T" ∧
    ¬RoundDone rejoinEdge (since (fun c => c.ran "T") s.log) := by
  have hend : (Machine.run (Logged.step rejoinProgram) Logged.start rejoinRun).map (fun s =>
      s.world.loop.any fun l => l.released rejoinEdge &&
        ((l.tasks rejoinProgram (unmanaged 3) true).any fun t => t.name == "T" && t.triggers != [Const.PUSH]) &&
        !decide (RoundDone rejoinEdge (since (fun c => c.ran "T") s.log))) = some true := by
    decide +kernel
  obtain ⟨s, hs, hshown⟩ := Machine.exists_of_run rejoinRun_ok hend
  obtain ⟨l, hl, hshown⟩ := (Option.any_eq_true _ _).mp hshown
  rw [Bool.and_eq_true, Bool.and_eq_true, Bool.not_eq_true', decide_eq_false_iff_not,
    List.any_eq_true] at hshown
  obtain ⟨⟨hreleased, t, ht, hname⟩, hnot⟩ := hshown
  rw [Bool.and_eq_true, beq_iff_eq, bne_iff_ne] at hname
  refine ⟨s, l, hl, hs, hreleased, ⟨t, ht, hname.1, ?_⟩, hnot⟩
  rcases mem_nextTaskList.mp ht with ⟨i, -, hi⟩ | ⟨node, -, hnode⟩
  · exact absurd (preparePushTaskSend_path hi).2 hname.2
  · obtain ⟨-, -, -, -, hnode, hpath, -⟩ := preparePullTask_eq_some hnode
    rw [hpath, ← hnode, hname.1]

theorem joined_rejoin : ∃ s l, s.world.loop = some l ∧
    Machine.Reachable (Logged.step rejoinProgram) (JoinOk rejoinProgram) Logged.start s ∧
    l.released rejoinEdge = true ∧ RoundDone rejoinEdge (sinceFired rejoinEdge s.log) := by
  obtain ⟨s, l, hl, hs, hreleased, -⟩ := exists_rejoin
  exact ⟨s, l, hl, hs, hreleased,
    ((joined rejoinProgram (by decide) increasing_rejoinProgram joins_rejoinEdge hs).1 rfl l hl).mp hreleased⟩

/-- The target is scheduled though a start has not run since it ran; and in a graph whose target
    finds no input it is not scheduled though all starts have. -/
theorem not_joined :
    ¬(∀ s l info, Machine.Reachable (Logged.step rejoinProgram) (JoinOk rejoinProgram) Logged.start s →
        s.world.loop = some l → (Pulls (l.tasks rejoinProgram info true) "T" ↔
          RoundDone rejoinEdge (since (fun c => c.ran "T") s.log))) ∧
      ¬∀ s l info, Machine.Reachable (Logged.step joinProgram) (fun _ _ => True) Logged.start s →
        s.world.loop = some l → (Pulls (l.tasks joinProgram info true) "C" ↔
          RoundDone (["A", "B"], "C") (since (fun c => c.ran "C") s.log)) := by
  refine ⟨?_, ?_⟩
  · intro h
    obtain ⟨s, l, hl, hs, -, hpulls, hnot⟩ := exists_rejoin
    exact hnot ((h s l (unmanaged 3) hs hl).mp hpulls)
  · intro h
    have hend : (Machine.run (Logged.step joinProgram) Logged.start (commandRun.take 8)).map (fun s =>
        s.world.loop.any fun l => (l.tasks joinProgram (unmanaged 2) true).isEmpty &&
          decide (RoundDone (["A", "B"], "C") (since (fun c => c.ran "C") s.log))) = some true := by
      decide +kernel
    obtain ⟨s, hs, hshown⟩ := Machine.exists_of_run
      (Machine.Meets.of_forall (fun _ _ => trivial) Logged.start (commandRun.take 8)) hend
    obtain ⟨l, hl, hshown⟩ := (Option.any_eq_true _ _).mp hshown
    rw [Bool.and_eq_true, List.isEmpty_iff, decide_eq_true_eq] at hshown
    obtain ⟨t, ht, -⟩ := (h s l (unmanaged 2) hs hl).mpr hshown.2
    rw [hshown.1] at ht
    cases ht

end Rejoin
end LangGraph
