import LangGraph.Scheduler

/- What the steps of the loop keep of the channels that trigger its nodes, and
   the rule for its invariants.

   A call of `apply_writes` leaves a trigger channel available only when it wrote
   it, or when none of its tasks was triggered by it (`Loop.apply_fires`); a
   checkpoint that is loaded again restores what triggers the nodes
   (`Loop.Wired.reload`). `LoopInvariant.reachable` makes of this one rule: a
   property that a loop keeps when it is restored and under the calls of each
   event holds of every loop of a run. -/
namespace LangGraph

/-! ## What a call leaves of the trigger channels -/

section Calls
variable {V : Type} [LinearOrder V]

/-- The trigger channels of the loop are trigger channels, restored as the
    program's are, and have a version when they are available. -/
def Loop.Wired (p : Program V) (l : Loop V) : Prop :=
  ∀ node chan, p.Triggers node chan → ∃ ch spec,
    l.channels.get? chan = some ch ∧ p.specs.get? chan = some spec ∧ ch.IsTrigger ∧
      ch.SameSpec spec ∧ (ch.isAvailable = true →
        (l.checkpoint.channelVersions.get? chan).isSome)

theorem Loop.apply_eq_some {p : Program V} {l l' : Loop V} {tasks : List TaskWrites}
    {updated : List String} (h : l.apply p tasks = some (l', updated)) :
    ∃ s finished, ApplyResult l.checkpoint l.channels tasks (l.checkpoint.next p.getNextVersion)
      finished s ∧ l' = l.after tasks s ∧ updated = s.updatedChannels := by
  unfold Loop.apply at h
  match ha : applyWrites l.checkpoint l.channels tasks (some p.getNextVersion) p.triggerToNodes with
  | (s, .error e) =>
    rw [ha] at h
    cases h
  | (s, .ok ()) =>
    rw [ha] at h
    cases h
    obtain ⟨finished, hr⟩ := applyWrites_spec ha
    exact ⟨s, finished, hr, rfl, rfl⟩

/-- What a call leaves of a trigger channel that is available after it. -/
structure TriggerKept (l l' : Loop V) (tasks : List TaskWrites) (chan : String) (ch : Channel) :
    Prop where
  channel : l'.channels.get? chan = some ch
  version : l'.checkpoint.channelVersions.get? chan = l.checkpoint.channelVersions.get? chan
  untouched : ∀ t ∈ tasks, chan ∉ t.triggers
  notEphemeral : (∃ t ∈ tasks, t.triggers ≠ []) → ch.isEphemeral = false

section Apply
variable {p : Program V} {l l' : Loop V} {tasks : List TaskWrites} {updated : List String}

theorem Loop.apply_trigger (hc : p.builder.compile.Wired) (h : l.apply p tasks = some (l', updated))
    {node chan : String} (ht : p.Triggers node chan) {ch : Channel}
    (hch : l.channels.get? chan = some ch) (htr : ch.IsTrigger) :
    ∃ ch', l'.channels.get? chan = some ch' ∧ ch'.IsTrigger ∧ ch'.SameSpec ch ∧
      (ch'.isAvailable = true →
        chan ∈ updated ∧
            l'.checkpoint.channelVersions.get? chan = some (l.checkpoint.next p.getNextVersion) ∨
          TriggerKept l l' tasks chan ch) := by
  obtain ⟨s, finished, hr, rfl, rfl⟩ := Loop.apply_eq_some h
  have hview := hr.view chan
  have hw : ApplyState.view chan ⟨l.checkpoint, l.channels, []⟩ =
      some ⟨ch, l.checkpoint.channelVersions.get? chan, false⟩ := by
    simp [ApplyState.view, hch]
  rw [hw] at hview
  generalize hv : s.view chan = view at hview
  cases hview with
  | @some _ w' happ =>
    rw [ApplyState.view, Option.map_eq_some_iff] at hv
    obtain ⟨ch', hch', hw'⟩ := hv
    obtain ⟨htr', hleft⟩ := happ.trigger htr rfl
    have hsame := happ.sameSpec
    subst hw'
    refine ⟨ch', hch', htr', hsame, fun ha => ?_⟩
    rcases hleft ha with ⟨hu, hver⟩ | ⟨heq, hcons, hbump⟩
    · exact Or.inl ⟨by simpa using hu, hver⟩
    · right
      rw [ChannelView.mk.injEq] at heq
      obtain ⟨hch, hver, -⟩ := heq
      have hne : (∃ t ∈ tasks, t.triggers ≠ []) → ch.isEphemeral = false := by
        intro hex
        apply hbump
        obtain ⟨t, htm, hne⟩ := hex
        rw [List.any_eq_true]
        exact ⟨t, htm, by simpa using hne⟩
      refine ⟨by rw [← hch]; exact hch', hver, ?_, hne⟩
      -- a task that the channel triggered would have consumed it, and ended a step
      intro t htm hmem
      obtain ⟨proc, hp, hpt⟩ := ht
      have hres : chan ∉ reserved :=
        fun hm => ((hc node proc hp).2 chan hpt).1 (List.mem_cons_of_mem _ hm)
      have he : ch.isEphemeral = true := by
        apply hcons
        rw [decide_eq_true_eq, mem_triggerChannels]
        exact ⟨⟨t, htm, hmem⟩, hres, by rw [‹l.channels.get? chan = some ch›]; rfl⟩
      have hf := hne ⟨t, htm, List.ne_nil_of_mem hmem⟩
      rw [he] at hf
      cases hf

theorem Loop.Wired.apply (hw : l.Wired p) (hc : p.builder.compile.Wired)
    (h : l.apply p tasks = some (l', updated)) : l'.Wired p := by
  intro node chan ht
  obtain ⟨ch, spec, hch, hspec, htr, hsame, hver⟩ := hw node chan ht
  obtain ⟨ch', hch', htr', hsame', hleft⟩ := Loop.apply_trigger hc h ht hch htr
  refine ⟨ch', spec, hch', hspec, htr', hsame'.trans hsame, fun ha => ?_⟩
  rcases hleft ha with ⟨-, hv⟩ | hk
  · rw [hv]
    rfl
  · have he : ch' = ch := Option.some.inj (hch'.symm.trans hk.channel)
    rw [hk.version]
    exact hver (he ▸ ha)

/-- A call gives a channel the new version, or leaves it as it was. -/
theorem Loop.apply_channel (h : l.apply p tasks = some (l', us)) {chan : String} {ch : Channel}
    (hch : l.channels.get? chan = some ch) : ∃ ch', l'.channels.get? chan = some ch' ∧
      ch'.SameSpec ch ∧ (ch.Restorable → ch'.Restorable) ∧
      (l'.checkpoint.channelVersions.get? chan = some (l.checkpoint.next p.getNextVersion) ∨
        ch' = ch ∧ l'.checkpoint.channelVersions.get? chan =
          l.checkpoint.channelVersions.get? chan) := by
  obtain ⟨s, finished, hr, rfl, rfl⟩ := Loop.apply_eq_some h
  have hview := hr.view chan
  have hw : ApplyState.view chan ⟨l.checkpoint, l.channels, []⟩ =
      some ⟨ch, l.checkpoint.channelVersions.get? chan, false⟩ := by
    simp [ApplyState.view, hch]
  rw [hw] at hview
  generalize hv : s.view chan = view at hview
  cases hview with
  | @some _ w' happ =>
    rw [ApplyState.view, Option.map_eq_some_iff] at hv
    obtain ⟨ch', hch', rfl⟩ := hv
    exact ⟨ch', hch', happ.sameSpec, happ.invariant (fun _ => Channel.Restorable.consume)
      (fun _ vals hc => hc.update vals) (fun _ => Channel.Restorable.finish), happ.kept⟩

theorem Loop.apply_none (h : l.apply p tasks = some (l', us)) {chan : String}
    (hch : l.channels.get? chan = none) : l'.channels.get? chan = none := by
  obtain ⟨s, finished, hr, rfl, rfl⟩ := Loop.apply_eq_some h
  have hview := hr.view chan
  have hw : ApplyState.view chan ⟨l.checkpoint, l.channels, []⟩ = none := by
    simp [ApplyState.view, hch]
  rw [hw] at hview
  generalize hv : s.view chan = view at hview
  cases hview
  exact Option.map_eq_none_iff.mp hv

theorem Loop.apply_version (h : l.apply p tasks = some (l', us)) {chan : String} {ch : Channel}
    (hch : l.channels.get? chan = some ch) :
    l'.checkpoint.channelVersions.get? chan = l.checkpoint.channelVersions.get? chan ∨
      l'.checkpoint.channelVersions.get? chan = some (l.checkpoint.next p.getNextVersion) := by
  obtain ⟨ch', -, -, -, hkept⟩ := Loop.apply_channel h hch
  exact hkept.elim Or.inr fun hk => Or.inl hk.2

/-- What a node has seen of a channel after a call: what it had seen, or the
    version the channel had. -/
theorem Loop.apply_seenVersion (h : l.apply p tasks = some (l', us)) (node chan : String) :
    l'.checkpoint.seenVersion node chan = l.checkpoint.seenVersion node chan ∨
      l'.checkpoint.seenVersion node chan = l.checkpoint.channelVersions.get? chan := by
  obtain ⟨s, finished, hr, rfl, rfl⟩ := Loop.apply_eq_some h
  have hseen : s.checkpoint.versionsSeen =
      ((SortBy.sortBy TaskWrites.sortKey tasks).foldl markSeen l.checkpoint).versionsSeen :=
    congrArg (fun f => f.2.2.1) hr.frame
  have hfold := seenVersion_foldl_markSeen node chan
    (SortBy.sortBy TaskWrites.sortKey tasks) l.checkpoint
  have heq : (l.after tasks s).checkpoint.seenVersion node chan =
      ((SortBy.sortBy TaskWrites.sortKey tasks).foldl markSeen l.checkpoint).seenVersion node chan := by
    simp only [Checkpoint.seenVersion, Loop.after, hseen]
  rw [heq, hfold]
  split
  · exact Or.inr rfl
  · exact Or.inl rfl

/-- The version of a trigger that a node has seen after a call which no task of
    it took part in. -/
theorem Loop.apply_seen (h : l.apply p tasks = some (l', updated)) (node : String) {chan : String}
    (hm : ∀ t ∈ tasks, chan ∉ t.triggers) :
    l'.checkpoint.seenVersion node chan = l.checkpoint.seenVersion node chan ∧
      (l'.checkpoint.versionsSeen.get? node = none → l.checkpoint.versionsSeen.get? node = none) := by
  obtain ⟨s, finished, hr, rfl, rfl⟩ := Loop.apply_eq_some h
  have hseen : s.checkpoint.versionsSeen =
      ((SortBy.sortBy TaskWrites.sortKey tasks).foldl markSeen l.checkpoint).versionsSeen :=
    congrArg (fun f => f.2.2.1) hr.frame
  have hmarks : ¬ Marks (SortBy.sortBy TaskWrites.sortKey tasks) node chan := by
    rintro ⟨t, htm, -, hmem⟩
    exact hm t (SortBy.mem_sortBy.mp htm) hmem
  refine ⟨?_, ?_⟩
  · have hfold := seenVersion_foldl_markSeen node chan
      (SortBy.sortBy TaskWrites.sortKey tasks) l.checkpoint
    rw [if_neg fun hf => hmarks hf.1] at hfold
    rw [← hfold]
    simp only [Checkpoint.seenVersion, Loop.after, hseen]
  · intro hnone
    have hsome := isSome_versionsSeen_foldl_markSeen node
      (SortBy.sortBy TaskWrites.sortKey tasks) l.checkpoint
    simp only [Loop.after, hseen] at hnone
    rw [hnone] at hsome
    cases hv : l.checkpoint.versionsSeen.get? node with
    | none => rfl
    | some seen =>
      rw [hv] at hsome
      exact absurd (hsome.mpr (Or.inl rfl)) (by simp)

end Apply

end Calls

/-! ## Checkpoints that are loaded again -/

section Reload
variable {V : Type}

/-- The two loops agree on what triggers the nodes. -/
structure Loop.SameTriggers (p : Program V) (l l₂ : Loop V) : Prop where
  available : ∀ node chan, p.Triggers node chan →
    (l₂.channels.get? chan).any (·.isAvailable) = (l.channels.get? chan).any (·.isAvailable)
  version : ∀ node chan, p.Triggers node chan →
    l₂.checkpoint.channelVersions.get? chan = l.checkpoint.channelVersions.get? chan
  versionsSeen : ∀ node chan, p.Triggers node chan →
    l₂.checkpoint.versionsSeen.get? node = l.checkpoint.versionsSeen.get? node
  unread : l₂.unread = l.unread

theorem asDelta_of_isTrigger {ch : Channel} (h : ch.IsTrigger) : ch.asDelta = none := by
  cases ch with
  | deltaChannel c => exact absurd h (by simp [Channel.IsTrigger])
  | _ => rfl

theorem Saved.load_eq_some {p : Program V} {s : Saved V} {history : History} {l : Loop V}
    (h : s.load p history = some l) :
    channelsFromCheckpoint p.specs s.checkpoint history = .ok l.channels ∧
      l.checkpoint = s.checkpoint ∧ l.unread = s.unread ∧
      l.updatedChannels = s.checkpoint.updatedChannels.filter (!·.isEmpty) := by
  unfold Saved.load at h
  split at h
  · cases h
  · cases h
    exact ⟨‹_›, rfl, rfl, rfl⟩

theorem Saved.load_trigger {p : Program V} {s : Saved V} {history : History} {l : Loop V}
    (hc : p.builder.compile.Wired) (h : s.load p history = some l) {node chan : String}
    (ht : p.Triggers node chan) : ∃ spec, p.specs.get? chan = some spec ∧ spec.IsTrigger ∧
      l.channels.get? chan = some (spec.fromCheckpoint (s.checkpoint.channelValues.get? chan)) := by
  obtain ⟨proc, hp, hpt⟩ := ht
  obtain ⟨-, spec, hspec, htr⟩ := (hc node proc hp).2 chan hpt
  refine ⟨spec, hspec, htr, ?_⟩
  exact channelsFromCheckpoint_get? (Saved.load_eq_some h).1 hspec (asDelta_of_isTrigger htr)

theorem Loop.Wired.of_load {p : Program V} {s : Saved V} {history : History} {l : Loop V}
    (hc : p.builder.compile.Wired) (h : s.load p history = some l)
    (hv : ∀ node chan spec, p.Triggers node chan → p.specs.get? chan = some spec →
      (spec.fromCheckpoint (s.checkpoint.channelValues.get? chan)).isAvailable = true →
        (s.checkpoint.channelVersions.get? chan).isSome) : l.Wired p := by
  intro node chan ht
  obtain ⟨spec, hspec, htr, hch⟩ := Saved.load_trigger hc h ht
  refine ⟨_, spec, hch, hspec, Channel.isTrigger_fromCheckpoint htr _,
    Channel.sameSpec_fromCheckpoint _ _, fun ha => ?_⟩
  rw [(Saved.load_eq_some h).2.1]
  exact hv node chan spec ht hspec ha

section Put
variable {p : Program V} {l l₂ : Loop V} {id : String} {updated : Option (List String)}
  {g : Option (GetNextVersion V)} {toSnapshot : List String} {history : History}

/-- The checkpoint of the loop is stored with the trigger channels as they are. -/
theorem Loop.Wired.stored (hw : l.Wired p) {node chan : String} (ht : p.Triggers node chan)
    {spec : Channel} (hspec : p.specs.get? chan = some spec)
    {cp : Checkpoint V}
    (hcp : cp = createCheckpoint l.checkpoint (some l.channels) id updated g toSnapshot)
    (hdelta : ∀ k ∈ toSnapshot, (l.channels.get? k).any (·.asDelta.isSome) = true) :
    cp.channelVersions.get? chan = l.checkpoint.channelVersions.get? chan ∧
      some (spec.fromCheckpoint (cp.channelValues.get? chan)).isAvailable =
        (l.channels.get? chan).map (·.isAvailable) := by
  obtain ⟨ch, spec', hch, hspec', htr, hsame, hver⟩ := hw node chan ht
  cases Option.some.inj (hspec'.symm.trans hspec)
  have hsnap : chan ∉ toSnapshot := by
    intro hm
    have hd := hdelta chan hm
    rw [hch, Option.any_some, asDelta_of_isTrigger htr] at hd
    cases hd
  subst hcp
  refine ⟨?_, ?_⟩
  · rw [get?_channelVersions_create]
    cases l.checkpoint.channelVersions.get? chan with
    | none => rfl
    | some v => simp [snapshotVersion, hsnap]
  · rw [get?_channelValues_create, hch, ← hsame]
    simp only [Option.bind_some, Option.map_some, Option.some.injEq, snapshotValue, hsnap, if_false]
    cases hv : l.checkpoint.channelVersions.contains chan with
    | true => exact Channel.isAvailable_restored htr
    | false =>
      -- a channel without a version is not stored, and was not available
      have ha : ch.isAvailable = false := by
        cases ha : ch.isAvailable with
        | false => rfl
        | true =>
          have := hver ha
          rw [OrdDict.contains] at hv
          rw [hv] at this
          cases this
      rw [ha]
      exact Channel.isAvailable_fromCheckpoint_none htr

theorem Loop.Wired.reload (hw : l.Wired p) (hc : p.builder.compile.Wired) {s : Saved V}
    (hseen : s.checkpoint.versionsSeen = l.checkpoint.versionsSeen) (hunread : s.unread = l.unread)
    (hstored : ∀ node chan spec, p.Triggers node chan → p.specs.get? chan = some spec →
      s.checkpoint.channelVersions.get? chan = l.checkpoint.channelVersions.get? chan ∧
        some (spec.fromCheckpoint (s.checkpoint.channelValues.get? chan)).isAvailable =
          (l.channels.get? chan).map (·.isAvailable))
    (h : s.load p history = some l₂) : l₂.Wired p ∧ l.SameTriggers p l₂ := by
  obtain ⟨-, hcp, hu, -⟩ := Saved.load_eq_some h
  refine ⟨Loop.Wired.of_load hc h ?_, ?_, ?_, ?_, ?_⟩
  · intro node chan spec ht hspec ha
    obtain ⟨hver, havail⟩ := hstored node chan spec ht hspec
    obtain ⟨ch, -, hch, -, -, -, hsome⟩ := hw node chan ht
    rw [hch, Option.map_some, ha, Option.some.injEq] at havail
    rw [hver]
    exact hsome havail.symm
  · intro node chan ht
    obtain ⟨spec, hspec, -, hch₂⟩ := Saved.load_trigger hc h ht
    obtain ⟨-, havail⟩ := hstored node chan spec ht hspec
    obtain ⟨ch, -, hch, -⟩ := hw node chan ht
    rw [hch, Option.map_some, Option.some.injEq] at havail
    rw [hch₂, hch, Option.any_some, Option.any_some, havail]
  · intro node chan ht
    obtain ⟨spec, hspec, -⟩ := Saved.load_trigger hc h ht
    rw [hcp]
    exact (hstored node chan spec ht hspec).1
  · intro node chan _
    rw [hcp, hseen]
  · rw [hu, hunread]

end Put

theorem Loop.Wired.withCheckpoint {p : Program V} {l : Loop V} (hw : l.Wired p)
    (cp : Checkpoint V)
    (hver : ∀ node chan, p.Triggers node chan →
      cp.channelVersions.get? chan = l.checkpoint.channelVersions.get? chan)
    (hseen : ∀ node chan, p.Triggers node chan →
      cp.versionsSeen.get? node = l.checkpoint.versionsSeen.get? node) :
    Loop.Wired p { l with checkpoint := cp } ∧ l.SameTriggers p { l with checkpoint := cp } := by
  refine ⟨?_, ⟨fun _ _ _ => rfl, hver, hseen, rfl⟩⟩
  intro node chan ht
  obtain ⟨ch, spec, hch, hspec, htr, hsame, hsome⟩ := hw node chan ht
  refine ⟨ch, spec, hch, hspec, htr, hsame, fun ha => ?_⟩
  rw [show ({ l with checkpoint := cp } : Loop V).checkpoint = cp from rfl, hver node chan ht]
  exact hsome ha

theorem Program.triggers_ne_tasks {p : Program V} (hc : p.builder.compile.Wired)
    {node chan : String} (ht : p.Triggers node chan) : chan ≠ Const.TASKS := by
  obtain ⟨proc, hp, hpt⟩ := ht
  intro he
  exact ((hc node proc hp).2 chan hpt).1 (by simp [he])

theorem Program.triggers_ne_interrupt {p : Program V} {node chan : String}
    (ht : p.Triggers node chan) : node ≠ Const.INTERRUPT := by
  obtain ⟨proc, hp, -⟩ := ht
  intro he
  exact not_reserved_of_validateGraph p.valid hp (by rw [he]; decide)

end Reload

/-! ## The triggers that fire -/

section Fires
variable {V : Type} [LinearOrder V] [OrderBot V]

/-- The channel counts for `_triggers` of the node. -/
def Loop.fires (l : Loop V) (node chan : String) : Bool :=
  (l.channels.get? chan).any (·.isAvailable) &&
    match l.checkpoint.versionsSeen.get? node with
    | none => true
    | some seen => decide (seen.getD chan ⊥ < l.checkpoint.channelVersions.getD chan ⊥)

theorem Loop.triggers_eq_any_fires (l : Loop V) (node : String) (proc : PregelNode) :
    triggers l.channels l.checkpoint.channelVersions (l.checkpoint.versionsSeen.get? node) proc =
      proc.triggers.any (l.fires node) := rfl

theorem Loop.fires_iff {l : Loop V} {node chan : String} : l.fires node chan = true ↔
    (∃ ch, l.channels.get? chan = some ch ∧ ch.isAvailable = true) ∧
      (l.checkpoint.versionsSeen.get? node = none ∨
        (l.checkpoint.seenVersion node chan).getD ⊥ <
          (l.checkpoint.channelVersions.get? chan).getD ⊥) := by
  unfold Loop.fires Checkpoint.seenVersion
  cases l.checkpoint.versionsSeen.get? node with
  | none => simp [Option.any_eq_true]
  | some seen =>
    simp only [OrdDict.getD, Bool.and_eq_true, Option.any_eq_true, Option.bind_some, reduceCtorEq,
      false_or]
    exact and_congr_right fun _ => decide_eq_true_iff

/-- A trigger that fires after a call was updated in it, or fired before. -/
theorem Loop.apply_fires {p : Program V} {l l' : Loop V} {tasks : List TaskWrites}
    {updated : List String} (hw : l.Wired p) (hc : p.builder.compile.Wired)
    (h : l.apply p tasks = some (l', updated)) {node chan : String} (ht : p.Triggers node chan)
    (hf : l'.fires node chan = true) :
    chan ∈ updated ∨ l.fires node chan = true ∧ (∀ t ∈ tasks, chan ∉ t.triggers) ∧
      ((∃ t ∈ tasks, t.triggers ≠ []) →
        ∀ ch, l.channels.get? chan = some ch → ch.isEphemeral = false) := by
  obtain ⟨ch, spec, hch, hspec, htr, hsame, hver⟩ := hw node chan ht
  obtain ⟨ch', hch', -, -, hleft⟩ := Loop.apply_trigger hc h ht hch htr
  obtain ⟨⟨ch₁, hch₁, ha⟩, hseen⟩ := Loop.fires_iff.mp hf
  have he₁ : ch₁ = ch' := Option.some.inj (hch₁.symm.trans hch')
  subst he₁
  rcases hleft ha with ⟨hu, -⟩ | hk
  · exact Or.inl hu
  · right
    have he : ch₁ = ch := Option.some.inj (hch₁.symm.trans hk.channel)
    subst he
    obtain ⟨hsv, hnone⟩ := Loop.apply_seen h node hk.untouched
    refine ⟨Loop.fires_iff.mpr ⟨⟨ch₁, hch, ha⟩, ?_⟩, hk.untouched, ?_⟩
    · rw [hsv, hk.version] at hseen
      exact hseen.imp_left hnone
    · intro hex ch₂ hch₂
      have he₂ : ch₂ = ch₁ := Option.some.inj (hch₂.symm.trans hch)
      rw [he₂]
      exact hk.notEphemeral hex

theorem Loop.SameTriggers.fires {p : Program V} {l l₂ : Loop V} (h : l.SameTriggers p l₂)
    {node chan : String} (ht : p.Triggers node chan) : l₂.fires node chan = l.fires node chan := by
  have hversion : l₂.checkpoint.channelVersions.getD chan ⊥ =
      l.checkpoint.channelVersions.getD chan ⊥ :=
    congrArg (Option.getD · ⊥) (h.version node chan ht)
  unfold Loop.fires
  rw [h.available node chan ht, h.versionsSeen node chan ht, hversion]

/-! ## Invariants of the loop -/

/-- The property holds of the loop, and of every one that starts from a saved checkpoint. -/
structure World.Holds (p : Program V) (I : Loop V → Prop) (w : World V) : Prop where
  saved : ∀ s ∈ w.saved, ∀ history l, s.load p history = some l → I l
  loop : ∀ l, w.loop = some l → I l

omit [LinearOrder V] [OrderBot V] in
theorem World.Holds.put {p : Program V} {I : Loop V → Prop} {w : World V} (hw : w.Holds p I)
    {l : Loop V} {cp : Checkpoint V}
    (h : ∀ history l₂, Saved.load p ⟨cp, l.unread⟩ history = some l₂ → I l₂) :
    (w.put l cp).Holds p I := by
  refine ⟨?_, hw.loop⟩
  intro s hs
  rcases List.mem_append.mp hs with hs | hs
  · exact hw.saved s hs
  · cases List.mem_singleton.mp hs
    exact h

/-- What makes a property of loops an invariant of the runs whose steps meet `ok`. -/
structure LoopInvariant (p : Program V) (ok : World V → Event → Prop) (I : Loop V → Prop) :
    Prop where
  wired : ∀ l, I l → l.Wired p
  fresh : ∀ l : Loop V, l.Wired p → l.updatedChannels = none →
    l.checkpoint.versionsSeen = ∅ → l.checkpoint.channelVersions = ∅ → I l
  /-- A loop that agrees on the triggers, with the same hint or with none. -/
  again : ∀ l l₂ : Loop V, I l → l₂.Wired p → l.SameTriggers p l₂ →
    (∀ us₂, l₂.updatedChannels = some us₂ →
      ∃ us, l.updatedChannels = some us ∧ ∀ chan, chan ∈ us₂ ↔ chan ∈ us) → I l₂
  call : ∀ l l' tasks us, I l → l.updatedChannels = none → l.apply p tasks = some (l', us) →
    I l'
  command : ∀ l l' writes us, I l → l.apply p [nullTask writes] = some (l', us) →
    I { l' with updatedChannels := l.updatedChannels.map (· ∪ us) }
  input : ∀ (w : World V) l l' info writes us, w.loop = some l → ok w (.input info writes) → I l →
    l.apply p (taskWrites (l.allTasks p info true) (fun _ => []) ++ [nullTask writes]) =
      some (l', us) → I { l' with updatedChannels := some us }
  superstep : ∀ (w : World V) l l' info outputs pushed us, w.loop = some l →
    ok w (.superstep info outputs pushed) → I l → taskWrites (l.tasks p info true) outputs ≠ [] →
    l.apply p (taskWrites (l.tasks p info true) outputs ++ pushed.map Pushed.toTaskWrites) =
      some (l', us) → I { l' with updatedChannels := some us }

namespace LoopInvariant
variable {p : Program V} {ok : World V → Event → Prop} {I : Loop V → Prop} {w w' : World V}

theorem source (hI : LoopInvariant p ok I) (hc : p.builder.compile.Wired) (hw : w.Holds p I)
    {source : Option Nat} {id : String} {s : Saved V} (hs : w.source source id = some s)
    {history : History} {l : Loop V} (h : s.load p history = some l) : I l := by
  cases source with
  | some idx => exact hw.saved s (List.mem_of_getElem? hs) history l h
  | none =>
    cases hs
    have hnone : ∀ chan, (emptyCheckpoint (V := V) id).channelValues.get? chan = none :=
      fun _ => rfl
    obtain ⟨-, hcp, -, hu⟩ := Saved.load_eq_some h
    refine hI.fresh l (Loop.Wired.of_load hc h ?_) hu ?_ ?_
    · intro node chan spec ht hspec ha
      obtain ⟨spec', hspec', htr, -⟩ := Saved.load_trigger hc h ht
      cases Option.some.inj (hspec'.symm.trans hspec)
      rw [hnone, Channel.isAvailable_fromCheckpoint_none htr] at ha
      cases ha
    · rw [hcp]
      rfl
    · rw [hcp]
      rfl

/-- The hint that is loaded again is the one that was saved. -/
theorem filter_sorted {us : Option (List String)} {us₂ : List String}
    (h : (us.map (SortBy.sortBy fun c => c)).filter (!·.isEmpty) = some us₂) :
    ∃ us₁, us = some us₁ ∧ ∀ chan, chan ∈ us₂ ↔ chan ∈ us₁ := by
  rw [Option.filter_eq_some_iff, Option.map_eq_some_iff] at h
  obtain ⟨⟨us₁, hus, rfl⟩, -⟩ := h
  exact ⟨us₁, hus, fun chan => SortBy.mem_sortBy⟩

theorem change (hI : LoopInvariant p ok I) {l l' : Loop V} (hl : I l)
    (hn : l.updatedChannels = none) {c : Update} (h : l.change p c = some l') :
    I l' ∧ l'.updatedChannels = none := by
  have hcall : ∀ {l l' : Loop V} {tasks : List TaskWrites}, I l → l.updatedChannels = none →
      (l.apply p tasks).map Prod.fst = some l' → I l' ∧ l'.updatedChannels = none := by
    intro l l' tasks hl hn h
    obtain ⟨r, hr, rfl⟩ := Option.map_eq_some_iff.mp h
    refine ⟨hI.call l r.1 tasks r.2 hl hn hr, ?_⟩
    obtain ⟨s, f, -, he, -⟩ := Loop.apply_eq_some hr
    rw [he]
    exact hn
  cases c with
  | asNodes updates => exact hcall hl hn h
  | asInput writes => exact hcall hl hn h
  | clear info nullWrites outputs =>
    simp only [Loop.change] at h
    split at h
    · exact hcall hl hn h
    · obtain ⟨r₁, hr₁, h⟩ := Option.bind_eq_some_iff.mp h
      obtain ⟨h₁, hn₁⟩ := hcall hl hn (Option.map_eq_some_iff.mpr ⟨r₁, hr₁, rfl⟩)
      exact hcall h₁ hn₁ h
  | copy =>
    cases h
    exact ⟨hl, hn⟩

theorem update (hI : LoopInvariant p ok I) (hc : p.builder.compile.Wired) (hw : w.Holds p I)
    {source : Option Nat} {id : String} {history : History} {c : Update}
    (h : step p w (.update source id history c) = some w') : w'.Holds p I := by
  obtain ⟨s, hs, h⟩ := Option.bind_eq_some_iff.mp h
  obtain ⟨l, hl, h⟩ := Option.bind_eq_some_iff.mp h
  obtain ⟨l', hl', rfl⟩ := Option.map_eq_some_iff.mp h
  have hIl := hI.source hc hw hs hl
  have hsame : l.SameTriggers p l.unhinted := ⟨fun _ _ _ => rfl, fun _ _ _ => rfl,
    fun _ _ _ => rfl, rfl⟩
  have hIu : I l.unhinted := hI.again l l.unhinted hIl (hI.wired l hIl) hsame (fun _ hn => nomatch hn)
  obtain ⟨hIl', -⟩ := hI.change hIu rfl hl'
  refine hw.put fun history₂ l₂ hl₂ => ?_
  have hnone : l₂.updatedChannels = none := (Saved.load_eq_some hl₂).2.2.2
  cases hk : c.keepsChannels with
  | true =>
    cases c with
    | copy =>
      cases hl'
      obtain ⟨hw₂, hs₂⟩ := (hI.wired _ hIu).reload hc rfl rfl (fun node chan spec ht hspec => by
        obtain ⟨spec', hspec', -, hch⟩ := Saved.load_trigger hc hl ht
        cases Option.some.inj (hspec'.symm.trans hspec)
        refine ⟨rfl, ?_⟩
        rw [show l.unhinted.channels = l.channels from rfl, hch]
        simp only [createCheckpoint, Update.keepsChannels, if_true, Loop.unhinted,
          (Saved.load_eq_some hl).2.1, Option.map_some]) hl₂
      exact hI.again _ l₂ hIu hw₂ hs₂ (fun us₂ hus₂ => by simp [hnone] at hus₂)
    | _ => cases hk
  | false =>
    obtain ⟨hw₂, hs₂⟩ := (hI.wired _ hIl').reload hc rfl rfl (fun node chan spec ht hspec =>
      (hI.wired _ hIl').stored ht hspec (by rw [hk]; rfl) (fun _ hm => absurd hm List.not_mem_nil)) hl₂
    exact hI.again _ l₂ hIl' hw₂ hs₂ (fun us₂ hus₂ => by simp [hnone] at hus₂)

theorem putCheckpoint (hI : LoopInvariant p ok I) (hc : p.builder.compile.Wired)
    (hw : w.Holds p I) {id : String} {toSnapshot : List String} {hinted : Bool}
    (h : step p w (.putCheckpoint id toSnapshot hinted) = some w') : w'.Holds p I := by
  obtain ⟨l, hl, rfl⟩ := Option.map_eq_some_iff.mp h
  have hIl := hw.loop l hl
  generalize hcp : createCheckpoint l.checkpoint (some l.channels) id
    (if hinted then l.updatedChannels else none) (some p.getNextVersion)
    (l.deltaChannels toSnapshot) = cp
  have hstored : ∀ node chan spec, p.Triggers node chan → p.specs.get? chan = some spec →
      (sanitizeTasks l.channels cp).channelVersions.get? chan =
          l.checkpoint.channelVersions.get? chan ∧
        some (spec.fromCheckpoint
            ((sanitizeTasks l.channels cp).channelValues.get? chan)).isAvailable =
          (l.channels.get? chan).map (·.isAvailable) := by
    intro node chan spec ht hspec
    rw [channelVersions_sanitizeTasks, get?_channelValues_sanitizeTasks _ _ (p.triggers_ne_tasks hc ht)]
    exact (hI.wired l hIl).stored ht hspec hcp.symm fun k hm => (List.mem_filter.mp hm).2
  have hseen : (sanitizeTasks l.channels cp).versionsSeen = l.checkpoint.versionsSeen := by
    rw [versionsSeen_sanitizeTasks, ← hcp]
    rfl
  have hus : ∀ us₂, (sanitizeTasks l.channels cp).updatedChannels.filter (!·.isEmpty) = some us₂ →
      ∃ us, l.updatedChannels = some us ∧ ∀ chan, chan ∈ us₂ ↔ chan ∈ us := by
    intro us₂ h₂
    rw [updatedChannels_sanitizeTasks, ← hcp] at h₂
    obtain ⟨us, hus, hmem⟩ := filter_sorted h₂
    cases hinted with
    | true => exact ⟨us, hus, hmem⟩
    | false => cases hus
  have hput : (w.put l (sanitizeTasks l.channels cp)).Holds p I := hw.put fun history l₂ hl₂ => by
    obtain ⟨hw₂, hs₂⟩ := (hI.wired l hIl).reload hc hseen rfl hstored hl₂
    refine hI.again l l₂ hIl hw₂ hs₂ fun us₂ h₂ => ?_
    rw [(Saved.load_eq_some hl₂).2.2.2] at h₂
    exact hus us₂ h₂
  refine ⟨hput.saved, ?_⟩
  intro l' hl'
  cases hl'
  obtain ⟨hw', hs'⟩ := (hI.wired l hIl).withCheckpoint (sanitizeTasks l.channels cp)
    (fun node chan ht => by
      obtain ⟨-, spec, -, hspec, -⟩ := hI.wired l hIl node chan ht
      exact (hstored node chan spec ht hspec).1)
    (fun node chan ht => by rw [hseen])
  exact hI.again l _ hIl hw' hs' fun us₂ h₂ => ⟨us₂, h₂, fun _ => Iff.rfl⟩

theorem advance (hI : LoopInvariant p ok I) (hw : w.Holds p I) {id : String}
    (h : step p w (.advance id) = some w') : w'.Holds p I := by
  obtain ⟨l, hl, rfl⟩ := Option.map_eq_some_iff.mp h
  refine ⟨hw.saved, ?_⟩
  intro l' hl'
  cases hl'
  have hIl := hw.loop l hl
  obtain ⟨hw', hs'⟩ := (hI.wired l hIl).withCheckpoint
    (sanitizeTasks l.channels (createCheckpoint l.checkpoint none id l.updatedChannels none []))
    (fun node chan ht => by rw [channelVersions_sanitizeTasks]; rfl)
    (fun node chan ht => by rw [versionsSeen_sanitizeTasks]; rfl)
  exact hI.again l _ hIl hw' hs' fun us₂ h₂ => ⟨us₂, h₂, fun _ => Iff.rfl⟩

theorem resume (hI : LoopInvariant p ok I) (hw : w.Holds p I)
    (h : step p w .resume = some w') : w'.Holds p I := by
  obtain ⟨l, hl, rfl⟩ := Option.map_eq_some_iff.mp h
  refine ⟨hw.saved, ?_⟩
  intro l' hl'
  cases hl'
  have hIl := hw.loop l hl
  obtain ⟨hw', hs'⟩ := (hI.wired l hIl).withCheckpoint l.seeInterrupts.checkpoint
    (fun node chan ht => rfl)
    (fun node chan ht => OrdDict.get?_set_of_ne (p.triggers_ne_interrupt ht) _ _)
  exact hI.again l _ hIl hw' hs' fun us₂ h₂ => ⟨us₂, h₂, fun _ => Iff.rfl⟩

/-- A step that meets `ok` keeps the invariant. -/
theorem step (hI : LoopInvariant p ok I) (hc : p.builder.compile.Wired) (hw : w.Holds p I)
    {e : Event} (hok : ok w e) (h : LangGraph.step p w e = some w') : w'.Holds p I := by
  cases e with
  | enter source id history =>
    obtain ⟨s, hs, h⟩ := Option.bind_eq_some_iff.mp h
    obtain ⟨l, hl, rfl⟩ := Option.map_eq_some_iff.mp h
    refine ⟨hw.saved, ?_⟩
    intro l' hl'
    cases hl'
    exact hI.source hc hw hs hl
  | command writes =>
    obtain ⟨l, hl, h⟩ := Option.bind_eq_some_iff.mp h
    obtain ⟨r, hr, rfl⟩ := Option.map_eq_some_iff.mp h
    refine ⟨hw.saved, ?_⟩
    intro l' hl'
    cases hl'
    exact hI.command l r.1 writes r.2 (hw.loop l hl) hr
  | resume => exact hI.resume hw h
  | input info writes =>
    obtain ⟨l, hl, h⟩ := Option.bind_eq_some_iff.mp h
    obtain ⟨r, hr, rfl⟩ := Option.map_eq_some_iff.mp h
    refine ⟨hw.saved, ?_⟩
    intro l' hl'
    cases hl'
    exact hI.input w l r.1 info writes r.2 hl hok (hw.loop l hl) hr
  | superstep info outputs pushed =>
    obtain ⟨l, hl, h⟩ := Option.bind_eq_some_iff.mp h
    simp only at h
    split at h
    · cases h
    · rename_i hne
      obtain ⟨r, hr, rfl⟩ := Option.map_eq_some_iff.mp h
      refine ⟨hw.saved, ?_⟩
      intro l' hl'
      cases hl'
      exact hI.superstep w l r.1 info outputs pushed r.2 hl hok (hw.loop l hl) hne hr
  | putCheckpoint id toSnapshot hinted => exact hI.putCheckpoint hc hw h
  | advance id => exact hI.advance hw h
  | update source id history c => exact hI.update hc hw h

theorem reachable (hI : LoopInvariant p ok I) (hc : p.builder.compile.Wired)
    (h : Machine.Reachable (LangGraph.step p) ok ⟨[], none⟩ w) : w.Holds p I := by
  apply Machine.Reachable.invariant (P := World.Holds p I) _ _ h
  · exact ⟨fun _ hs => absurd hs List.not_mem_nil, fun _ hl => nomatch hl⟩
  · exact fun w e w' hw hok hs => hI.step hc hw hok hs

end LoopInvariant
end Fires
end LangGraph
