import LangGraph.Triggering

/- The tasks that a new input discards are not scheduled again.

   `_first` prepares the tasks of the unfinished superstep once more and gives them, without
   writes, to the `apply_writes` of the input. `WrittenIn` says which channels the steps of
   a run write, by a task, a null-task write, an input, an update or a `finish`. What a
   discarded task was triggered by is unread no longer, and the sends are gone, so that
   `discarded_not_scheduled` holds: from the input on a node is pulled again only by a
   trigger that has been written, and a task is pushed only once a send has been. -/
namespace LangGraph

section Discarded
variable {V : Type} [LinearOrder V] [OrderBot V]

/-! ## The channels a run writes -/

/-- The calls of `apply_writes` that change a state by an update. -/
def Loop.changeCalls (p : Program V) (l : Loop V) : Update → List (Loop V × List TaskWrites)
  | .asNodes updates => [(l, updates.map fun u => ⟨[], u.1, u.2, [Const.INTERRUPT]⟩)]
  | .asInput writes => [(l, [nullTask writes])]
  | .clear info nullWrites outputs =>
    let tasks := taskWrites (l.allTasks p info true) outputs
    if nullWrites = [] then [(l, tasks)]
    else (l, [nullTask nullWrites]) ::
      ((l.apply p [nullTask nullWrites]).map fun r => (r.1, tasks)).toList
  | .copy => []

/-- The tasks of the calls of `apply_writes` in a step, with the loops they are made in. -/
def World.calls (p : Program V) (w : World V) : Event → List (Loop V × List TaskWrites)
  | .command writes => w.loop.toList.map fun l => (l, [nullTask writes])
  | .input info writes => w.loop.toList.map fun l =>
      (l, taskWrites (l.allTasks p info true) (fun _ => []) ++ [nullTask writes])
  | .superstep info outputs pushed => w.loop.toList.map fun l =>
      (l, taskWrites (l.tasks p info true) outputs ++ pushed.map Pushed.toTaskWrites)
  | .update source id history change =>
      ((w.source source id).bind fun s => s.load p history).toList.flatMap fun l =>
        l.unhinted.changeCalls p change
  | _ => []

/-- A call of the step writes the channel. -/
def World.Writes (p : Program V) (w : World V) (e : Event) (chan : String) : Prop :=
  ∃ c ∈ w.calls p e, ∃ r, c.1.apply p c.2 = some r ∧ written c.2 r.2 chan = true

/-- A step of the run over the events writes the channel. -/
def WrittenIn (p : Program V) : World V → List Event → String → Prop
  | _, [], _ => False
  | w, e :: es, chan => w.Writes p e chan ∨ ∃ w', step p w e = some w' ∧ WrittenIn p w' es chan

/-- The event does not go back to a checkpoint that was saved before the `n`-th. -/
def Event.OnBranch (n : Nat) : Event → Prop
  | .enter (some idx) _ _ | .update (some idx) _ _ _ => n ≤ idx
  | _ => True

/-! ## What a branch keeps -/

/-- The channel of the sends, as `Pregel` adds it. -/
def taskTopic : Channel := .topic ⟨Const.TASKS, false, []⟩

/-- What a loop of the branch has that is not written in it: no pending sends, and nothing
    unread for the nodes `D` that triggers them. -/
structure Loop.Cleared (D : String → String → Prop) (W : String → Prop) (l : Loop V) : Prop where
  topic : ∃ ch, l.channels.get? Const.TASKS = some ch ∧ ch.SameSpec taskTopic
  sends : pendingSends l.channels ≠ [] → W Const.TASKS
  unread : ∀ node chan, D node chan → l.unread node chan = true → W chan

/-- A checkpoint that restores such a loop. -/
structure Saved.Cleared (D : String → String → Prop) (W : String → Prop) (s : Saved V) : Prop where
  sends : (taskTopic.fromCheckpoint (s.checkpoint.channelValues.get? Const.TASKS)).isAvailable = true →
    W Const.TASKS
  unread : ∀ node chan, D node chan → s.unread node chan = true → W chan

structure World.Cleared (n : Nat) (D : String → String → Prop) (W : String → Prop) (w : World V) :
    Prop where
  loop : ∀ l, w.loop = some l → l.Cleared D W
  saved : ∀ idx s, n ≤ idx → w.saved[idx]? = some s → s.Cleared D W

/-! ## The channel of the sends -/

omit [LinearOrder V] [OrderBot V] in
theorem Program.specs_tasks (p : Program V) : p.specs.get? Const.TASKS = some taskTopic := by
  have hnodes : ∀ (entries : List (String × StateNodeSpec)) (c : CompiledStateGraph),
      (entries.foldl (fun c e => c.attachNode e.1 e.2) c).channels.get? Const.TASKS =
        c.channels.get? Const.TASKS := by
    intro entries
    induction entries with
    | nil => exact fun _ => rfl
    | cons e rest ih =>
      intro c
      have hne : Const.TASKS ≠ branchTo e.1 := by
        intro he
        exact branchTo_not_reserved e.1 (he ▸ List.mem_cons_self ..)
      rw [List.foldl_cons, ih]
      exact OrdDict.get?_set_of_ne hne _ _
  have hedges : ∀ (edges : List (List String × String)) (c : CompiledStateGraph),
      (edges.foldl (CompiledStateGraph.attachEdge p.builder.nodes) c).channels.get? Const.TASKS =
        c.channels.get? Const.TASKS := by
    intro edges
    induction edges with
    | nil => exact fun _ => rfl
    | cons e rest ih =>
      intro c
      have hne : Const.TASKS ≠ joinName e.1 e.2 := by
        intro he
        exact joinName_not_reserved e.1 e.2 (he ▸ List.mem_cons_self ..)
      rw [List.foldl_cons, ih, CompiledStateGraph.attachEdge]
      split
      · exact OrdDict.get?_set_of_ne hne _ _
      · rfl
  unfold Program.specs StateGraph.compile
  rw [hedges, hnodes]
  exact OrdDict.get?_set_self _ _ _

theorem eq_topic_of_sameSpec {ch : Channel} (h : ch.SameSpec taskTopic) :
    ∃ sends, ch = .topic ⟨Const.TASKS, false, sends⟩ := by
  have hnone : ch.fromCheckpoint none = taskTopic.fromCheckpoint none := congrFun h none
  cases ch with
  | topic c =>
    obtain ⟨key, accumulate, sends⟩ := c
    simp only [Channel.fromCheckpoint, taskTopic, Topic.fromCheckpoint, Channel.topic.injEq,
      Topic.mk.injEq] at hnone
    exact ⟨sends, by rw [hnone.1, hnone.2.1]⟩
  | _ => simp [Channel.fromCheckpoint, taskTopic] at hnone

theorem pendingSends_topic {channels : OrdDict String Channel} {sends : List PyVal}
    (h : channels.get? Const.TASKS = some (.topic ⟨Const.TASKS, false, sends⟩)) :
    pendingSends channels = sends := by
  rw [pendingSends, h, Option.bind_some]
  cases sends with
  | nil => rfl
  | cons s rest => rfl

open ChannelView in
omit [LinearOrder V] [OrderBot V] in
/-- A call leaves sends only if it writes some, or if it ends no step and finds them. -/
theorem ChannelView.Applied.topic {v : V} {consumed bump finished : Bool} {writes sends : List PyVal}
    {w w' : ChannelView V} (h : Applied v consumed writes bump finished w w')
    (hw : w.channel = .topic ⟨Const.TASKS, false, sends⟩) (hu : w.updated = false) :
    ∃ left, w'.channel = .topic ⟨Const.TASKS, false, left⟩ ∧
      (left ≠ [] → writes ≠ [] ∨ bump = false ∧ left = sends) := by
  obtain ⟨w₁, w₂, w₃, h₁, h₂, h₃, h₄⟩ := h
  have hw₁ : w₁.channel = .topic ⟨Const.TASKS, false, sends⟩ ∧ w₁.updated = false := by
    rw [h₁]
    split
    · exact ⟨by rw [ChannelView.consume, hw]; rfl, hu⟩
    · exact ⟨hw, hu⟩
  have hupdate : ∀ {a b : ChannelView V} {vals sends : List PyVal},
      a.channel = .topic ⟨Const.TASKS, false, sends⟩ → a.Updates v vals b →
        b.channel = .topic ⟨Const.TASKS, false, Topic.flatten vals⟩ := by
    intro a b vals sends ha hab
    obtain ⟨changed, he, -⟩ := hab
    rw [ha] at he
    have := congrArg Prod.fst he
    simpa [Channel.update, Topic.update] using this.symm
  have hfinish : ∀ {a : ChannelView V} {sends : List PyVal},
      a.channel = .topic ⟨Const.TASKS, false, sends⟩ → (a.finish v).channel = a.channel := by
    intro a sends ha
    rw [ChannelView.finish, ha]
    rfl
  have hw₂ : ∃ left, w₂.channel = .topic ⟨Const.TASKS, false, left⟩ ∧
      (writes ≠ [] ∨ left = sends ∧ w₂.updated = false) := by
    split at h₂
    · rw [h₂]
      exact ⟨sends, hw₁.1, Or.inr ⟨rfl, hw₁.2⟩⟩
    · rename_i hne
      exact ⟨_, hupdate hw₁.1 h₂, Or.inl hne⟩
  obtain ⟨left₂, hch₂, hleft₂⟩ := hw₂
  have hw₃ : ∃ left, w₃.channel = .topic ⟨Const.TASKS, false, left⟩ ∧
      (left ≠ [] → writes ≠ [] ∨ bump = false ∧ left = sends) := by
    cases bump with
    | false =>
      rw [if_neg Bool.false_ne_true] at h₃
      rw [h₃]
      exact ⟨left₂, hch₂, fun _ => hleft₂.imp_right fun hl => ⟨rfl, hl.1⟩⟩
    | true =>
      rw [if_pos rfl, ChannelView.Bumps] at h₃
      split at h₃
      · exact ⟨_, hupdate hch₂ h₃, fun hne => absurd rfl hne⟩
      · rename_i hout
        rw [h₃]
        refine ⟨left₂, hch₂, fun hne => hleft₂.imp_right fun hl => ?_⟩
        -- an unnotified channel of sends is empty
        rw [hch₂, hl.2] at hout
        cases left₂ with
        | nil => exact absurd rfl hne
        | cons s rest => exact absurd rfl hout
  obtain ⟨left₃, hch₃, hleft₃⟩ := hw₃
  refine ⟨left₃, ?_, hleft₃⟩
  rw [h₄]
  split
  · rw [hfinish hch₃, hch₃]
  · exact hch₃

/-! ## One call -/

section Call
variable {p : Program V} {D : String → String → Prop} {W : String → Prop} {l l' : Loop V}
  {tasks : List TaskWrites} {us : List String}

omit [OrderBot V] in
/-- What a call leaves of the sends. -/
theorem Loop.apply_topic (h : l.apply p tasks = some (l', us))
    (ht : ∃ ch, l.channels.get? Const.TASKS = some ch ∧ ch.SameSpec taskTopic) :
    (∃ ch, l'.channels.get? Const.TASKS = some ch ∧ ch.SameSpec taskTopic) ∧
      (pendingSends l'.channels ≠ [] → written tasks us Const.TASKS = true ∨
        (∀ t ∈ tasks, t.triggers = []) ∧ pendingSends l.channels ≠ []) := by
  obtain ⟨ch, hch, hspec⟩ := ht
  obtain ⟨sends, rfl⟩ := eq_topic_of_sameSpec hspec
  obtain ⟨s, finished, hr, rfl, rfl⟩ := Loop.apply_eq_some h
  have hview := hr.view Const.TASKS
  have hw : ApplyState.view Const.TASKS ⟨l.checkpoint, l.channels, []⟩ =
      some ⟨.topic ⟨Const.TASKS, false, sends⟩, l.checkpoint.channelVersions.get? Const.TASKS,
        false⟩ := by
    simp [ApplyState.view, hch]
  rw [hw] at hview
  generalize hv : s.view Const.TASKS = view at hview
  cases hview with
  | @some _ w' happ =>
    rw [ApplyState.view, Option.map_eq_some_iff] at hv
    obtain ⟨ch', hch', rfl⟩ := hv
    obtain ⟨left, hleft, hcases⟩ := happ.topic rfl rfl
    have hch'' : (l.after tasks s).channels.get? Const.TASKS =
        some (.topic ⟨Const.TASKS, false, left⟩) := by
      rw [← hleft]
      exact hch'
    refine ⟨⟨_, hch'', rfl⟩, ?_⟩
    rw [pendingSends_topic hch'', pendingSends_topic hch]
    intro hne
    rcases hcases hne with hwrites | ⟨hbump, hsends⟩
    · left
      have := writesFor_ne_nil_of_subset (fun t => SortBy.mem_sortBy.mp) hwrites
      simp [written, this]
    · right
      refine ⟨?_, hsends ▸ hne⟩
      intro t ht
      have := List.any_eq_false.mp hbump t ht
      simpa using this

omit [OrderBot V] in
theorem Loop.Cleared.apply (hl : l.Cleared D W) (h : l.apply p tasks = some (l', us))
    (hW : ∀ chan, written tasks us chan = true → W chan) : l'.Cleared D W := by
  obtain ⟨htopic, hsends⟩ := Loop.apply_topic h hl.topic
  refine ⟨htopic, ?_, ?_⟩
  · intro hne
    rcases hsends hne with hw | ⟨-, hold⟩
    · exact hW _ hw
    · exact hl.sends hold
  · intro node chan hD hu
    obtain ⟨s, finished, -, rfl, rfl⟩ := Loop.apply_eq_some h
    simp only [Loop.after, Bool.or_eq_true, Bool.and_eq_true] at hu
    rcases hu with ⟨hu, -⟩ | hw
    · exact hl.unread node chan hD hu
    · exact hW chan hw

omit [LinearOrder V] [OrderBot V] in
/-- The loop that a checkpoint restores. -/
theorem Saved.Cleared.load {s : Saved V} {history : History} (hs : s.Cleared D W)
    (h : s.load p history = some l) : l.Cleared D W := by
  obtain ⟨hchannels, -, hunread, -⟩ := Saved.load_eq_some h
  have hch := channelsFromCheckpoint_get? hchannels p.specs_tasks rfl
  have hspec : (taskTopic.fromCheckpoint (s.checkpoint.channelValues.get? Const.TASKS)).SameSpec
      taskTopic := Channel.sameSpec_fromCheckpoint _ _
  refine ⟨⟨_, hch, hspec⟩, ?_, ?_⟩
  · intro hne
    obtain ⟨sends, hsends⟩ := eq_topic_of_sameSpec hspec
    rw [hsends] at hch
    rw [pendingSends_topic hch] at hne
    apply hs.sends
    rw [hsends]
    simpa [Channel.isAvailable] using hne
  · rw [hunread]
    exact hs.unread

omit [LinearOrder V] [OrderBot V] in
/-- The checkpoint of a loop, with the sends as they are or without their untracked values. -/
theorem Loop.Cleared.stored (hl : l.Cleared D W) {id : String} {updated : Option (List String)}
    {g : Option (GetNextVersion V)} {toSnapshot : List String}
    (hsnap : Const.TASKS ∉ toSnapshot) {cp : Checkpoint V}
    (hcp : cp = createCheckpoint l.checkpoint (some l.channels) id updated g toSnapshot) :
    Saved.Cleared D W ⟨cp, l.unread⟩ ∧ Saved.Cleared D W ⟨sanitizeTasks l.channels cp, l.unread⟩ := by
  obtain ⟨ch, hch, hspec⟩ := hl.topic
  obtain ⟨sends, rfl⟩ := eq_topic_of_sameSpec hspec
  have hsends : sends ≠ [] → W Const.TASKS := by
    rw [← pendingSends_topic hch]
    exact hl.sends
  have havail : ∀ xs : List PyVal,
      (taskTopic.fromCheckpoint (some (.list xs))).isAvailable = true → xs ≠ [] := by
    intro xs ha
    simpa [taskTopic, Channel.fromCheckpoint, Topic.fromCheckpoint, Channel.isAvailable] using ha
  have hvalue : cp.channelValues.get? Const.TASKS = some (.list sends) ∨
      cp.channelValues.get? Const.TASKS = none := by
    rw [hcp, get?_channelValues_create]
    split
    · left
      rw [hch, Option.bind_some, snapshotValue, if_neg hsnap]
      rfl
    · exact Or.inr rfl
  rcases hvalue with hvalue | hvalue
  · refine ⟨⟨?_, hl.unread⟩, ⟨?_, hl.unread⟩⟩
    · rw [hvalue]
      exact fun ha => hsends (havail sends ha)
    · simp only [sanitizeTasks, hvalue]
      split
      · rw [OrdDict.get?_set_self]
        intro ha
        apply hsends
        simpa using havail _ ha
      · rw [hvalue]
        exact fun ha => hsends (havail sends ha)
  · have hsame : sanitizeTasks l.channels cp = cp := by
      rw [sanitizeTasks, hvalue]
    rw [hsame]
    have hnone : Saved.Cleared D W ⟨cp, l.unread⟩ := by
      refine ⟨?_, hl.unread⟩
      rw [hvalue]
      exact fun ha => absurd rfl (havail [] ha)
    exact ⟨hnone, hnone⟩

end Call

/-! ## One step -/

section Step
variable {p : Program V} {n : Nat} {D : String → String → Prop} {W : String → Prop}
  {w w' : World V}

omit [LinearOrder V] [OrderBot V] in
theorem World.Cleared.put (hw : w.Cleared n D W) {l : Loop V} {cp : Checkpoint V}
    (h : Saved.Cleared D W ⟨cp, l.unread⟩) : (w.put l cp).Cleared n D W := by
  refine ⟨hw.loop, ?_⟩
  intro idx s hn hs
  rw [World.put, List.getElem?_append] at hs
  split at hs
  · exact hw.saved idx s hn hs
  · rw [List.mem_singleton.mp (List.mem_of_getElem? hs)]
    exact h

omit [LinearOrder V] [OrderBot V] in
theorem World.Cleared.source (hw : w.Cleared n D W) {source : Option Nat} {id : String}
    (hn : ∀ idx, source = some idx → n ≤ idx) {s : Saved V} (hs : w.source source id = some s) :
    s.Cleared D W := by
  cases source with
  | some idx => exact hw.saved idx s (hn idx rfl) hs
  | none =>
    cases hs
    exact ⟨fun ha => absurd ha Bool.false_ne_true, fun _ _ _ hu => absurd hu Bool.false_ne_true⟩

/-- An update changes a loop by the calls that `changeCalls` lists. -/
theorem Loop.Cleared.change {l l' : Loop V} (hl : l.Cleared D W) {c : Update}
    (hW : ∀ a ∈ l.changeCalls p c, ∀ r, a.1.apply p a.2 = some r →
      ∀ chan, written a.2 r.2 chan = true → W chan)
    (h : l.change p c = some l') : l'.Cleared D W := by
  have hcall : ∀ {l l' : Loop V} {tasks : List TaskWrites}, l.Cleared D W →
      (∀ r, l.apply p tasks = some r → ∀ chan, written tasks r.2 chan = true → W chan) →
      (l.apply p tasks).map Prod.fst = some l' → l'.Cleared D W := by
    intro l l' tasks hl hW h
    obtain ⟨r, hr, rfl⟩ := Option.map_eq_some_iff.mp h
    exact hl.apply hr (hW r hr)
  cases c with
  | asNodes updates =>
    have hone := hW (l, updates.map fun u => ⟨[], u.1, u.2, [Const.INTERRUPT]⟩)
      (by simp [Loop.changeCalls])
    exact hcall hl hone h
  | asInput writes =>
    have hone := hW (l, [nullTask writes]) (by simp [Loop.changeCalls])
    exact hcall hl hone h
  | clear info nullWrites outputs =>
    simp only [Loop.change] at h
    split at h
    · rename_i hnil
      have hone := hW (l, taskWrites (l.allTasks p info true) outputs)
        (by simp [Loop.changeCalls, hnil])
      exact hcall hl hone h
    · rename_i hne
      obtain ⟨r₁, hr₁, h⟩ := Option.bind_eq_some_iff.mp h
      have hnull := hW (l, [nullTask nullWrites]) (by simp [Loop.changeCalls, hne])
      have htasks := hW (r₁.1, taskWrites (l.allTasks p info true) outputs)
        (by simp [Loop.changeCalls, hne, hr₁])
      exact hcall (hl.apply hr₁ (hnull r₁ hr₁)) htasks h
  | copy =>
    cases h
    exact hl

theorem World.Cleared.step (hw : w.Cleared n D W) {e : Event} (hbranch : e.OnBranch n)
    (hW : ∀ chan, w.Writes p e chan → W chan) (h : step p w e = some w') : w'.Cleared n D W := by
  have hcall : ∀ a ∈ w.calls p e, ∀ r, a.1.apply p a.2 = some r →
      ∀ chan, written a.2 r.2 chan = true → W chan :=
    fun a ha r hr chan hwr => hW chan ⟨a, ha, r, hr, hwr⟩
  -- a step that changes the loop only
  have hloop : ∀ {l : Loop V}, l.Cleared D W → World.Cleared n D W { w with loop := some l } := by
    intro l hl
    refine ⟨?_, hw.saved⟩
    intro l' hl'
    cases hl'
    exact hl
  cases e with
  | enter source id history =>
    obtain ⟨s, hs, h⟩ := Option.bind_eq_some_iff.mp h
    obtain ⟨l, hl, rfl⟩ := Option.map_eq_some_iff.mp h
    refine hloop (Saved.Cleared.load (hw.source ?_ hs) hl)
    rintro idx rfl
    exact hbranch
  | command writes =>
    obtain ⟨l, hl, h⟩ := Option.bind_eq_some_iff.mp h
    obtain ⟨r, hr, rfl⟩ := Option.map_eq_some_iff.mp h
    have hone := hcall (l, [nullTask writes]) (by simp [World.calls, hl])
    have hr' := (hw.loop l hl).apply hr (hone r hr)
    exact hloop ⟨hr'.topic, hr'.sends, hr'.unread⟩
  | resume =>
    obtain ⟨l, hl, rfl⟩ := Option.map_eq_some_iff.mp h
    have hl' := hw.loop l hl
    exact hloop ⟨hl'.topic, hl'.sends, hl'.unread⟩
  | input info writes =>
    obtain ⟨l, hl, h⟩ := Option.bind_eq_some_iff.mp h
    obtain ⟨r, hr, rfl⟩ := Option.map_eq_some_iff.mp h
    have hone := hcall (l, taskWrites (l.allTasks p info true) (fun _ => []) ++ [nullTask writes])
      (by simp [World.calls, hl])
    have hr' := (hw.loop l hl).apply hr (hone r hr)
    exact hloop ⟨hr'.topic, hr'.sends, hr'.unread⟩
  | superstep info outputs pushed =>
    obtain ⟨l, hl, h⟩ := Option.bind_eq_some_iff.mp h
    simp only at h
    split at h
    · cases h
    · obtain ⟨r, hr, rfl⟩ := Option.map_eq_some_iff.mp h
      have hone := hcall
        (l, taskWrites (l.tasks p info true) outputs ++ pushed.map Pushed.toTaskWrites)
        (by simp [World.calls, hl])
      have hr' := (hw.loop l hl).apply hr (hone r hr)
      exact hloop ⟨hr'.topic, hr'.sends, hr'.unread⟩
  | putCheckpoint id toSnapshot hinted =>
    obtain ⟨l, hl, rfl⟩ := Option.map_eq_some_iff.mp h
    have hl' := hw.loop l hl
    have hsnap : Const.TASKS ∉ l.deltaChannels toSnapshot := by
      intro hmem
      obtain ⟨ch, hch, hspec⟩ := hl'.topic
      obtain ⟨sends, rfl⟩ := eq_topic_of_sameSpec hspec
      have hdelta := (List.mem_filter.mp hmem).2
      rw [hch] at hdelta
      cases hdelta
    generalize hcp : createCheckpoint l.checkpoint (some l.channels) id
      (if hinted then l.updatedChannels else none) (some p.getNextVersion)
      (l.deltaChannels toSnapshot) = cp
    have hput := hw.put (hl'.stored hsnap hcp.symm).2
    refine ⟨?_, hput.saved⟩
    intro l₂ hl₂
    cases hl₂
    exact ⟨hl'.topic, hl'.sends, hl'.unread⟩
  | advance id =>
    obtain ⟨l, hl, rfl⟩ := Option.map_eq_some_iff.mp h
    have hl' := hw.loop l hl
    exact hloop ⟨hl'.topic, hl'.sends, hl'.unread⟩
  | update source id history c =>
    obtain ⟨s, hs, h⟩ := Option.bind_eq_some_iff.mp h
    obtain ⟨l, hl, h⟩ := Option.bind_eq_some_iff.mp h
    obtain ⟨l', hl', rfl⟩ := Option.map_eq_some_iff.mp h
    have hsource : s.Cleared D W := by
      refine hw.source ?_ hs
      rintro idx rfl
      exact hbranch
    have hloaded : l.Cleared D W := hsource.load hl
    have hunhinted : l.unhinted.Cleared D W := ⟨hloaded.topic, hloaded.sends, hloaded.unread⟩
    have hchanged : l'.Cleared D W := by
      refine hunhinted.change (fun a ha => hcall a ?_) hl'
      simp [World.calls, hs, hl, ha]
    apply hw.put
    cases hk : c.keepsChannels with
    | false => exact (hchanged.stored List.not_mem_nil rfl).1
    | true =>
      cases c with
      | copy =>
        cases hl'
        refine ⟨?_, hchanged.unread⟩
        have hcp : l.checkpoint = s.checkpoint := (Saved.load_eq_some hl).2.1
        simp only [if_true, createCheckpoint, Loop.unhinted, hcp]
        exact hsource.sends
      | _ => cases hk

/-- What a run on the branch leaves is what it has written. -/
theorem World.Cleared.run : ∀ {es : List Event} {w w' : World V}, w.Cleared n D W →
    (∀ e ∈ es, e.OnBranch n) → (∀ chan, WrittenIn p w es chan → W chan) →
    Machine.run (LangGraph.step p) w es = some w' → w'.Cleared n D W
  | [], w, w', hw, _, _, h => by
    cases h
    exact hw
  | e :: es, w, w', hw, hbranch, hW, h => by
    obtain ⟨w₁, hs, hrest⟩ := Option.bind_eq_some_iff.mp h
    have h₁ := hw.step (hbranch e (List.mem_cons_self ..)) (fun chan hc => hW chan (Or.inl hc)) hs
    exact h₁.run (fun e' he' => hbranch e' (List.mem_cons_of_mem _ he'))
      (fun chan hc => hW chan (Or.inr ⟨w₁, hs, hc⟩)) hrest

end Step

/-! ## After a new input -/

/-- After the input a node whose task was discarded is pulled only by a trigger that has been
    written since, and a task is pushed only by a send that has been. -/
def DiscardsTasks (p : Program V) (w : World V) (info : StepInfo) (writes : List (String × PyVal)) :
    Prop :=
  ∀ l w₁ es w₂ l₂, w.loop = some l → step p w (.input info writes) = some w₁ →
    (∀ e ∈ es, e.OnBranch w.saved.length) → Machine.run (step p) w₁ es = some w₂ →
    w₂.loop = some l₂ → ∀ info₂ forExecution,
      (∀ node, Pulls (l.allTasks p info true) node → Pulls (l₂.tasks p info₂ forExecution) node →
        ∃ chan, p.Triggers node chan ∧ WrittenIn p w (.input info writes :: es) chan) ∧
      (l.allTasks p info true ≠ [] →
        (∃ t ∈ l₂.tasks p info₂ forExecution, t.triggers = [Const.PUSH]) →
          WrittenIn p w (.input info writes :: es) Const.TASKS)

section Input
variable {p : Program V}

/-- The sends of every loop of a run are in the channel that `Pregel` adds. -/
theorem taskTopic_of_reachable {w : World V}
    (h : Machine.Reachable (step p) (fun _ _ => True) ⟨[], none⟩ w) {l : Loop V}
    (hl : w.loop = some l) :
    ∃ ch, l.channels.get? Const.TASKS = some ch ∧ ch.SameSpec taskTopic := by
  have hinv : w.Cleared 0 (fun _ _ => False) fun _ => True := by
    refine Machine.Reachable.invariant (P := World.Cleared 0 (fun _ _ => False) fun _ => True)
      ?_ ?_ h
    · constructor
      · intro l hl
        cases hl
      · intro idx s _ hs
        rw [List.getElem?_nil] at hs
        cases hs
    · intro w e w' hw _ hs
      refine hw.step ?_ (fun _ _ => trivial) hs
      unfold Event.OnBranch
      split <;> first | exact Nat.zero_le _ | trivial
  exact (hinv.loop l hl).topic

/-- The loop after an input has nothing that its discarded tasks were triggered by. -/
theorem Loop.cleared_input {l l' : Loop V} {info : StepInfo} {writes : List (String × PyVal)}
    {us : List String}
    (hid : ∀ t ∈ l.allTasks p info true, ∀ t' ∈ l.allTasks p info true, t.id = t'.id → t = t')
    (htopic : ∃ ch, l.channels.get? Const.TASKS = some ch ∧ ch.SameSpec taskTopic)
    (h : l.apply p (taskWrites (l.allTasks p info true) (fun _ => []) ++ [nullTask writes]) =
      some (l', us)) {W : String → Prop}
    (hW : ∀ chan, written (taskWrites (l.allTasks p info true) (fun _ => []) ++ [nullTask writes])
      us chan = true → W chan) (hnone : l.allTasks p info true = [] → W Const.TASKS) :
    l'.Cleared (fun node chan => Pulls (l.allTasks p info true) node ∧ p.Triggers node chan) W := by
  have hmem : ∀ t ∈ l.allTasks p info true,
      { t.toTaskWrites with writes := [] } ∈ taskWrites (l.allTasks p info true) (fun _ => []) ++
        [nullTask writes] := by
    intro t ht
    refine List.mem_append_left _ (List.mem_map.mpr ⟨t, (mem_values_tasksById hid).mpr ht, rfl⟩)
  obtain ⟨htopic', hsends⟩ := Loop.apply_topic h htopic
  refine ⟨htopic', ?_, ?_⟩
  · intro hne
    rcases hsends hne with hw | ⟨hnot, -⟩
    · exact hW _ hw
    · apply hnone
      rw [List.eq_nil_iff_forall_not_mem]
      intro t ht
      exact triggers_ne_nil_of_mem ht (hnot _ (hmem t ht))
  · rintro node chan ⟨⟨t, ht, hname, hpath⟩, proc, hproc, hchan⟩ hu
    have hmark : (taskWrites (l.allTasks p info true) (fun _ => []) ++ [nullTask writes]).any
        (fun t => t.name == node && t.triggers.contains chan) = true := by
      rw [List.any_eq_true]
      refine ⟨_, hmem t ht, ?_⟩
      have htrig : chan ∈ t.triggers := by
        rcases mem_nextTaskList.mp ht with ⟨i, -, hi⟩ | ⟨node', -, ht'⟩
        · rw [(preparePushTaskSend_path hi).1] at hpath
          exact absurd (congrArg List.length hpath) (by simp)
        · obtain ⟨proc', hproc', -, -, hname', -, htriggers⟩ := preparePullTask_eq_some ht'
          have hnode : node' = node := hname'.symm.trans hname
          subst hnode
          cases Option.some.inj (hproc'.symm.trans hproc)
          rw [htriggers]
          exact SortBy.mem_sortBy.mpr hchan
      simp [Task.toTaskWrites, hname, htrig]
    obtain ⟨s, finished, -, rfl, rfl⟩ := Loop.apply_eq_some h
    simp only [Loop.after, hmark, Bool.not_true, Bool.and_false, Bool.false_or] at hu
    exact hW chan hu

theorem discarded_not_scheduled (hg : p.builder.WaitsForSome) (hinc : Increasing p.getNextVersion)
    {w : World V} (hr : Machine.Reachable (step p) (fun _ _ => True) ⟨[], none⟩ w) {info : StepInfo}
    (hid : ∀ l, w.loop = some l → ∀ t ∈ l.allTasks p info true, ∀ t' ∈ l.allTasks p info true,
      t.id = t'.id → t = t') (writes : List (String × PyVal)) : DiscardsTasks p w info writes := by
  intro l w₁ es w₂ l₂ hl hin hbranch hrun hl₂ info₂ forExecution
  have hc := p.builder.compile_wired hg
  let W : String → Prop := fun chan => WrittenIn p w (.input info writes :: es) chan ∨
    chan = Const.TASKS ∧ l.allTasks p info true = []
  -- the loop right after the input
  have hcleared : w₁.Cleared w.saved.length
      (fun node chan => Pulls (l.allTasks p info true) node ∧ p.Triggers node chan) W := by
    obtain ⟨l', hl', hstep⟩ := Option.bind_eq_some_iff.mp hin
    cases Option.some.inj (hl'.symm.trans hl)
    obtain ⟨r, hr', rfl⟩ := Option.map_eq_some_iff.mp hstep
    have hwritten : ∀ chan, written (taskWrites (l.allTasks p info true) (fun _ => []) ++
        [nullTask writes]) r.2 chan = true → W chan := by
      intro chan hw
      have hcall : (l, taskWrites (l.allTasks p info true) (fun _ => []) ++ [nullTask writes]) ∈
          w.calls p (.input info writes) := by
        simp [World.calls, hl]
      exact Or.inl (Or.inl ⟨_, hcall, r, hr', hw⟩)
    have hafter := Loop.cleared_input (W := W) (hid l hl) (taskTopic_of_reachable hr hl) hr' hwritten
      fun hnil => Or.inr ⟨rfl, hnil⟩
    refine ⟨?_, ?_⟩
    · intro l₁ hl₁
      cases hl₁
      exact ⟨hafter.topic, hafter.sends, hafter.unread⟩
    · intro idx s hn hs
      rw [List.getElem?_eq_none hn] at hs
      cases hs
  have hend : l₂.Cleared _ W := (hcleared.run hbranch
    (fun chan hw => Or.inl (Or.inr ⟨w₁, hin, hw⟩)) hrun).loop l₂ hl₂
  have hr₂ : Machine.Reachable (step p) (fun _ _ => True) ⟨[], none⟩ w₂ :=
    (Machine.Reachable.step hr trivial hin).extend (Machine.Meets.of_forall (fun _ _ => trivial) w₁ es) hrun
  refine ⟨?_, ?_⟩
  · intro node hdisc hpull
    obtain ⟨t, ht, hname, hpath⟩ := hpull
    have hproc : ∃ proc, p.nodes.get? node = some proc := by
      rcases mem_nextTaskList.mp ht with ⟨i, -, hi⟩ | ⟨node', -, ht'⟩
      · rw [(preparePushTaskSend_path hi).1] at hpath
        exact absurd (congrArg List.length hpath) (by simp)
      · obtain ⟨proc, hproc, -, -, hname', -⟩ := preparePullTask_eq_some ht'
        rw [← hname, hname']
        exact ⟨proc, hproc⟩
    obtain ⟨proc, hproc⟩ := hproc
    obtain ⟨⟨chan, hchan, -, hunread⟩, -⟩ := (pulls_iff_due p hg hinc hr₂ hl₂ hproc info₂
      forExecution).2.1 ⟨t, ht, hname, hpath⟩
    have htrig : p.Triggers node chan := ⟨proc, hproc, hchan⟩
    refine ⟨chan, htrig, ?_⟩
    rcases hend.unread node chan ⟨hdisc, htrig⟩ hunread with hw | ⟨he, -⟩
    · exact hw
    · exact absurd he (p.triggers_ne_tasks hc htrig)
  · rintro hne ⟨t, ht, hpush⟩
    have hsends : pendingSends l₂.channels ≠ [] := by
      rcases mem_nextTaskList.mp ht with ⟨i, hi, -⟩ | ⟨node, -, ht'⟩
      · exact List.ne_nil_of_length_pos (Nat.lt_of_le_of_lt (Nat.zero_le i) hi)
      · obtain ⟨proc, hproc, -, -, -, -, htriggers⟩ := preparePullTask_eq_some ht'
        have hmem : Const.PUSH ∈ proc.triggers := by
          have hsorted : Const.PUSH ∈ t.triggers := by
            rw [hpush]
            exact List.mem_singleton_self _
          rw [htriggers] at hsorted
          exact SortBy.mem_sortBy.mp hsorted
        exact absurd (List.mem_cons_of_mem _ (by decide)) ((hc node proc hproc).2 _ hmem).1
    rcases hend.sends hsends with hw | ⟨-, hnil⟩
    · exact hw
    · exact absurd hnil hne

end Input

end Discarded
end LangGraph
