import LangGraph.Writers

/- The edges of a graph, over the runs of its compiled form.

   The compiled graph knows no edges: a node writes to channels when it has run, and
   is run when a channel that triggers it is available. `compile_faithful`: when the
   nodes of a superstep have written what their writers write, the next superstep runs
   one task of each node that an edge, a branch or a command of theirs leads to, or that
   is the target of an edge whose starts have now all run, and one task for each of
   their Sends.

   Correspondence (source ↔ Lean):
     the triggers of a compiled node                ↔ `StateGraph.compile_node`
     the tasks of a superstep, up to their writes   ↔ `pulled`, `pushed`
   The starts that ran since the edge last fired are read off the calls of the run, as
   in `Joined`; the nodes are not deferred. -/
namespace LangGraph

/- ── The triggers of a compiled node ───────────────────────────── -/

namespace CompiledStateGraph

/-- A node with its channel, as `attach_node` leaves them. -/
def nodeView (node : String) (c : CompiledStateGraph) : Option (List String) × Option Channel :=
  ((c.nodes.get? node).map (·.triggers), c.channels.get? (branchTo node))

theorem nodeView_attachNode_self (c : CompiledStateGraph) (e : String × StateNodeSpec) :
    nodeView e.1 (c.attachNode e.1 e.2) = (some [branchTo e.1], some (branchChannel e.1 e.2)) := by
  rw [nodeView, attachNode, OrdDict.get?_set_self, OrdDict.get?_set_self]
  rfl

theorem nodeView_attachNode_of_ne (c : CompiledStateGraph) (e : String × StateNodeSpec) {node : String}
    (h : node ≠ e.1) : nodeView node (c.attachNode e.1 e.2) = nodeView node c := by
  have hne : branchTo node ≠ branchTo e.1 := fun heq => h (branchTo_injective heq)
  rw [nodeView, attachNode, OrdDict.get?_set_of_ne h, OrdDict.get?_set_of_ne hne]
  rfl

/-- The nodes of the second graph have the triggers of the first, and the barriers of the edges. -/
def Grown (nodes : OrdDict String StateNodeSpec) (edges : List (List String × String))
    (c c' : CompiledStateGraph) : Prop :=
  (∀ node, c'.channels.get? (branchTo node) = c.channels.get? (branchTo node)) ∧
    ∀ node, Option.Rel (fun proc proc' : PregelNode => ∀ chan, chan ∈ proc'.triggers ↔
      chan ∈ proc.triggers ∨
        node ∈ nodes.keys ∧ ∃ e ∈ edges, e.2 = node ∧ chan = joinName e.1 e.2)
      (c.nodes.get? node) (c'.nodes.get? node)

theorem grown_nil (nodes : OrdDict String StateNodeSpec) (c : CompiledStateGraph) :
    Grown nodes [] c c := by
  refine ⟨fun _ => rfl, ?_⟩
  intro node
  cases c.nodes.get? node with
  | none => exact Option.Rel.none
  | some proc => exact Option.Rel.some fun chan => by simp

theorem grown_attachEdge (nodes : OrdDict String StateNodeSpec) (c : CompiledStateGraph)
    (e : List String × String) : Grown nodes [e] c (attachEdge nodes c e) := by
  unfold Grown attachEdge
  simp only [List.mem_singleton, exists_eq_left]
  split
  · next spec proc hspec hproc =>
    have hmem : e.2 ∈ nodes.keys := OrdDict.mem_keys_iff.mpr ⟨spec, hspec⟩
    refine ⟨fun node => OrdDict.get?_set_of_ne (joinName_ne_branchTo _ _ _).symm _ _, ?_⟩
    intro node
    by_cases hk : node = e.2
    · rw [hk, OrdDict.get?_set_self, hproc]
      exact Option.Rel.some fun chan => by simp [hmem]
    · rw [OrdDict.get?_set_of_ne hk]
      cases c.nodes.get? node with
      | none => exact Option.Rel.none
      | some proc => exact Option.Rel.some fun chan => by simp [Ne.symm hk]
  · next hout =>
    refine ⟨fun _ => rfl, ?_⟩
    intro node
    cases hproc : c.nodes.get? node with
    | none => exact Option.Rel.none
    | some proc =>
      apply Option.Rel.some
      intro chan
      apply (or_iff_left _).symm
      intro hedge
      obtain ⟨hmem, hnode, -⟩ := hedge
      obtain ⟨spec, hspec⟩ := OrdDict.mem_keys_iff.mp hmem
      exact hout spec proc (hnode ▸ hspec) (hnode ▸ hproc)

theorem Grown.trans {nodes : OrdDict String StateNodeSpec} {edges edges' : List (List String × String)}
    {c c' c'' : CompiledStateGraph} (h : Grown nodes edges c c') (h' : Grown nodes edges' c' c'') :
    Grown nodes (edges ++ edges') c c'' := by
  refine ⟨fun node => (h'.1 node).trans (h.1 node), ?_⟩
  intro node
  have hnode := h.2 node
  have hnode' := h'.2 node
  generalize c.nodes.get? node = a at hnode ⊢
  generalize c'.nodes.get? node = b at hnode hnode'
  generalize c''.nodes.get? node = d at hnode' ⊢
  cases hnode with
  | none =>
    cases hnode'
    exact Option.Rel.none
  | some hrel =>
    cases hnode' with
    | some hrel' =>
      apply Option.Rel.some
      intro chan
      rw [hrel' chan, hrel chan]
      simp only [List.mem_append, or_and_right, exists_or, and_or_left, or_assoc]

theorem grown_attachEdges (nodes : OrdDict String StateNodeSpec) :
    ∀ (edges : List (List String × String)) (c : CompiledStateGraph),
      Grown nodes edges c (edges.foldl (attachEdge nodes) c)
  | [], c => grown_nil nodes c
  | e :: edges, c =>
    (grown_attachEdge nodes c e).trans (grown_attachEdges nodes edges (attachEdge nodes c e))

/-- The compiled graph before its edges. -/
def attachNodes (g : StateGraph) : CompiledStateGraph :=
  g.nodes.entries.foldl (fun c e => c.attachNode e.1 e.2) (init g.channels).attachStart

theorem nodeView_attachNodes (g : StateGraph) :
    (∀ node, node ∉ g.nodes.keys →
      nodeView node (attachNodes g) = nodeView node (init g.channels).attachStart) ∧
    ∀ e ∈ g.nodes.entries,
      nodeView e.1 (attachNodes g) = (some [branchTo e.1], some (branchChannel e.1 e.2)) :=
  KeyedFold.view_foldl_key nodeView Prod.fst
    (g := fun e _ => (some [branchTo e.1], some (branchChannel e.1 e.2))) nodeView_attachNode_self
    (fun c e _ hne => nodeView_attachNode_of_ne c e hne) g.nodes.entries
    (init g.channels).attachStart g.nodes.nodup

theorem grown_compile (g : StateGraph) : Grown g.nodes g.waitingEdges (attachNodes g) g.compile :=
  grown_attachEdges g.nodes g.waitingEdges (attachNodes g)

end CompiledStateGraph

open CompiledStateGraph in
/-- A node of the graph is triggered by its own channel, and by the barriers of the edges to it. -/
theorem StateGraph.compile_node {g : StateGraph} {node : String} {spec : StateNodeSpec}
    (h : g.nodes.get? node = some spec) :
    g.compile.channels.get? (branchTo node) = some (branchChannel node spec) ∧
      ∃ proc, g.compile.nodes.get? node = some proc ∧ ∀ chan, chan ∈ proc.triggers ↔
        chan = branchTo node ∨ ∃ e ∈ g.waitingEdges, e.2 = node ∧ chan = joinName e.1 e.2 := by
  have hview := (nodeView_attachNodes g).2 (node, spec) (OrdDict.get?_eq_some_iff.mp h)
  obtain ⟨hchannels, hnodes⟩ := grown_compile g
  obtain ⟨htriggers, hchannel⟩ := Prod.mk.inj hview
  refine ⟨(hchannels node).trans hchannel, ?_⟩
  obtain ⟨proc₀, hproc₀, htriggers⟩ := Option.map_eq_some_iff.mp htriggers
  have hnode := hnodes node
  rw [hproc₀] at hnode
  have hmem : node ∈ g.nodes.keys := OrdDict.mem_keys_iff.mpr ⟨spec, h⟩
  generalize g.compile.nodes.get? node = found at hnode
  cases hnode with
  | @some _ proc hrel =>
    refine ⟨proc, rfl, ?_⟩
    intro chan
    rw [hrel chan, htriggers, List.mem_singleton, and_iff_right hmem]

open CompiledStateGraph in
/-- Beside the nodes of the graph there is `START`, which its input triggers. -/
theorem StateGraph.compile_start {g : StateGraph} {node : String} {proc : PregelNode}
    (hp : g.compile.nodes.get? node = some proc) (hout : node ∉ g.nodes.keys) :
    ∀ chan ∈ proc.triggers, chan = Const.START := by
  have htriggers := congrArg Prod.fst ((nodeView_attachNodes g).1 node hout)
  have hnode := (grown_compile g).2 node
  rw [hp] at hnode
  simp only [nodeView] at htriggers
  generalize (attachNodes g).nodes.get? node = found at hnode htriggers
  cases hnode with
  | @some proc₀ _ hrel =>
    intro chan hchan
    have hold := ((hrel chan).mp hchan).resolve_right fun hedge => hout hedge.1
    by_cases hstart : node = Const.START
    · rw [hstart, attachStart, OrdDict.get?_set_self] at htriggers
      have heq : proc₀.triggers = [Const.START] := Option.some.inj htriggers
      rw [heq] at hold
      exact List.mem_singleton.mp hold
    · rw [attachStart, OrdDict.get?_set_of_ne hstart] at htriggers
      cases htriggers

open CompiledStateGraph in
/-- A channel that is neither of a node nor of an edge. -/
theorem StateGraph.compile_channel (g : StateGraph) {chan : String} (hbranch : ∀ node, chan ≠ branchTo node)
    (hjoin : ∀ starts target, chan ≠ joinName starts target) :
    g.compile.channels.get? chan = (init g.channels).channels.get? chan := by
  have hnodes : ∀ (entries : List (String × StateNodeSpec)) (c : CompiledStateGraph),
      (entries.foldl (fun c e => c.attachNode e.1 e.2) c).channels.get? chan = c.channels.get? chan := by
    intro entries
    induction entries with
    | nil => exact fun _ => rfl
    | cons e rest ih =>
      intro c
      rw [List.foldl_cons, ih]
      exact OrdDict.get?_set_of_ne (hbranch e.1) _ _
  have hedges : ∀ (edges : List (List String × String)) (c : CompiledStateGraph),
      (edges.foldl (attachEdge g.nodes) c).channels.get? chan = c.channels.get? chan := by
    intro edges
    induction edges with
    | nil => exact fun _ => rfl
    | cons e rest ih =>
      intro c
      rw [List.foldl_cons, ih, attachEdge]
      split
      · exact OrdDict.get?_set_of_ne (hjoin e.1 e.2) _ _
      · rfl
  unfold StateGraph.compile
  rw [hedges, hnodes]
  rfl

/- ── The tasks of a step ───────────────────────────────────────── -/

/-- The task runs a Send. -/
def isPush (t : Task) : Bool :=
  match t.path with
  | .str tag :: _ => tag == Const.PUSH
  | _ => false

/-- The nodes that the tasks run as triggered by their channels. -/
def pulled (tasks : List Task) : List String := (tasks.filter fun t => !isPush t).map (·.name)

/-- The nodes that the tasks run for a Send, with what was sent. -/
def pushed (tasks : List Task) : List (String × PyVal) :=
  (tasks.filter isPush).map fun t => (t.name, t.input)

section Prepared
variable {V : Type} [LinearOrder V] [OrderBot V] {ctx : TaskContext} {cp : Checkpoint V}
  {channels : OrdDict String Channel} {n : Int} {forExecution : Bool} {ttn : Option TriggerToNodes}
  {updated : Option (List String)}

/-- The Send of a node that there is. -/
def TaskContext.known (ctx : TaskContext) : PyVal → Option (String × PyVal)
  | .send node arg =>
    if (ctx.processes.get? node).any (·.hasNode) then some (node, arg) else none
  | _ => none

theorem nextTaskList_eq : nextTaskList ctx cp channels n forExecution ttn updated =
    (List.range (pendingSends channels).length).filterMap (preparePushTaskSend ctx cp channels n) ++
      (candidateNodes ctx cp ttn updated).filterMap
        (preparePullTask ctx cp channels n forExecution) := by
  rw [nextTaskList, nextTaskPaths, List.filterMap_append, List.filterMap_map, List.filterMap_map]
  congr 1

theorem filterMap_range_getElem? {α β : Type} (xs : List α) (f : α → Option β) :
    ((List.range xs.length).filterMap fun i => xs[i]?.bind f) = xs.filterMap f := by
  have hmap : (List.range xs.length).map (fun i => xs[i]?) = xs.map some :=
    List.ext_getElem (by simp) (by simp)
  calc ((List.range xs.length).filterMap fun i => xs[i]?.bind f)
      = ((List.range xs.length).map fun i => xs[i]?).filterMap fun o => o.bind f := by
        rw [List.filterMap_map]
        rfl
    _ = xs.filterMap f := by
        rw [hmap, List.filterMap_map]
        rfl

omit [LinearOrder V] [OrderBot V] in
theorem isPush_preparePushTaskSend {i : Nat} {t : Task}
    (h : preparePushTaskSend ctx cp channels n i = some t) : isPush t = true := by
  rw [isPush, (preparePushTaskSend_path h).1]
  rfl

theorem isPush_preparePullTask {name : String} {t : Task}
    (h : preparePullTask ctx cp channels n forExecution name = some t) : isPush t = false := by
  obtain ⟨-, -, -, -, -, hpath, -⟩ := preparePullTask_eq_some h
  rw [isPush, hpath]
  rfl

/-- The nodes that are prepared, in their order. -/
theorem pulled_nextTaskList : pulled (nextTaskList ctx cp channels n forExecution ttn updated) =
    (candidateNodes ctx cp ttn updated).filter fun name =>
      (preparePullTask ctx cp channels n forExecution name).isSome := by
  rw [pulled, nextTaskList_eq, List.filter_append, List.map_append]
  have hpush : ((List.range (pendingSends channels).length).filterMap
      (preparePushTaskSend ctx cp channels n)).filter (fun t => !isPush t) = [] := by
    rw [List.filter_eq_nil_iff]
    intro t ht
    obtain ⟨i, -, hi⟩ := List.mem_filterMap.mp ht
    rw [isPush_preparePushTaskSend hi]
    exact Bool.false_ne_true
  have hpull : ((candidateNodes ctx cp ttn updated).filterMap
      (preparePullTask ctx cp channels n forExecution)).filter (fun t => !isPush t) =
        (candidateNodes ctx cp ttn updated).filterMap
          (preparePullTask ctx cp channels n forExecution) := by
    rw [List.filter_eq_self]
    intro t ht
    obtain ⟨name, -, hname⟩ := List.mem_filterMap.mp ht
    rw [isPush_preparePullTask hname]
    rfl
  rw [hpush, hpull, List.map_nil, List.nil_append, List.map_filterMap, ← List.filterMap_eq_filter]
  apply List.filterMap_congr
  intro name _
  cases h : preparePullTask ctx cp channels n forExecution name with
  | none => simp [Option.guard, h]
  | some t =>
    obtain ⟨-, -, -, -, hname, -⟩ := preparePullTask_eq_some h
    simp [Option.guard, h, hname]

/-- What is sent to the nodes that there are, in its order. -/
theorem pushed_nextTaskList : pushed (nextTaskList ctx cp channels n forExecution ttn updated) =
    (pendingSends channels).filterMap ctx.known := by
  rw [pushed, nextTaskList_eq, List.filter_append, List.map_append]
  have hpush : ((List.range (pendingSends channels).length).filterMap
      (preparePushTaskSend ctx cp channels n)).filter isPush =
        (List.range (pendingSends channels).length).filterMap
          (preparePushTaskSend ctx cp channels n) := by
    rw [List.filter_eq_self]
    intro t ht
    obtain ⟨i, -, hi⟩ := List.mem_filterMap.mp ht
    exact isPush_preparePushTaskSend hi
  have hpull : ((candidateNodes ctx cp ttn updated).filterMap
      (preparePullTask ctx cp channels n forExecution)).filter isPush = [] := by
    rw [List.filter_eq_nil_iff]
    intro t ht
    obtain ⟨name, -, hname⟩ := List.mem_filterMap.mp ht
    rw [isPush_preparePullTask hname]
    exact Bool.false_ne_true
  rw [hpush, hpull, List.map_nil, List.append_nil, List.map_filterMap,
    ← filterMap_range_getElem? (pendingSends channels)]
  apply List.filterMap_congr
  intro i _
  unfold preparePushTaskSend
  cases (pendingSends channels)[i]? with
  | none => rfl
  | some sent =>
    cases sent with
    | send node arg =>
      simp only [Option.bind_some, TaskContext.known]
      cases ctx.processes.get? node with
      | none => rfl
      | some proc =>
        simp only [Option.any_some]
        split <;> rfl
    | _ => rfl

omit [LinearOrder V] [OrderBot V] in
/-- Every node is looked at once. -/
theorem nodup_candidateNodes : (candidateNodes ctx cp ttn updated).Nodup := by
  unfold candidateNodes
  simp only
  split
  · apply (SortBy.perm_sortBy id _).nodup_iff.mpr
    exact List.nodup_dedup _
  · split
    · exact List.nodup_nil
    · exact ctx.processes.keys_nodup

end Prepared

/- ── What a step leaves of a channel ───────────────────────────── -/

theorem eq_ephemeral_of_sameSpec {ch : Channel} {c : EphemeralValue}
    (h : ch.SameSpec (.ephemeralValue c)) : ∃ c', ch = .ephemeralValue c' := by
  have hnone : ch.fromCheckpoint none = Channel.fromCheckpoint (.ephemeralValue c) none := congrFun h none
  cases ch with
  | ephemeralValue c' => exact ⟨c', rfl⟩
  | _ => simp [Channel.fromCheckpoint] at hnone

section Notified
variable {V : Type} {v : V} {consumed : Bool} {vals : List PyVal} {w w₃ : ChannelView V}

open ChannelView

/-- An `EphemeralValue` has a value after a step iff it was written. -/
theorem ChannelView.Notified.ephemeral (h : Notified v consumed vals true w w₃) {c : EphemeralValue}
    (hw : w.channel = .ephemeralValue c) (hu : w.updated = false) :
    ∃ c', w₃.channel = .ephemeralValue c' ∧ (c'.value.isSome = true ↔ vals ≠ []) := by
  obtain ⟨w₁, w₂, h₁, h₂, h₃⟩ := h
  have hw₁ : w₁.channel = .ephemeralValue c ∧ w₁.updated = false := by
    rw [h₁]
    split
    · exact ⟨by rw [ChannelView.consume, hw]; rfl, hu⟩
    · exact ⟨hw, hu⟩
  rw [if_pos rfl, Bumps] at h₃
  cases hlast : vals.getLast? with
  | none =>
    have hvals : vals = [] := List.getLast?_eq_none_iff.mp hlast
    rw [if_pos hvals] at h₂
    rw [h₂] at h₃
    split at h₃
    · obtain ⟨changed, he, -⟩ := h₃
      rw [hw₁.1] at he
      exact ⟨{ c with value := none }, (congrArg Prod.fst he).symm, by simp [hvals]⟩
    · next hout =>
      rw [hw₁.1, hw₁.2] at hout
      have hnone : c.value.isSome = false := by simpa [Channel.isAvailable] using hout
      exact ⟨c, by rw [h₃, hw₁.1], by simp [hvals, hnone]⟩
  | some last =>
    have hvals : vals ≠ [] := by
      intro hnil
      rw [hnil] at hlast
      cases hlast
    rw [if_neg hvals] at h₂
    obtain ⟨changed, he, hrecord⟩ := h₂
    rw [hw₁.1] at he
    simp only [Channel.update, EphemeralValue.update, hlast, Prod.map] at he
    split at he
    · cases (Prod.mk.inj he).2
    · obtain ⟨hch, hchanged⟩ := Prod.mk.inj he
      have hupdated : w₂.updated = true := by
        rw [hrecord, record, ← hch, ← Except.ok.inj hchanged]
        simp [Channel.isAvailable]
      rw [if_neg (by simp [hupdated])] at h₃
      exact ⟨{ c with value := some last }, by rw [h₃]; exact hch.symm, by simp [hvals]⟩

/-- The tasks after a step are those that were sent in it. -/
theorem ChannelView.Notified.sends (h : Notified v consumed vals true w w₃) {sends : List PyVal}
    (hw : w.channel = .topic ⟨Const.TASKS, false, sends⟩) (hu : w.updated = false) :
    w₃.channel = .topic ⟨Const.TASKS, false, Topic.flatten vals⟩ := by
  obtain ⟨w₁, w₂, h₁, h₂, h₃⟩ := h
  have hw₁ : w₁.channel = .topic ⟨Const.TASKS, false, sends⟩ ∧ w₁.updated = false := by
    rw [h₁]
    split
    · exact ⟨by rw [ChannelView.consume, hw]; rfl, hu⟩
    · exact ⟨hw, hu⟩
  have hupdate : ∀ {a b : ChannelView V} {vals : List PyVal},
      a.channel = .topic ⟨Const.TASKS, false, sends⟩ → a.Updates v vals b →
        b.channel = .topic ⟨Const.TASKS, false, Topic.flatten vals⟩ ∧
          (Topic.flatten vals ≠ [] → b.updated = true) := by
    intro a b vals ha hab
    obtain ⟨changed, he, hrecord⟩ := hab
    rw [ha] at he
    obtain ⟨hch, hchanged⟩ := Prod.mk.inj he
    refine ⟨hch.symm, ?_⟩
    intro hne
    rw [hrecord, record, ← hch, ← Except.ok.inj hchanged]
    simp [Channel.isAvailable, hne]
  rw [if_pos rfl, Bumps] at h₃
  by_cases hvals : vals = []
  · rw [if_pos hvals] at h₂
    rw [h₂] at h₃
    rw [hvals]
    split at h₃
    · exact (hupdate hw₁.1 h₃).1
    · next hout =>
      -- an unnotified channel of sends is empty
      rw [hw₁.1, hw₁.2] at hout
      have hnil : sends = [] := by simpa [Channel.isAvailable] using hout
      rw [h₃, hw₁.1, hnil]
      rfl
  · rw [if_neg hvals] at h₂
    obtain ⟨hch, hupdated⟩ := hupdate hw₁.1 h₂
    have hcond : ¬(w₂.channel.isAvailable && !w₂.updated) = true := by
      by_cases hflat : Topic.flatten vals = []
      · rw [hch, hflat]
        simp [Channel.isAvailable]
      · simp [hupdated hflat]
    rw [if_neg hcond] at h₃
    rw [h₃, hch]

end Notified

section Step
variable {V : Type} [LinearOrder V] {p : Program V} {l l' : Loop V} {tasks : List TaskWrites}
  {us : List String}

theorem writesFor_ne_nil_iff {chan : String} (hctl : chan ∉ controlChannels) :
    writesFor (SortBy.sortBy TaskWrites.sortKey tasks) chan ≠ [] ↔
      ∃ t ∈ tasks, ∃ x, (chan, x) ∈ t.writes := by
  rw [writesFor, if_neg (by simpa using hctl)]
  constructor
  · intro h
    obtain ⟨x, hx⟩ := List.exists_mem_of_ne_nil _ h
    obtain ⟨u, hu, hux⟩ := List.mem_filterMap.mp hx
    obtain ⟨t, ht, hu⟩ := List.mem_flatMap.mp hu
    split at hux
    · next heq => exact ⟨t, SortBy.mem_sortBy.mp ht, u.2, heq ▸ hu⟩
    · cases hux
  · intro h
    obtain ⟨t, ht, x, hx⟩ := h
    apply List.ne_nil_of_mem (a := x)
    exact List.mem_filterMap.mpr ⟨(chan, x), List.mem_flatMap.mpr ⟨t, SortBy.mem_sortBy.mpr ht, hx⟩,
      if_pos rfl⟩

/-- The channel that triggers a node is available after a step iff some task wrote to it. -/
theorem Loop.apply_ephemeral (h : l.apply p tasks = some (l', us)) (hstep : isStep tasks = true)
    {chan : String} (hctl : chan ∉ controlChannels) {c : EphemeralValue}
    (hch : l.channels.get? chan = some (.ephemeralValue c)) :
    (l'.channels.get? chan).any (·.isAvailable) = true ↔ ∃ t ∈ tasks, ∃ x, (chan, x) ∈ t.writes := by
  obtain ⟨s₃, s, hphases, rfl, -⟩ := Loop.apply_phases h
  obtain ⟨w₃, hnotified, -, hview⟩ := hphases.channel hch
  rw [hstep] at hnotified
  obtain ⟨c', hw₃, hiff⟩ := hnotified.ephemeral rfl rfl
  have hch' : s.channels.get? chan = some (.ephemeralValue c') := by
    rw [(ApplyState.view_eq_some hview).1]
    split
    · rw [ChannelView.finish, hw₃]
      rfl
    · rw [hw₃]
  rw [← writesFor_ne_nil_iff hctl, ← hiff]
  show (s.channels.get? chan).any _ = true ↔ _
  rw [hch', Option.any_some]
  exact Iff.rfl

/-- The pending sends after a step. -/
theorem Loop.apply_sends (h : l.apply p tasks = some (l', us)) (hstep : isStep tasks = true)
    {sends : List PyVal} (hch : l.channels.get? Const.TASKS = some (.topic ⟨Const.TASKS, false, sends⟩)) :
    pendingSends l'.channels =
      Topic.flatten (writesFor (SortBy.sortBy TaskWrites.sortKey tasks) Const.TASKS) := by
  obtain ⟨s₃, s, hphases, rfl, -⟩ := Loop.apply_phases h
  obtain ⟨w₃, hnotified, -, hview⟩ := hphases.channel hch
  rw [hstep] at hnotified
  have hw₃ := hnotified.sends rfl rfl
  apply pendingSends_topic
  show s.channels.get? Const.TASKS = _
  rw [(ApplyState.view_eq_some hview).1]
  split
  · rw [ChannelView.finish, hw₃]
    rfl
  · rw [hw₃]

end Step

/- ── Runs whose nodes write by their edges ─────────────────────── -/

/-- A graph as its builder makes it, without deferred nodes, whose edges with several starts
    wait for some node and do not share their barriers. -/
structure StateGraph.Ordinary (g : StateGraph) : Prop where
  waits : g.WaitsForSome
  named : ∀ k ∈ g.nodes.keys, k ≠ Const.START ∧ k ≠ Const.END
  notDeferred : ∀ e ∈ g.nodes.entries, e.2.defer = false
  unshared : ∀ e ∈ g.waitingEdges, ∀ e' ∈ g.waitingEdges,
    joinName e'.1 e'.2 = joinName e.1 e.2 → e' = e

namespace Writers
variable (w : Writers) (g : StateGraph)

/-- Every task returned a value, for which its writers wrote. -/
structure Wrote (tasks : List Task) (results : String → PyVal)
    (outputs : String → List (String × PyVal)) : Prop where
  keeps : ∀ t ∈ tasks, w.KeepsToState g t.name (results t.id)
  writes : ∀ t ∈ tasks, ∃ ws, w.writes g t.name (results t.id) = .ok ws ∧
    outputs t.id = finalWrites ws

/-- What the graph has run next, after tasks that returned these values: `log` are the calls
    of the run up to theirs. -/
def Schedules (tasks : List Task) (results : String → PyVal) (log : List Call) (node : String) : Prop :=
  (∃ t ∈ tasks, w.Leads g t.name (results t.id) node) ∨
    ∃ e ∈ g.waitingEdges, e.2 = node ∧ RoundDone e (sinceFired e log)

/-- What the tasks have sent, in the order of their paths. -/
def sends (tasks : List Task) (results : String → PyVal) : List PyVal :=
  (SortBy.sortBy (fun t : Task => t.toTaskWrites.sortKey) tasks).flatMap fun t =>
    w.sentBy g t.name (results t.id)

end Writers

section Publishing
variable {w : Writers} {g : StateGraph}

theorem mem_valuesFor {t : TaskWrites} {chan : String} {x : PyVal} :
    x ∈ t.valuesFor chan ↔ (chan, x) ∈ t.writes := by
  rw [TaskWrites.valuesFor, List.mem_filterMap]
  constructor
  · intro h
    obtain ⟨u, hu, hux⟩ := h
    split at hux
    · next heq =>
      obtain rfl := Option.some.inj hux
      exact heq ▸ hu
    · cases hux
  · intro h
    exact ⟨(chan, x), h, if_pos rfl⟩

theorem completed_of_writes {t : TaskWrites} {v : PyVal} {ws : List (String × PyVal)}
    (hkeys : w.KeepsToState g t.name v) (hws : w.writes g t.name v = .ok ws)
    (ht : t.writes = finalWrites ws) : t.completed = true := by
  have hchannel := Writers.writes_channel hkeys hws
  rw [TaskWrites.completed, ht, finalWrites]
  split
  · decide
  · next hne =>
    rw [Bool.and_eq_true, Bool.not_eq_true', List.all_eq_true]
    refine ⟨by simpa using hne, ?_⟩
    intro u hu
    rw [bne_iff_ne]
    intro herror
    exact (hchannel u hu).1 (herror ▸ by decide)

/-- A node that returned a value writes to the barriers of the edges it is a start of. -/
theorem publishes_of_writes {t : TaskWrites} {v : PyVal} {ws : List (String × PyVal)}
    (hkeys : w.KeepsToState g t.name v) (hws : w.writes g t.name v = .ok ws)
    (ht : t.writes = finalWrites ws) : Publishes g t := by
  intro e he
  have hjoin : ∀ x, x ∈ t.valuesFor (joinName e.1 e.2) ↔ x = .str t.name ∧
      ∃ e' ∈ g.waitingEdges, e'.2 ≠ Const.END ∧ joinName e'.1 e'.2 = joinName e.1 e.2 ∧
        t.name ∈ e'.1 := by
    intro x
    rw [mem_valuesFor, ht, mem_finalWrites (joinName_notControl e.1 e.2).1,
      Writers.writes_join hkeys hws he]
  refine ⟨fun x hx => ((hjoin x).mp hx).1, ?_⟩
  rw [and_iff_right (completed_of_writes hkeys hws ht)]
  constructor
  · intro hne
    obtain ⟨x, hx⟩ := List.exists_mem_of_ne_nil _ hne
    exact ((hjoin x).mp hx).2
  · intro hedge
    exact List.ne_nil_of_mem ((hjoin (.str t.name)).mpr ⟨rfl, hedge⟩)

end Publishing

section Wrote
variable {w : Writers} {g : StateGraph}

theorem taskWrites_eq {tasks : List Task} (hids : DistinctIds tasks)
    (outputs : String → List (String × PyVal)) : taskWrites tasks outputs =
      tasks.map fun t => { t.toTaskWrites with writes := outputs t.id } := by
  have hkeys : ((tasks.map fun t => (t.id, t)).map Prod.fst).Nodup := by
    rw [List.map_map]
    exact hids
  rw [taskWrites, tasksById, OrdDict.values, OrdDict.entries_ofList_of_nodup hkeys, List.map_map,
    List.map_map]
  rfl

/-- The channel of a node is written iff some task leads to the node. -/
theorem Writers.Wrote.leads_iff {tasks : List Task} {results : String → PyVal}
    {outputs : String → List (String × PyVal)} (hids : DistinctIds tasks)
    (h : w.Wrote g tasks results outputs) (node : String) :
    (∃ t ∈ taskWrites tasks outputs, ∃ x, (branchTo node, x) ∈ t.writes) ↔
      ∃ t ∈ tasks, w.Leads g t.name (results t.id) node := by
  have htask : ∀ t ∈ tasks, (∃ x, (branchTo node, x) ∈ outputs t.id) ↔
      w.Leads g t.name (results t.id) node := by
    intro t ht
    obtain ⟨ws, hws, houtputs⟩ := h.writes t ht
    rw [← Writers.writes_branch (h.keeps t ht) hws, houtputs]
    simp only [mem_finalWrites (branchTo_notControl node).1]
  rw [taskWrites_eq hids]
  constructor
  · intro hwritten
    obtain ⟨u, hu, hx⟩ := hwritten
    obtain ⟨t, ht, rfl⟩ := List.mem_map.mp hu
    exact ⟨t, ht, (htask t ht).mp hx⟩
  · intro hleads
    obtain ⟨t, ht, hleads⟩ := hleads
    exact ⟨_, List.mem_map.mpr ⟨t, ht, rfl⟩, (htask t ht).mpr hleads⟩

theorem flatten_sends : ∀ {xs : List PyVal}, (∀ x ∈ xs, isSend x = true) → Topic.flatten xs = xs
  | [], _ => rfl
  | x :: xs, h => by
    have ih := flatten_sends fun y hy => h y (List.mem_cons_of_mem x hy)
    have hx := h x List.mem_cons_self
    cases x with
    | send node arg =>
      show PyVal.send node arg :: Topic.flatten xs = _
      rw [ih]
    | _ => cases hx

/-- The values that the tasks of a superstep send. -/
theorem Writers.Wrote.writesFor_tasks {tasks : List Task} {results : String → PyVal}
    {outputs : String → List (String × PyVal)} (hids : DistinctIds tasks)
    (h : w.Wrote g tasks results outputs) :
    writesFor (SortBy.sortBy TaskWrites.sortKey (taskWrites tasks outputs)) Const.TASKS =
      w.sends g tasks results := by
  have hsorted : SortBy.sortBy TaskWrites.sortKey (taskWrites tasks outputs) =
      (SortBy.sortBy (fun t : Task => t.toTaskWrites.sortKey) tasks).map fun t =>
        { t.toTaskWrites with writes := outputs t.id } := by
    rw [taskWrites_eq hids, SortBy.sortBy_map]
    rfl
  rw [writesFor, if_neg (by decide), hsorted, Writers.sends, List.flatMap_map, List.filterMap_flatMap]
  apply List.flatMap_congr
  intro t ht
  obtain ⟨ws, hws, houtputs⟩ := h.writes t (SortBy.mem_sortBy.mp ht)
  rw [← Writers.writes_tasks (h.keeps t (SortBy.mem_sortBy.mp ht)) hws]
  show (outputs t.id).filterMap _ = _
  rw [houtputs, finalWrites]
  split
  · next hnil =>
    rw [List.isEmpty_iff.mp hnil]
    rfl
  · rfl

end Wrote

section Runs
variable {V : Type} [LinearOrder V] [OrderBot V] {p : Program V} {w : Writers} {s s' : Logged V}

/-- The call of a superstep without pushed tasks. -/
theorem Logged.step_superstep {info : StepInfo} {outputs : String → List (String × PyVal)} {l : Loop V}
    (hl : s.world.loop = some l) (h : Logged.step p s (.superstep info outputs []) = some s') :
    ∃ l₁ us, l.apply p (taskWrites (l.tasks p info true) outputs) = some (l₁, us) ∧
      s'.world.loop = some { l₁ with updatedChannels := some us } ∧
      taskWrites (l.tasks p info true) outputs ≠ [] := by
  obtain ⟨w', hworld, rfl⟩ := Option.map_eq_some_iff.mp h
  obtain ⟨l₀, hl₀, hworld⟩ := Option.bind_eq_some_iff.mp hworld
  obtain rfl := Option.some.inj (hl₀.symm.trans hl)
  simp only [List.map_nil, List.append_nil] at hworld
  split at hworld
  · cases hworld
  · next hne =>
    obtain ⟨r, hr, rfl⟩ := Option.map_eq_some_iff.mp hworld
    exact ⟨r.1, r.2, hr, rfl, hne⟩

/-- A step in the whole: its call, and what is known of the loops before and after it. -/
structure Loop.Stepped (p : Program V) (l l' : Loop V) (tasks : List TaskWrites) (log : List Call) :
    Prop where
  call : ∃ l₁ us, l.apply p tasks = some (l₁, us) ∧ l' = { l₁ with updatedChannels := some us }
  step : isStep tasks = true
  before : l.Sound p
  after : l'.Sound p
  topic : ∃ ch, l.channels.get? Const.TASKS = some ch ∧ ch.SameSpec taskTopic
  released : ∀ e ∈ p.builder.waitingEdges, e.2 ∈ p.builder.nodes.keys →
    (l'.released e = true ↔ RoundDone e (sinceFired e log))

theorem Logged.stepped (hg : p.builder.Ordinary) (hinc : Increasing p.getNextVersion)
    (h : Machine.Reachable (Logged.step p) (JoinOk p) Logged.start s) {info : StepInfo}
    {results : String → PyVal} {outputs : String → List (String × PyVal)} {l l' : Loop V}
    (hl : s.world.loop = some l) (hok : FastPathOk p s.world (.superstep info outputs []))
    (hwrote : w.Wrote p.builder (l.tasks p info true) results outputs)
    (hs' : Logged.step p s (.superstep info outputs []) = some s') (hl' : s'.world.loop = some l') :
    l.Stepped p l' (taskWrites (l.tasks p info true) outputs) s'.log := by
  have hids : DistinctIds (l.tasks p info true) := (hok l hl).2
  have hstepok : JoinOk p s (.superstep info outputs []) := by
    refine ⟨hok, ?_⟩
    intro c hc t ht
    rw [World.calls, hl] at hc
    obtain rfl := List.mem_singleton.mp hc
    have ht' : t ∈ taskWrites (l.tasks p info true) outputs := by simpa using ht
    rw [taskWrites_eq hids] at ht'
    obtain ⟨task, htask, rfl⟩ := List.mem_map.mp ht'
    obtain ⟨ws, hws, houtputs⟩ := hwrote.writes task htask
    exact publishes_of_writes (hwrote.keeps task htask) hws houtputs
  have h' := h.step hstepok hs'
  obtain ⟨l₁, us, hcall, hafter, hne⟩ := Logged.step_superstep hl hs'
  have hworld : Machine.Reachable (LangGraph.step p) (fun _ _ => True) ⟨[], none⟩ s.world :=
    (Logged.reachable_world h).mono fun _ _ _ => trivial
  refine ⟨⟨l₁, us, hcall, Option.some.inj (hl'.symm.trans hafter)⟩, ?_,
    Logged.sound_of_reachable hg.waits hinc h hl,
    Logged.sound_of_reachable hg.waits hinc h' hl', taskTopic_of_reachable hworld hl, ?_⟩
  · obtain ⟨t, ht⟩ := List.exists_mem_of_ne_nil _ hne
    rw [isStep, List.any_eq_true]
    refine ⟨t, ht, ?_⟩
    rw [taskWrites_eq hids] at ht
    obtain ⟨task, htask, rfl⟩ := List.mem_map.mp ht
    have := triggers_ne_nil_of_mem htask
    simpa [Task.toTaskWrites] using this
  · intro e he hkey
    obtain ⟨spec, hspec⟩ := OrdDict.mem_keys_iff.mp hkey
    have hjoins : p.builder.Joins e spec := ⟨he, hspec, (hg.named e.2 hkey).2, hg.unshared e he⟩
    have hdefer : spec.defer = false := hg.notDeferred _ (OrdDict.get?_eq_some_iff.mp hspec)
    exact (joined p hg.waits hinc hjoins h').1 hdefer l' hl'

variable {l l' : Loop V} {tasks : List TaskWrites} {log : List Call}

/-- The channel of a node is available after the step iff some task wrote to it. -/
theorem Loop.Stepped.available_branch (h : l.Stepped p l' tasks log) (hg : p.builder.Ordinary)
    {node : String} {spec : StateNodeSpec} (hspec : p.builder.nodes.get? node = some spec) :
    (l'.channels.get? (branchTo node)).any (·.isAvailable) = true ↔
      ∃ t ∈ tasks, ∃ x, (branchTo node, x) ∈ t.writes := by
  obtain ⟨hchannel, proc, hproc, htriggers⟩ := StateGraph.compile_node hspec
  obtain ⟨ch, spec', hch, hspec', -, hsame, -⟩ := h.before.wired node (branchTo node)
    ⟨proc, hproc, (htriggers _).mpr (Or.inl rfl)⟩
  obtain rfl := Option.some.inj (hspec'.symm.trans hchannel)
  rw [CompiledStateGraph.branchChannel,
    if_neg (by rw [hg.notDeferred _ (OrdDict.get?_eq_some_iff.mp hspec)]; exact Bool.false_ne_true)]
    at hsame
  obtain ⟨c, rfl⟩ := eq_ephemeral_of_sameSpec hsame
  obtain ⟨l₁, us, hcall, rfl⟩ := h.call
  exact Loop.apply_ephemeral hcall h.step (branchTo_notControl node).1 hch

/-- A node that its channel triggers, or a barrier, is due. -/
theorem Loop.Stepped.due_iff (h : l.Stepped p l' tasks log) (hg : p.builder.Ordinary) {node : String}
    {spec : StateNodeSpec} (hspec : p.builder.nodes.get? node = some spec) {proc : PregelNode}
    (hp : p.nodes.get? node = some proc) : l'.Due node proc ↔
      (∃ t ∈ tasks, ∃ x, (branchTo node, x) ∈ t.writes) ∨
        ∃ e ∈ p.builder.waitingEdges, e.2 = node ∧ RoundDone e (sinceFired e log) := by
  obtain ⟨-, proc', hproc, htriggers⟩ := StateGraph.compile_node hspec
  obtain rfl := Option.some.inj (hp.symm.trans hproc)
  have hkey : node ∈ p.builder.nodes.keys := OrdDict.mem_keys_iff.mpr ⟨spec, hspec⟩
  rw [← h.available_branch hg hspec]
  have hdue : l'.Due node proc ↔
      ∃ chan ∈ proc.triggers, (l'.channels.get? chan).any (·.isAvailable) = true := by
    constructor
    · intro hdue
      obtain ⟨chan, hchan, ha, -⟩ := hdue
      exact ⟨chan, hchan, ha⟩
    · intro hdue
      obtain ⟨chan, hchan, ha⟩ := hdue
      exact ⟨chan, hchan, ha, (h.after.current node chan ⟨proc, hp, hchan⟩ ha).1⟩
  rw [hdue]
  constructor
  · intro hchan
    obtain ⟨chan, hchan, ha⟩ := hchan
    obtain rfl | ⟨e, he, hend, rfl⟩ := (htriggers chan).mp hchan
    · exact Or.inl ha
    · exact Or.inr ⟨e, he, hend, (h.released e he (hend ▸ hkey)).mp ha⟩
  · intro hcase
    cases hcase with
    | inl ha => exact ⟨branchTo node, (htriggers _).mpr (Or.inl rfl), ha⟩
    | inr hround =>
      obtain ⟨e, he, hend, hround⟩ := hround
      exact ⟨joinName e.1 e.2, (htriggers _).mpr (Or.inr ⟨e, he, hend, rfl⟩),
        (h.released e he (hend ▸ hkey)).mpr hround⟩

/-- What triggers nothing but the start of the run is not due after a step. -/
theorem Loop.Stepped.not_due_start (h : l.Stepped p l' tasks log)
    (hstart : ∀ t ∈ tasks, ∀ x, (Const.START, x) ∉ t.writes) {node : String} {proc : PregelNode}
    (hp : p.nodes.get? node = some proc) (hout : node ∉ p.builder.nodes.keys) : ¬l'.Due node proc := by
  intro hdue
  obtain ⟨chan, hchan, ha, -⟩ := hdue
  obtain rfl := StateGraph.compile_start hp hout chan hchan
  have hspec : p.specs.get? Const.START = some (.ephemeralValue ⟨Const.START, true, none⟩) := by
    refine (StateGraph.compile_channel p.builder ?_ fun starts target =>
      (joinName_ne_start starts target).symm).trans ?_
    · intro node heq
      have htake := congrArg (fun s : String => s.toList.take 1) heq
      simp [Const.START, branchTo, String.toList_append] at htake
    · rw [CompiledStateGraph.init, OrdDict.get?_set_of_ne (by decide), OrdDict.get?_set_self]
  obtain ⟨ch, spec, hch, hspec', -, hsame, -⟩ := h.before.wired node Const.START ⟨proc, hp, hchan⟩
  obtain rfl := Option.some.inj (hspec'.symm.trans hspec)
  obtain ⟨c, rfl⟩ := eq_ephemeral_of_sameSpec hsame
  obtain ⟨l₁, us, hcall, rfl⟩ := h.call
  obtain ⟨t, ht, x, hx⟩ := (Loop.apply_ephemeral hcall h.step (by decide) hch).mp ha
  exact hstart t ht x hx

theorem Loop.mem_pulled {info : StepInfo} {node : String} :
    node ∈ pulled (l.tasks p info true) ↔ Pulls (l.tasks p info true) node := by
  unfold Loop.tasks
  rw [pulled_nextTaskList, List.mem_filter, Option.isSome_iff_exists]
  constructor
  · intro hnode
    obtain ⟨hcandidate, t, ht⟩ := hnode
    obtain ⟨-, -, -, -, hname, hpath, -⟩ := preparePullTask_eq_some ht
    exact ⟨t, mem_nextTaskList.mpr (Or.inr ⟨node, hcandidate, ht⟩), hname, hpath⟩
  · intro hpulls
    obtain ⟨t, ht, hname, hpath⟩ := hpulls
    cases mem_nextTaskList.mp ht with
    | inl hpush =>
      obtain ⟨i, -, hi⟩ := hpush
      rw [(preparePushTaskSend_path hi).1] at hpath
      exact absurd (congrArg List.length hpath) (by simp)
    | inr hpull =>
      obtain ⟨name, hcandidate, ht⟩ := hpull
      obtain ⟨-, -, -, -, hname', -⟩ := preparePullTask_eq_some ht
      obtain rfl : name = node := hname'.symm.trans hname
      exact ⟨hcandidate, t, ht⟩

end Runs

/- ── A node with edges, a barrier and a branch ─────────────────── -/

section Rejoin

/-- In `rejoinGraph` the branch of `A` sends to `T` and goes to the end. -/
def rejoinWriters : Writers where
  shape := fun _ => ⟨fun _ => [], ["x"], ["x"]⟩
  branches := fun name =>
    if name = "A" then [⟨fun _ _ => .ok (.list [.send "T" (.int 1), .str Const.END]), none⟩] else []
  format := fun _ => ""

def rejoinValue : PyVal := .dict [(.str "x", .int 7)]

def rejoinOutputs : List (String × PyVal) :=
  [("x", .int 7), ("branch:to:B", .none), ("branch:to:T", .none), ("join:A+B:T", .str "A"),
    (Const.TASKS, .send "T" (.int 1))]

theorem stateKey_x : rejoinProgram.builder.StateKey "x" where
  notControl := by decide
  notTasks := by decide
  notStart := by decide
  notBranch := by
    intro node h
    have htake := congrArg (fun s : String => s.toList.take 1) h
    simp [branchTo, String.toList_append] at htake
  notJoin := by decide

theorem rejoinWriters_wrote {tasks : List Task} (h : ∀ t ∈ tasks, t.name = "A") :
    rejoinWriters.Wrote rejoinProgram.builder tasks (fun _ => rejoinValue) fun _ => rejoinOutputs where
  keeps := by
    intro t _ us hus u hu
    have hvalue : us = [("x", .int 7)] := (Except.ok.inj hus).symm
    rw [hvalue, List.mem_singleton] at hu
    rw [hu]
    exact stateKey_x
  writes := by
    intro t ht
    have hwrites : (rejoinWriters.writes rejoinProgram.builder "A" rejoinValue).toOption =
        some rejoinOutputs := by
      decide +kernel
    rw [h t ht]
    cases hw : rejoinWriters.writes rejoinProgram.builder "A" rejoinValue with
    | error e =>
      rw [hw] at hwrites
      cases hwrites
    | ok ws =>
      rw [hw] at hwrites
      cases hwrites
      exact ⟨rejoinOutputs, rfl, rfl⟩

end Rejoin

end LangGraph
