import LangGraph.Commands
import LangGraph.Lib.JoinedText

/- Commands for the parent graph, from the task that raises one to the task that handles it.

   Correspondence (source ↔ Lean):
     the node names that a graph takes              ↔ `NodeName`
     `task_checkpoint_ns` of a task                 ↔ `taskNsOf`
     the namespace of a loop (PregelLoop.__init__)  ↔ `loopNsOf`
     `_checkpoint_ns_for_parent_command`            ↔ `checkpointNsForParentCommand`
     `recast_checkpoint_ns`                         ↔ `recastCheckpointNs`
     `run_with_retry`, `except ParentCommand`       ↔ `bubble`
   The tasks that are running, one inside the other, are a list, the innermost first.
   Between a task and the graph it calls stand the counters of repeated calls.
   `parentCommand_handled_iff`: the enclosing task handles the command, unless the node
   that raises it is called `__parent__`. -/
namespace LangGraph

open JoinedText

/-- A name that `add_node` takes and that `validate_graph` lets pass. -/
structure NodeName where
  name : String
  added : ∃ (g g' : StateGraph) (spec : StateNodeSpec), g.addNode name spec = .ok g'
  not_reserved : name ∉ reserved

/-- A task that is running: its node, its id, the counters of the graph that it called,
    and the graph that it belongs to. -/
structure RunningTask where
  node : NodeName
  taskId : String
  id_plain : '|' ∉ taskId.toList
  counters : List Nat
  graph : GraphShape

/-- The namespace of the graph that a task calls, from that of the task. -/
def calledNs (ns : String) (counters : List Nat) : String := counters.foldl loopNs ns

/-- The namespace of the innermost task. -/
def taskNsOf : List RunningTask → String
  | [] => ""
  | [t] => t.node.name ++ ":" ++ t.taskId
  | t :: outer :: rest =>
    calledNs (taskNsOf (outer :: rest)) outer.counters ++ "|" ++ t.node.name ++ ":" ++ t.taskId

/-- The namespace of the graph that the innermost task calls. -/
def loopNsOf : List RunningTask → String
  | [] => ""
  | t :: outer => calledNs (taskNsOf (t :: outer)) t.counters

/-- What becomes of a command that the innermost task raises: the tasks from the one that
    handles it on, if one does. Writers that raise a command in turn let it pass. -/
def bubble : List RunningTask → Command → Option (List RunningTask)
  | [], _ => none
  | t :: outer, cmd =>
    let ns := taskNsOf (t :: outer)
    if cmd.graph ∈ [some ns, some (recastCheckpointNs ns), some t.node.name] then
      match t.graph.nodeWrites cmd.toValue with
      | .error (.parentCommand cmd') => bubble outer cmd'
      | _ => some (t :: outer)
    else if cmd.isParent then bubble outer { cmd with graph := some (checkpointNsForParentCommand ns) }
    else bubble outer cmd

/-- The task that runs the enclosing graph and those around it, if there are any. -/
def enclosing : List RunningTask → Option (List RunningTask)
  | [] => none
  | t :: outer => some (t :: outer)

/- ── Namespaces as lists of segments ───────────────────────────────────────── -/

theorem NodeName.plain (n : NodeName) : '|' ∉ n.name.toList ∧ ':' ∉ n.name.toList := by
  obtain ⟨g, g', spec, h⟩ := n.added
  unfold StateGraph.addNode at h
  split at h
  · cases h
  · split at h
    · cases h
    · split at h
      · cases h
      · next hfind =>
        have hnone := List.find?_eq_none.mp hfind
        refine ⟨?_, ?_⟩
        · simpa [Const.NS_SEP] using hnone Const.NS_SEP (by simp)
        · simpa [Const.NS_END] using hnone Const.NS_END (by simp)

/-- `name:task_id` -/
def RunningTask.segment (t : RunningTask) : List Char :=
  t.node.name.toList ++ ':' :: t.taskId.toList

/-- The counters that show in a namespace. -/
def counterSegments (counters : List Nat) : List (List Char) :=
  (counters.filter (· ≠ 0)).map fun n => (toString n).toList

/-- The segments of the namespace of the innermost task, from the outside. -/
def nsSegments : List RunningTask → List (List Char)
  | [] => []
  | [t] => [t.segment]
  | t :: outer :: rest => nsSegments (outer :: rest) ++ counterSegments outer.counters ++ [t.segment]

theorem intercalate_concat (segs : List (List Char)) (h : segs ≠ []) (seg : List Char) :
    ['|'].intercalate (segs ++ [seg]) = ['|'].intercalate segs ++ '|' :: seg := by
  induction segs with
  | nil => exact absurd rfl h
  | cons s rest ih =>
    cases rest with
    | nil => simp [List.intercalate_cons_cons]
    | cons r rest =>
      have ih := ih (by simp)
      rw [List.cons_append, List.cons_append, List.intercalate_cons_cons, ← List.cons_append, ih,
        List.intercalate_cons_cons]
      simp

theorem toList_calledNs {ns : String} {segs : List (List Char)} (h : segs ≠ [])
    (hns : ns.toList = ['|'].intercalate segs) (counters : List Nat) :
    (calledNs ns counters).toList = ['|'].intercalate (segs ++ counterSegments counters) := by
  induction counters generalizing ns segs with
  | nil =>
    rw [calledNs, List.foldl_nil, hns]
    simp [counterSegments]
  | cons n rest ih =>
    rw [calledNs, List.foldl_cons]
    by_cases hn : n = 0
    · have hsame : loopNs ns n = ns := by rw [loopNs, if_pos hn]
      rw [hsame]
      refine (ih h hns).trans ?_
      simp [counterSegments, hn]
    · have hnext : (loopNs ns n).toList = ['|'].intercalate (segs ++ [(toString n).toList]) := by
        rw [loopNs, if_neg hn, intercalate_concat segs h, ← hns]
        simp
      refine (ih (by simp) hnext).trans ?_
      simp [counterSegments, hn]

theorem segments_ne_nil (t : RunningTask) (outer : List RunningTask) : nsSegments (t :: outer) ≠ [] := by
  cases outer <;> simp [nsSegments]

theorem toList_taskNsOf : ∀ (ts : List RunningTask), ts ≠ [] →
    (taskNsOf ts).toList = ['|'].intercalate (nsSegments ts)
  | [], h => absurd rfl h
  | [t], _ => by simp [taskNsOf, nsSegments, RunningTask.segment]
  | t :: outer :: rest, _ => by
    have ih := toList_taskNsOf (outer :: rest) (by simp)
    have hcalled := toList_calledNs (segments_ne_nil outer rest) ih outer.counters
    rw [nsSegments, intercalate_concat _ (by simp [segments_ne_nil]), ← hcalled]
    simp [taskNsOf, RunningTask.segment]

/-- A segment is a counter, or it has the name and the id of a task. -/
theorem mem_segments : ∀ {ts : List RunningTask} {seg : List Char}, seg ∈ nsSegments ts →
    (∃ t ∈ ts, seg = t.segment) ∨ ∃ n : Nat, seg = (toString n).toList
  | [t], seg, h => by
    rw [nsSegments, List.mem_singleton] at h
    exact Or.inl ⟨t, List.mem_singleton_self t, h⟩
  | t :: outer :: rest, seg, h => by
    rw [nsSegments, List.mem_append, List.mem_append, List.mem_singleton] at h
    rcases h with (hold | hcounter) | hnew
    · cases mem_segments hold with
      | inl htask =>
        obtain ⟨u, hu, heq⟩ := htask
        exact Or.inl ⟨u, List.mem_cons_of_mem t hu, heq⟩
      | inr hn => exact Or.inr hn
    · obtain ⟨n, -, rfl⟩ := List.mem_map.mp hcounter
      exact Or.inr ⟨n, rfl⟩
    · exact Or.inl ⟨t, List.mem_cons_self, hnew⟩

theorem isDigit_of_mem_toString {n : Nat} {c : Char} (h : c ∈ (toString n).toList) :
    c.isDigit = true := by
  rw [toList_toString_nat] at h
  exact isDigit_of_mem_zeroPad h

theorem sep_notMem_toString (n : Nat) : '|' ∉ (toString n).toList := by
  intro h
  exact absurd (isDigit_of_mem_toString h) (by decide)

theorem sep_notMem_segment (t : RunningTask) : '|' ∉ t.segment := by
  intro h
  cases List.mem_append.mp h with
  | inl hname => exact t.node.plain.1 hname
  | inr hrest =>
    cases List.mem_cons.mp hrest with
    | inl hcolon => exact absurd hcolon (by decide)
    | inr hid => exact t.id_plain hid

theorem sep_notMem_segments {ts : List RunningTask} {seg : List Char} (h : seg ∈ nsSegments ts) :
    '|' ∉ seg := by
  cases mem_segments h with
  | inl htask =>
    obtain ⟨t, -, rfl⟩ := htask
    exact sep_notMem_segment t
  | inr hcounter =>
    obtain ⟨n, rfl⟩ := hcounter
    exact sep_notMem_toString n

theorem sep_notMem_counterSegments {counters : List Nat} {seg : List Char}
    (h : seg ∈ counterSegments counters) : '|' ∉ seg := by
  obtain ⟨n, -, rfl⟩ := List.mem_map.mp h
  exact sep_notMem_toString n

theorem splitOn_loopNsOf (t : RunningTask) (outer : List RunningTask) :
    (loopNsOf (t :: outer)).toList.splitOn '|' = nsSegments (t :: outer) ++ counterSegments t.counters := by
  have hsep : ∀ seg ∈ nsSegments (t :: outer) ++ counterSegments t.counters, '|' ∉ seg := by
    intro seg hseg
    cases List.mem_append.mp hseg with
    | inl h => exact sep_notMem_segments h
    | inr h => exact sep_notMem_counterSegments h
  rw [loopNsOf, toList_calledNs (segments_ne_nil t outer) (toList_taskNsOf _ (by simp)),
    List.splitOn_intercalate '|' hsep (by simp [segments_ne_nil])]

theorem splitOn_taskNsOf (t : RunningTask) (outer : List RunningTask) :
    (taskNsOf (t :: outer)).toList.splitOn '|' = nsSegments (t :: outer) := by
  rw [toList_taskNsOf _ (by simp),
    List.splitOn_intercalate '|' (fun _ h => sep_notMem_segments h) (segments_ne_nil t outer)]

/- ── The parent's namespace ────────────────────────────────────────────────── -/

/-- `part.isdigit()` -/
def isNumeric (part : List Char) : Bool := part != [] && part.all Char.isDigit

theorem isNumeric_segment (t : RunningTask) : isNumeric t.segment = false := by
  have hcolon : t.segment.all Char.isDigit = false := by
    rw [List.all_eq_false]
    exact ⟨':', by simp [RunningTask.segment], by decide⟩
  rw [isNumeric, hcolon, Bool.and_false]

theorem isNumeric_counterSegments {counters : List Nat} {seg : List Char}
    (h : seg ∈ counterSegments counters) : isNumeric seg = true := by
  obtain ⟨n, -, rfl⟩ := List.mem_map.mp h
  have hne : (toString n).toList ≠ [] := by
    rw [toList_toString_nat]
    simp [zeroPad, Nat.toDigits_ne_nil]
  have hall : (toString n).toList.all Char.isDigit = true :=
    List.all_eq_true.mpr fun c hc => isDigit_of_mem_toString hc
  rw [isNumeric, hall, Bool.and_true]
  exact bne_iff_ne.mpr hne

/-- Trailing counters are dropped up to the segment of a task. -/
theorem dropWhile_segments (t : RunningTask) (outer : List RunningTask) (counters : List Nat) :
    (nsSegments (t :: outer) ++ counterSegments counters).reverse.dropWhile isNumeric =
      (nsSegments (t :: outer)).reverse := by
  have hlast : (nsSegments (t :: outer)).reverse.dropWhile isNumeric = (nsSegments (t :: outer)).reverse := by
    cases outer <;> simp [nsSegments, isNumeric_segment]
  have hdrop : ∀ l : List (List Char), (∀ seg ∈ l, isNumeric seg = true) →
      (l ++ (nsSegments (t :: outer)).reverse).dropWhile isNumeric = (nsSegments (t :: outer)).reverse := by
    intro l hl
    rw [List.dropWhile_append_of_pos hl, hlast]
  rw [List.reverse_append]
  apply hdrop
  intro seg hseg
  exact isNumeric_counterSegments (List.mem_reverse.mp hseg)

/-- The namespace of a task gives back that of the task that runs the graph around it. -/
theorem parentNs_of_segments (t : RunningTask) (outer : List RunningTask) (counters : List Nat)
    {ns : String} (hns : ns.toList.splitOn '|' = nsSegments (t :: outer) ++ counterSegments counters) :
    checkpointNsForParentCommand ns = taskNsOf outer := by
  apply String.toList_inj.mp
  have hparts : checkpointNsForParentCommand ns = String.ofList (['|'].intercalate
      ((((ns.toList.splitOn '|').reverse.dropWhile isNumeric).tail.dropWhile isNumeric).reverse)) := rfl
  rw [hparts, String.toList_ofList, hns, dropWhile_segments]
  cases outer with
  | nil => simp [nsSegments, taskNsOf]
  | cons u rest =>
    rw [toList_taskNsOf _ (by simp), nsSegments, List.reverse_append, List.reverse_singleton,
      List.singleton_append, List.tail_cons, dropWhile_segments, List.reverse_reverse]

/-- `not part.isdigit()` -/
def isLevel (part : List Char) : Bool := part = [] || !part.all Char.isDigit

theorem isLevel_segment (t : RunningTask) : isLevel t.segment = true := by
  have hcolon : t.segment.all Char.isDigit = false := by
    rw [List.all_eq_false]
    exact ⟨':', by simp [RunningTask.segment], by decide⟩
  rw [isLevel, hcolon, Bool.not_false, Bool.or_true]

theorem filter_isLevel_counterSegments (counters : List Nat) :
    (counterSegments counters).filter isLevel = [] := by
  rw [List.filter_eq_nil_iff]
  intro seg hseg
  have h := isNumeric_counterSegments hseg
  rw [isNumeric, Bool.and_eq_true, bne_iff_ne] at h
  simp [isLevel, h.1, h.2]

theorem takeWhile_segment (t : RunningTask) :
    t.segment.takeWhile (· ≠ ':') = t.node.name.toList := by
  rw [RunningTask.segment, List.takeWhile_append_of_pos]
  · simp
  · intro c hc
    have hne : c ≠ ':' := fun heq => t.node.plain.2 (heq ▸ hc)
    simpa using hne

theorem names_segments (ts : List RunningTask) :
    ((nsSegments ts).filter isLevel).map (fun part => part.takeWhile (· ≠ ':')) =
      (ts.map fun t => t.node.name).reverse.map String.toList := by
  induction ts with
  | nil => rfl
  | cons t outer ih =>
    have hone : [t.segment].filter isLevel = [t.segment] := by
      rw [List.filter_cons_of_pos (isLevel_segment t), List.filter_nil]
    have hname : [t.segment].map (fun part => part.takeWhile (· ≠ ':')) = [t.node.name.toList] := by
      rw [List.map_singleton, takeWhile_segment]
    cases outer with
    | nil =>
      rw [nsSegments, hone, hname]
      rfl
    | cons u rest =>
      rw [nsSegments, List.filter_append, List.filter_append, filter_isLevel_counterSegments,
        List.append_nil, hone, List.map_append, ih, hname]
      simp

theorem parentNs_taskNsOf (t : RunningTask) (outer : List RunningTask) :
    checkpointNsForParentCommand (taskNsOf (t :: outer)) = taskNsOf outer := by
  apply parentNs_of_segments t outer []
  rw [splitOn_taskNsOf]
  simp [counterSegments]

/-- Without ids and counters the names of the nodes are left. -/
theorem recast_taskNsOf (ts : List RunningTask) :
    recastCheckpointNs (taskNsOf ts) = join '|' (ts.map fun t => t.node.name).reverse := by
  apply String.toList_inj.mp
  have hparts : recastCheckpointNs (taskNsOf ts) = String.ofList (['|'].intercalate
      ((((taskNsOf ts).toList.splitOn '|').filter isLevel).map fun part => part.takeWhile (· ≠ ':'))) :=
    rfl
  rw [hparts, String.toList_ofList, toList_join]
  cases ts with
  | nil => rfl
  | cons t outer => rw [splitOn_taskNsOf, names_segments]

/- ── Who handles a command ─────────────────────────────────────────────────── -/

theorem bubble_suffix : ∀ (ts : List RunningTask) (cmd : Command) (s : List RunningTask),
    bubble ts cmd = some s → s <:+ ts
  | [], cmd, s, h => by cases h
  | t :: outer, cmd, s, h => by
    rw [bubble] at h
    split at h
    · split at h
      · exact (bubble_suffix outer _ s h).trans (List.suffix_cons t outer)
      · cases h
        exact List.suffix_refl _
    · split at h
      · exact (bubble_suffix outer _ s h).trans (List.suffix_cons t outer)
      · exact (bubble_suffix outer _ s h).trans (List.suffix_cons t outer)

theorem asCommand_toValue_parent (cmd : Command) (hcmd : cmd.isParent = true) :
    asCommand cmd.toValue = some cmd := by
  obtain ⟨graph, update, goto⟩ := cmd
  have hgraph : graph = some Const.PARENT := by simpa [Command.isParent] using hcmd
  subst hgraph
  exact Superstep.asCommand_toValue ⟨none, update, goto⟩ Const.PARENT

/-- The writers of a node raise a command for the parent graph. -/
theorem nodeWrites_parent (g : GraphShape) {cmd : Command} (hcmd : cmd.isParent = true) :
    g.nodeWrites cmd.toValue = .error (.parentCommand cmd) := by
  have hvalue := asCommand_toValue_parent cmd hcmd
  have hcommands : commandsOf cmd.toValue = [cmd] := by
    unfold Command.toValue at hvalue ⊢
    rw [commandsOf, hvalue]
    · rfl
    all_goals (intro _ h; cases h)
  have hcontrol : controlBranch cmd.toValue = .error (.parentCommand cmd) := by
    have hbranch : controlBranch cmd.toValue = controlWrites (commandsOf cmd.toValue) := rfl
    rw [hbranch, hcommands, controlWrites, if_pos hcmd]
  have hupdates : ∃ us, g.updates cmd.toValue = .ok us := by
    unfold GraphShape.updates
    split
    · exact ⟨_, rfl⟩
    · unfold Command.toValue at hvalue ⊢
      rw [getUpdates, hvalue]
      exact ⟨_, rfl⟩
  obtain ⟨us, hus⟩ := hupdates
  unfold GraphShape.nodeWrites
  rw [hus, hcontrol]
  rfl

/-- A command for another graph is not raised again. -/
theorem nodeWrites_other (g : GraphShape) (cmd : Command) {graph : String} (hgraph : graph ≠ Const.PARENT)
    (cmd' : Command) :
    g.nodeWrites { cmd with graph := some graph }.toValue ≠ .error (.parentCommand cmd') := by
  have hvalue := Superstep.asCommand_toValue cmd graph
  have hparent : ({ cmd with graph := some graph } : Command).isParent = false := by
    simpa [Command.isParent] using hgraph
  have hcommands : commandsOf { cmd with graph := some graph }.toValue =
      [{ cmd with graph := some graph }] := by
    unfold Command.toValue at hvalue ⊢
    rw [commandsOf, hvalue]
    · rfl
    all_goals (intro _ h; cases h)
  have hbranch : controlBranch { cmd with graph := some graph }.toValue =
      controlWrites (commandsOf { cmd with graph := some graph }.toValue) := rfl
  have hcontrol : controlBranch { cmd with graph := some graph }.toValue ≠
      .error (.parentCommand cmd') := by
    rw [hbranch, hcommands, controlWrites, hparent, if_neg Bool.false_ne_true]
    unfold Command.gotoTargets
    cases cmd.goto <;> intro h <;> cases h
  have hupdates : ∃ us, g.updates { cmd with graph := some graph }.toValue = .ok us := by
    unfold GraphShape.updates
    split
    · exact ⟨_, rfl⟩
    · unfold Command.toValue at hvalue ⊢
      rw [getUpdates, hvalue]
      exact ⟨_, rfl⟩
  obtain ⟨us, hus⟩ := hupdates
  intro h
  unfold GraphShape.nodeWrites at h
  rw [hus] at h
  cases hc : controlBranch { cmd with graph := some graph }.toValue with
  | error e =>
    rw [hc] at h
    cases h
    exact hcontrol hc
  | ok ws =>
    rw [hc] at h
    cases h

theorem colon_mem_taskNsOf (t : RunningTask) (outer : List RunningTask) :
    ':' ∈ (taskNsOf (t :: outer)).toList := by
  cases outer <;> simp [taskNsOf]

theorem taskNsOf_ne_parent (t : RunningTask) (outer : List RunningTask) :
    taskNsOf (t :: outer) ≠ Const.PARENT := by
  intro h
  have hmem := colon_mem_taskNsOf t outer
  rw [h] at hmem
  exact absurd hmem (by decide)

/-- Of the spellings of a task's namespace only the name of its node can be `__parent__`. -/
theorem recast_ne_parent (t : RunningTask) (outer : List RunningTask) (ht : t.node.name ≠ Const.PARENT) :
    recastCheckpointNs (taskNsOf (t :: outer)) ≠ Const.PARENT := by
  intro h
  rw [recast_taskNsOf] at h
  have hsplit : split '|' (join '|' ((t :: outer).map fun t => t.node.name).reverse) =
      ((t :: outer).map fun t => t.node.name).reverse := by
    apply split_join
    refine ⟨by simp, ?_⟩
    intro label hlabel
    obtain ⟨u, -, rfl⟩ := List.mem_map.mp (List.mem_reverse.mp hlabel)
    exact u.node.plain.1
  rw [h, show split '|' Const.PARENT = [Const.PARENT] by decide, List.map_cons, List.reverse_cons] at hsplit
  have hlast := congrArg List.getLast? hsplit
  rw [List.getLast?_concat] at hlast
  exact ht (Option.some.inj hlast).symm

/-- A task never handles a command that it raises for the parent graph. -/
theorem bubble_parent_ne (t : RunningTask) (outer : List RunningTask) (update goto : PyVal) :
    bubble (t :: outer) ⟨some Const.PARENT, update, goto⟩ ≠ some (t :: outer) := by
  have hparent : Command.isParent ⟨some Const.PARENT, update, goto⟩ = true := rfl
  have hshort : ∀ cmd, bubble outer cmd ≠ some (t :: outer) := by
    intro cmd h
    have hlen := (bubble_suffix outer cmd _ h).length_le
    rw [List.length_cons] at hlen
    omega
  rw [bubble]
  split
  · rw [nodeWrites_parent t.graph hparent]
    exact hshort _
  · exact hshort _

theorem bubble_task (t : RunningTask) (outer : List RunningTask) (cmd : Command) :
    bubble (t :: outer) { cmd with graph := some (taskNsOf (t :: outer)) } = some (t :: outer) := by
  rw [bubble, if_pos List.mem_cons_self]
  have hother := nodeWrites_other t.graph cmd (taskNsOf_ne_parent t outer)
  split
  · next cmd' h => exact absurd h (hother cmd')
  · rfl

/-- A command for the parent graph comes to the task around the one that raises it, under
    the namespace of that task, unless the node that raises it is called `__parent__`. -/
theorem bubble_parent_iff (t : RunningTask) (outer : List RunningTask) (update goto : PyVal) :
    bubble (t :: outer) ⟨some Const.PARENT, update, goto⟩ = enclosing outer ↔
      outer = [] ∨ t.node.name ≠ Const.PARENT := by
  have hparent : Command.isParent ⟨some Const.PARENT, update, goto⟩ = true := rfl
  by_cases ht : t.node.name = Const.PARENT
  · have hraise : bubble (t :: outer) ⟨some Const.PARENT, update, goto⟩ =
        bubble outer ⟨some Const.PARENT, update, goto⟩ := by
      rw [bubble, if_pos (by simp [ht]), nodeWrites_parent t.graph hparent]
    rw [hraise]
    cases outer with
    | nil => exact iff_of_true rfl (Or.inl rfl)
    | cons u rest =>
      refine iff_of_false (bubble_parent_ne u rest update goto) ?_
      simp [ht]
  · have hnone : some Const.PARENT ∉ [some (taskNsOf (t :: outer)),
        some (recastCheckpointNs (taskNsOf (t :: outer))), some t.node.name] := by
      simp only [List.mem_cons, Option.some.injEq, List.not_mem_nil, or_false, not_or]
      exact ⟨(taskNsOf_ne_parent t outer).symm, (recast_ne_parent t outer ht).symm, Ne.symm ht⟩
    refine iff_of_true ?_ (Or.inr ht)
    rw [bubble, if_neg hnone, if_pos hparent, parentNs_taskNsOf]
    cases outer with
    | nil => rfl
    | cons u rest => exact bubble_task u rest ⟨some Const.PARENT, update, goto⟩

/-- The namespace that a command for the parent graph is sent to is that of the task that
    runs the enclosing graph, and reads as its nodes without ids and counters; that task
    handles the command iff the node that raises it is not called `__parent__`. -/
theorem parentCommand_handled_iff (t : RunningTask) (outer : List RunningTask) (update goto : PyVal) :
    (checkpointNsForParentCommand (taskNsOf (t :: outer)) = taskNsOf outer ∧
      checkpointNsForParentCommand (loopNsOf (t :: outer)) = taskNsOf outer ∧
      recastCheckpointNs (taskNsOf outer) = join '|' (outer.map fun t => t.node.name).reverse ∧
      bubble (t :: outer) ⟨some Const.PARENT, update, goto⟩ = enclosing outer) ↔
        outer = [] ∨ t.node.name ≠ Const.PARENT := by
  have hloop : checkpointNsForParentCommand (loopNsOf (t :: outer)) = taskNsOf outer :=
    parentNs_of_segments t outer t.counters (splitOn_loopNsOf t outer)
  rw [← bubble_parent_iff t outer update goto]
  constructor
  · intro h
    exact h.2.2.2
  · intro h
    exact ⟨parentNs_taskNsOf t outer, hloop, recast_taskNsOf outer, h⟩

/-! A node called `__parent__` in a subgraph. -/

def parentNode : NodeName where
  name := Const.PARENT
  added := ⟨StateGraph.new ∅, _, ⟨[], none, false, none⟩, rfl⟩
  not_reserved := by decide

def outerNode : NodeName where
  name := "outer"
  added := ⟨StateGraph.new ∅, _, ⟨[], none, false, none⟩, rfl⟩
  not_reserved := by decide

/-- Its command passes by the task around it and is raised to the caller. -/
theorem not_parentCommand_handled :
    ¬∀ (t : RunningTask) (outer : List RunningTask) (update goto : PyVal),
      bubble (t :: outer) ⟨some Const.PARENT, update, goto⟩ = enclosing outer := by
  intro h
  have hplain : '|' ∉ ("0" : String).toList := by decide
  let inner : RunningTask := ⟨parentNode, "0", hplain, [], ⟨fun _ => [], [], []⟩⟩
  let around : RunningTask := ⟨outerNode, "0", hplain, [], ⟨fun _ => [], [], []⟩⟩
  cases (bubble_parent_iff inner [around] .none .none).mp (h inner [around] .none .none) with
  | inl hnil => cases hnil
  | inr hname => exact hname rfl

end LangGraph
