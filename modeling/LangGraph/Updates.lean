import LangGraph.ApplySpec
import LangGraph.Runner

/- What the updates stream shows of a superstep.

   Correspondence (source ↔ Lean):
     `map_output_updates` (pregel/_io.py)           ↔ `mapOutputUpdates`
     `PregelLoop.output_writes`, in 'updates' mode  ↔ `outputWrites`
     `commit` with the `put_writes` that outputs    ↔ `TaskEvent.committed`
     the outputs of `tick` and of cached writes     ↔ `TaskEvent.restored`
   `listing` is what a list of writes does to the output channels. A task with a
   write to RETURN shows the value it returns instead, and a hidden task shows
   nothing: `updates_reported`. Whether a task failed is read off the first of its
   writes, which `commit` leaves in place before the ERROR. -/
namespace LangGraph

/-- `output_keys`, `output_channels` -/
inductive OutputKeys where
  | one (key : String)
  | many (keys : List String)

def OutputKeys.names : OutputKeys → List String
  | .one key => [key]
  | .many keys => keys

/-- A task as `output_writes` looks at it: whether `TAG_HIDDEN` is among its tags,
    and whether its path is that of a call. -/
structure ShownTask where
  id : String
  name : String
  hidden : Bool := false
  called : Bool := false

abbrev Writes := List (String × PyVal)

/-- `ww[0][0] != ERROR and ww[0][0] != INTERRUPT` -/
def beginsWell (writes : Writes) : Bool :=
  match writes.head? with
  | some w => w.1 != Const.ERROR && w.1 != Const.INTERRUPT
  | none => true

/-- The entries that `map_output_updates` collects for a task. -/
def updatedOf (outputChannels : OutputKeys) (writes : Writes) : List PyVal :=
  match writes.find? fun w => w.1 = Const.RETURN with
  | some rtn => [rtn.2]
  | none =>
    match outputChannels with
    | .one key => (writes.filter fun w => w.1 = key).map Prod.snd
    | .many keys =>
      let own := writes.filter fun w => w.1 ∈ keys
      if own.isEmpty then []
      else if keys.any fun chan => decide (1 < writes.countP fun w => w.1 = chan) then
        own.map fun w => .dict [(.str w.1, w.2)]
      else [.dict ((OrdDict.ofList own).entries.map fun e => (.str e.1, e.2))]

/-- The value under a node: nothing, the one entry, or the list of them. -/
def collapse : List PyVal → PyVal
  | [] => .none
  | [v] => v
  | vs => .list vs

def withMetadata (cached : Bool) (grouped : OrdDict String PyVal) : OrdDict String PyVal :=
  if cached then grouped.set "__metadata__" (.dict [(.str "cached", .bool true)]) else grouped

/-- `map_output_updates`; a chunk, or none. -/
def mapOutputUpdates (outputChannels : OutputKeys) (tasks : List (ShownTask × Writes)) (cached : Bool) :
    Option (OrdDict String PyVal) :=
  let outputTasks := tasks.filter fun t => !t.1.hidden && beginsWell t.2
  if outputTasks.isEmpty then none
  else
    let updated := outputTasks.flatMap fun t => (updatedOf outputChannels t.2).map (t.1.name, ·)
    let grouped : OrdDict String (List PyVal) := OrdDict.ofList (outputTasks.map fun t => (t.1.name, []))
    let grouped := updated.foldl (fun grouped e => grouped.set e.1 (grouped.getD e.1 [] ++ [e.2])) grouped
    some (withMetadata cached (grouped.filterMap fun _ values => some (collapse values)))

/-- What is emitted in 'updates' mode. -/
inductive Emission where
  | interrupts (values : List PyVal)
  | updates (grouped : OrdDict String PyVal)

/-- `w[1] if isinstance(w[1], Sequence) else (w[1],)` -/
def asSequence : PyVal → List PyVal
  | .tuple vs => vs
  | .list vs => vs
  | .str s => s.toList.map fun c => .str (String.singleton c)
  | v => [v]

/-- `output_writes`; `writes` is not empty where it is called. -/
def outputWrites (outputKeys : OutputKeys) (task : ShownTask) (writes : Writes) (cached : Bool) :
    Option Emission :=
  if task.hidden then none
  else
    match writes.head? with
    | none => none
    | some w =>
      if w.1 = Const.INTERRUPT then
        -- the interrupt of a call is emitted by the parent
        if task.called then none
        else some (.interrupts ((writes.filter fun w => w.1 = Const.INTERRUPT).flatMap
          fun w => asSequence w.2))
      else if w.1 = Const.ERROR then none
      else (mapOutputUpdates outputKeys [(task, writes)] cached).map .updates

/-- How a task comes to be output: `commit` puts its writes, or it has writes of an
    earlier run or of the cache (and the ERROR of a failed task whose error handler
    resumes). -/
inductive UpdateEvent where
  | committed (task : ShownTask) (handler : Option String) (attempt : Attempt)
  | restored (task : ShownTask) (writes : Writes) (failed : Option PyVal)

def emission (outputKeys : OutputKeys) : UpdateEvent → Option Emission
  | .committed task handler attempt =>
    (commitWrites handler attempt).bind fun writes =>
      if writes.isEmpty then none else outputWrites outputKeys task (dedupSpecial writes) false
  | .restored task writes failed =>
    let writes := writes ++ (failed.map fun error => (Const.ERROR, error)).toList
    if writes.isEmpty then none else outputWrites outputKeys task writes true

/-- The update of a node, if the emission is one. -/
def Emission.nodes? : Emission → Option (OrdDict String PyVal)
  | .updates grouped => some grouped
  | .interrupts _ => none

/-- The updates of the nodes over a superstep, in the order of its events. -/
def nodeUpdates (outputKeys : OutputKeys) (events : List UpdateEvent) : List (OrdDict String PyVal) :=
  (events.filterMap (emission outputKeys)).filterMap Emission.nodes?

/-! ### What is to be shown -/

/-- The writes to the output channels. -/
def ownWrites (outputKeys : OutputKeys) (writes : Writes) : Writes :=
  writes.filter fun w => w.1 ∈ outputKeys.names

/-- The writes to the output channels as a value: for one output channel its value
    or values, for several a mapping, or a list of mappings of one channel each
    when a channel is written twice. -/
def listing (outputKeys : OutputKeys) (writes : Writes) : PyVal :=
  let own := ownWrites outputKeys writes
  match outputKeys with
  | .one _ => collapse (own.map Prod.snd)
  | .many _ =>
    if own = [] then .none
    else if (own.map Prod.fst).Nodup then .dict (own.map fun w => (.str w.1, w.2))
    else .list (own.map fun w => .dict [(.str w.1, w.2)])

/-- The value that a task returned, or its listing. -/
def shown (outputKeys : OutputKeys) (writes : Writes) : PyVal :=
  match writes.find? fun w => w.1 = Const.RETURN with
  | some rtn => rtn.2
  | none => listing outputKeys writes

/-- The update of a task that is not hidden and whose writes are applied. -/
def report (outputKeys : OutputKeys) : UpdateEvent → Option (OrdDict String PyVal)
  | .committed task _ attempt =>
    match attempt.outcome with
    | .ok => if task.hidden then none
      else some ((∅ : OrdDict String PyVal).set task.name (shown outputKeys attempt.appended))
    | _ => none
  | .restored task writes failed =>
    if task.hidden || writes.isEmpty || failed.isSome then none
    else some (withMetadata true ((∅ : OrdDict String PyVal).set task.name (shown outputKeys writes)))

/-- A task that fails has written nothing, and a task that does not fail begins
    with none of the writes that `commit` makes. -/
def UpdateEvent.Plain : UpdateEvent → Prop
  | .committed _ _ attempt =>
    match attempt.outcome with
    | .ok => beginsWell attempt.appended = true
    | .cancelled _ | .error _ => attempt.appended = []
    | _ => True
  | .restored _ writes failed => beginsWell writes = true ∧ (failed.isSome → writes = [])

/-- The listing of every task whose writes are applied, under its name. -/
def listed (outputKeys : OutputKeys) : UpdateEvent → Option (OrdDict String PyVal)
  | .committed task _ attempt =>
    match attempt.outcome with
    | .ok => some ((∅ : OrdDict String PyVal).set task.name (listing outputKeys attempt.appended))
    | _ => none
  | .restored task writes failed =>
    if writes.isEmpty || failed.isSome then none
    else some (withMetadata true ((∅ : OrdDict String PyVal).set task.name (listing outputKeys writes)))

/-! ### One task -/

theorem collapse_of_two_le {vs : List PyVal} (h : 2 ≤ vs.length) : collapse vs = .list vs := by
  match vs, h with
  | _ :: _ :: _, _ => rfl

/-- A channel among `keys` written twice is what keeps the channels of the own writes from being
    distinct. -/
theorem any_countP_iff {keys : List String} {writes : Writes} :
    (keys.any fun chan => decide (1 < writes.countP fun w => w.1 = chan)) = true ↔
      ¬ ((writes.filter fun w => w.1 ∈ keys).map Prod.fst).Nodup := by
  have hcount : ∀ chan ∈ keys, ((writes.filter fun w => w.1 ∈ keys).map Prod.fst).count chan =
      writes.countP fun w => w.1 = chan := by
    intro chan hchan
    rw [List.count, List.countP_map, List.countP_filter]
    apply List.countP_congr
    intro w _
    simp only [Function.comp, Bool.and_eq_true, beq_iff_eq, decide_eq_true_eq]
    exact ⟨fun h => h.1, fun h => ⟨h, h ▸ hchan⟩⟩
  rw [List.nodup_iff_count_le_one, List.any_eq_true, not_forall]
  apply exists_congr
  intro chan
  rw [decide_eq_true_eq, not_le]
  by_cases hchan : chan ∈ keys
  · rw [hcount chan hchan]
    exact ⟨fun h => h.2, fun h => ⟨hchan, h⟩⟩
  · refine ⟨fun h => absurd h.1 hchan, fun h => ?_⟩
    -- a channel that is written is one of the keys
    have hmem := List.count_pos_iff.mp (Nat.lt_of_succ_lt h)
    obtain ⟨w, hw, rfl⟩ := List.mem_map.mp hmem
    exact absurd (of_decide_eq_true (List.mem_filter.mp hw).2) hchan

theorem collapse_updatedOf (keys : OutputKeys) (writes : Writes) :
    collapse (updatedOf keys writes) = shown keys writes := by
  unfold updatedOf shown
  cases writes.find? fun w => w.1 = Const.RETURN with
  | some rtn => rfl
  | none =>
    cases keys with
    | one key => simp [listing, ownWrites, OutputKeys.names]
    | many keys =>
      set own := writes.filter fun w => decide (w.1 ∈ keys) with hown
      have hshow : listing (.many keys) writes = if own = [] then .none
          else if (own.map Prod.fst).Nodup then .dict (own.map fun w => (.str w.1, w.2))
          else .list (own.map fun w => .dict [(.str w.1, w.2)]) := rfl
      rw [hshow]
      show collapse (if own.isEmpty then [] else _) = _
      by_cases hnil : own = []
      · simp [hnil, collapse]
      · have hlen : 0 < own.length := List.length_pos_iff.mpr hnil
        rw [if_neg (by simpa using hnil), if_neg hnil]
        by_cases hnd : (own.map Prod.fst).Nodup
        · rw [if_neg (fun h => any_countP_iff.mp h hnd), if_pos hnd,
            OrdDict.entries_ofList_of_nodup hnd]
          rfl
        · rw [if_pos (any_countP_iff.mpr hnd), if_neg hnd]
          apply collapse_of_two_le
          -- one write alone would have distinct channels
          rw [List.length_map]
          show 2 ≤ own.length
          by_contra hone
          obtain ⟨w, hw⟩ := List.length_eq_one_iff.mp (show own.length = 1 by omega)
          exact hnd (by rw [hw]; exact List.nodup_singleton _)

/-- The entries gathered under the name of a task. -/
theorem foldl_grouped (name : String) : ∀ (vs before : List PyVal),
    ((vs.map (name, ·)).foldl (fun (grouped : OrdDict String (List PyVal)) e =>
        grouped.set e.1 (grouped.getD e.1 [] ++ [e.2]))
      ((∅ : OrdDict String (List PyVal)).set name before)) =
    (∅ : OrdDict String (List PyVal)).set name (before ++ vs) := by
  intro vs
  induction vs with
  | nil =>
    intro before
    rw [List.append_nil]
    rfl
  | cons v vs ih =>
    intro before
    rw [List.map_cons, List.foldl_cons]
    have hset : ((∅ : OrdDict String (List PyVal)).set name before).set name
        (((∅ : OrdDict String (List PyVal)).set name before).getD name [] ++ [v]) =
        (∅ : OrdDict String (List PyVal)).set name (before ++ [v]) := by
      rw [OrdDict.getD, OrdDict.get?_set_self]
      apply OrdDict.ext
      show OrdDictEntries.set [(name, before)] name _ = [(name, _)]
      simp [OrdDictEntries.set]
    rw [hset, ih (before ++ [v]), List.append_assoc]
    rfl

theorem mapOutputUpdates_single (keys : OutputKeys) (task : ShownTask) (writes : Writes) (cached : Bool) :
    mapOutputUpdates keys [(task, writes)] cached =
      if task.hidden = false ∧ beginsWell writes = true then
        some (withMetadata cached ((∅ : OrdDict String PyVal).set task.name (shown keys writes)))
      else none := by
  by_cases h : task.hidden = false ∧ beginsWell writes = true
  · have hkeep : ([(task, writes)].filter fun t => !t.1.hidden && beginsWell t.2) = [(task, writes)] := by
      simp [h.1, h.2]
    rw [if_pos h, mapOutputUpdates, hkeep]
    have hstart : (OrdDict.ofList ([(task, writes)].map fun t => (t.1.name, ([] : List PyVal)))) =
        (∅ : OrdDict String (List PyVal)).set task.name [] := rfl
    simp only [List.isEmpty_cons, Bool.false_eq_true, if_false, List.flatMap_singleton, hstart,
      foldl_grouped, List.nil_append, ← collapse_updatedOf]
    rfl
  · have hdrop : ([(task, writes)].filter fun t => !t.1.hidden && beginsWell t.2) = [] := by
      apply List.filter_eq_nil_iff.mpr
      intro t ht
      obtain rfl := List.mem_singleton.mp ht
      simpa using h
    rw [if_neg h, mapOutputUpdates, hdrop]
    rfl

/-! ### The writes of a task whose channels are all special -/

theorem head_keys_setAll {κ ν : Type} [DecidableEq κ] : ∀ (l : List (κ × ν)) (d : OrdDict κ ν) {k : κ},
    d.keys.head? = some k → (d.setAll l).keys.head? = some k
  | [], _, _, h => h
  | e :: l, d, k, h => by
    rw [OrdDict.setAll_cons]
    apply head_keys_setAll l
    rw [OrdDict.keys_set]
    split
    · exact h
    · rw [List.head?_append, h]
      rfl

theorem head_dedupSpecial (writes : Writes) :
    (dedupSpecial writes).head?.map Prod.fst = writes.head?.map Prod.fst := by
  unfold dedupSpecial
  split
  · cases writes with
    | nil => rfl
    | cons w writes =>
      have h := head_keys_setAll writes ((OrdDict.empty : OrdDict String PyVal).set w.1 w.2)
        (k := w.1) rfl
      rwa [OrdDict.keys, List.head?_map] at h
  · rfl

theorem beginsWell_congr {writes writes' : Writes}
    (h : writes'.head?.map Prod.fst = writes.head?.map Prod.fst) : beginsWell writes' = beginsWell writes := by
  cases writes with
  | nil => cases writes' with
    | nil => rfl
    | cons w' writes' => cases h
  | cons w writes => cases writes' with
    | nil => cases h
    | cons w' writes' =>
      have hw : w'.1 = w.1 := Option.some.inj h
      show (w'.1 != _ && w'.1 != _) = (w.1 != _ && w.1 != _)
      rw [hw]

variable {keys : OutputKeys}

/-- The output channels are channels of the graph. -/
def OutputKeys.Ordinary (keys : OutputKeys) : Prop :=
  ∀ c ∈ keys.names, c ∉ controlChannels ∧ isSpecial c = false

instance (keys : OutputKeys) : Decidable keys.Ordinary :=
  inferInstanceAs (Decidable (∀ c ∈ keys.names, c ∉ controlChannels ∧ isSpecial c = false))

theorem shown_of_no_own {writes : Writes} (hrtn : ∀ w ∈ writes, w.1 ≠ Const.RETURN)
    (hown : ∀ w ∈ writes, w.1 ∉ keys.names) : shown keys writes = .none := by
  have hfind : (writes.find? fun w => w.1 = Const.RETURN) = none := by
    apply List.find?_eq_none.mpr
    intro w hw
    simpa using hrtn w hw
  have hnil : ownWrites keys writes = [] := by
    apply List.filter_eq_nil_iff.mpr
    intro w hw
    simpa using hown w hw
  rw [shown, hfind]
  show listing keys writes = .none
  unfold listing
  rw [hnil]
  cases keys <;> rfl

/-- What `put_writes` keeps of a list that is all special shows nothing, as the list. -/
theorem shown_dedupSpecial (hkeys : keys.Ordinary) (writes : Writes) :
    shown keys (dedupSpecial writes) = shown keys writes := by
  unfold dedupSpecial
  split
  · next hall =>
    have hspecial : ∀ w ∈ writes, isSpecial w.1 = true := List.all_eq_true.mp hall
    have hnone : ∀ ws : Writes, (∀ w ∈ ws, isSpecial w.1 = true) → shown keys ws = .none := by
      intro ws hws
      apply shown_of_no_own
      · intro w hw hrtn
        have hreturn : isSpecial Const.RETURN = true := hrtn ▸ hws w hw
        exact absurd hreturn (by decide)
      · intro w hw hmem
        exact absurd (hws w hw) (by simp [(hkeys w.1 hmem).2])
    rw [hnone writes hspecial]
    apply hnone
    intro w hw
    have hget : (OrdDict.ofList writes).get? w.1 = some w.2 := OrdDict.get?_eq_some_iff.mpr hw
    exact hspecial _ (OrdDict.mem_of_get?_ofList hget)
  · rfl

/-! ### One event -/

theorem nodes_outputWrites (keys : OutputKeys) (task : ShownTask) (writes : Writes) (cached : Bool) :
    (outputWrites keys task writes cached).bind Emission.nodes? =
      if task.hidden = false ∧ writes ≠ [] ∧ beginsWell writes = true then
        some (withMetadata cached ((∅ : OrdDict String PyVal).set task.name (shown keys writes)))
      else none := by
  unfold outputWrites
  cases hh : task.hidden with
  | true => simp
  | false =>
    cases writes with
    | nil => simp
    | cons w writes =>
      simp only [Bool.false_eq_true, if_false, List.head?_cons, true_and, ne_eq, reduceCtorEq,
        not_false_eq_true]
      by_cases hint : w.1 = Const.INTERRUPT
      · have hbegin : beginsWell (w :: writes) = false := by simp [beginsWell, hint]
        rw [if_pos hint, hbegin]
        cases task.called <;> rfl
      · rw [if_neg hint]
        by_cases herr : w.1 = Const.ERROR
        · rw [if_pos herr, if_neg]
          · rfl
          · simp [beginsWell, herr]
        · rw [if_neg herr, mapOutputUpdates_single]
          have hbegin : beginsWell (w :: writes) = true := by simp [beginsWell, hint, herr]
          rw [if_pos ⟨hh, hbegin⟩, if_pos hbegin]
          rfl

theorem nodes_committed (hkeys : keys.Ordinary) (task : ShownTask) {writes : Writes} (hne : writes ≠ []) :
    (outputWrites keys task (dedupSpecial writes) false).bind Emission.nodes? =
      if task.hidden = false ∧ beginsWell writes = true then
        some ((∅ : OrdDict String PyVal).set task.name (shown keys writes))
      else none := by
  have hhead := head_dedupSpecial writes
  have hne' : dedupSpecial writes ≠ [] := by
    intro hnil
    rw [hnil] at hhead
    cases writes with
    | nil => exact hne rfl
    | cons w writes => cases hhead
  rw [nodes_outputWrites, shown_dedupSpecial hkeys, beginsWell_congr hhead]
  simp [hne', withMetadata]

/-- The update that a plain event brings. -/
theorem nodes_emission (hkeys : keys.Ordinary) {e : UpdateEvent} (hplain : e.Plain) :
    (emission keys e).bind Emission.nodes? = report keys e := by
  cases e with
  | committed task handler attempt =>
    obtain ⟨appended, outcome⟩ := attempt
    have hput : ∀ writes : Writes, writes ≠ [] →
        commitWrites handler ⟨appended, outcome⟩ = some writes →
        (emission keys (.committed task handler ⟨appended, outcome⟩)).bind Emission.nodes? =
          if task.hidden = false ∧ beginsWell writes = true then
            some ((∅ : OrdDict String PyVal).set task.name (shown keys writes))
          else none := by
      intro writes hne hcommit
      rw [← nodes_committed hkeys task hne]
      simp [emission, hcommit, hne]
    cases outcome with
    | ok =>
      by_cases hnil : appended = []
      · subst hnil
        -- the marker of a task without writes is no output channel
        have hmarker : shown keys [(Const.NO_WRITES, .none)] = shown keys [] := by
          have hout : Const.NO_WRITES ∉ keys.names := by
            intro hmem
            exact (hkeys _ hmem).1 (by decide)
          rw [shown_of_no_own (by decide) (by simpa using hout),
            shown_of_no_own (by simp) (by simp)]
        rw [hput [(Const.NO_WRITES, .none)] (by simp) rfl, hmarker]
        have hbegin : beginsWell [(Const.NO_WRITES, .none)] = true := by decide
        cases hh : task.hidden <;> simp [report, hh, hbegin]
      · rw [hput appended hnil (by simp [commitWrites, hnil])]
        have hbegin : beginsWell appended = true := hplain
        cases hh : task.hidden <;> simp [report, hh, hbegin]
    | cancelled e =>
      obtain rfl : appended = [] := hplain
      rw [hput [(Const.ERROR, e)] (by simp) rfl]
      simp [report, beginsWell]
    | error e =>
      obtain rfl : appended = [] := hplain
      rw [hput (([] : Writes) ++ [(Const.ERROR, e)] ++
        (handler.map fun name => (Const.ERROR_SOURCE_NODE, PyVal.str name)).toList) (by simp) rfl]
      simp [report, beginsWell]
    | interrupt interrupts =>
      by_cases hnil : interrupts = []
      · subst hnil
        rfl
      · rw [hput ((Const.INTERRUPT, .tuple interrupts) :: appended.filter fun w => w.1 = Const.RESUME)
          (by simp) (by simp [commitWrites, hnil])]
        simp [report, beginsWell]
    | bubbleUp => rfl
  | restored task writes failed =>
    obtain ⟨hbegin, hfailed⟩ := hplain
    cases failed with
    | some error =>
      obtain rfl : writes = [] := hfailed rfl
      show (outputWrites keys task [(Const.ERROR, error)] true).bind Emission.nodes? = _
      rw [nodes_outputWrites]
      simp [report, beginsWell]
    | none =>
      have hsame : emission keys (.restored task writes none) =
          if writes.isEmpty then none else outputWrites keys task writes true := by
        simp [emission]
      rw [hsame]
      cases writes with
      | nil => simp [report]
      | cons w writes =>
        rw [if_neg (by simp), nodes_outputWrites]
        cases hh : task.hidden <;> simp [report, hh, hbegin]

/-! ### A superstep -/

/-- The values that `apply_writes` hands to an output channel are those of the own writes of its
    tasks, in order. -/
theorem getD_groupWrites_own (hkeys : keys.Ordinary) (tasks : List TaskWrites)
    {channels : OrdDict String Channel} {c : String} (hc : c ∈ keys.names) (hknown : channels.contains c) :
    (groupWrites tasks channels).getD c [] =
      tasks.flatMap fun t => ((ownWrites keys t.writes).filter fun w => w.1 = c).map Prod.snd := by
  have hvalues : ∀ writes : Writes, ((ownWrites keys writes).filter fun w => w.1 = c).map Prod.snd =
      writes.filterMap fun w => if w.1 = c then some w.2 else none := by
    intro writes
    rw [ownWrites, List.filter_filter]
    induction writes with
    | nil => rfl
    | cons w writes ih =>
      by_cases hw : w.1 = c
      · rw [List.filter_cons_of_pos (by simp [hw, hc]), List.filterMap_cons, if_pos hw, List.map_cons, ih]
      · rw [List.filter_cons_of_neg (by simp [hw]), List.filterMap_cons, if_neg hw, ih]
  have hfor : writesFor tasks c =
      tasks.flatMap fun t => ((ownWrites keys t.writes).filter fun w => w.1 = c).map Prod.snd := by
    have hcontrol : controlChannels.contains c = false := by simpa using (hkeys c hc).1
    rw [writesFor, hcontrol, List.filterMap_flatMap]
    simp only [Bool.false_eq_true, if_false, hvalues]
  rw [OrdDict.getD, get?_groupWrites, ← hfor]
  split
  · next h => exact (h.resolve_left (by simp [hknown])).symm
  · rfl

theorem updates_reported (keys : OutputKeys) (hkeys : keys.Ordinary) (events : List UpdateEvent)
    (hplain : ∀ e ∈ events, e.Plain) :
    nodeUpdates keys events = events.filterMap (report keys) ∧
      ∀ (tasks : List TaskWrites) (channels : OrdDict String Channel), ∀ c ∈ keys.names,
        channels.contains c → (groupWrites tasks channels).getD c [] =
          tasks.flatMap fun t => ((ownWrites keys t.writes).filter fun w => w.1 = c).map Prod.snd := by
  refine ⟨?_, fun tasks channels c hc hknown => getD_groupWrites_own hkeys tasks hc hknown⟩
  rw [nodeUpdates, List.filterMap_filterMap]
  apply List.filterMap_congr
  intro e he
  exact nodes_emission hkeys (hplain e he)

/-- One task writes `x` twice, one is interrupted after a write, one fails at once and one has
    its writes from an earlier run. -/
theorem updates_reported_mixed :
    let events : List UpdateEvent :=
      [.committed ⟨"1", "a", false, false⟩ none ⟨[("x", .int 1), ("y", .none), ("x", .int 2)], .ok⟩,
        .committed ⟨"2", "b", false, false⟩ none ⟨[("y", .int 3)], .interrupt [.str "why"]⟩,
        .committed ⟨"3", "c", false, false⟩ none ⟨[], .error (.str "boom")⟩,
        .restored ⟨"4", "d", false, false⟩ [("y", .int 4)] none]
    nodeUpdates (.many ["x", "y"]) events = events.filterMap (report (.many ["x", "y"])) := by
  intro events
  apply (updates_reported (.many ["x", "y"]) (by decide) events ?_).1
  simp [events, UpdateEvent.Plain, beginsWell, Const.ERROR, Const.INTERRUPT]

/-- A hidden task shows nothing, and a task that returns a value shows that. -/
theorem not_updates_listed :
    let hidden : UpdateEvent := .committed ⟨"1", "a", true, false⟩ none ⟨[("x", .int 1)], .ok⟩
    let returning : UpdateEvent :=
      .committed ⟨"2", "f", false, true⟩ none ⟨[("x", .int 1), (Const.RETURN, .int 2)], .ok⟩
    nodeUpdates (.many ["x"]) [hidden] ≠ [hidden].filterMap (listed (.many ["x"])) ∧
      nodeUpdates (.many ["x"]) [returning] ≠ [returning].filterMap (listed (.many ["x"])) := by
  refine ⟨fun h => ?_, fun h => ?_⟩
  · cases h
  · have hvalues : [PyVal.int 2] = [.dict [(.str "x", .int 1)]] := congrArg (·.flatMap OrdDict.values) h
    cases hvalues

end LangGraph
