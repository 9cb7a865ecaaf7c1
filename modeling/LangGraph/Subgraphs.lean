import Mathlib.Algebra.GroupWithZero.Nat
import LangGraph.TaskOrder
import Mathlib.Data.List.TakeWhile

/- The checkpoint namespaces of subgraphs.

   Correspondence (source ↔ Lean):
     `recast_checkpoint_ns`, the namespace of a
       subgraph with `checkpointer=True`           ↔ `recastCheckpointNs`, `baseNs`
     the part of `PregelLoop.__init__` on the
       `subgraph_counter`                          ↔ `loopNs`, `attemptNs`
     `run_with_retry`, every attempt with the same
       config and scratchpad                       ↔ `executionNs`
     `task_checkpoint_ns` (prepare_single_task)    ↔ `taskNs`
   An execution of a task is what one scratchpad lives through: its attempts, each
   with the subgraphs it calls in order, each with the tasks these execute. A
   resumed run prepares the task anew and begins another execution.
   `stableNamespaces_iff`: calls keep their namespaces over all executions, at any
   depth, exactly when no execution calls subgraphs in two of its attempts. -/
namespace LangGraph

/-- `recast_checkpoint_ns`: the parts that are not counters, without their task ids. -/
def recastCheckpointNs (ns : String) : String :=
  let parts := (ns.toList.splitOn '|').filter fun part => part = [] || !part.all Char.isDigit
  String.ofList (['|'].intercalate (parts.map fun part => part.takeWhile (· ≠ ':')))

/-- The namespace that the loop of a called subgraph starts from; `own` is
    `checkpointer=True`. -/
def baseNs (ns : String) (own : Bool) : String := if own then recastCheckpointNs ns else ns

/-- The namespace of a loop that draws `cnt` from the counter of its task. -/
def loopNs (ns : String) (cnt : Nat) : String := if cnt = 0 then ns else ns ++ "|" ++ toString cnt

/-- The namespaces of the subgraphs that an attempt calls, and the counter after it. -/
def attemptNs (ns : String) : Nat → List Bool → List String × Nat
  | counter, [] => ([], counter)
  | counter, own :: rest =>
    let (names, after) := attemptNs ns (counter + 1) rest
    (loopNs (baseNs ns own) counter :: names, after)

/-- The namespaces of the attempts of an execution, by the subgraphs these call. -/
def executionNs (ns : String) : Nat → List (List Bool) → List (List String)
  | _, [] => []
  | counter, subgraphs :: rest =>
    let (names, after) := attemptNs ns counter subgraphs
    names :: executionNs ns after rest

/-- What tells the tasks of one subgraph apart: the node, and the rest that goes
    into the id of the task. -/
structure TaskLabel where
  name : String
  parts : List String
  deriving DecidableEq

/-- `task_checkpoint_ns`; `taskId` hashes the namespace of the node and the parts. -/
def taskNs (taskId : String → List String → String) (parentNs : String) (t : TaskLabel) : String :=
  let checkpointNs := if parentNs = "" then t.name else parentNs ++ "|" ++ t.name
  checkpointNs ++ ":" ++ taskId checkpointNs t.parts

/-- An execution of a task: for every attempt the subgraphs it calls, each with
    its `checkpointer=True` and the executions of its tasks. -/
inductive TaskExecution where
  | mk (attempts : List (List (Bool × List (TaskLabel × TaskExecution))))

namespace TaskExecution

def attempts : TaskExecution → List (List (Bool × List (TaskLabel × TaskExecution)))
  | .mk attempts => attempts

/-- The subgraphs that every attempt calls. -/
def subgraphs (e : TaskExecution) : List (List Bool) := e.attempts.map fun a => a.map Prod.fst

/-- Call `k` of attempt `i`, with the tasks that the subgraph executes. -/
def IsCall (e : TaskExecution) (i k : Nat) (tasks : List (TaskLabel × TaskExecution)) : Prop :=
  ∃ calls own, e.attempts[i]? = some calls ∧ calls[k]? = some (own, tasks)

/-- The namespace that the call runs under. -/
def callNs (ns : String) (e : TaskExecution) (i k : Nat) : Option String :=
  (executionNs ns 0 e.subgraphs)[i]?.bind fun attempt => attempt[k]?

/-- The attempts that call a subgraph. -/
def calling (e : TaskExecution) : Nat := (e.subgraphs.filter fun calls => calls ≠ []).length

end TaskExecution

/-- A place among the calls below a task: the call and the task within it. -/
abbrev CallPath := List (Nat × TaskLabel)

open TaskExecution in
/-- `Runs taskId ns e p m t`: in the execution `e` of a task with namespace `ns`, the
    task at `p` has the namespace `m` and the execution `t`. -/
inductive Runs (taskId : String → List String → String) :
    String → TaskExecution → CallPath → String → TaskExecution → Prop where
  | self (ns : String) (e : TaskExecution) : Runs taskId ns e [] ns e
  | nested {ns sub m : String} {e e' t : TaskExecution} {i k : Nat} {label : TaskLabel}
      {tasks : List (TaskLabel × TaskExecution)} {p : CallPath} (hcall : e.IsCall i k tasks)
      (hns : callNs ns e i k = some sub) (hmem : (label, e') ∈ tasks)
      (h : Runs taskId (taskNs taskId sub label) e' p m t) :
      Runs taskId ns e ((k, label) :: p) m t

/-! ## Counters -/

theorem toList_toString_nat (n : Nat) : (toString n).toList = zeroPad 0 n := by
  simp [zeroPad, toString, Nat.repr]

theorem toString_nat_inj {m n : Nat} (h : toString m = toString n) : m = n := by
  apply zeroPad_inj
  rw [← toList_toString_nat, ← toList_toString_nat, h]

/-- A counter value is read off its namespace. -/
theorem loopNs_inj {ns : String} {a b : Nat} (h : loopNs ns a = loopNs ns b) : a = b := by
  have hlen : ∀ n : Nat, (ns ++ "|" ++ toString n).length ≠ ns.length := by
    intro n
    simp only [String.length_append]
    have : ("|" : String).length = 1 := rfl
    omega
  unfold loopNs at h
  by_cases ha : a = 0
  · by_cases hb : b = 0
    · rw [ha, hb]
    · rw [if_pos ha, if_neg hb] at h
      exact absurd (congrArg String.length h).symm (hlen b)
  · by_cases hb : b = 0
    · rw [if_neg ha, if_pos hb] at h
      exact absurd (congrArg String.length h) (hlen a)
    · rw [if_neg ha, if_neg hb] at h
      have hlist := congrArg String.toList h
      simp only [String.toList_append] at hlist
      exact toString_nat_inj (String.toList_inj.mp (List.append_cancel_left hlist))

/-- The colon tells the namespace of a task from one with the task ids removed. -/
theorem colon_mem_taskNs (taskId : String → List String → String) (parentNs : String)
    (t : TaskLabel) : ':' ∈ (taskNs taskId parentNs t).toList := by
  simp [taskNs]

theorem colon_notMem_recast (ns : String) : ':' ∉ (recastCheckpointNs ns).toList := by
  have hjoin : ∀ parts : List (List Char), (∀ p ∈ parts, ':' ∉ p) →
      ':' ∉ ['|'].intercalate parts := by
    intro parts hparts
    induction parts with
    | nil => simp
    | cons p rest ih =>
      cases rest with
      | nil => simpa using hparts p List.mem_cons_self
      | cons q rest =>
        have hrest := ih fun r hr => hparts r (List.mem_cons_of_mem _ hr)
        rw [List.intercalate_cons_cons, List.mem_append, List.mem_append]
        rintro ((hp | hsep) | hq)
        · exact hparts p List.mem_cons_self hp
        · exact absurd hsep (by decide)
        · exact hrest hq
  unfold recastCheckpointNs
  rw [String.toList_ofList]
  apply hjoin
  intro p hp hc
  obtain ⟨q, -, rfl⟩ := List.mem_map.mp hp
  exact absurd (List.mem_takeWhile_imp hc) (by decide)

theorem colon_notMem_toString (n : Nat) : ':' ∉ (toString n).toList := by
  intro hmem
  rw [toList_toString_nat] at hmem
  exact absurd (isDigit_of_mem_zeroPad hmem) (by decide)

theorem colon_mem_loopNs {ns : String} {cnt : Nat} :
    ':' ∈ (loopNs ns cnt).toList ↔ ':' ∈ ns.toList := by
  unfold loopNs
  split
  · exact Iff.rfl
  · have hdigits := colon_notMem_toString cnt
    have hsep : ':' ∉ ("|" : String).toList := by decide
    rw [String.toList_append, String.toList_append, List.mem_append, List.mem_append]
    tauto

/-- In the namespaces below one task the counter is read off also across the two
    kinds of subgraphs. -/
theorem loopNs_baseNs_inj {ns : String} (hns : ':' ∈ ns.toList) {own own' : Bool} {a b : Nat}
    (h : loopNs (baseNs ns own) a = loopNs (baseNs ns own') b) : a = b := by
  have hown : own = own' := by
    have hcolon : ∀ (own : Bool) (n : Nat),
        ':' ∈ (loopNs (baseNs ns own) n).toList ↔ own = false := by
      intro own n
      rw [colon_mem_loopNs, baseNs]
      cases own with
      | false => simpa using hns
      | true => simpa using colon_notMem_recast ns
    have hiff := (hcolon own a).symm.trans ((congrArg (':' ∈ String.toList ·) h).to_iff.trans
      (hcolon own' b))
    cases own <;> cases own' <;> simp_all
  rw [hown] at h
  exact loopNs_inj h

/-! ## The namespace of a call -/

theorem attemptNs_snd (ns : String) : ∀ (counter : Nat) (subgraphs : List Bool),
    (attemptNs ns counter subgraphs).2 = counter + subgraphs.length
  | _, [] => rfl
  | counter, own :: rest => by
    simp only [attemptNs, attemptNs_snd ns (counter + 1) rest, List.length_cons]
    omega

theorem getElem?_attemptNs (ns : String) : ∀ (counter : Nat) (subgraphs : List Bool) (k : Nat),
    (attemptNs ns counter subgraphs).1[k]? =
      subgraphs[k]?.map fun own => loopNs (baseNs ns own) (counter + k)
  | _, [], _ => by simp [attemptNs]
  | _, _ :: _, 0 => by simp [attemptNs]
  | counter, own :: rest, k + 1 => by
    simp only [attemptNs, List.getElem?_cons_succ, getElem?_attemptNs ns (counter + 1) rest k]
    rw [Nat.add_right_comm counter 1 k, Nat.add_assoc]

/-- The subgraphs called in the first `i` attempts. -/
def TaskExecution.earlier (e : TaskExecution) (i : Nat) : Nat :=
  ((e.subgraphs.take i).map List.length).sum

theorem getElem?_executionNs (ns : String) : ∀ (counter : Nat) (attempts : List (List Bool)) (i : Nat),
    (executionNs ns counter attempts)[i]? = attempts[i]?.map fun subgraphs =>
      (attemptNs ns (counter + ((attempts.take i).map List.length).sum) subgraphs).1
  | _, [], _ => by simp [executionNs]
  | _, _ :: _, 0 => by simp [executionNs]
  | counter, subgraphs :: rest, i + 1 => by
    simp only [executionNs, List.getElem?_cons_succ, List.take_succ_cons, List.map_cons,
      List.sum_cons, attemptNs_snd]
    rw [getElem?_executionNs ns (counter + subgraphs.length) rest i]
    simp only [Nat.add_assoc]

/-- A call draws the number of the calls before it, those of earlier attempts included. -/
theorem TaskExecution.callNs_eq_some_iff {ns n : String} {e : TaskExecution} {i k : Nat} :
    e.callNs ns i k = some n ↔ ∃ subgraphs own, e.subgraphs[i]? = some subgraphs ∧
      subgraphs[k]? = some own ∧ n = loopNs (baseNs ns own) (e.earlier i + k) := by
  rw [callNs, getElem?_executionNs]
  cases h : e.subgraphs[i]? with
  | none => simp
  | some subgraphs =>
    simp only [Option.map_some, Option.bind_some, getElem?_attemptNs, Nat.zero_add]
    cases hk : subgraphs[k]? with
    | none => simp [hk]
    | some own =>
      constructor
      · intro hn
        exact ⟨subgraphs, own, rfl, hk, (Option.some.inj hn).symm⟩
      · rintro ⟨_, _, hi, hk', rfl⟩
        cases hi
        cases hk.symm.trans hk'
        rfl

/-- A list with at most one kept element keeps nothing else before it. -/
theorem filter_take_eq_nil {α : Type} {p : α → Bool} : ∀ {l : List α} {i : Nat} {a : α},
    (l.filter p).length ≤ 1 → l[i]? = some a → p a = true → (l.take i).filter p = []
  | _, 0, _, _, _, _ => by simp
  | b :: l, i + 1, a, hlen, hi, ha => by
    have hmem : a ∈ l.filter p := List.mem_filter.mpr ⟨List.mem_of_getElem? hi, ha⟩
    have hpos : 0 < (l.filter p).length := List.length_pos_of_mem hmem
    by_cases hb : p b = true
    · rw [List.filter_cons_of_pos hb, List.length_cons] at hlen
      omega
    · rw [List.filter_cons_of_neg hb] at hlen
      rw [List.take_succ_cons, List.filter_cons_of_neg hb]
      exact filter_take_eq_nil hlen hi ha

theorem TaskExecution.earlier_eq_zero {e : TaskExecution} {i k : Nat} {subgraphs : List Bool}
    {own : Bool} (he : e.calling ≤ 1) (hi : e.subgraphs[i]? = some subgraphs)
    (hk : subgraphs[k]? = some own) : e.earlier i = 0 := by
  have hne : subgraphs ≠ [] := by
    rintro rfl
    simp at hk
  have hnil := filter_take_eq_nil he hi (by simpa using hne)
  rw [List.filter_eq_nil_iff] at hnil
  apply List.sum_eq_zero_iff_forall_eq_nat.mpr
  intro n hn
  obtain ⟨calls, hcalls, rfl⟩ := List.mem_map.mp hn
  have := hnil calls hcalls
  simp only [ne_eq, decide_not, Bool.not_eq_eq_eq_not, Bool.not_true, decide_eq_false_iff_not,
    Decidable.not_not] at this
  rw [this, List.length_nil]

/-- The calls of an attempt are counted before those of the next ones. -/
theorem sum_take_lt {α : Type} : ∀ {l : List (List α)} {i j : Nat} {a : List α}, i < j →
    l[i]? = some a → a ≠ [] →
    ((l.take i).map List.length).sum < ((l.take j).map List.length).sum
  | [], _, _, _, _, hi, _ => by simp at hi
  | b :: l, 0, j + 1, a, _, hi, ha => by
    cases hi
    have : 0 < b.length := List.length_pos_iff.mpr ha
    simp only [List.take_zero, List.map_nil, List.sum_nil, List.take_succ_cons, List.map_cons,
      List.sum_cons]
    omega
  | b :: l, i + 1, j + 1, a, hij, hi, ha => by
    have := sum_take_lt (l := l) (Nat.lt_of_succ_lt_succ hij) hi ha
    simp only [List.take_succ_cons, List.map_cons, List.sum_cons]
    omega

theorem exists_lt_of_two_le_filter {α : Type} {p : α → Bool} : ∀ {l : List α},
    2 ≤ (l.filter p).length →
    ∃ (i j : Nat) (a b : α), i < j ∧ l[i]? = some a ∧ p a = true ∧ l[j]? = some b ∧ p b = true
  | [], h => by simp at h
  | c :: l, h => by
    by_cases hc : p c = true
    · rw [List.filter_cons_of_pos hc, List.length_cons] at h
      obtain ⟨b, hb⟩ := List.exists_mem_of_length_pos (show 0 < (l.filter p).length by omega)
      obtain ⟨j, hj⟩ := List.mem_iff_getElem?.mp (List.mem_filter.mp hb).1
      exact ⟨0, j + 1, c, b, Nat.succ_pos j, rfl, hc, hj, (List.mem_filter.mp hb).2⟩
    · rw [List.filter_cons_of_neg hc] at h
      obtain ⟨i, j, a, b, hij, hi, ha, hj, hb⟩ := exists_lt_of_two_le_filter h
      exact ⟨i + 1, j + 1, a, b, Nat.succ_lt_succ hij, hi, ha, hj, hb⟩

/-! ## Histories of a task -/

/-- In every execution of the task and of the tasks below it, call `k` is of the same
    subgraph; its kind is all that a namespace depends on. -/
def SameOrder (taskId : String → List String → String) (ns : String)
    (history : List TaskExecution) (own : CallPath → Nat → Bool) : Prop :=
  ∀ e ∈ history, ∀ p m t, Runs taskId ns e p m t →
    ∀ subgraphs ∈ t.subgraphs, ∀ k o, subgraphs[k]? = some o → o = own p k

/-- In some attempt of some execution, call `k` of the task at `p` runs under `n`. -/
def CalledAt (taskId : String → List String → String) (ns : String)
    (history : List TaskExecution) (p : CallPath) (k : Nat) (n : String) : Prop :=
  ∃ e ∈ history, ∃ m t i, Runs taskId ns e p m t ∧ t.callNs m i k = some n

/-- A call that has been made: its place in the order of the calls, its namespace,
    and the checkpoints that it saved. -/
structure SubgraphCall where
  call : Nat
  ns : String
  saved : List String

/-- The checkpoint that the loop of a call finds. -/
def loaded (log : List SubgraphCall) (ns : String) : Option String :=
  ((log.filter fun c => c.ns = ns).flatMap fun c => c.saved).getLast?

/-- The last checkpoint of the earlier runs of the same call. -/
def ownLast (log : List SubgraphCall) (k : Nat) : Option String :=
  ((log.filter fun c => c.call = k).flatMap fun c => c.saved).getLast?

/-- `stable`: a call has one namespace over all attempts and executions, at any depth.
    `distinct`: two calls of an attempt have two. `continues`: after any calls of the
    task, a call finds the last checkpoint of its own earlier runs, if any. -/
structure StableNamespaces (taskId : String → List String → String) (ns : String)
    (history : List TaskExecution) : Prop where
  stable : ∀ p k n n', CalledAt taskId ns history p k n → CalledAt taskId ns history p k n' → n = n'
  distinct : ∀ e ∈ history, ∀ p m t, Runs taskId ns e p m t →
    ∀ i k k' n, t.callNs m i k = some n → t.callNs m i k' = some n → k = k'
  continues : ∀ p log k n, (∀ c ∈ log, CalledAt taskId ns history p c.call c.ns) →
    CalledAt taskId ns history p k n → loaded log n = ownLast log k

/-- The namespace of the task at a path when only first attempts call subgraphs. -/
def pathNs (taskId : String → List String → String) :
    String → (CallPath → Nat → Bool) → CallPath → String
  | ns, _, [] => ns
  | ns, own, (k, label) :: p =>
    pathNs taskId (taskNs taskId (loopNs (baseNs ns (own [] k)) k) label)
      (fun q => own ((k, label) :: q)) p

theorem TaskExecution.callNs_eq {m n : String} {t : TaskExecution} {i k : Nat} {own : Nat → Bool}
    (hone : t.calling ≤ 1)
    (hown : ∀ subgraphs ∈ t.subgraphs, ∀ k o, subgraphs[k]? = some o → o = own k)
    (h : t.callNs m i k = some n) : n = loopNs (baseNs m (own k)) k := by
  obtain ⟨subgraphs, o, hi, hk, rfl⟩ := callNs_eq_some_iff.mp h
  rw [earlier_eq_zero hone hi hk, Nat.zero_add,
    hown subgraphs (List.mem_of_getElem? hi) k o hk]

variable {taskId : String → List String → String}

theorem Runs.eq_pathNs {ns m : String} {e t : TaskExecution} {p : CallPath}
    (h : Runs taskId ns e p m t) : ∀ {own : CallPath → Nat → Bool},
    (∀ p m t, Runs taskId ns e p m t → t.calling ≤ 1) →
    (∀ p m t, Runs taskId ns e p m t →
      ∀ subgraphs ∈ t.subgraphs, ∀ k o, subgraphs[k]? = some o → o = own p k) →
    m = pathNs taskId ns own p := by
  induction h with
  | self ns e =>
    intro own _ _
    rfl
  | nested hcall hns hmem _ ih =>
    intro own hone hown
    have hsub := TaskExecution.callNs_eq (hone _ _ _ (.self _ _)) (hown _ _ _ (.self _ _)) hns
    rw [pathNs, ← hsub]
    apply ih
    · intro p m t ht
      exact hone _ _ _ (.nested hcall hns hmem ht)
    · intro p m t ht
      exact hown _ _ _ (.nested hcall hns hmem ht)

theorem Runs.colon_mem {ns m : String} {e t : TaskExecution} {p : CallPath}
    (h : Runs taskId ns e p m t) (hns : ':' ∈ ns.toList) : ':' ∈ m.toList := by
  induction h with
  | self ns e => exact hns
  | nested _ _ _ _ ih => exact ih (colon_mem_taskNs _ _ _)

/-- The calls of an attempt have distinct namespaces, in any history. -/
theorem TaskExecution.callNs_inj {m n : String} {t : TaskExecution} {i k k' : Nat}
    (hm : ':' ∈ m.toList) (h : t.callNs m i k = some n) (h' : t.callNs m i k' = some n) :
    k = k' := by
  obtain ⟨_, _, _, _, rfl⟩ := callNs_eq_some_iff.mp h
  obtain ⟨_, _, _, _, heq⟩ := callNs_eq_some_iff.mp h'
  have := loopNs_baseNs_inj hm heq
  omega

/-- The namespaces of a task are stable and distinct, so that every call continues from
    its own last checkpoint, exactly when no execution of the task, or of a task below
    it, calls subgraphs in more than one of its attempts. -/
theorem stableNamespaces_iff {parentNs : String} {label : TaskLabel}
    {history : List TaskExecution} {own : CallPath → Nat → Bool}
    (horder : SameOrder taskId (taskNs taskId parentNs label) history own) :
    StableNamespaces taskId (taskNs taskId parentNs label) history ↔
      ∀ e ∈ history, ∀ p m t, Runs taskId (taskNs taskId parentNs label) e p m t →
        t.calling ≤ 1 := by
  have hcolon := colon_mem_taskNs taskId parentNs label
  generalize taskNs taskId parentNs label = ns at *
  constructor
  · intro hstable e he p m t ht
    by_contra hmany
    obtain ⟨i, j, a, b, hij, hi, ha, hj, hb⟩ :=
      exists_lt_of_two_le_filter (Nat.lt_of_not_le hmany)
    -- the first calls of the two attempts draw different counters
    obtain ⟨o, a, rfl⟩ := List.exists_cons_of_ne_nil (of_decide_eq_true ha)
    obtain ⟨o', b, rfl⟩ := List.exists_cons_of_ne_nil (of_decide_eq_true hb)
    have hcall : ∀ {i : Nat} {o : Bool} {l : List Bool}, t.subgraphs[i]? = some (o :: l) →
        CalledAt taskId ns history p 0 (loopNs (baseNs m (own p 0)) (t.earlier i)) := by
      intro i o l hi
      refine ⟨e, he, m, t, i, ht, TaskExecution.callNs_eq_some_iff.mpr ⟨o :: l, o, hi, rfl, ?_⟩⟩
      rw [horder e he p m t ht _ (List.mem_of_getElem? hi) 0 o rfl, Nat.add_zero]
    have heq := loopNs_inj (hstable.stable p 0 _ _ (hcall hi) (hcall hj))
    have hlt : t.earlier i < t.earlier j := sum_take_lt hij hi (by simp)
    omega
  · intro hone
    have hcalled : ∀ {p k n}, CalledAt taskId ns history p k n →
        n = loopNs (baseNs (pathNs taskId ns own p) (own p k)) k ∧
          ':' ∈ (pathNs taskId ns own p).toList := by
      rintro p k n ⟨e, he, m, t, i, ht, hn⟩
      have hm := ht.eq_pathNs (hone e he) (horder e he)
      rw [← hm]
      exact ⟨TaskExecution.callNs_eq (hone e he p m t ht) (horder e he p m t ht) hn,
        ht.colon_mem hcolon⟩
    refine ⟨?_, ?_, ?_⟩
    · intro p k n n' hn hn'
      rw [(hcalled hn).1, (hcalled hn').1]
    · intro e he p m t ht i k k' n h h'
      exact TaskExecution.callNs_inj (ht.colon_mem hcolon) h h'
    · intro p log k n hlog hn
      have hsame : log.filter (fun c => c.ns = n) = log.filter fun c => c.call = k := by
        apply List.filter_congr
        intro c hc
        obtain ⟨hcns, hp⟩ := hcalled (hlog c hc)
        rw [hcns, (hcalled hn).1, decide_eq_decide]
        constructor
        · exact loopNs_baseNs_inj hp
        · intro hk
          rw [hk]
      rw [loaded, ownLast, hsame]

/-- Subgraphs that execute no task: nothing runs below the calls. -/
theorem Runs.of_leaf {ns m : String} {e t : TaskExecution} {p : CallPath}
    (hleaf : ∀ calls ∈ e.attempts, ∀ call ∈ calls, call.2 = []) (h : Runs taskId ns e p m t) :
    p = [] ∧ t = e := by
  cases h with
  | self => exact ⟨rfl, rfl⟩
  | nested hcall _ hmem _ =>
    obtain ⟨calls, own, hi, hk⟩ := hcall
    have := hleaf calls (List.mem_of_getElem? hi) _ (List.mem_of_getElem? hk)
    simp only at this
    rw [this] at hmem
    exact absurd hmem List.not_mem_nil

theorem sameOrder_of_leaf {ns : String} {history : List TaskExecution} {own : Bool}
    (hleaf : ∀ e ∈ history, ∀ calls ∈ e.attempts, ∀ call ∈ calls, call = (own, [])) :
    SameOrder taskId ns history fun _ _ => own := by
  intro e he p m t ht subgraphs hs k o hk
  obtain ⟨-, rfl⟩ := ht.of_leaf fun calls hc call hcall => by rw [hleaf e he calls hc call hcall]
  obtain ⟨calls, hcalls, rfl⟩ := List.mem_map.mp hs
  obtain ⟨call, hcall, rfl⟩ := List.mem_map.mp (List.mem_of_getElem? hk)
  rw [hleaf t he calls hcalls call hcall]

/-- A first execution that stops in its second subgraph, and a resumed one whose
    first attempt fails before it calls any. -/
def resumedTask : List TaskExecution :=
  [.mk [[(false, []), (false, [])]], .mk [[], [(false, []), (false, [])]]]

theorem stableNamespaces_resumed :
    StableNamespaces (fun _ _ => "id") (taskNs (fun _ _ => "id") "" ⟨"node", []⟩) resumedTask := by
  have hleaf : ∀ e ∈ resumedTask, ∀ calls ∈ e.attempts, ∀ call ∈ calls, call = (false, []) := by
    simp [resumedTask, TaskExecution.attempts]
  refine (stableNamespaces_iff (sameOrder_of_leaf hleaf)).mpr ?_
  intro e he p m t ht
  obtain ⟨-, rfl⟩ := ht.of_leaf fun calls hc call hcall => by rw [hleaf e he calls hc call hcall]
  have : ∀ e ∈ resumedTask, e.calling ≤ 1 := by
    simp [resumedTask, TaskExecution.calling, TaskExecution.subgraphs, TaskExecution.attempts]
  exact this t he

/-- A node that calls one subgraph: this one saves a checkpoint, the node fails after
    it and is retried. -/
def retriedTask : TaskExecution := .mk [[(false, [])], [(false, [])]]

/-- The retry looks for the subgraph under another namespace and starts it afresh. -/
theorem retriedTask_startsAfresh :
    SameOrder (fun _ _ => "id") "node:id" [retriedTask] (fun _ _ => false) ∧
      retriedTask.callNs "node:id" 0 0 = some "node:id" ∧
      retriedTask.callNs "node:id" 1 0 = some "node:id|1" ∧
      loaded [⟨0, "node:id", ["c1"]⟩] "node:id|1" = none ∧
      ¬ StableNamespaces (fun _ _ => "id") "node:id" [retriedTask] := by
  have h0 : retriedTask.callNs "node:id" 0 0 = some "node:id" := by decide
  have h1 : retriedTask.callNs "node:id" 1 0 = some "node:id|1" := by decide
  refine ⟨sameOrder_of_leaf ?_, h0, h1, by decide, ?_⟩
  · simp [retriedTask, TaskExecution.attempts]
  · intro h
    have hcalled : ∀ {i n}, retriedTask.callNs "node:id" i 0 = some n →
        CalledAt (fun _ _ => "id") "node:id" [retriedTask] [] 0 n := by
      intro i n hn
      exact ⟨_, List.mem_singleton_self _, _, _, i, .self _ _, hn⟩
    exact absurd (h.stable [] 0 _ _ (hcalled h0) (hcalled h1)) (by decide)

end LangGraph
