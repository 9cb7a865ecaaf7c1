import LangGraph.Lib.Machine
import LangGraph.LoopWrites
import LangGraph.Subgraphs

/- The checkpoints of subgraphs in a replay of their parent.

   Correspondence (source ↔ Lean):
     `ReplayState` (_internal/_replay.py)            ↔ `ReplayState`, `stableNs`,
                                                        `isFirstVisit`, `getCheckpoint`
     the replay of `_first` (pregel/_loop.py), up to
       the id that `ReplayState` gets                ↔ `enterReplay`, `replayCheckpointId`
     `SyncPregelLoop.__enter__` of a subgraph         ↔ `ReplayWorld.enter`
   The checkpoints of all subgraphs lie in one list of namespaces and ids. `list` with
   `before` and `limit = 1`, and `get_tuple`, return the newest one of a namespace. A
   subgraph whose namespace is in the checkpoint map has been addressed itself and is
   no part of a replay of the parent. The check and the entry of `_is_first_visit` are
   one step.
   `replay_restores_iff`: every subgraph finds what the replayed branch left there last,
   else what lay there before the replay point, exactly when every visit meets
   `VisitRestores`. -/
namespace LangGraph

inductive CheckpointSource where
  | input
  | loop
  | update
  | fork
  deriving DecidableEq

/-- A checkpoint of the parent graph. -/
structure ParentCheckpoint (I : Type) where
  id : I
  source : CheckpointSource
  parent : Option I

/-- A checkpoint of a subgraph. -/
structure SubCheckpoint (I : Type) where
  ns : String
  id : I
  deriving DecidableEq

section
variable {I : Type}

def CheckpointSource.isFork : CheckpointSource → Bool
  | .update | .fork => true
  | .input | .loop => false

/-- The id that subgraphs look below: a fork stands for the checkpoint it was made from. -/
def replayCheckpointId (c : ParentCheckpoint I) : I :=
  if c.source.isFork then c.parent.getD c.id else c.id

/-- The checkpoint and metadata of the parent after `_first` has taken up `c`: going on
    from it makes a fork, new input an input checkpoint, both with the id `newId`.
    Only a checkpoint that is saved moves `prev_checkpoint_config`. -/
def enterReplay (c : ParentCheckpoint I) (durability : Durability) (resuming : Bool) (newId : I) :
    ParentCheckpoint I :=
  let prev := if durability = .exit then c.parent else some c.id
  if resuming then
    if c.source.isFork then c else ⟨newId, .fork, prev⟩
  else ⟨newId, .input, prev⟩

/-- `checkpoint_ns.rsplit(":", 1)[0]`. -/
def stableNs (ns : String) : String :=
  if ':' ∈ ns.toList then
    String.ofList ((ns.toList.reverse.dropWhile (· ≠ ':')).drop 1).reverse
  else ns

variable [LinearOrder I]

/-- `get_tuple`: the newest checkpoint of a namespace. -/
def newest (store : List (SubCheckpoint I)) (ns : String) : Option I :=
  ((store.filter fun s => s.ns = ns).map fun s => s.id).max?

/-- `list` with `limit = 1`: the newest one with an id below `before`. -/
def newestBefore (store : List (SubCheckpoint I)) (before : I) (ns : String) : Option I :=
  newest (store.filter fun s => s.id < before) ns

structure ReplayState (I : Type) where
  checkpointId : I
  visitedNs : List String

namespace ReplayState

def isFirstVisit (s : ReplayState I) (ns : String) : Bool × ReplayState I :=
  if stableNs ns ∈ s.visitedNs then (false, s)
  else (true, { s with visitedNs := s.visitedNs ++ [stableNs ns] })

def getCheckpoint (s : ReplayState I) (store : List (SubCheckpoint I)) (ns : String) :
    Option I × ReplayState I :=
  let (first, s') := s.isFirstVisit ns
  (if first then newestBefore store s.checkpointId ns else newest store ns, s')

end ReplayState

/-- What the subgraphs of a branch see: the saver, and the replay state of the
    invocation, if it replays. -/
structure ReplayWorld (I : Type) where
  store : List (SubCheckpoint I)
  replayState : Option (ReplayState I)

/-- The checkpoint that a subgraph with the namespace `ns` starts from. -/
def ReplayWorld.enter (w : ReplayWorld I) (ns : String) : Option I × ReplayWorld I :=
  match w.replayState with
  | some s =>
    let (saved, s') := s.getCheckpoint w.store ns
    (saved, { w with replayState := some s' })
  | none => (newest w.store ns, w)

/-- What happens on a replayed branch, in any order of its subgraphs: a loop starts, a
    loop saves a checkpoint, and the thread is invoked again without a checkpoint id. -/
inductive BranchEvent (I : Type) where
  | visit (ns : String)
  | save (ns : String) (id : I)
  | invoke
  deriving DecidableEq

def ReplayWorld.step (w : ReplayWorld I) : BranchEvent I → ReplayWorld I
  | .visit ns => (w.enter ns).2
  | .save ns id => { w with store := w.store ++ [⟨ns, id⟩] }
  | .invoke => { w with replayState := none }

/-- A replay of the parent from `c`, on the checkpoints `original` of the subgraphs. -/
structure Replay (I : Type) where
  original : List (SubCheckpoint I)
  c : ParentCheckpoint I
  durability : Durability
  resuming : Bool
  newId : I

namespace Replay

def start (r : Replay I) : ReplayWorld I :=
  ⟨r.original, some ⟨replayCheckpointId (enterReplay r.c r.durability r.resuming r.newId), []⟩⟩

def after (r : Replay I) (events : List (BranchEvent I)) : ReplayWorld I :=
  events.foldl ReplayWorld.step r.start

/-- The checkpoint that the loop visiting `ns` after the events starts from. -/
def finds (r : Replay I) (events : List (BranchEvent I)) (ns : String) : Option I :=
  ((r.after events).enter ns).1

end Replay

/-- The checkpoints that the branch saves. -/
def savedBy (events : List (BranchEvent I)) : List (SubCheckpoint I) :=
  events.filterMap fun
    | .save ns id => some ⟨ns, id⟩
    | _ => none

/-- The namespaces that the branch visits. -/
def visitsOf (events : List (BranchEvent I)) : List String :=
  events.filterMap fun
    | .visit ns => some ns
    | _ => none

namespace Replay

/-- What the subgraph ought to find: the checkpoint that the branch itself saved last,
    else the newest one before the replay point. -/
def restored (r : Replay I) (events : List (BranchEvent I)) (ns : String) : Option I :=
  match ((savedBy events).filter fun s => s.ns = ns).getLast? with
  | some s => some s.id
  | none => newestBefore r.original (replayCheckpointId r.c) ns

/-- A loop saves only in a namespace that it has visited, under a fresh id. -/
def Allowed (r : Replay I) (before : List (BranchEvent I)) : BranchEvent I → Prop
  | .save ns id => ns ∈ visitsOf before ∧ ∀ s ∈ r.original ++ savedBy before, s.id < id
  | _ => True

instance (r : Replay I) (before : List (BranchEvent I)) (e : BranchEvent I) :
    Decidable (r.Allowed before e) := by
  cases e <;> unfold Allowed <;> infer_instance

/-- A branch that the code can run through. -/
structure Valid (r : Replay I) (events : List (BranchEvent I)) : Prop where
  newId : ∀ o ∈ r.original, o.id < r.newId
  parent : ∀ p ∈ r.c.parent, p < r.c.id
  allowed : Machine.Along (fun before e => before ++ [e]) r.Allowed [] events

/-- The first visit under its key in the invocation that replays. -/
def IsFirst (events : List (BranchEvent I)) (ns : String) : Prop :=
  .invoke ∉ events ∧ stableNs ns ∉ (visitsOf events).map stableNs

/-- The original execution saved nothing in the namespace after the replay point. -/
def NothingAfter (r : Replay I) (ns : String) : Prop :=
  ∀ o ∈ r.original, o.ns = ns → o.id < replayCheckpointId r.c

/-- A first visit looks below the replay point, except after new input, which moves the
    bound to the input checkpoint, and with the durability `exit`, where the fork is not
    saved and the bound is the parent of the checkpoint, if it has one. -/
def FirstRestores (r : Replay I) (ns : String) : Prop :=
  if r.resuming then
    if r.c.source.isFork ∨ r.durability ≠ .exit then True
    else match r.c.parent with
      | some p => ∀ o ∈ r.original, o.ns = ns → o.id < r.c.id → o.id < p
      | none => r.NothingAfter ns
  else r.NothingAfter ns

def VisitRestores (r : Replay I) (events : List (BranchEvent I)) (ns : String) : Prop :=
  (IsFirst events ns → r.FirstRestores ns) ∧
    (¬ IsFirst events ns → ns ∈ (savedBy events).map SubCheckpoint.ns ∨ r.NothingAfter ns)

end Replay

/-! ## Keys -/

/-- All calls of all tasks that one loop makes of a node have one key: what follows the
    last colon is the id of the task and the counter of the call. -/
theorem stableNs_loopNs (taskId : String → List String → String)
    (hid : ∀ ns parts, ':' ∉ (taskId ns parts).toList) (parentNs : String) (t : TaskLabel)
    (cnt : Nat) : stableNs (loopNs (taskNs taskId parentNs t) cnt) =
      if parentNs = "" then t.name else parentNs ++ "|" ++ t.name := by
  have hcut : ∀ a b : List Char, ':' ∉ b →
      (((a ++ ':' :: b).reverse.dropWhile (· ≠ ':')).drop 1).reverse = a := by
    intro a b hb
    have hrev : ∀ c ∈ b.reverse, decide (c ≠ ':') = true := by
      intro c hc
      apply decide_eq_true
      rintro rfl
      exact hb (List.mem_reverse.mp hc)
    rw [List.reverse_append, List.reverse_cons, List.append_assoc,
      List.dropWhile_append_of_pos hrev]
    simp
  have hkey : ∀ node tail : String, ':' ∉ tail.toList → stableNs (node ++ ":" ++ tail) = node := by
    intro node tail htail
    have hlist : (node ++ ":" ++ tail).toList = node.toList ++ ':' :: tail.toList := by simp
    rw [stableNs, hlist, if_pos (by simp), hcut _ _ htail, String.ofList_toList]
  generalize hnode : (if parentNs = "" then t.name else parentNs ++ "|" ++ t.name) = node
  have htask : taskNs taskId parentNs t = node ++ ":" ++ taskId node t.parts := by
    rw [taskNs, hnode]
  rw [htask, loopNs]
  by_cases hcnt : cnt = 0
  · rw [if_pos hcnt]
    exact hkey _ _ (hid _ _)
  · rw [if_neg hcnt, String.append_assoc, String.append_assoc]
    apply hkey
    have hdigits := colon_notMem_toString cnt
    have hsep : ':' ∉ ("|" : String).toList := by decide
    rw [String.toList_append, String.toList_append, List.mem_append, List.mem_append]
    have := hid node t.parts
    tauto

/-! ## The newest checkpoint -/

theorem newest_eq_some_iff {store : List (SubCheckpoint I)} {ns : String} {i : I} :
    newest store ns = some i ↔
      (∃ s ∈ store, s.ns = ns ∧ s.id = i) ∧ ∀ s ∈ store, s.ns = ns → s.id ≤ i := by
  rw [newest, List.max?_eq_some_iff]
  simp only [List.mem_map, List.mem_filter, decide_eq_true_eq, forall_exists_index, and_imp,
    and_assoc]
  apply and_congr_right
  intro _
  constructor
  · intro h s hs hns
    exact h s.id s hs hns rfl
  · rintro h _ s hs hns rfl
    exact h s hs hns

theorem newest_eq_none_iff {store : List (SubCheckpoint I)} {ns : String} :
    newest store ns = none ↔ ∀ s ∈ store, s.ns ≠ ns := by
  simp [newest]

/-- Two bounds show the same newest checkpoint only when they show the same checkpoints. -/
theorem newest_filter_eq_iff {store : List (SubCheckpoint I)} {ns : String} {p q : I → Bool}
    (hp : ∀ i j, i ≤ j → p j = true → p i = true) (hq : ∀ i j, i ≤ j → q j = true → q i = true) :
    newest (store.filter fun s => p s.id) ns = newest (store.filter fun s => q s.id) ns ↔
      ∀ s ∈ store, s.ns = ns → (p s.id = true ↔ q s.id = true) := by
  have himp : ∀ {p q : I → Bool}, (∀ i j, i ≤ j → q j = true → q i = true) →
      newest (store.filter fun s => p s.id) ns = newest (store.filter fun s => q s.id) ns →
      ∀ s ∈ store, s.ns = ns → p s.id = true → q s.id = true := by
    intro p q hq heq s hs hns hps
    have hmem : s ∈ store.filter fun s => p s.id := List.mem_filter.mpr ⟨hs, hps⟩
    cases hnew : newest (store.filter fun s => p s.id) ns with
    | none => exact absurd hns (newest_eq_none_iff.mp hnew s hmem)
    | some i =>
      -- the newest one shown lies above `s`, and `q` shows it too
      obtain ⟨⟨t, ht, -, hti⟩, -⟩ := newest_eq_some_iff.mp (heq.symm.trans hnew)
      apply hq _ _ ((newest_eq_some_iff.mp hnew).2 s hmem hns)
      rw [← hti]
      exact (List.mem_filter.mp ht).2
  constructor
  · intro heq s hs hns
    exact ⟨himp hq heq s hs hns, himp hp heq.symm s hs hns⟩
  · intro hiff
    have hsame : (store.filter fun s => p s.id).filter (fun s => s.ns = ns) =
        (store.filter fun s => q s.id).filter fun s => s.ns = ns := by
      rw [List.filter_filter, List.filter_filter]
      apply List.filter_congr
      intro s hs
      by_cases hns : s.ns = ns
      · have := hiff s hs hns
        cases hps : p s.id <;> cases hqs : q s.id <;> simp_all
      · simp [hns]
    rw [newest, newest, hsame]

theorem newest_append_of_ne {store saved : List (SubCheckpoint I)} {ns : String}
    (h : ∀ s ∈ saved, s.ns ≠ ns) : newest (store ++ saved) ns = newest store ns := by
  have hnil : saved.filter (fun s => s.ns = ns) = [] := by
    rw [List.filter_eq_nil_iff]
    intro s hs
    simpa using h s hs
  rw [newest, List.filter_append, hnil, List.append_nil, newest]

/-- Above everything older, the newest checkpoint of a namespace is the one saved last. -/
theorem newest_append_of_getLast {store saved : List (SubCheckpoint I)} {ns : String}
    {s : SubCheckpoint I} (hsorted : saved.Pairwise fun a b => a.id < b.id)
    (habove : ∀ a ∈ store, ∀ b ∈ saved, a.id < b.id)
    (hlast : (saved.filter fun s => s.ns = ns).getLast? = some s) :
    newest (store ++ saved) ns = some s.id := by
  obtain ⟨before, hbefore⟩ := List.getLast?_eq_some_iff.mp hlast
  have hmem : s ∈ saved.filter fun s => s.ns = ns := List.mem_of_getLast? hlast
  obtain ⟨hs, hns⟩ := List.mem_filter.mp hmem
  rw [newest_eq_some_iff]
  refine ⟨⟨s, List.mem_append_right _ hs, of_decide_eq_true hns, rfl⟩, ?_⟩
  intro t ht htns
  rcases List.mem_append.mp ht with ht | ht
  · exact (habove t ht s hs).le
  · have htf : t ∈ before ++ [s] := by
      rw [← hbefore]
      exact List.mem_filter.mpr ⟨ht, by simpa using htns⟩
    rcases List.mem_append.mp htf with htb | hts
    · have hpair := hsorted.filter fun s => s.ns = ns
      rw [hbefore] at hpair
      exact ((List.pairwise_append.mp hpair).2.2 t htb s (List.mem_singleton_self s)).le
    · rw [List.mem_singleton.mp hts]

/-! ## Runs -/

omit [LinearOrder I] in
theorem savedBy_append (a b : List (BranchEvent I)) : savedBy (a ++ b) = savedBy a ++ savedBy b :=
  List.filterMap_append

omit [LinearOrder I] in
theorem visitsOf_append (a b : List (BranchEvent I)) :
    visitsOf (a ++ b) = visitsOf a ++ visitsOf b :=
  List.filterMap_append

namespace Replay
variable {r : Replay I}

theorem after_append (events : List (BranchEvent I)) (e : BranchEvent I) :
    r.after (events ++ [e]) = (r.after events).step e := by
  simp [after]

theorem after_store (events : List (BranchEvent I)) :
    (r.after events).store = r.original ++ savedBy events := by
  induction events using List.reverseRecOn with
  | nil => simp [after, start, savedBy]
  | append_singleton events e ih =>
    rw [after_append, savedBy_append, ← List.append_assoc, ← ih]
    cases e with
    | visit ns =>
      simp only [ReplayWorld.step, ReplayWorld.enter, savedBy]
      split <;> simp
    | save ns id => rfl
    | invoke => simp [ReplayWorld.step, savedBy]

/-- The id below which first visits look. -/
def bound (r : Replay I) : I := replayCheckpointId (enterReplay r.c r.durability r.resuming r.newId)

/-- The replay state lives until the next invocation and has the keys of the visits. -/
theorem after_replayState (events : List (BranchEvent I)) :
    (.invoke ∈ events → (r.after events).replayState = none) ∧
      (.invoke ∉ events → ∃ visited, (r.after events).replayState = some ⟨r.bound, visited⟩ ∧
        ∀ key, key ∈ visited ↔ key ∈ (visitsOf events).map stableNs) := by
  induction events using List.reverseRecOn with
  | nil =>
    refine ⟨fun h => by simp at h, fun _ => ⟨[], rfl, ?_⟩⟩
    simp [visitsOf]
  | append_singleton events e ih =>
    rw [after_append, visitsOf_append]
    cases e with
    | save ns id => simpa [ReplayWorld.step, visitsOf] using ih
    | invoke => simp [ReplayWorld.step]
    | visit ns =>
      have hone : visitsOf [BranchEvent.visit (I := I) ns] = [ns] := rfl
      simp only [List.mem_append, List.mem_singleton, reduceCtorEq, or_false, hone, List.map_append,
        List.map_cons, List.map_nil]
      constructor
      · intro h
        simp [ReplayWorld.step, ReplayWorld.enter, ih.1 h]
      · intro h
        obtain ⟨visited, hstate, hvisited⟩ := ih.2 h
        simp only [ReplayWorld.step, ReplayWorld.enter, hstate, ReplayState.getCheckpoint,
          ReplayState.isFirstVisit]
        split
        · rename_i hmem
          refine ⟨visited, rfl, ?_⟩
          intro key
          rw [hvisited]
          constructor
          · exact Or.inl
          · rintro (hkey | rfl)
            · exact hkey
            · exact (hvisited _).mp hmem
        · refine ⟨visited ++ [stableNs ns], rfl, ?_⟩
          intro key
          rw [List.mem_append, hvisited, List.mem_singleton]

/-- A first visit looks below the bound, any other one takes the newest checkpoint. -/
theorem finds_of_isFirst {events : List (BranchEvent I)} {ns : String} (h : IsFirst events ns) :
    r.finds events ns = newestBefore (r.original ++ savedBy events) r.bound ns := by
  obtain ⟨visited, hstate, hvisited⟩ := (after_replayState (r := r) events).2 h.1
  have hkey : stableNs ns ∉ visited := by
    intro hmem
    exact h.2 ((hvisited _).mp hmem)
  rw [finds, ReplayWorld.enter, hstate, after_store]
  simp [ReplayState.getCheckpoint, ReplayState.isFirstVisit, hkey]

theorem finds_of_not_isFirst {events : List (BranchEvent I)} {ns : String}
    (h : ¬ IsFirst events ns) : r.finds events ns = newest (r.original ++ savedBy events) ns := by
  rw [finds, ReplayWorld.enter, after_store]
  by_cases hinvoke : .invoke ∈ events
  · rw [(after_replayState events).1 hinvoke]
  · obtain ⟨visited, hstate, hvisited⟩ := (after_replayState (r := r) events).2 hinvoke
    have hkey : stableNs ns ∈ visited := by
      by_contra hkey
      apply h
      exact ⟨hinvoke, fun hmem => hkey ((hvisited _).mpr hmem)⟩
    rw [hstate]
    simp [ReplayState.getCheckpoint, ReplayState.isFirstVisit, hkey]

theorem Valid.saved {events before : List (BranchEvent I)} (h : r.Valid events)
    (hpre : before <+: events) :
    (∀ s ∈ savedBy before, s.ns ∈ visitsOf before) ∧
      (∀ a ∈ r.original, ∀ b ∈ savedBy before, a.id < b.id) ∧
      (savedBy before).Pairwise fun a b => a.id < b.id := by
  induction before using List.reverseRecOn with
  | nil => simp [savedBy]
  | append_singleton before e ih =>
    obtain ⟨hvisit, habove, hsorted⟩ := ih ((List.prefix_append before [e]).trans hpre)
    have hallowed := h.allowed.history before e hpre
    rw [savedBy_append, visitsOf_append]
    cases e with
    | save ns id =>
      obtain ⟨hns, hfresh⟩ := hallowed
      have hone : savedBy [BranchEvent.save ns id] = [⟨ns, id⟩] := rfl
      rw [hone]
      refine ⟨?_, ?_, ?_⟩
      · intro s hs
        apply List.mem_append_left
        rcases List.mem_append.mp hs with hs | hs
        · exact hvisit s hs
        · rw [List.mem_singleton.mp hs]
          exact hns
      · intro a ha b hb
        rcases List.mem_append.mp hb with hb | hb
        · exact habove a ha b hb
        · rw [List.mem_singleton.mp hb]
          exact hfresh a (List.mem_append_left _ ha)
      · rw [List.pairwise_append]
        refine ⟨hsorted, List.pairwise_singleton _ _, ?_⟩
        intro a ha b hb
        rw [List.mem_singleton.mp hb]
        exact hfresh a (List.mem_append_right _ ha)
    | visit ns =>
      have hnone : savedBy [BranchEvent.visit (I := I) ns] = [] := rfl
      rw [hnone, List.append_nil]
      exact ⟨fun s hs => List.mem_append_left _ (hvisit s hs), habove, hsorted⟩
    | invoke =>
      have hnone : savedBy [BranchEvent.invoke (I := I)] = [] := rfl
      rw [hnone, List.append_nil]
      exact ⟨fun s hs => List.mem_append_left _ (hvisit s hs), habove, hsorted⟩

/-- A first visit is answered from below the replay point when the bound and the replay
    point have the same checkpoints of the namespace below them. -/
theorem firstRestores_iff (hnew : ∀ o ∈ r.original, o.id < r.newId)
    (hparent : ∀ p ∈ r.c.parent, p < r.c.id) {ns : String} :
    r.FirstRestores ns ↔
      ∀ o ∈ r.original, o.ns = ns → (o.id < r.bound ↔ o.id < replayCheckpointId r.c) := by
  have hafter : (∀ o ∈ r.original, o.ns = ns → (o.id < r.newId ↔ o.id < replayCheckpointId r.c)) ↔
      r.NothingAfter ns := by
    constructor
    · intro h o ho hns
      exact (h o ho hns).mp (hnew o ho)
    · intro h o ho hns
      exact ⟨fun _ => h o ho hns, fun _ => hnew o ho⟩
  rw [FirstRestores, bound, enterReplay]
  by_cases hres : r.resuming = true
  · rw [if_pos hres, if_pos hres]
    by_cases hfork : r.c.source.isFork = true
    · rw [if_pos (Or.inl hfork), if_pos hfork]
      simp
    · have hpoint : replayCheckpointId r.c = r.c.id := by
        rw [replayCheckpointId, if_neg hfork]
      rw [if_neg hfork]
      by_cases hexit : r.durability = .exit
      · rw [if_neg (by simp [hfork, hexit]), if_pos hexit]
        cases hp : r.c.parent with
        | none =>
          rw [← hafter]
          simp [replayCheckpointId, CheckpointSource.isFork]
        | some p =>
          have hlt : p < r.c.id := hparent p hp
          rw [hpoint]
          constructor
          · intro h o ho hns
            exact ⟨fun hop => hop.trans hlt, fun hoc => h o ho hns hoc⟩
          · intro h o ho hns hoc
            exact (h o ho hns).mpr hoc
      · rw [if_pos (Or.inr hexit), if_neg hexit, hpoint]
        simp [replayCheckpointId, CheckpointSource.isFork]
  · rw [if_neg hres, if_neg hres, ← hafter]
    simp [replayCheckpointId, CheckpointSource.isFork]

/-- One visit finds what it ought to. -/
theorem Valid.finds_eq_iff {events before : List (BranchEvent I)} (h : r.Valid events)
    (hpre : before <+: events) {ns : String} :
    r.finds before ns = r.restored before ns ↔ r.VisitRestores before ns := by
  obtain ⟨hvisit, habove, hsorted⟩ := h.saved hpre
  have hnone : (∀ s ∈ savedBy before, s.ns ≠ ns) →
      r.restored before ns = newestBefore r.original (replayCheckpointId r.c) ns := by
    intro hne
    have hnil : (savedBy before).filter (fun s => s.ns = ns) = [] := by
      rw [List.filter_eq_nil_iff]
      intro s hs
      simpa using hne s hs
    rw [restored, hnil, List.getLast?_nil]
  have hlower : ∀ b i j : I, i ≤ j → decide (j < b) = true → decide (i < b) = true := by
    intro b i j hij hj
    exact decide_eq_true (lt_of_le_of_lt hij (of_decide_eq_true hj))
  by_cases hfirst : IsFirst before ns
  · have hne : ∀ s ∈ savedBy before, s.ns ≠ ns := by
      rintro s hs rfl
      exact hfirst.2 (List.mem_map_of_mem (hvisit s hs))
    rw [finds_of_isFirst hfirst, hnone hne, newestBefore, List.filter_append,
      newest_append_of_ne fun s hs => hne s (List.mem_of_mem_filter hs), newestBefore,
      newest_filter_eq_iff (hlower _) (hlower _)]
    simp only [decide_eq_true_eq]
    rw [← firstRestores_iff h.newId h.parent]
    exact ⟨fun hr => ⟨fun _ => hr, fun hn => absurd hfirst hn⟩, fun hr => hr.1 hfirst⟩
  · rw [finds_of_not_isFirst hfirst]
    have hcond : r.VisitRestores before ns ↔
        ns ∈ (savedBy before).map SubCheckpoint.ns ∨ r.NothingAfter ns :=
      ⟨fun hr => hr.2 hfirst, fun hr => ⟨fun hf => absurd hf hfirst, fun _ => hr⟩⟩
    rw [hcond]
    cases hlast : ((savedBy before).filter fun s => s.ns = ns).getLast? with
    | some s =>
      obtain ⟨hs, hns⟩ := List.mem_filter.mp (List.mem_of_getLast? hlast)
      have hsave : ns ∈ (savedBy before).map SubCheckpoint.ns := by
        rw [← of_decide_eq_true hns]
        exact List.mem_map_of_mem hs
      rw [newest_append_of_getLast hsorted habove hlast, restored, hlast]
      exact ⟨fun _ => Or.inl hsave, fun _ => rfl⟩
    | none =>
      have hne : ∀ s ∈ savedBy before, s.ns ≠ ns := by
        rintro s hs rfl
        rw [List.getLast?_eq_none_iff, List.filter_eq_nil_iff] at hlast
        exact hlast s hs (by simp)
      have hnosave : ns ∉ (savedBy before).map SubCheckpoint.ns := by
        intro hmem
        obtain ⟨s, hs, hns⟩ := List.mem_map.mp hmem
        exact hne s hs hns
      have hall : newest r.original ns =
          newest (r.original.filter fun s => (fun _ => true) s.id) ns := by
        rw [List.filter_true]
      rw [newest_append_of_ne hne, hnone hne, hall, newestBefore,
        newest_filter_eq_iff (fun _ _ _ _ => rfl) (hlower _)]
      simp only [true_iff, decide_eq_true_eq, hnosave, false_or]
      rfl

end Replay

/-- Over any replay and any order of its subgraphs: every visit finds the checkpoint that
    the branch saved last in the namespace, else the newest one before the replay point,
    exactly when every visit meets `VisitRestores`. -/
theorem replay_restores_iff {r : Replay I} {events : List (BranchEvent I)} (h : r.Valid events) :
    (∀ before ns, before ++ [.visit ns] <+: events → r.finds before ns = r.restored before ns) ↔
      ∀ before ns, before ++ [.visit ns] <+: events → r.VisitRestores before ns := by
  have hpre : ∀ {before : List (BranchEvent I)} {e : BranchEvent I}, before ++ [e] <+: events →
      before <+: events := fun hp => (List.prefix_append _ _).trans hp
  constructor
  · intro hfinds before ns hp
    exact (h.finds_eq_iff (hpre hp)).mp (hfinds before ns hp)
  · intro hcond before ns hp
    exact (h.finds_eq_iff (hpre hp)).mpr (hcond before ns hp)

instance (events : List (BranchEvent I)) (ns : String) : Decidable (Replay.IsFirst events ns) :=
  inferInstanceAs (Decidable (_ ∧ _))

end

/-- A thread whose subgraph with `checkpointer=True` saved a checkpoint before and one
    after the replay point, and a branch that visits it in a loop. -/
def loopReplay : Replay ℕ := ⟨[⟨"sub", 4⟩, ⟨"sub", 8⟩], ⟨6, .loop, some 5⟩, .sync, true, 10⟩

def loopBranch : List (BranchEvent ℕ) := [.visit "sub", .save "sub" 11, .invoke, .visit "sub"]

/-- The first visit goes back behind the replay point, the one after a resume goes on. -/
theorem loopBranch_restores :
    loopReplay.finds [] "sub" = loopReplay.restored [] "sub" ∧
      loopReplay.finds [.visit "sub", .save "sub" 11, .invoke] "sub" =
        loopReplay.restored [.visit "sub", .save "sub" 11, .invoke] "sub" := by
  have hvalid : loopReplay.Valid loopBranch := ⟨by decide, by decide, by decide⟩
  suffices hcond : ∀ before ns, before ++ [.visit ns] <+: loopBranch →
      loopReplay.VisitRestores before ns by
    have hfinds := (replay_restores_iff hvalid).mpr hcond
    exact ⟨hfinds _ _ (by simp [loopBranch]), hfinds _ _ (by simp [loopBranch])⟩
  intro before ns hp
  have hfirst : loopReplay.FirstRestores ns := by
    simp [Replay.FirstRestores, loopReplay]
  have hvisits : Machine.Along (fun before e => before ++ [e])
      (fun before e => ∀ ns ∈ visitsOf [e], Replay.IsFirst before ns ∨
        ns ∈ (savedBy before).map SubCheckpoint.ns) [] loopBranch := by
    decide
  refine ⟨fun _ => hfirst, fun hn => Or.inl ?_⟩
  exact (hvisits.history before _ hp ns (List.mem_singleton_self ns)).resolve_left hn

/-- Two tasks of the node `sub` at a checkpoint made by `update_state`, executed once
    with the checkpoints 6 and 7. The checkpoint is replayed: the tasks have their old
    ids, and the second one to start is taken for a later visit of the first. -/
def parallelReplay : Replay ℕ := ⟨[⟨"sub:a", 6⟩, ⟨"sub:b", 7⟩], ⟨5, .update, some 3⟩, .sync, true, 9⟩

def parallelBranch : List (BranchEvent ℕ) := [.visit "sub:a", .save "sub:a" 10, .visit "sub:b"]

theorem parallelBranch_loadsOriginal :
    parallelReplay.Valid parallelBranch ∧
      parallelReplay.finds [.visit "sub:a", .save "sub:a" 10] "sub:b" = some 7 ∧
      parallelReplay.restored [.visit "sub:a", .save "sub:a" 10] "sub:b" = none ∧
      ¬ ∀ before ns, before ++ [.visit ns] <+: parallelBranch →
        parallelReplay.finds before ns = parallelReplay.restored before ns := by
  have hfinds : parallelReplay.finds [.visit "sub:a", .save "sub:a" 10] "sub:b" = some 7 := by
    decide
  have hrestored : parallelReplay.restored [.visit "sub:a", .save "sub:a" 10] "sub:b" = none := by
    decide
  refine ⟨⟨by decide, by decide, by decide⟩, hfinds, hrestored, ?_⟩
  intro h
  have hlast := h [.visit "sub:a", .save "sub:a" 10] "sub:b" (List.prefix_refl parallelBranch)
  rw [hfinds, hrestored] at hlast
  cases hlast

end LangGraph
