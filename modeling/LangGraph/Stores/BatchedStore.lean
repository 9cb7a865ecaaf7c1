import LangGraph.Lib.Machine
import LangGraph.Stores.Dedupe
import LangGraph.Stores.PostgresFilter

/- `AsyncBatchedBaseStore` (`store/base/batch.py`): its queue, the background
   task and the futures of the callers.

   Correspondence (source ↔ Lean):
     `aget`, `asearch`, `alist_namespaces`, `aput`, `adelete` ↔ `Event.call`
     a future is cancelled                          ↔ `Event.cancel`
     `_aqueue`, the futures that are done           ↔ `Background.queue`, `Background.done`
     `_run`, up to `await s.abatch(dedupped)`       ↔ `Event.drain`, `Background.running`
     `abatch` returns, `abatch` raises              ↔ `Event.finish`, `Event.raised`
   The inner `abatch` reads from the content before the batch and then applies
   the last put of each key; one that raises applies nothing. The task is not
   cancelled itself. `linearizable_iff`: every run is linearizable, over every
   inner store, iff no answered read of it was merged into a different one. -/
namespace LangGraph.Stores

abbrev Slot := Namespace × String

/-- What an inner store answers, and what a put leaves under its key. -/
structure InnerStore (τ V R : Type) where
  read : (Slot → Option V) → Op → R
  written : R
  value : τ → PutOp → Option V

namespace InnerStore
variable {τ V R : Type} (inner : InnerStore τ V R)

def answer (content : Slot → Option V) : Op → R
  | .put _ => inner.written
  | op => inner.read content op

def afterPuts (now : τ) (ops : List Op) (content : Slot → Option V) : Slot → Option V := fun k =>
  match lastPut ops k with
  | some p => inner.value now p
  | none => content k

def abatch (now : τ) (ops : List Op) (content : Slot → Option V) : List R × (Slot → Option V) :=
  (ops.map (inner.answer content), inner.afterPuts now ops content)

end InnerStore

/-- An entry of the queue. -/
structure Call where
  fut : Nat
  op : Op
  deriving DecidableEq, Repr

inductive Event (τ : Type) where
  | call (op : Op)
  | cancel (fut : Nat)
  | drain
  | finish (now : τ)
  | raised

structure Background where
  /-- The number of futures so far; the next one has it as its name. -/
  calls : Nat
  queue : List Call
  done : List Nat
  running : Option (List Call)
  deriving DecidableEq, Repr

namespace Background
variable {τ : Type}

def start : Background := ⟨0, [], [], none⟩

/-- An event that cannot happen changes nothing. -/
def step (bg : Background) : Event τ → Background
  | .call op => { bg with calls := bg.calls + 1, queue := bg.queue ++ [⟨bg.calls, op⟩] }
  | .cancel fut => if fut < bg.calls then { bg with done := bg.done ++ [fut] } else bg
  | .drain =>
    match bg.running with
    | some _ => bg
    | none =>
      let items := bg.queue.filter fun c => !bg.done.contains c.fut
      { bg with queue := [], running := if items = [] then none else some items }
  | .finish _ | .raised =>
    match bg.running with
    | some calls => { bg with running := none, done := bg.done ++ calls.map Call.fut }
    | none => bg

/-- Each read whose future waits is the first read of its batch that is equal to
    it, up to the operation itself. -/
def Unmixed (bg : Background) : Event τ → Prop
  | .finish _ => ∀ calls ∈ bg.running, ∀ c ∈ calls.zipIdx, c.1.fut ∉ bg.done → c.1.op.isPut = false →
      ∀ e ∈ ((calls.take c.2).map Call.op).find? (fun e => e.pyEq c.1.op), e = c.1.op
  | _ => True

end Background

/-- What the callers see. -/
inductive Mark (R : Type) where
  | called (fut : Nat) (op : Op)
  | received (fut : Nat) (result : R)

structure System (τ V R : Type) where
  bg : Background
  content : Slot → Option V
  history : List (Mark R)
  /-- The operations of the batches that ran, and when. -/
  executed : List (Call × τ)

namespace System
variable {τ V R : Type} (inner : InnerStore τ V R)

def start (init : Slot → Option V) : System τ V R := ⟨Background.start, init, [], []⟩

/-- The results for the futures of the batch, and the content after it. -/
def runBatch (now : τ) (calls : List Call) (content : Slot → Option V) : List R × (Slot → Option V) :=
  let (listen, dedupped) := dedupeOps (calls.map Call.op)
  let (results, content) := inner.abatch now dedupped content
  (scatter listen results, content)

/-- A future that is done takes no result. -/
def marks (done : List Nat) (calls : List Call) (results : List R) : List (Mark R) :=
  (calls.zip results).filterMap fun x =>
    if done.contains x.1.fut then none else some (.received x.1.fut x.2)

def step (s : System τ V R) (e : Event τ) : System τ V R :=
  let bg := s.bg.step e
  match e with
  | .call op => { s with bg, history := s.history ++ [.called s.bg.calls op] }
  | .finish now =>
    match s.bg.running with
    | some calls =>
      let (results, content) := runBatch inner now calls s.content
      { bg, content
        history := s.history ++ marks s.bg.done calls results
        executed := s.executed ++ calls.map (·, now) }
    | none => { s with bg }
  | _ => { s with bg }

def run (init : Slot → Option V) (es : List (Event τ)) : System τ V R :=
  es.foldl (step inner) (start init)

/-- The operations one after the other: their results and the content after them. -/
def replay : (Slot → Option V) → List (Call × τ) → List (Nat × R) × (Slot → Option V)
  | content, [] => ([], content)
  | content, (c, now) :: rest =>
    let (results, content) := inner.abatch now [c.op] content
    let (others, content) := replay content rest
    (results.map (c.fut, ·) ++ others, content)

/-- The future `a` had its result when the operation of `b` was called. -/
def Before (s : System τ V R) (a b : Nat) : Prop :=
  ∃ result op, [Mark.received a result, Mark.called b op].Sublist s.history

/-- There is one order of the executed operations, consistent with real time, in which
    each has the result that its future received and which ends in the content. -/
def Linearizable (init : Slot → Option V) (s : System τ V R) : Prop :=
  ∃ order : List (Call × τ), order.Perm s.executed ∧ (order.map fun x => x.1.fut).Nodup ∧
    (order.Pairwise fun x y => ¬s.Before y.1.fut x.1.fut) ∧
    (∀ fut result, Mark.received fut result ∈ s.history → (fut, result) ∈ (replay inner init order).1) ∧
    (replay inner init order).2 = s.content

/-- Each future that is waiting receives what the store answers to its own operation. -/
def OwnResults (s : System τ V R) : Event τ → Prop
  | .finish now => ∀ calls ∈ s.bg.running, ∀ x ∈ calls.zip (runBatch inner now calls s.content).1,
      x.1.fut ∉ s.bg.done → x.2 = inner.answer s.content x.1.op
  | _ => True

/-! ## One batch -/

variable {inner}

theorem replay_append (content : Slot → Option V) : ∀ a b : List (Call × τ),
    replay inner content (a ++ b) =
      ((replay inner content a).1 ++ (replay inner (replay inner content a).2 b).1,
        (replay inner (replay inner content a).2 b).2) := by
  intro a b
  induction a generalizing content with
  | nil => rfl
  | cons x a ih =>
    obtain ⟨c, now⟩ := x
    simp only [List.cons_append, replay, ih, List.append_assoc]

theorem answer_of_read {op : Op} (h : op.isPut = false) (content : Slot → Option V) :
    inner.answer content op = inner.read content op := by
  cases op <;> first | rfl | cases h

theorem afterPuts_read (now : τ) {op : Op} (h : op.isPut = false) (content : Slot → Option V) :
    inner.afterPuts now [op] content = content := by
  funext k
  unfold InnerStore.afterPuts
  rw [lastPut_read h]

variable (inner) in
theorem afterPuts_append (now : τ) (a b : List Op) (content : Slot → Option V) :
    inner.afterPuts now (a ++ b) content = inner.afterPuts now b (inner.afterPuts now a content) := by
  funext k
  unfold InnerStore.afterPuts
  rw [lastPut_append]
  cases lastPut b k <;> rfl

/-- The puts alone decide what is left. -/
theorem lastPut_filter (ops : List Op) (k : Slot) :
    lastPut (ops.filter Op.isPut) k = lastPut ops k := by
  unfold lastPut
  rw [← List.filter_reverse, List.filterMap_filter]
  congr 1
  refine List.filterMap_congr fun op _ => ?_
  cases op <;> rfl

/-- Reads, one after the other. -/
theorem replay_reads (now : τ) (content : Slot → Option V) : ∀ {calls : List Call},
    (∀ c ∈ calls, c.op.isPut = false) →
      replay inner content (calls.map (·, now)) =
        (calls.map fun c => (c.fut, inner.answer content c.op), content)
  | [], _ => rfl
  | c :: calls, h => by
    rw [List.forall_mem_cons] at h
    simp only [List.map_cons, replay, InnerStore.abatch, afterPuts_read now h.1, List.map_nil,
      replay_reads now content h.2, List.cons_append, List.nil_append]

/-- Puts, one after the other. -/
theorem replay_puts (now : τ) : ∀ {calls : List Call} (content : Slot → Option V),
    (∀ c ∈ calls, c.op.isPut = true) →
      replay inner content (calls.map (·, now)) =
        (calls.map fun c => (c.fut, inner.written), inner.afterPuts now (calls.map Call.op) content)
  | [], _, _ => rfl
  | ⟨fut, op⟩ :: calls, content, h => by
    rw [List.forall_mem_cons] at h
    cases op with
    | put p =>
      have happend := afterPuts_append inner now [.put p] (calls.map Call.op) content
      simp only [List.map_cons, replay, InnerStore.abatch, InnerStore.answer, List.map_nil,
        replay_puts now _ h.2, List.cons_append, List.nil_append] at happend ⊢
      rw [happend]
    | _ => cases h.1

/-- The order in which a batch counts: its reads, then its puts. -/
def batchOrder (now : τ) (calls : List Call) : List (Call × τ) :=
  ((calls.filter fun c => !c.op.isPut) ++ calls.filter fun c => c.op.isPut).map (·, now)

theorem perm_batchOrder (now : τ) (calls : List Call) :
    (batchOrder now calls).Perm (calls.map (·, now)) := by
  refine List.Perm.map _ ?_
  refine List.perm_append_comm.trans ?_
  exact List.filter_append_perm (fun c => c.op.isPut) calls

variable (inner) in
/-- What a batch amounts to. -/
theorem replay_batchOrder (now : τ) (calls : List Call) (content : Slot → Option V) :
    (replay inner content (batchOrder now calls)).2 = (runBatch inner now calls content).2 ∧
      ∀ c ∈ calls, (c.fut, inner.answer content c.op) ∈ (replay inner content (batchOrder now calls)).1 := by
  have hreads : ∀ c ∈ calls.filter fun c => !c.op.isPut, c.op.isPut = false := by
    intro c hc
    simpa using (List.mem_filter.mp hc).2
  have hputs : ∀ c ∈ calls.filter fun c => c.op.isPut, c.op.isPut = true := by
    intro c hc
    exact (List.mem_filter.mp hc).2
  unfold batchOrder
  rw [List.map_append, replay_append, replay_reads now content hreads, replay_puts now content hputs]
  refine ⟨?_, ?_⟩
  · funext k
    show (match lastPut ((calls.filter fun c => c.op.isPut).map Call.op) k with
      | some p => inner.value now p
      | none => content k) =
      match lastPut (dedupeOps (calls.map Call.op)).2 k with
      | some p => inner.value now p
      | none => content k
    rw [lastPut_dedupeOps, ← lastPut_filter (calls.map Call.op), List.filter_map]
    rfl
  · intro c hc
    rw [List.mem_append]
    cases hop : c.op.isPut with
    | false =>
      refine Or.inl (List.mem_map.mpr ⟨c, List.mem_filter.mpr ⟨hc, ?_⟩, rfl⟩)
      rw [hop]
      rfl
    | true =>
      refine Or.inr (List.mem_map.mpr ⟨c, List.mem_filter.mpr ⟨hc, hop⟩, ?_⟩)
      obtain ⟨fut, op⟩ := c
      cases op with
      | put p => rfl
      | _ => cases hop

variable (inner) in
/-- The result that a future of the batch gets. -/
theorem getElem?_runBatch (now : τ) (calls : List Call) (content : Slot → Option V) :
    (runBatch inner now calls content).1.length = calls.length ∧
      ∀ (i : Nat) (c : Call), calls[i]? = some c →
        (runBatch inner now calls content).1[i]? = some (inner.answer content
          (if c.op.isPut then c.op
            else Dedupe.representative ((calls.take i).map Call.op) c.op)) := by
  obtain ⟨hlen, hget⟩ := scatter_dedupeOps (inner.answer content) (fun _ _ => rfl) (calls.map Call.op)
  refine ⟨by rw [List.length_map] at hlen; exact hlen, ?_⟩
  intro i c hc
  rw [List.map_take]
  exact hget i c.op (by rw [List.getElem?_map, hc]; rfl)

/-! ## Runs -/

variable (inner) in
theorem bg_step (s : System τ V R) (e : Event τ) : (step inner s e).bg = s.bg.step e := by
  cases e with
  | finish now =>
    unfold step
    cases s.bg.running <;> rfl
  | _ => rfl

/-- The futures that have been called and whose operations are not executed yet. -/
def waiting (bg : Background) : List Call := bg.running.getD [] ++ bg.queue

/-- A step of the background task drops entries or moves them, and a call adds one. -/
theorem waiting_step (bg : Background) (e : Event τ) :
    (waiting (bg.step e)).Sublist (waiting bg) ∨
      ∃ op, e = .call op ∧ waiting (bg.step e) = waiting bg ++ [⟨bg.calls, op⟩] := by
  cases e with
  | call op => exact Or.inr ⟨op, rfl, (List.append_assoc ..).symm⟩
  | cancel fut =>
    left
    show (waiting (if fut < bg.calls then { bg with done := bg.done ++ [fut] } else bg)).Sublist _
    split <;> exact List.Sublist.refl _
  | drain =>
    left
    unfold Background.step waiting
    cases h : bg.running with
    | some calls => simp [h]
    | none =>
      have hfilter : (bg.queue.filter fun c => !bg.done.contains c.fut).Sublist bg.queue :=
        List.filter_sublist
      show ((if bg.queue.filter (fun c : Call => !bg.done.contains c.fut) = [] then none
        else some (bg.queue.filter fun c : Call => !bg.done.contains c.fut)).getD [] ++ []).Sublist
          ([] ++ bg.queue)
      rw [List.append_nil, List.nil_append]
      split
      · exact List.nil_sublist _
      · exact hfilter
  | finish now =>
    left
    unfold Background.step waiting
    cases h : bg.running with
    | some calls => exact List.sublist_append_right ..
    | none => simp [h]
  | raised =>
    left
    unfold Background.step waiting
    cases h : bg.running with
    | some calls => exact List.sublist_append_right ..
    | none => simp [h]

variable (inner) in
/-- The futures are told apart, and the executed operations have an order. -/
structure Inv (init : Slot → Option V) (s : System τ V R) : Prop where
  nodup : ((s.executed.map Prod.fst ++ waiting s.bg).map Call.fut).Nodup
  named : ∀ c ∈ s.executed.map Prod.fst ++ waiting s.bg, c.fut < s.bg.calls
  received : ∀ fut result, Mark.received fut result ∈ s.history → fut ∈ s.executed.map fun x => x.1.fut
  linear : Linearizable inner init s

theorem inv_start (init : Slot → Option V) : Inv inner init (start init : System τ V R) where
  nodup := List.nodup_nil
  named _ h := nomatch h
  received _ _ h := nomatch h
  linear := ⟨[], List.Perm.refl _, List.nodup_nil, List.Pairwise.nil, (fun _ _ h => nomatch h), rfl⟩

theorem mem_marks {done : List Nat} {calls : List Call} {results : List R} {m : Mark R}
    (h : m ∈ marks done calls results) :
    ∃ x ∈ calls.zip results, x.1.fut ∉ done ∧ m = .received x.1.fut x.2 := by
  obtain ⟨x, hx, he⟩ := List.mem_filterMap.mp h
  split at he
  · cases he
  · next hdone =>
    refine ⟨x, hx, ?_, (Option.some.inj he).symm⟩
    simpa using hdone

/-- A call comes after what was received before it, and after nothing else. -/
theorem before_append {history more : List (Mark R)} {a b : Nat} {result : R} {op : Op}
    (h : [Mark.received a result, Mark.called b op].Sublist (history ++ more))
    (hmore : Mark.called b op ∉ more) :
    [Mark.received a result, Mark.called b op].Sublist history := by
  obtain ⟨l₁, l₂, heq, h₁, h₂⟩ := List.sublist_append_iff.mp h
  have hnil : l₂ = [] := by
    cases l₂ with
    | nil => rfl
    | cons m l₂ =>
      have hlast : Mark.called b op ∈ m :: l₂ := by
        have hget : (l₁ ++ m :: l₂).getLast? = some (.called b op) := by rw [← heq]; rfl
        rw [List.getLast?_append_cons] at hget
        exact List.mem_of_getLast? hget
      exact absurd (h₂.subset hlast) hmore
  rw [hnil, List.append_nil] at heq
  rw [heq]
  exact h₁

theorem Inv.idle {init : Slot → Option V} {s s' : System τ V R} (h : Inv inner init s)
    (hwaiting : (waiting s'.bg).Sublist (waiting s.bg)) (hcalls : s'.bg.calls = s.bg.calls)
    (hcontent : s'.content = s.content) (hhistory : s'.history = s.history)
    (hexecuted : s'.executed = s.executed) : Inv inner init s' where
  nodup := by
    rw [hexecuted]
    exact h.nodup.sublist (((List.Sublist.refl _).append hwaiting).map _)
  named c hc := by
    rw [hexecuted] at hc
    rw [hcalls]
    exact h.named c (((List.Sublist.refl _).append hwaiting).subset hc)
  received := by
    rw [hexecuted, hhistory]
    exact h.received
  linear := by
    unfold Linearizable Before
    rw [hexecuted, hhistory, hcontent]
    exact h.linear

theorem Inv.call {init : Slot → Option V} {s : System τ V R} (h : Inv inner init s) (op : Op) :
    Inv inner init (step inner s (.call op)) := by
  have hwaiting : waiting (s.bg.step (.call op : Event τ)) = waiting s.bg ++ [⟨s.bg.calls, op⟩] :=
    (List.append_assoc ..).symm
  have hexecuted : ∀ x ∈ s.executed, x.1.fut < s.bg.calls := fun x hx =>
    h.named x.1 (List.mem_append_left _ (List.mem_map_of_mem hx))
  refine ⟨?_, ?_, ?_, ?_⟩
  · show ((s.executed.map Prod.fst ++ waiting (s.bg.step (.call op : Event τ))).map Call.fut).Nodup
    rw [hwaiting, ← List.append_assoc, List.map_append]
    refine h.nodup.append (List.nodup_singleton _) ?_
    intro fut hfut hnew
    obtain ⟨c, hc, rfl⟩ := List.mem_map.mp hfut
    have hlt := h.named c hc
    rw [List.mem_singleton.mp hnew] at hlt
    exact Nat.lt_irrefl _ hlt
  · show ∀ c ∈ s.executed.map Prod.fst ++ waiting (s.bg.step (.call op : Event τ)), c.fut < s.bg.calls + 1
    rw [hwaiting, ← List.append_assoc]
    intro c hc
    rcases List.mem_append.mp hc with hc | hc
    · exact Nat.lt_succ_of_lt (h.named c hc)
    · rw [List.mem_singleton.mp hc]
      exact Nat.lt_succ_self _
  · intro fut result hmem
    rcases List.mem_append.mp hmem with hmem | hmem
    · exact h.received fut result hmem
    · cases List.mem_singleton.mp hmem
  · obtain ⟨order, hperm, hnodup, htime, hresults, hcontent⟩ := h.linear
    refine ⟨order, hperm, hnodup, ?_, ?_, hcontent⟩
    · -- no executed operation is the one that is called now
      refine htime.imp_of_mem ?_
      intro x y hx _ hnot hbefore
      obtain ⟨result, op', hsub⟩ := hbefore
      refine hnot ⟨result, op', before_append hsub fun hmem => ?_⟩
      have hlt := hexecuted x (hperm.mem_iff.mp hx)
      obtain ⟨heq, _⟩ := Mark.called.inj (List.mem_singleton.mp hmem)
      omega
    · intro fut result hmem
      rcases List.mem_append.mp hmem with hmem | hmem
      · exact hresults fut result hmem
      · cases List.mem_singleton.mp hmem

theorem Inv.finish {init : Slot → Option V} {s : System τ V R} (h : Inv inner init s) (now : τ)
    (hown : OwnResults inner s (.finish now)) : Inv inner init (step inner s (.finish now)) := by
  cases hrunning : s.bg.running with
  | none =>
    have hstep : step inner s (.finish now) = s := by
      unfold step Background.step
      simp [hrunning]
    rw [hstep]
    exact h
  | some calls =>
    have hwaiting : waiting s.bg = calls ++ s.bg.queue := by
      unfold waiting
      rw [hrunning]
      rfl
    have hstep : step inner s (.finish now) =
        { bg := { s.bg with running := none, done := s.bg.done ++ calls.map Call.fut }
          content := (runBatch inner now calls s.content).2
          history := s.history ++ marks s.bg.done calls (runBatch inner now calls s.content).1
          executed := s.executed ++ calls.map (·, now) } := by
      unfold step Background.step
      simp [hrunning]
    have hfst : (s.executed ++ calls.map (·, now)).map Prod.fst ++ s.bg.queue =
        s.executed.map Prod.fst ++ waiting s.bg := by
      rw [hwaiting, List.map_append, List.map_map, List.append_assoc]
      simp [Function.comp_def]
    have hmarks : ∀ m ∈ marks s.bg.done calls (runBatch inner now calls s.content).1,
        ∃ c ∈ calls, m = .received c.fut (inner.answer s.content c.op) := by
      intro m hm
      obtain ⟨x, hx, hdone, rfl⟩ := mem_marks hm
      refine ⟨x.1, (List.of_mem_zip hx).1, ?_⟩
      rw [hown calls hrunning x hx hdone]
    rw [hstep]
    refine ⟨?_, ?_, ?_, ?_⟩
    · show (((s.executed ++ calls.map (·, now)).map Prod.fst ++ s.bg.queue).map Call.fut).Nodup
      rw [hfst]
      exact h.nodup
    · show ∀ c ∈ (s.executed ++ calls.map (·, now)).map Prod.fst ++ s.bg.queue, c.fut < s.bg.calls
      rw [hfst]
      exact h.named
    · intro fut result hmem
      show fut ∈ (s.executed ++ calls.map (·, now)).map fun x => x.1.fut
      rw [List.map_append, List.mem_append]
      rcases List.mem_append.mp hmem with hmem | hmem
      · exact Or.inl (h.received fut result hmem)
      · obtain ⟨c, hc, he⟩ := hmarks _ hmem
        obtain ⟨rfl, _⟩ := Mark.received.inj he
        exact Or.inr (List.mem_map.mpr ⟨(c, now), List.mem_map_of_mem hc, rfl⟩)
    · obtain ⟨order, hperm, hnodup, htime, hresults, hcontent⟩ := h.linear
      obtain ⟨hafter, hanswers⟩ := replay_batchOrder inner now calls s.content
      have hperm' : (order ++ batchOrder now calls).Perm (s.executed ++ calls.map (·, now)) :=
        hperm.append (perm_batchOrder now calls)
      have hold : ∀ {a b : Nat} {result : R} {op : Op},
          [Mark.received a result, Mark.called b op].Sublist
            (s.history ++ marks s.bg.done calls (runBatch inner now calls s.content).1) →
          [Mark.received a result, Mark.called b op].Sublist s.history := by
        intro a b result op hsub
        refine before_append hsub fun hmem => ?_
        obtain ⟨c, _, he⟩ := hmarks _ hmem
        cases he
      -- an operation of this batch has received nothing before
      have hnew : ∀ x ∈ batchOrder now calls, ∀ result, Mark.received x.1.fut result ∉ s.history := by
        intro x hx result hmem
        obtain ⟨c, hc, rfl⟩ := List.mem_map.mp ((perm_batchOrder now calls).mem_iff.mp hx)
        have hdisjoint := h.nodup
        rw [hwaiting, List.map_append, List.map_map, List.map_append] at hdisjoint
        exact (List.nodup_append.mp hdisjoint).2.2 _ (h.received _ _ hmem) _
          (List.mem_append_left _ (List.mem_map_of_mem hc)) rfl
      refine ⟨order ++ batchOrder now calls, hperm', ?_, ?_, ?_, ?_⟩
      · refine (hperm'.map _).nodup_iff.mpr ?_
        have hall : (((s.executed ++ calls.map (·, now)).map Prod.fst ++ s.bg.queue).map Call.fut).Nodup := by
          rw [hfst]
          exact h.nodup
        rw [List.map_append, List.map_map] at hall
        exact (List.nodup_append.mp hall).1
      · rw [List.pairwise_append]
        refine ⟨htime.imp ?_, ?_, ?_⟩
        · intro x y hnot hbefore
          obtain ⟨result, op, hsub⟩ := hbefore
          exact hnot ⟨result, op, hold hsub⟩
        · refine List.pairwise_of_forall_mem_list ?_
          intro x _ y hy hbefore
          obtain ⟨result, op, hsub⟩ := hbefore
          exact hnew y hy result ((hold hsub).subset List.mem_cons_self)
        · intro x _ y hy hbefore
          obtain ⟨result, op, hsub⟩ := hbefore
          exact hnew y hy result ((hold hsub).subset List.mem_cons_self)
      · intro fut result hmem
        rw [replay_append, List.mem_append, hcontent]
        rcases List.mem_append.mp hmem with hmem | hmem
        · exact Or.inl (hresults fut result hmem)
        · obtain ⟨c, hc, he⟩ := hmarks _ hmem
          obtain ⟨rfl, rfl⟩ := Mark.received.inj he
          exact Or.inr (hanswers c hc)
      · rw [replay_append, hcontent]
        exact hafter

theorem Inv.step {init : Slot → Option V} {s : System τ V R} (h : Inv inner init s) {e : Event τ}
    (hown : OwnResults inner s e) : Inv inner init (step inner s e) := by
  have hbg := bg_step inner s e
  have hcalls : ∀ e : Event τ, (∀ op, e ≠ .call op) → (s.bg.step e).calls = s.bg.calls := by
    intro e he
    unfold Background.step
    cases e with
    | call op => exact absurd rfl (he op)
    | cancel fut => dsimp only; split <;> rfl
    | drain => dsimp only; split <;> rfl
    | finish now => dsimp only; split <;> rfl
    | raised => dsimp only; split <;> rfl
  have hidle : (∀ op, e ≠ .call op) → (waiting (s.bg.step e)).Sublist (waiting s.bg) := by
    intro he
    rcases waiting_step s.bg e with hsub | ⟨op, rfl, _⟩
    · exact hsub
    · exact absurd rfl (he op)
  cases e with
  | call op => exact h.call op
  | finish now => exact h.finish now hown
  | cancel fut => exact h.idle (hidle nofun) (hcalls _ nofun) rfl rfl rfl
  | drain => exact h.idle (hidle nofun) (hcalls _ nofun) rfl rfl rfl
  | raised => exact h.idle (hidle nofun) (hcalls _ nofun) rfl rfl rfl

/-- A batch without mixed reads gives every future its own result. -/
theorem ownResults_of_unmixed {s : System τ V R} {e : Event τ} (h : s.bg.Unmixed e) :
    OwnResults inner s e := by
  cases e with
  | finish now =>
    intro calls hcalls x hx hdone
    obtain ⟨i, hi⟩ := List.mem_iff_getElem?.mp hx
    obtain ⟨hc, hr⟩ := List.getElem?_zip_eq_some.mp hi
    have hresult := (getElem?_runBatch inner now calls s.content).2 i x.1 hc
    rw [hr] at hresult
    rw [Option.some.inj hresult]
    congr 1
    split
    · rfl
    · next hop =>
      have hsame := h calls hcalls (x.1, i) (List.mem_zipIdx_iff_getElem?.mpr hc) hdone
        (Bool.not_eq_true _ ▸ hop)
      unfold Dedupe.representative
      cases hfind : ((calls.take i).map Call.op).find? fun e => e.pyEq x.1.op with
      | none => rfl
      | some e => exact hsame e hfind
  | _ => trivial

theorem along_of_unmixed {C : System τ V R → Event τ → Prop}
    (h : ∀ (s : System τ V R) (e : Event τ), s.bg.Unmixed e → C s e) : ∀ (es : List (Event τ)) (s : System τ V R),
    Machine.Along Background.step Background.Unmixed s.bg es → Machine.Along (System.step inner) C s es
  | [], _, _ => trivial
  | e :: es, s, hall => by
    refine ⟨h s e hall.1, along_of_unmixed h es _ ?_⟩
    rw [bg_step inner]
    exact hall.2

/-! ## A store that answers with the operation itself -/

def echo : InnerStore τ Unit (Option Op) where
  read _ op := some op
  written := none
  value _ _ := none

theorem mem_replay_echo {fut : Nat} {op : Op} : ∀ {order : List (Call × τ)} {content : Slot → Option Unit},
    (fut, some op) ∈ (replay echo content order).1 → ∃ x ∈ order, x.1 = ⟨fut, op⟩
  | [], _, h => nomatch h
  | (c, now) :: order, content, h => by
    rcases List.mem_append.mp h with h | h
    · obtain ⟨result, hresult, heq⟩ := List.mem_map.mp h
      obtain ⟨rfl, rfl⟩ := Prod.mk.inj heq
      obtain ⟨fut, op'⟩ := c
      refine ⟨_, List.mem_cons_self, ?_⟩
      have heq := List.mem_singleton.mp hresult
      cases op' with
      | put p => cases heq
      | _ => rw [Option.some.inj heq]
    · obtain ⟨x, hx, he⟩ := mem_replay_echo h
      exact ⟨x, List.mem_cons_of_mem _ hx, he⟩

variable (inner) in
/-- What has been seen and executed stays so. -/
theorem foldl_extends : ∀ (es : List (Event τ)) (s : System τ V R),
    (∀ m ∈ s.history, m ∈ (es.foldl (System.step inner) s).history) ∧
      ∀ x ∈ s.executed, x ∈ (es.foldl (System.step inner) s).executed
  | [], _ => ⟨fun _ h => h, fun _ h => h⟩
  | e :: es, s => by
    have hstep : (∀ m ∈ s.history, m ∈ (System.step inner s e).history) ∧
        ∀ x ∈ s.executed, x ∈ (System.step inner s e).executed := by
      cases e with
      | call op => exact ⟨fun m hm => List.mem_append_left _ hm, fun x hx => hx⟩
      | finish now =>
        unfold System.step
        cases s.bg.running with
        | none => exact ⟨fun m hm => hm, fun x hx => hx⟩
        | some calls => exact ⟨fun m hm => List.mem_append_left _ hm, fun x hx => List.mem_append_left _ hx⟩
      | _ => exact ⟨fun m hm => hm, fun x hx => hx⟩
    obtain ⟨hhistory, hexecuted⟩ := foldl_extends es (System.step inner s e)
    exact ⟨fun m hm => hhistory m (hstep.1 m hm), fun x hx => hexecuted x (hstep.2 x hx)⟩

/-- A linearizable run of the store that answers with the operation mixes no reads. -/
theorem unmixed_of_echo (init : Slot → Option Unit) : ∀ (es : List (Event τ)) (s : System τ Unit (Option Op)),
    Linearizable echo init (es.foldl (System.step echo) s) →
      Machine.Along Background.step Background.Unmixed s.bg es
  | [], _, _ => trivial
  | e :: es, s, h => by
    refine ⟨?_, ?_⟩
    · cases e with
      | finish now =>
        intro calls hcalls c hc hdone hop e he
        have hc := List.mem_zipIdx_iff_getElem?.mp hc
        obtain ⟨hlen, hget⟩ := getElem?_runBatch echo now calls s.content
        have hresult := hget c.2 c.1 hc
        rw [if_neg (by rw [hop]; exact Bool.false_ne_true)] at hresult
        have hrep : Dedupe.representative ((calls.take c.2).map Call.op) c.1.op = e := by
          unfold Dedupe.representative
          rw [he]
          rfl
        have hread : e.isPut = false := by
          rw [← hrep]
          exact Dedupe.isPut_representative hop
        rw [hrep, answer_of_read hread] at hresult
        have hmark : Mark.received c.1.fut (some e) ∈ (System.step echo s (.finish now)).history := by
          unfold System.step
          rw [Option.mem_def.mp hcalls]
          refine List.mem_append_right _ (List.mem_filterMap.mpr ⟨(c.1, some e), ?_, ?_⟩)
          · exact List.mem_of_getElem? (List.getElem?_zip_eq_some.mpr ⟨hc, hresult⟩)
          · simp [hdone]
        have hexecuted : (c.1, now) ∈ (System.step echo s (.finish now)).executed := by
          unfold System.step
          rw [Option.mem_def.mp hcalls]
          exact List.mem_append_right _ (List.mem_map_of_mem (List.mem_of_getElem? hc))
        -- the end of the run has the mark and the operation still
        obtain ⟨hkeeps, hstays⟩ := foldl_extends echo es (System.step echo s (.finish now))
        obtain ⟨order, hperm, hnodup, _, hresults, _⟩ := h
        obtain ⟨x, hx, heq⟩ := mem_replay_echo (hresults _ _ (hkeeps _ hmark))
        have hmem : (c.1, now) ∈ order := hperm.mem_iff.mpr (hstays _ hexecuted)
        have hsame : x = (c.1, now) :=
          List.inj_on_of_nodup_map hnodup hx hmem (by rw [heq])
        rw [hsame] at heq
        exact (congrArg Call.op heq).symm
      | _ => trivial
    · rw [← bg_step echo]
      exact unmixed_of_echo init es _ h

/-- Every run is linearizable over every inner store, and gives each future its own
    result, iff no read that is answered was merged into a different one. -/
theorem linearizable_iff (es : List (Event τ)) :
    (∀ (V R : Type) (inner : InnerStore τ V R) (init : Slot → Option V),
      Linearizable inner init (run inner init es) ∧
        Machine.Along (System.step inner) (OwnResults inner) (start init) es) ↔
      Machine.Along Background.step Background.Unmixed Background.start es := by
  constructor
  · intro h
    exact unmixed_of_echo (fun _ => none) es (start fun _ => none) (h Unit (Option Op) echo fun _ => none).1
  · intro h V R inner init
    have hown : Machine.Along (System.step inner) (OwnResults inner) (start init) es :=
      along_of_unmixed (fun _ _ => ownResults_of_unmixed) es (start init) h
    refine ⟨?_, hown⟩
    exact (hown.invariant (inv_start init) fun _ _ hs => hs.step).linear

/-! Two searches whose filters are equal in Python, but not in Postgres. -/

theorem mem_replay_of_reads {fut : Nat} {result : R} : ∀ {order : List (Call × τ)} {content : Slot → Option V},
    (∀ x ∈ order, x.1.op.isPut = false) → (fut, result) ∈ (replay inner content order).1 →
      ∃ x ∈ order, x.1.fut = fut ∧ result = inner.answer content x.1.op
  | [], _, _, h => nomatch h
  | (c, now) :: order, content, hreads, h => by
    rw [List.forall_mem_cons] at hreads
    rcases List.mem_append.mp h with h | h
    · obtain ⟨result, hresult, heq⟩ := List.mem_map.mp h
      obtain ⟨rfl, rfl⟩ := Prod.mk.inj heq
      exact ⟨(c, now), List.mem_cons_self, rfl, List.mem_singleton.mp hresult⟩
    · rw [afterPuts_read now hreads.1] at h
      obtain ⟨x, hx, he⟩ := mem_replay_of_reads hreads.2 h
      exact ⟨x, List.mem_cons_of_mem _ hx, he⟩

/-- Whether a search selects the row of one key, as Postgres decides it. -/
def oneRow : InnerStore Unit Json Bool where
  read content
    | .search op =>
      match content (["users"], "k"), Postgres.whereFilter
        ⟨fun _ => 0, fun _ => "", fun _ => "", fun a b => decide (a < b)⟩ (fun _ => "") op.filter with
      | some value, .ok test => test value
      | _, _ => false
    | _ => false
  written := false
  value _ p := p.value

def oneRowContent : Slot → Option Json := fun k =>
  if k = (["users"], "k") then some (.dict [("a", .int 1)]) else none

def equalSearches : List (Event Unit) :=
  [.call (.search { namespacePrefix := ["users"], filter := some [("a", .int 1)] }),
   .call (.search { namespacePrefix := ["users"], filter := some [("a", .bool true)] }),
   .drain, .finish ()]

/-- The second search receives the answer of the first. -/
theorem not_linearizable :
    ¬Linearizable oneRow oneRowContent (run oneRow oneRowContent equalSearches) := by
  intro h
  obtain ⟨order, hperm, _, _, hresults, _⟩ := h
  have hexecuted : ∀ x ∈ (run oneRow oneRowContent equalSearches).executed,
      x.1.op.isPut = false ∧ (x.1.fut = 1 → oneRow.answer oneRowContent x.1.op = false) := by
    decide +kernel
  have hmark : Mark.received 1 true ∈ (run oneRow oneRowContent equalSearches).history := by
    refine List.mem_of_getElem? (i := 3) ?_
    rfl
  obtain ⟨x, hx, hfut, hresult⟩ := mem_replay_of_reads
    (fun x hx => (hexecuted x (hperm.mem_iff.mp hx)).1) (hresults 1 true hmark)
  rw [(hexecuted x (hperm.mem_iff.mp hx)).2 hfut] at hresult
  cases hresult

end System
end LangGraph.Stores
