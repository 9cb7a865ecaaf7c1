import LangGraph.Lib.Machine
import LangGraph.Stream.SubgraphHandles

/- The two surfaces of subgraph lifecycle: the `lifecycle` channel of a run and the
   handles of its `SubgraphTransformer`, over the `tasks` events of a run and its
   end.

   `Surfaces.step` is what `StreamMux.push` does with an event and
   `Surfaces.finish` what `StreamMux.close` or `fail` does, as far as the two
   transformers go. The channel shows of every namespace `started` once and one
   terminal status after it, on every run (`Sound`). The handles do not always end
   with the same status: when the result of a task ends a subgraph below which
   another one is open, the handle of that one gets the status that the mini-mux is
   closed or failed with, but the channel shows the status of the end of the run.
   `surfaces_agree_iff` says that they agree unless these two differ. -/
namespace LangGraph.Stream

structure Surfaces where
  lifecycle : LifecycleTransformer
  subgraphs : SubgraphTransformer
  deriving DecidableEq

/-- How the run ends. -/
inductive RunEnd where
  | finalize
  | fail (err : RunError)
  deriving DecidableEq

def RunEnd.status : RunEnd → SubgraphStatus
  | .finalize => .completed
  | .fail err => (statusFromException err).1

theorem RunEnd.status_ne (ending : RunEnd) : ending.status ≠ .started := by
  cases ending with
  | finalize => exact fun h => nomatch h
  | fail err => exact statusFromException_ne err

/-- The result of the task that runs the subgraph above or at the namespace. -/
def Ends (scope : Namespace) (r : TaskEvent) (ns : Namespace) : Bool :=
  match r.data with
  | .start _ => false
  | .result data => Handles.ends scope r.ns data.id ns

/-- The events of a subgraph come before the result of the task that runs it. -/
def Ordered (scope : Namespace) (events : List TaskEvent) : Prop :=
  events.Pairwise fun r e => Ends scope r e.ns = false

instance (scope : Namespace) (events : List TaskEvent) : Decidable (Ordered scope events) := by
  unfold Ordered
  infer_instance

namespace Surfaces

def init (scope : Namespace) : Surfaces := ⟨.init scope, .init scope⟩

def step (s : Surfaces) (event : TaskEvent) : Surfaces where
  lifecycle := s.lifecycle.process event
  subgraphs := s.subgraphs.process event (event.ns.length - s.subgraphs.base.scope.length)

def finish (s : Surfaces) : RunEnd → Surfaces
  | .finalize => ⟨s.lifecycle.finalize, s.subgraphs.finalize⟩
  | .fail err => ⟨s.lifecycle.fail err, s.subgraphs.fail err⟩

/-- Every namespace that is started is ended once, after its start, and its handle ends with
    the same status. -/
structure WellFormed (s : Surfaces) : Prop where
  once : ∀ ns, s.lifecycle.statuses ns = [] ∨
    ∃ st, st ≠ .started ∧ s.lifecycle.statuses ns = [.started, st]
  agree : ∀ p ∈ s.subgraphs.handles.all,
    s.lifecycle.statuses p.1 = [] ∨ s.lifecycle.statuses p.1 = [.started, p.2.status]

/-- Where the event ends a subgraph, the handles that are still open below it get the status
    that the end of the run gives. -/
def Uniform (ending : RunEnd) (s : Surfaces) (e : TaskEvent) : Prop :=
  match e.data with
  | .start _ => True
  | .result data => ∀ p ∈ s.subgraphs.handles.all, p.2.seenTerminal = false →
      triggerOf p.1 ≠ none → Handles.ends s.subgraphs.base.scope e.ns data.id p.1 = true →
        p.1.length ≠ e.ns.length + 1 → (Handles.belowStatus data).1 = ending.status

instance (ending : RunEnd) (s : Surfaces) (e : TaskEvent) : Decidable (s.Uniform ending e) := by
  unfold Uniform
  split <;> infer_instance

/-! The invariant. -/

/-- The handles against the channel: a handle that is not terminal is open on the channel, and
    one that is terminal has its status there, or its subgraph is below one that has ended. -/
structure Inv (scope : Namespace) (past : List TaskEvent) (s : Surfaces) : Prop where
  sound : s.lifecycle.Sound
  ok : s.subgraphs.Ok
  scope_lifecycle : s.lifecycle.base.scope = scope
  scope_subgraphs : s.subgraphs.base.scope = scope
  ended : ∀ ns st, s.lifecycle.statuses ns = [.started, st] → ∃ r ∈ past, Ends scope r ns = true
  running : ∀ p ∈ s.subgraphs.handles.all, triggerOf p.1 ≠ none → p.2.seenTerminal = false →
    s.lifecycle.statuses p.1 = [.started]
  terminal : ∀ p ∈ s.subgraphs.handles.all, triggerOf p.1 ≠ none → p.2.seenTerminal = true →
    s.lifecycle.statuses p.1 = [.started, p.2.status] ∨
      s.lifecycle.statuses p.1 = [.started] ∧ ∃ r ∈ past, Ends scope r p.1.dropLast = true

/-- The handles that are terminal before the channel shows it have the status of the end. -/
def Matches (ending : RunEnd) (s : Surfaces) : Prop :=
  ∀ p ∈ s.subgraphs.handles.all, p.2.seenTerminal = true →
    s.lifecycle.statuses p.1 = [.started] → p.2.status = ending.status

theorem inv_init (scope : Namespace) : Inv scope [] (init scope) where
  sound := LifecycleTransformer.sound_init scope
  ok := SubgraphTransformer.ok_init scope
  scope_lifecycle := rfl
  scope_subgraphs := rfl
  ended := fun _ _ h => nomatch h
  running := fun _ h => nomatch h
  terminal := fun _ h => nomatch h

variable {scope : Namespace} {past : List TaskEvent} {s : Surfaces}

/-- A result that closes a namespace on the channel ends its subgraph. -/
theorem Inv.ends_of_closes (h : Inv scope past s) {r c : Namespace} {data : TaskResult} {i : String}
    (hst : s.lifecycle.statuses c ≠ []) (htrigger : triggerOf c = some i)
    (hcloses : TasksLifecycle.closes r data.id (c, i) = true) :
    Handles.ends scope r data.id c = true ∧ c.length = r.length + 1 := by
  have htrack := h.sound.tracked_of_statuses hst
  rw [h.scope_lifecycle] at htrack
  simp only [LifecycleTransformer.shouldTrack, Bool.decide_and, Bool.and_eq_true,
    decide_eq_true_eq] at htrack
  obtain ⟨hid, hne, hdrop⟩ := SubgraphTransformer.closes_iff.mp hcloses
  have hlen : c.length = r.length + 1 := by
    rw [← hdrop, List.length_dropLast]
    omega
  have hself := @Handles.ends_of_isPrefix r c c data.id hlen hdrop (List.prefix_refl c)
  rw [SubgraphTransformer.ends_congr (by omega) (le_refl _), hself, hid, htrigger]
  exact ⟨by simp [hne], hlen⟩

theorem closes_of_ends {r c : Namespace} {data : TaskResult}
    (hends : Handles.ends scope r data.id c = true) (hlen : c.length = r.length + 1) :
    ∃ i, triggerOf c = some i ∧ TasksLifecycle.closes r data.id (c, i) = true := by
  have hpre := (SubgraphTransformer.prefix_of_ends hends).2.2
  simp only [Handles.ends, Bool.and_eq_true, decide_eq_true_eq, Option.any_eq_true] at hends
  obtain ⟨⟨-, i, hid, hne⟩, htrigger⟩ := hends
  rw [← hlen, List.take_length] at htrigger
  refine ⟨i, htrigger ▸ hid, SubgraphTransformer.closes_iff.mpr ⟨hid, by simpa using hne, ?_⟩⟩
  rw [List.dropLast_eq_take, hlen, Nat.add_sub_cancel]
  exact (List.prefix_iff_eq_take.mp hpre).symm

/-- Below a subgraph that has ended, its namespace without the last segment is too. -/
theorem ends_dropLast {r c : Namespace} {id : Option String}
    (hends : Handles.ends scope r id c = true) (hlen : c.length ≠ r.length + 1) :
    Handles.ends scope r id c.dropLast = true := by
  have hlt := (SubgraphTransformer.prefix_of_ends hends).2.1
  have htake : ∀ k, k ≤ r.length + 1 → c.dropLast.take k = c.take k := by
    intro k hk
    rw [List.dropLast_eq_take, List.take_take, Nat.min_eq_left (by omega)]
  simp only [Handles.ends, Bool.and_eq_true, decide_eq_true_eq, List.length_dropLast] at hends ⊢
  rw [htake _ (by omega), htake _ (le_refl _)]
  exact ⟨⟨⟨⟨hends.1.1.1.1, by omega⟩, hends.1.1.2⟩, hends.1.2⟩, hends.2⟩

theorem Inv.start (h : Inv scope past s) {ns : Namespace} (data : TaskStart)
    (hordered : ∀ r ∈ past, Ends scope r ns = false) :
    Inv scope (past ++ [⟨ns, .start data⟩]) (s.step ⟨ns, .start data⟩) ∧
      ∀ ending, (s.step ⟨ns, .start data⟩).Matches ending ↔ s.Matches ending := by
  have hgrows := h.ok.process_start ns data _ rfl
  have hstatuses := h.sound.statuses_start ns data
  have hmono : ∀ {c}, (∃ r ∈ past, Ends scope r c = true) →
      ∃ r ∈ past ++ [⟨ns, .start data⟩], Ends scope r c = true :=
    fun ⟨r, hr, hends⟩ => ⟨r, List.mem_append_left _ hr, hends⟩
  -- a namespace with a handle is on the channel already
  have hsame : ∀ p ∈ s.subgraphs.handles.all, triggerOf p.1 ≠ none →
      (s.step ⟨ns, .start data⟩).lifecycle.statuses p.1 = s.lifecycle.statuses p.1 := by
    intro p hp htrigger
    have hne : s.lifecycle.statuses p.1 ≠ [] := by
      cases hterm : p.2.seenTerminal with
      | false =>
        rw [h.running p hp htrigger hterm]
        exact fun h => nomatch h
      | true =>
        rcases h.terminal p hp htrigger hterm with hst | ⟨hst, -⟩
        · rw [hst]
          exact fun h => nomatch h
        · rw [hst]
          exact fun h => nomatch h
    rw [step, hstatuses, if_neg]
    intro hc
    exact hne (hc.1 ▸ hc.2.2.1)
  have hnew : LifecycleTransformer.shouldTrack scope ns = true → triggerOf ns ≠ none →
      (s.step ⟨ns, .start data⟩).lifecycle.statuses ns = [.started] := by
    intro htrack htrigger
    rw [step, hstatuses, h.scope_lifecycle]
    rcases h.sound.statuses_cases ns with hst | hst | ⟨st, -, hst⟩
    · rw [if_pos ⟨rfl, htrack, hst, htrigger⟩]
    · rw [if_neg, hst]
      intro hc
      rw [hst] at hc
      exact nomatch hc.2.2.1
    · obtain ⟨r, hr, hends⟩ := h.ended ns st hst
      rw [hordered r hr] at hends
      exact nomatch hends
  refine ⟨⟨h.sound.start ns data, hgrows.ok, ?_, hgrows.scope.trans h.scope_subgraphs, ?_, ?_, ?_⟩, ?_⟩
  · by_cases hknown : LifecycleTransformer.shouldTrack s.lifecycle.base.scope ns = false ∨
        ns ∈ s.lifecycle.base.seen
    · rw [step, LifecycleTransformer.process_start_of_known data hknown]
      exact (LifecycleTransformer.scope_recordPending _ _).trans h.scope_lifecycle
    · rw [not_or, Bool.not_eq_false] at hknown
      rw [step, (LifecycleTransformer.process_start_of_new data hknown.1 hknown.2).1]
      exact h.scope_lifecycle
  · intro c st hst
    rw [step, hstatuses] at hst
    split at hst
    · exact nomatch hst
    · exact hmono (h.ended c st hst)
  · intro p hp htrigger hterm
    rcases hgrows.new p hp with hold | ⟨hns, -, htrack⟩
    · rw [hsame p hold htrigger]
      exact h.running p hold htrigger hterm
    · rw [h.scope_subgraphs] at htrack
      rw [hns] at htrigger ⊢
      exact hnew htrack htrigger
  · intro p hp htrigger hterm
    rcases hgrows.new p hp with hold | ⟨-, hfalse, -⟩
    · rw [hsame p hold htrigger]
      rcases h.terminal p hold htrigger hterm with hst | ⟨hst, hpast⟩
      · exact .inl hst
      · exact .inr ⟨hst, hmono hpast⟩
    · rw [hterm] at hfalse
      exact nomatch hfalse
  · intro ending
    have htriggered : ∀ c, s.lifecycle.statuses c ≠ [] → triggerOf c ≠ none :=
      fun c hne hnone => hne (h.sound.untriggered c hnone)
    have htriggered' : ∀ c, (s.step ⟨ns, .start data⟩).lifecycle.statuses c ≠ [] → triggerOf c ≠ none :=
      fun c hne hnone => hne ((h.sound.start ns data).untriggered c hnone)
    constructor
    · intro hmatch p hp hterm hst
      have htrigger := htriggered p.1 (hst ▸ fun h => nomatch h)
      exact hmatch p (hgrows.kept p hp) hterm ((hsame p hp htrigger).trans hst)
    · intro hmatch p hp hterm hst
      have htrigger := htriggered' p.1 (hst ▸ fun h => nomatch h)
      rcases hgrows.new p hp with hold | ⟨-, hfalse, -⟩
      · exact hmatch p hold hterm ((hsame p hold htrigger).symm.trans hst)
      · rw [hterm] at hfalse
        exact nomatch hfalse

/-! What a result does to a namespace and to its handle. -/

@[simp] theorem fst_resultEffect (scope r : Namespace) (data : TaskResult) (p : Namespace × Handle) :
    (Handles.resultEffect scope r data p).1 = p.1 := by
  unfold Handles.resultEffect
  split
  · split <;> rfl
  · rfl

theorem Inv.mem_result (h : Inv scope past s) (r : Namespace) (data : TaskResult)
    (p' : Namespace × Handle) : p' ∈ (s.step ⟨r, .result data⟩).subgraphs.handles.all ↔
      ∃ p ∈ s.subgraphs.handles.all, Handles.resultEffect scope r data p = p' := by
  rw [← h.scope_subgraphs]
  show p' ∈ (SubgraphTransformer.process _ _ _).handles.all ↔ _
  rw [(h.ok.process_result r data _ rfl).2.2, List.mem_map]

/-- The channel goes on from `started` only for the subgraphs that end here. -/
theorem Inv.statuses_kept (h : Inv scope past s) {r c : Namespace} {data : TaskResult}
    (hc : s.lifecycle.statuses c ≠ [.started] ∨ Handles.ends scope r data.id c = false ∨
      c.length ≠ r.length + 1) :
    (s.step ⟨r, .result data⟩).lifecycle.statuses c = s.lifecycle.statuses c := by
  rw [step, (h.sound.result r data).2, if_neg]
  rintro ⟨hst, i, htrigger, hcloses⟩
  obtain ⟨hends, hlen⟩ := h.ends_of_closes (hst ▸ fun h => nomatch h) htrigger hcloses
  rcases hc with hc | hc | hc
  · exact hc hst
  · rw [hends] at hc
    exact nomatch hc
  · exact hc hlen

theorem Inv.statuses_closed (h : Inv scope past s) {r c : Namespace} {data : TaskResult}
    (hst : s.lifecycle.statuses c = [.started]) (hends : Handles.ends scope r data.id c = true)
    (hlen : c.length = r.length + 1) :
    (s.step ⟨r, .result data⟩).lifecycle.statuses c = [.started, (terminalFromResult data).1] := by
  rw [step, (h.sound.result r data).2, if_pos ⟨hst, closes_of_ends hends hlen⟩]

/-- Below a subgraph that has ended, no result ends another. -/
theorem not_ends_of_past {r c : Namespace} {id : Option String}
    (hordered : ∀ e ∈ past, Ends scope e r = false) (hpast : ∃ e ∈ past, Ends scope e c.dropLast = true) :
    Handles.ends scope r id c = false ∨ c.length ≠ r.length + 1 := by
  obtain ⟨e, he, hends⟩ := hpast
  by_cases hc : Handles.ends scope r id c = true ∧ c.length = r.length + 1
  · obtain ⟨hc, hlen⟩ := hc
    have hpre := (SubgraphTransformer.prefix_of_ends hc).2.2
    have hr : c.dropLast = r := by
      rw [List.dropLast_eq_take, hlen, Nat.add_sub_cancel]
      exact (List.prefix_iff_eq_take.mp hpre).symm
    rw [hr, hordered e he] at hends
    exact nomatch hends
  · rcases not_and_or.mp hc with hc | hc
    · exact .inl (Bool.eq_false_iff.mpr hc)
    · exact .inr hc

/-- A handle that is terminal already. -/
theorem Inv.result_terminal (h : Inv scope past s) {r : Namespace} (data : TaskResult)
    (hordered : ∀ e ∈ past, Ends scope e r = false) {p : Namespace × Handle}
    (hp : p ∈ s.subgraphs.handles.all) (htrigger : triggerOf p.1 ≠ none)
    (hterm : p.2.seenTerminal = true) : Handles.resultEffect scope r data p = p ∧
      (s.step ⟨r, .result data⟩).lifecycle.statuses p.1 = s.lifecycle.statuses p.1 := by
  refine ⟨Handles.resultEffect_of_terminal hterm scope r data, h.statuses_kept ?_⟩
  rcases h.terminal p hp htrigger hterm with hst | ⟨-, hpast⟩
  · left
    rw [hst]
    exact fun h => nomatch h
  · exact .inr (not_ends_of_past hordered hpast)

/-- A handle that is not terminal: it is not under the result, its subgraph ends with the status
    of the result, or a subgraph above it does. -/
theorem Inv.result_running (h : Inv scope past s) (r : Namespace) (data : TaskResult)
    {p : Namespace × Handle} (hp : p ∈ s.subgraphs.handles.all) (htrigger : triggerOf p.1 ≠ none)
    (hterm : p.2.seenTerminal = false) :
    Handles.ends scope r data.id p.1 = false ∧
        (s.step ⟨r, .result data⟩).lifecycle.statuses p.1 = [.started] ∧
        Handles.resultEffect scope r data p = p ∨
    Handles.ends scope r data.id p.1 = true ∧ p.1.length = r.length + 1 ∧
        (s.step ⟨r, .result data⟩).lifecycle.statuses p.1 = [.started, (terminalFromResult data).1] ∧
        Handles.resultEffect scope r data p =
          Handles.markAll (terminalFromResult data).1 (terminalFromResult data).2 p ∨
    Handles.ends scope r data.id p.1 = true ∧ p.1.length ≠ r.length + 1 ∧
        (s.step ⟨r, .result data⟩).lifecycle.statuses p.1 = [.started] ∧
        Handles.resultEffect scope r data p =
          Handles.markAll (Handles.belowStatus data).1 (Handles.belowStatus data).2 p := by
  have hst := h.running p hp htrigger hterm
  cases hends : Handles.ends scope r data.id p.1 with
  | false =>
    left
    exact ⟨rfl, (h.statuses_kept (.inr (.inl hends))).trans hst, by
      rw [Handles.resultEffect, if_neg (by rw [hends]; decide)]⟩
  | true =>
    by_cases hlen : p.1.length = r.length + 1
    · right; left
      exact ⟨rfl, hlen, h.statuses_closed hst hends hlen, by
        rw [Handles.resultEffect, if_pos hends, if_pos hlen]⟩
    · right; right
      exact ⟨rfl, hlen, (h.statuses_kept (.inr (.inr hlen))).trans hst, by
        rw [Handles.resultEffect, if_pos hends, if_neg hlen]⟩

theorem Inv.result (h : Inv scope past s) {r : Namespace} (data : TaskResult)
    (hordered : ∀ e ∈ past, Ends scope e r = false) :
    Inv scope (past ++ [⟨r, .result data⟩]) (s.step ⟨r, .result data⟩) := by
  obtain ⟨hok, hscope, -⟩ := h.ok.process_result r data _ rfl
  have hmono : ∀ {c}, (∃ e ∈ past, Ends scope e c = true) →
      ∃ e ∈ past ++ [⟨r, .result data⟩], Ends scope e c = true := by
    intro c hends
    obtain ⟨e, he, hends⟩ := hends
    exact ⟨e, List.mem_append_left _ he, hends⟩
  have hnow : ∀ {c}, Handles.ends scope r data.id c = true →
      ∃ e ∈ past ++ [⟨r, .result data⟩], Ends scope e c = true :=
    fun hends => ⟨⟨r, .result data⟩, List.mem_append_right _ (List.mem_singleton_self _), hends⟩
  refine ⟨(h.sound.result r data).1, hok, ?_, hscope.trans h.scope_subgraphs, ?_, ?_, ?_⟩
  · rw [step, LifecycleTransformer.process, LifecycleTransformer.base_onTerminals]
    exact h.scope_lifecycle
  · intro c st hst
    by_cases hc : s.lifecycle.statuses c = [.started] ∧ Handles.ends scope r data.id c = true
    · exact hnow hc.2
    · rw [h.statuses_kept] at hst
      · exact hmono (h.ended c st hst)
      · rcases not_and_or.mp hc with hc | hc
        · exact .inl hc
        · exact .inr (.inl (Bool.eq_false_iff.mpr hc))
  · intro p' hp' htrigger hterm
    obtain ⟨p, hp, rfl⟩ := (h.mem_result r data p').mp hp'
    rw [fst_resultEffect] at htrigger ⊢
    cases hold : p.2.seenTerminal with
    | true =>
      rw [(h.result_terminal data hordered hp htrigger hold).1, hold] at hterm
      cases hterm
    | false =>
      rcases h.result_running r data hp htrigger hold with ⟨-, hst, -⟩ | ⟨-, -, -, heq⟩ | ⟨-, -, -, heq⟩
      · exact hst
      · rw [heq, Handles.markAll, Handle.seenTerminal_markTerminal] at hterm
        cases hterm
      · rw [heq, Handles.markAll, Handle.seenTerminal_markTerminal] at hterm
        cases hterm
  · intro p' hp' htrigger hterm
    obtain ⟨p, hp, rfl⟩ := (h.mem_result r data p').mp hp'
    rw [fst_resultEffect] at htrigger ⊢
    cases hold : p.2.seenTerminal with
    | true =>
      obtain ⟨heq, hst⟩ := h.result_terminal data hordered hp htrigger hold
      rw [heq, hst]
      rcases h.terminal p hp htrigger hold with hst | ⟨hst, hpast⟩
      · exact .inl hst
      · exact .inr ⟨hst, hmono hpast⟩
    | false =>
      rcases h.result_running r data hp htrigger hold with
        ⟨-, -, heq⟩ | ⟨-, -, hst, heq⟩ | ⟨hends, hlen, hst, -⟩
      · rw [heq, hold] at hterm
        cases hterm
      · left
        rw [hst, heq, Handles.markAll, Handle.status_markTerminal hold]
      · exact .inr ⟨hst, hnow (ends_dropLast hends hlen)⟩

/-- The handles match after a result when they did before and the result is uniform. -/
theorem Inv.matches_result (h : Inv scope past s) {r : Namespace} (data : TaskResult)
    (hordered : ∀ e ∈ past, Ends scope e r = false) (ending : RunEnd) :
    (s.step ⟨r, .result data⟩).Matches ending ↔
      s.Matches ending ∧ s.Uniform ending ⟨r, .result data⟩ := by
  have htriggered : ∀ {l : LifecycleTransformer}, l.Sound → ∀ {c}, l.statuses c = [.started] →
      triggerOf c ≠ none := by
    intro l hl c hst hnone
    rw [hl.untriggered c hnone] at hst
    cases hst
  constructor
  · intro hmatch
    refine ⟨fun p hp hterm hst => ?_, fun p hp hterm htrigger hends hlen => ?_⟩
    · obtain ⟨heq, hst'⟩ := h.result_terminal data hordered hp (htriggered h.sound hst) hterm
      exact hmatch p ((h.mem_result r data p).mpr ⟨p, hp, heq⟩) hterm (hst'.trans hst)
    · rw [h.scope_subgraphs] at hends
      rcases h.result_running r data hp htrigger hterm with ⟨hfalse, -⟩ | ⟨-, hlen', -⟩ | ⟨-, -, hst, heq⟩
      · rw [hends] at hfalse
        cases hfalse
      · exact absurd hlen' hlen
      · have hnew := hmatch _ ((h.mem_result r data _).mpr ⟨p, hp, rfl⟩)
        rw [fst_resultEffect, heq, Handles.markAll, Handle.status_markTerminal hterm] at hnew
        exact hnew (Handle.seenTerminal_markTerminal ..) hst
  · rintro ⟨hmatch, huniform⟩ p' hp' hterm hst
    obtain ⟨p, hp, rfl⟩ := (h.mem_result r data p').mp hp'
    have htrigger := htriggered (h.result data hordered).sound hst
    rw [fst_resultEffect] at htrigger hst
    cases hold : p.2.seenTerminal with
    | true =>
      obtain ⟨heq, hst'⟩ := h.result_terminal data hordered hp htrigger hold
      rw [heq]
      exact hmatch p hp hold (hst' ▸ hst)
    | false =>
      rcases h.result_running r data hp htrigger hold with
        ⟨-, -, heq⟩ | ⟨-, -, hst', -⟩ | ⟨hends, hlen, -, heq⟩
      · rw [heq, hold] at hterm
        cases hterm
      · rw [hst'] at hst
        cases hst
      · rw [heq, Handles.markAll, Handle.status_markTerminal hold]
        exact huniform p hp hold htrigger (h.scope_subgraphs ▸ hends) hlen

theorem Inv.step (h : Inv scope past s) (e : TaskEvent)
    (hordered : ∀ r ∈ past, Ends scope r e.ns = false) :
    Inv scope (past ++ [e]) (s.step e) ∧
      ∀ ending, (s.step e).Matches ending ↔ s.Matches ending ∧ s.Uniform ending e := by
  obtain ⟨ns, start | result⟩ := e
  · obtain ⟨hinv, hmatch⟩ := h.start start hordered
    exact ⟨hinv, fun ending => (hmatch ending).trans ⟨fun hm => ⟨hm, trivial⟩, And.left⟩⟩
  · exact ⟨h.result result hordered, h.matches_result result hordered⟩

/-- Along the rest of a run, the handles keep matching exactly while the results are uniform. -/
theorem Inv.run (ending : RunEnd) : ∀ (events : List TaskEvent) {past : List TaskEvent} {s : Surfaces},
    Inv scope past s → Ordered scope events →
      (∀ r ∈ past, ∀ e ∈ events, Ends scope r e.ns = false) →
        (∃ past', Inv scope past' (events.foldl Surfaces.step s)) ∧
          ((events.foldl Surfaces.step s).Matches ending ↔
            s.Matches ending ∧ Machine.Along Surfaces.step (Uniform ending) s events)
  | [], past, s, h, _, _ => ⟨⟨past, h⟩, ⟨fun hm => ⟨hm, trivial⟩, And.left⟩⟩
  | e :: events, past, s, h, hordered, hpast => by
    obtain ⟨hfirst, hrest⟩ := List.pairwise_cons.mp hordered
    obtain ⟨hinv, hmatch⟩ := h.step e fun r hr => hpast r hr e List.mem_cons_self
    have hpast' : ∀ r ∈ past ++ [e], ∀ e' ∈ events, Ends scope r e'.ns = false := by
      intro r hr e' he'
      rcases List.mem_append.mp hr with hr | hr
      · exact hpast r hr e' (List.mem_cons_of_mem e he')
      · rw [List.mem_singleton.mp hr]
        exact hfirst e' he'
    obtain ⟨hend, hiff⟩ := Inv.run ending events hinv hrest hpast'
    rw [List.foldl_cons]
    refine ⟨hend, hiff.trans ?_⟩
    rw [hmatch ending, and_assoc]
    rfl

/-- The end of the run sweeps the channel. -/
theorem statuses_finish (h : s.lifecycle.Sound) (ending : RunEnd) :
    (s.finish ending).lifecycle.Sound ∧ ∀ c, (s.finish ending).lifecycle.statuses c =
      if s.lifecycle.statuses c = [.started] then [.started, ending.status]
      else s.lifecycle.statuses c := by
  cases ending with
  | finalize => exact h.sweep (RunEnd.status_ne .finalize) none
  | fail err => exact h.sweep (RunEnd.status_ne (.fail err)) (statusFromException err).2

theorem once_finish (h : s.lifecycle.Sound) (ending : RunEnd) (ns : Namespace) :
    (s.finish ending).lifecycle.statuses ns = [] ∨
      ∃ st, st ≠ .started ∧ (s.finish ending).lifecycle.statuses ns = [.started, st] := by
  obtain ⟨hsound, hstatuses⟩ := statuses_finish h ending
  rcases hsound.statuses_cases ns with hst | hst | hst
  · exact .inl hst
  · -- nothing is left open
    rw [hstatuses] at hst
    split at hst
    · simp at hst
    · rename_i hopen
      exact absurd hst hopen
  · exact .inr hst

/-- The end of the run marks every handle. -/
theorem Inv.handles_finish (h : Inv scope past s) (ending : RunEnd) :
    ∃ error, (s.finish ending).subgraphs.handles.all =
      s.subgraphs.handles.all.map (Handles.markAll ending.status error) := by
  cases ending with
  | finalize => exact ⟨none, h.ok.handles.complete.2⟩
  | fail err => exact ⟨(statusFromException err).2, (h.ok.handles.fail err).2⟩

theorem Inv.wellFormed_iff (h : Inv scope past s) (ending : RunEnd) :
    (s.finish ending).WellFormed ↔ s.Matches ending := by
  obtain ⟨hsound, hstatuses⟩ := statuses_finish h.sound ending
  obtain ⟨error, hall⟩ := h.handles_finish ending
  constructor
  · intro hwell p hp hterm hst
    -- a handle that is terminal stays, and the channel gets the status of the end
    have hmem : p ∈ (s.finish ending).subgraphs.handles.all := by
      rw [hall]
      exact List.mem_map.mpr ⟨p, hp, Handles.markAll_of_terminal hterm _ _⟩
    have hagree := hwell.agree p hmem
    rw [hstatuses, if_pos hst] at hagree
    rcases hagree with hagree | hagree
    · exact nomatch hagree
    · simpa using hagree.symm
  · intro hmatch
    refine ⟨once_finish h.sound ending, fun p' hp' => ?_⟩
    rw [hall] at hp'
    obtain ⟨p, hp, rfl⟩ := List.mem_map.mp hp'
    show (s.finish ending).lifecycle.statuses p.1 = [] ∨ _
    by_cases htrigger : triggerOf p.1 = none
    · exact .inl (hsound.untriggered p.1 htrigger)
    right
    rw [hstatuses, Handles.markAll]
    cases hterm : p.2.seenTerminal with
    | false => rw [if_pos (h.running p hp htrigger hterm), Handle.status_markTerminal hterm]
    | true =>
      rw [Handle.markTerminal_of_terminal hterm]
      rcases h.terminal p hp htrigger hterm with hst | ⟨hst, -⟩
      · rw [if_neg (by rw [hst]; simp), hst]
      · rw [if_pos hst, hmatch p hp hterm hst]

end Surfaces

open Surfaces

/-- The two surfaces of a run agree exactly when every result that ends a subgraph gives the
    subgraphs that are still open below it the status that the end of the run gives. -/
theorem surfaces_agree_iff (scope : Namespace) (events : List TaskEvent) (ending : RunEnd)
    (hordered : Ordered scope events) :
    ((events.foldl step (init scope)).finish ending).WellFormed ↔
      Machine.Along step (Uniform ending) (init scope) events := by
  obtain ⟨⟨past, hinv⟩, hmatch⟩ :=
    (inv_init scope).run ending events hordered fun r hr => (nomatch hr)
  rw [hinv.wellFormed_iff, hmatch]
  constructor
  · exact And.right
  · intro halong
    refine ⟨?_, halong⟩
    intro p hp
    exact nomatch hp

/-- On every run, whatever its order, the channel shows each namespace started once at most,
    and ended once after that. -/
theorem lifecycle_once (scope : Namespace) (events : List TaskEvent) (ending : RunEnd)
    (ns : Namespace) : ((events.foldl step (init scope)).finish ending).lifecycle.statuses ns = [] ∨
      ∃ st, st ≠ .started ∧
        ((events.foldl step (init scope)).finish ending).lifecycle.statuses ns = [.started, st] := by
  refine once_finish (Machine.foldl_invariant (I := fun s : Surfaces => s.lifecycle.Sound) ?_ ?_ events) ending ns
  · exact LifecycleTransformer.sound_init scope
  · intro s e h
    obtain ⟨r, start | result⟩ := e
    · exact h.start r start
    · exact (h.result r result).1

def taskStart (ns : Namespace) (id : String) : TaskEvent := ⟨ns, .start ⟨some id, .other, none⟩⟩

def taskResult (ns : Namespace) (id : String) (error : Option String) : TaskEvent :=
  ⟨ns, .result ⟨some id, error, []⟩⟩

/-- A subgraph in a subgraph, and the results of the tasks that run them. -/
def nestedRun : List TaskEvent :=
  [taskStart [] "1", taskStart ["a:1"] "2", taskStart ["a:1", "b:2"] "3",
    taskResult ["a:1", "b:2"] "3" none, taskResult ["a:1"] "2" none, taskResult [] "1" none]

theorem surfaces_agree_nestedRun :
    ((nestedRun.foldl step (init [])).finish .finalize).WellFormed :=
  (surfaces_agree_iff [] nestedRun .finalize (by decide +kernel)).mpr (by decide +kernel)

/-- Each result comes after the start of its task. -/
def ResultsFollowStarts (events : List TaskEvent) : Prop :=
  Machine.Along (fun past e => past ++ [e])
    (fun past e => match e.data with
      | .start _ => True
      | .result data => past.any fun r => r.ns = e.ns && match r.data with
        | .start start => start.id = data.id
        | .result _ => false)
    [] events

/-- The subgraph fails while the one below it is still running, and the run goes on to its end. -/
def failedAbove : List TaskEvent :=
  [taskStart [] "1", taskStart ["a:1"] "2", taskStart ["a:1", "b:2"] "3",
    taskResult [] "1" (some "boom")]

theorem not_surfaces_agree : ¬∀ events ending, Ordered [] events → ResultsFollowStarts events →
    ((events.foldl step (init [])).finish ending).WellFormed := by
  intro h
  have hfollow : ResultsFollowStarts failedAbove := ⟨trivial, trivial, trivial, rfl, trivial⟩
  have hwell := h failedAbove .finalize (by decide +kernel) hfollow
  have hmem : (["a:1", "b:2"], (⟨some "b", some "2", .failed, some "boom", true⟩ : Handle)) ∈
      ((failedAbove.foldl step (init [])).finish .finalize).subgraphs.handles.all := by
    decide +kernel
  have hstatuses : ((failedAbove.foldl step (init [])).finish .finalize).lifecycle.statuses
      ["a:1", "b:2"] = [.started, .completed] := by decide +kernel
  have hagree := hwell.agree _ hmem
  rw [hstatuses] at hagree
  exact absurd hagree (by decide)

end LangGraph.Stream
