import LangGraph.LoopInvariants

/- The barrier of an edge with several starts, as the calls of `apply_writes` see it.

   Correspondence (source ↔ Lean):
     `NamedBarrierValue`, and the class of a
     deferred target, in any state                  ↔ `barrier`
     `self.seen == self.names`                      ↔ `complete`
     the channels that `finish` may release         ↔ `Channel.waitsForFinish`
   `Notified.barrier` says what a call does to the barrier before the end of the
   run, `finish_barrier` what the end of the run does. A call ends the run iff it
   is a step after which no node is due by a channel that does not wait for that
   (`Loop.apply_finishes_iff`). -/
namespace LangGraph

/-! ## Channels that wait for the end of the run -/

namespace Channel

def waitsForFinish : Channel → Bool
  | .lastValueAfterFinish _ | .namedBarrierValueAfterFinish _ => true
  | _ => false

/-- A barrier is only finished when it is complete. -/
def Settled : Channel → Prop
  | .namedBarrierValueAfterFinish c => c.finished = true → setEq c.seen c.names = true
  | _ => True

end Channel

/-- The loop of a barrier's `update` keeps what was seen and adds names only. -/
theorem mem_barrierUpdate {key : String} {names : List PyVal} :
    ∀ (vs seen : List PyVal) (updated : Bool),
      (∀ x ∈ seen, x ∈ (barrierUpdate key names seen vs updated).1) ∧
        ∀ x ∈ (barrierUpdate key names seen vs updated).1, x ∈ seen ∨ x ∈ names
  | [], seen, updated => ⟨fun _ h => h, fun _ h => Or.inl h⟩
  | v :: vs, seen, updated => by
    unfold barrierUpdate
    split
    · next hname =>
      split
      · exact mem_barrierUpdate vs seen updated
      · obtain ⟨hkeep, hnew⟩ := @mem_barrierUpdate key names vs (seen ++ [v]) true
        refine ⟨fun x hx => hkeep x (List.mem_append_left _ hx), fun x hx => ?_⟩
        rcases hnew x hx with h | h
        · rcases List.mem_append.mp h with h | h
          · exact Or.inl h
          · rw [List.mem_singleton.mp h]
            exact Or.inr (List.contains_iff_mem.mp hname)
        · exact Or.inr h
    · exact ⟨fun _ h => h, fun _ h => Or.inl h⟩

/-- On a complete barrier the loop changes nothing. -/
theorem barrierUpdate_complete {key : String} {names seen : List PyVal} (h : ∀ x ∈ names, x ∈ seen) :
    ∀ (vs : List PyVal) (updated : Bool), (barrierUpdate key names seen vs updated).1 = seen ∧
      ∀ b, (barrierUpdate key names seen vs updated).2 = .ok b → b = updated
  | [], updated => ⟨rfl, fun b hb => (Except.ok.inj hb).symm⟩
  | v :: vs, updated => by
    unfold barrierUpdate
    split
    · next hname =>
      have hseen : seen.contains v = true :=
        List.contains_iff_mem.mpr (h v (List.contains_iff_mem.mp hname))
      rw [if_pos hseen]
      exact barrierUpdate_complete h vs updated
    · refine ⟨rfl, fun b hb => ?_⟩
      cases hb

theorem setEq_iff {a b : List PyVal} : setEq a b = true ↔ ∀ x, x ∈ a ↔ x ∈ b := by
  simp only [setEq, Bool.and_eq_true, List.all_eq_true, List.contains_iff_mem]
  exact ⟨fun h x => ⟨h.1 x, h.2 x⟩, fun h => ⟨fun x => (h x).mp, fun x => (h x).mpr⟩⟩

namespace Channel

theorem Settled.update {c : Channel} (h : c.Settled) (vs : List PyVal) : (c.update vs).1.Settled := by
  cases c with
  | namedBarrierValueAfterFinish c =>
    intro hf
    have hcomplete := setEq_iff.mp (h hf)
    have hsame := (@barrierUpdate_complete c.key _ _ (fun x => (hcomplete x).mpr) vs false).1
    show setEq (barrierUpdate c.key c.names c.seen vs false).1 c.names = true
    rw [hsame]
    exact h hf
  | _ => exact trivial

theorem Settled.consume {c : Channel} (h : c.Settled) : c.consume.1.Settled := by
  cases c with
  | namedBarrierValueAfterFinish c =>
    show Settled (.namedBarrierValueAfterFinish c.consume.1)
    unfold NamedBarrierValueAfterFinish.consume
    split
    · exact fun hf => nomatch hf
    · exact h
  | namedBarrierValue c =>
    show Settled (.namedBarrierValue c.consume.1)
    exact trivial
  | lastValueAfterFinish c => exact trivial
  | _ => exact trivial

theorem Settled.finish {c : Channel} (h : c.Settled) : c.finish.1.Settled := by
  cases c with
  | namedBarrierValueAfterFinish c =>
    show Settled (.namedBarrierValueAfterFinish c.finish.1)
    unfold NamedBarrierValueAfterFinish.finish
    split
    · next hc =>
      intro _
      exact (Bool.and_eq_true_iff.mp hc).2
    · exact h
  | lastValueAfterFinish c => exact trivial
  | _ => exact trivial

/-- A channel that an update makes available does not wait for the end of the run. -/
theorem waitsForFinish_of_update {c c' : Channel} {vs : List PyVal} (h : c.Settled)
    (hu : c.update vs = (c', .ok true)) (ha : c'.isAvailable = true) : c'.waitsForFinish = false := by
  cases c with
  | lastValueAfterFinish c =>
    simp only [Channel.update, LastValueAfterFinish.update, Prod.map, id] at hu
    split at hu
    · cases hu
    · obtain ⟨rfl, -⟩ := Prod.mk.inj hu
      simp [isAvailable] at ha
  | namedBarrierValueAfterFinish c =>
    obtain ⟨rfl, hchanged⟩ := Prod.mk.inj hu
    have hf : c.finished = true := (Bool.and_eq_true_iff.mp ha).1
    have hcomplete := setEq_iff.mp (h hf)
    cases (@barrierUpdate_complete c.key _ _ (fun x => (hcomplete x).mpr) vs false).2 true hchanged
  | lastValue c => obtain ⟨rfl, -⟩ := Prod.mk.inj hu; rfl
  | ephemeralValue c => obtain ⟨rfl, -⟩ := Prod.mk.inj hu; rfl
  | anyValue c => obtain ⟨rfl, -⟩ := Prod.mk.inj hu; rfl
  | untrackedValue c => obtain ⟨rfl, -⟩ := Prod.mk.inj hu; rfl
  | topic c => obtain ⟨rfl, -⟩ := Prod.mk.inj hu; rfl
  | namedBarrierValue c => obtain ⟨rfl, -⟩ := Prod.mk.inj hu; rfl
  | binaryOperatorAggregate c => obtain ⟨rfl, -⟩ := Prod.mk.inj hu; rfl
  | deltaChannel c => obtain ⟨rfl, -⟩ := Prod.mk.inj hu; rfl

theorem finish_of_not_waits {c : Channel} (h : c.waitsForFinish = false) : c.finish = (c, false) := by
  cases c with
  | lastValueAfterFinish c => cases h
  | namedBarrierValueAfterFinish c => cases h
  | _ => rfl

theorem waitsForFinish_finish (c : Channel) : c.finish.1.waitsForFinish = c.waitsForFinish := by
  cases c <;> rfl

end Channel

namespace ChannelView
variable {V : Type} {v : V} {w w' : ChannelView V}

/-- What is updated is available and does not wait for the end of the run. -/
def Released (w : ChannelView V) : Prop :=
  w.updated = true → w.channel.isAvailable = true ∧ w.channel.waitsForFinish = false

theorem Updates.released {vals : List PyVal} (h : w.Updates v vals w') (hs : w.channel.Settled)
    (hu : w.updated = false) : w'.channel.Settled ∧ w'.Released := by
  obtain ⟨changed, hup, hw⟩ := h
  have hsettled := hs.update vals
  rw [hup] at hsettled
  refine ⟨hsettled, fun hupdated => ?_⟩
  rw [hw, record, hu, Bool.false_or, Bool.and_eq_true] at hupdated
  obtain ⟨rfl, ha⟩ := hupdated
  exact ⟨ha, Channel.waitsForFinish_of_update hs hup ha⟩

theorem Notified.released {consumed bump : Bool} {vals : List PyVal}
    (h : w.Notified v consumed vals bump w') (hs : w.channel.Settled) (hu : w.updated = false) :
    w'.channel.Settled ∧ w'.Released := by
  obtain ⟨w₁, w₂, h₁, h₂, h₃⟩ := h
  have hs₁ : w₁.channel.Settled ∧ w₁.updated = false := by
    rw [h₁]
    split
    · exact ⟨hs.consume, hu⟩
    · exact ⟨hs, hu⟩
  have hs₂ : w₂.channel.Settled ∧ w₂.Released := by
    split at h₂
    · rw [h₂]
      refine ⟨hs₁.1, fun hupdated => ?_⟩
      rw [hs₁.2] at hupdated
      cases hupdated
    · exact h₂.released hs₁.1 hs₁.2
  split at h₃
  · unfold Bumps at h₃
    split at h₃
    · next hb => exact h₃.released hs₂.1 (by simpa using (Bool.and_eq_true_iff.mp hb).2)
    · rw [h₃]
      exact hs₂
  · rw [h₃]
    exact hs₂

end ChannelView

/-! ## The barrier of an edge -/

section Barrier

/-- `set(starts)` -/
def barrierNames (e : List String × String) : List PyVal := (e.1.map PyVal.str).dedup

/-- The channel of the edge when these starts were seen; `finished` counts for a deferred target. -/
def barrier (e : List String × String) (defer : Bool) (seen : List PyVal) (finished : Bool) : Channel :=
  if defer then .namedBarrierValueAfterFinish ⟨joinName e.1 e.2, barrierNames e, seen, finished⟩
  else .namedBarrierValue ⟨joinName e.1 e.2, barrierNames e, seen⟩

def complete (e : List String × String) (seen : List PyVal) : Bool := setEq seen (barrierNames e)

variable {e : List String × String} {defer : Bool} {seen : List PyVal} {finished : Bool}

theorem joinChannel_eq_barrier :
    CompiledStateGraph.joinChannel e.1 e.2 defer = barrier e defer [] false := rfl

theorem isAvailable_barrier :
    (barrier e defer seen finished).isAvailable = (complete e seen && (!defer || finished)) := by
  cases defer with
  | false => exact (Bool.and_true _).symm
  | true => exact Bool.and_comm _ _

theorem consume_barrier : (barrier e defer seen finished).consume =
    if (barrier e defer seen finished).isAvailable then (barrier e defer [] false, true)
    else (barrier e defer seen finished, false) := by
  cases defer with
  | false =>
    show ((NamedBarrierValue.consume _).map Channel.namedBarrierValue id) = _
    unfold NamedBarrierValue.consume
    split
    · next h => rw [if_pos (show (barrier e false seen finished).isAvailable = true from h)]; rfl
    · next h => rw [if_neg (show ¬(barrier e false seen finished).isAvailable = true from h)]; rfl
  | true =>
    show ((NamedBarrierValueAfterFinish.consume _).map Channel.namedBarrierValueAfterFinish id) = _
    unfold NamedBarrierValueAfterFinish.consume
    split
    · next h => rw [if_pos (show (barrier e true seen finished).isAvailable = true from h)]; rfl
    · next h => rw [if_neg (show ¬(barrier e true seen finished).isAvailable = true from h)]; rfl

theorem finish_barrier : (barrier e defer seen finished).finish.1 =
    barrier e defer seen (finished || complete e seen) := by
  cases defer with
  | false => rfl
  | true =>
    show ((NamedBarrierValueAfterFinish.finish _).map Channel.namedBarrierValueAfterFinish id).1 = _
    unfold NamedBarrierValueAfterFinish.finish barrier complete
    cases finished <;> cases setEq seen (barrierNames e) <;> rfl

theorem fromCheckpoint_barrier {seen' : List PyVal} {finished' : Bool} :
    (barrier e defer seen finished).fromCheckpoint (barrier e defer seen' finished').checkpoint =
      barrier e defer seen' finished' := by
  cases defer <;> rfl

theorem fromCheckpoint_barrier_none :
    (barrier e defer seen finished).fromCheckpoint none = barrier e defer [] false := by
  cases defer <;> rfl

/-- When it returns, the loop has added the values. -/
theorem mem_barrierUpdate_iff {key : String} {names : List PyVal} {x : PyVal} :
    ∀ {vs seen : List PyVal} {updated changed : Bool},
      (barrierUpdate key names seen vs updated).2 = .ok changed →
        (x ∈ (barrierUpdate key names seen vs updated).1 ↔ x ∈ seen ∨ x ∈ vs)
  | [], seen, updated, changed, _ => by simp [barrierUpdate]
  | v :: vs, seen, updated, changed, h => by
    unfold barrierUpdate at h ⊢
    split at h
    · split at h
      · next hname hseen =>
        rw [if_pos hname, if_pos hseen, mem_barrierUpdate_iff h, List.mem_cons]
        have hv := List.contains_iff_mem.mp hseen
        constructor
        · exact fun hx => hx.imp_right Or.inr
        · intro hx
          rcases hx with hx | rfl | hx
          · exact Or.inl hx
          · exact Or.inl hv
          · exact Or.inr hx
      · next hname hseen =>
        rw [if_pos hname, if_neg hseen, mem_barrierUpdate_iff h, List.mem_append, List.mem_singleton,
          List.mem_cons, or_assoc]
    · cases h

theorem update_barrier {vals : List PyVal} {c' : Channel} {changed : Bool}
    (h : (barrier e defer seen finished).update vals = (c', .ok changed)) :
    ∃ seen', c' = barrier e defer seen' finished ∧ ∀ x, x ∈ seen' ↔ x ∈ seen ∨ x ∈ vals := by
  cases defer with
  | false =>
    obtain ⟨rfl, hok⟩ := Prod.mk.inj h
    exact ⟨_, rfl, fun x => mem_barrierUpdate_iff hok⟩
  | true =>
    obtain ⟨rfl, hok⟩ := Prod.mk.inj h
    exact ⟨_, rfl, fun x => mem_barrierUpdate_iff hok⟩

variable {V : Type} {v : V} {w w' : ChannelView V}

/-- What a call does to a barrier before the end of the run. -/
theorem ChannelView.Notified.barrier {consumed bump : Bool} {vals : List PyVal}
    (h : w.Notified v consumed vals bump w') (hw : w.channel = barrier e defer seen finished) :
    ∃ seen', w'.channel =
        LangGraph.barrier e defer seen' (finished && !(consumed && w.channel.isAvailable)) ∧
      ∀ x, x ∈ seen' ↔ ((consumed && w.channel.isAvailable) = false ∧ x ∈ seen) ∨ x ∈ vals := by
  obtain ⟨w₁, w₂, h₁, h₂, h₃⟩ := h
  have hupdates : ∀ {w w' : ChannelView V} {vals : List PyVal} {seen : List PyVal} {finished : Bool},
      w.channel = LangGraph.barrier e defer seen finished → w.Updates v vals w' →
        ∃ seen', w'.channel = LangGraph.barrier e defer seen' finished ∧
          ∀ x, x ∈ seen' ↔ x ∈ seen ∨ x ∈ vals := by
    intro w w' vals seen finished hw hup
    obtain ⟨changed, hup, -⟩ := hup
    rw [hw] at hup
    exact update_barrier hup
  have hconsumed : ∃ seen₁, w₁.channel =
        LangGraph.barrier e defer seen₁ (finished && !(consumed && w.channel.isAvailable)) ∧
      ∀ x, x ∈ seen₁ ↔ (consumed && w.channel.isAvailable) = false ∧ x ∈ seen := by
    cases hc : consumed && w.channel.isAvailable with
    | true =>
      obtain ⟨rfl, ha⟩ := Bool.and_eq_true_iff.mp hc
      refine ⟨[], ?_, fun x => by simp⟩
      rw [h₁, if_pos rfl, ChannelView.consume, hw, consume_barrier, if_pos (hw ▸ ha), Bool.not_true,
        Bool.and_false]
    | false =>
      refine ⟨seen, ?_, fun x => by simp⟩
      rw [h₁, Bool.not_false, Bool.and_true]
      cases consumed with
      | false => exact hw
      | true =>
        rw [if_pos rfl, ChannelView.consume, hw, consume_barrier, if_neg (by rw [← hw]; simpa using hc)]
  obtain ⟨seen₁, hw₁, hseen₁⟩ := hconsumed
  have hupdated : ∃ seen₂, w₂.channel =
        LangGraph.barrier e defer seen₂ (finished && !(consumed && w.channel.isAvailable)) ∧
      ∀ x, x ∈ seen₂ ↔ x ∈ seen₁ ∨ x ∈ vals := by
    split at h₂
    · next hnil =>
      rw [h₂]
      exact ⟨seen₁, hw₁, fun x => by simp [hnil]⟩
    · exact hupdates hw₁ h₂
  obtain ⟨seen₂, hw₂, hseen₂⟩ := hupdated
  have hbumped : ∃ seen₃, w'.channel =
        LangGraph.barrier e defer seen₃ (finished && !(consumed && w.channel.isAvailable)) ∧
      ∀ x, x ∈ seen₃ ↔ x ∈ seen₂ := by
    split at h₃
    · unfold Bumps at h₃
      split at h₃
      · obtain ⟨seen₃, hw₃, hseen₃⟩ := hupdates hw₂ h₃
        exact ⟨seen₃, hw₃, fun x => (hseen₃ x).trans (by simp)⟩
      · rw [h₃]
        exact ⟨seen₂, hw₂, fun _ => Iff.rfl⟩
    · rw [h₃]
      exact ⟨seen₂, hw₂, fun _ => Iff.rfl⟩
  obtain ⟨seen₃, hw₃, hseen₃⟩ := hbumped
  refine ⟨seen₃, hw₃, fun x => ?_⟩
  rw [hseen₃, hseen₂, hseen₁]

end Barrier

/-! ## The edges of a compiled graph -/

/-- The edge has a barrier in the compiled graph, for a target with this spec, that
    no other edge shares. -/
structure StateGraph.Joins (g : StateGraph) (e : List String × String) (spec : StateNodeSpec) : Prop where
  edge : e ∈ g.waitingEdges
  target : g.nodes.get? e.2 = some spec
  notEnd : e.2 ≠ Const.END
  unshared : ∀ e' ∈ g.waitingEdges, joinName e'.1 e'.2 = joinName e.1 e.2 → e' = e

theorem joinName_ne_branchTo (starts : List String) (target node : String) :
    joinName starts target ≠ branchTo node := by
  intro h
  have h' := congrArg (fun s : String => s.toList.take 1) h
  simp [joinName, branchTo, String.toList_append] at h'

theorem joinName_ne_start (starts : List String) (target : String) :
    joinName starts target ≠ Const.START := by
  intro h
  have h' := congrArg (fun s : String => s.toList.take 1) h
  simp [joinName, Const.START, String.toList_append] at h'

namespace CompiledStateGraph

/-- A barrier is a trigger of its target only, and the nodes of the builder are there. -/
structure Joined (g : StateGraph) (c : CompiledStateGraph) : Prop where
  nodes : ∀ k ∈ g.nodes.keys, ∃ proc, c.nodes.get? k = some proc
  triggers : ∀ node proc, c.nodes.get? node = some proc → ∀ e ∈ g.waitingEdges,
    joinName e.1 e.2 ∈ proc.triggers →
      ∃ e' ∈ g.waitingEdges, joinName e'.1 e'.2 = joinName e.1 e.2 ∧ node = e'.2

theorem joined_attachNodes (g : StateGraph) :
    Joined g (g.nodes.entries.foldl (fun c e => c.attachNode e.1 e.2) (init g.channels).attachStart) := by
  have hfold : ∀ (entries : List (String × StateNodeSpec)) (c : CompiledStateGraph),
      (∀ node proc, c.nodes.get? node = some proc → ∀ e ∈ g.waitingEdges,
        joinName e.1 e.2 ∉ proc.triggers) →
      (∀ k, (∃ proc, c.nodes.get? k = some proc) ∨ k ∈ entries.map Prod.fst →
        ∃ proc, (entries.foldl (fun c e => c.attachNode e.1 e.2) c).nodes.get? k = some proc) ∧
      ∀ node proc, (entries.foldl (fun c e => c.attachNode e.1 e.2) c).nodes.get? node = some proc →
        ∀ e ∈ g.waitingEdges, joinName e.1 e.2 ∉ proc.triggers := by
    intro entries
    induction entries with
    | nil => exact fun c hc => ⟨fun k hk => hk.resolve_right List.not_mem_nil, hc⟩
    | cons entry rest ih =>
      intro c hc
      obtain ⟨hin, hout⟩ := ih (c.attachNode entry.1 entry.2) (by
        intro node proc hp e he hmem
        by_cases hk : node = entry.1
        · subst hk
          rw [attachNode, OrdDict.get?_set_self] at hp
          obtain rfl := Option.some.inj hp
          exact joinName_ne_branchTo _ _ _ (List.mem_singleton.mp hmem)
        · rw [attachNode, OrdDict.get?_set_of_ne hk] at hp
          exact hc node proc hp e he hmem)
      refine ⟨fun k hk => hin k ?_, hout⟩
      rw [List.map_cons, List.mem_cons] at hk
      by_cases he : k = entry.1
      · subst he
        exact Or.inl ⟨_, OrdDict.get?_set_self _ _ _⟩
      · rcases hk with ⟨proc, hp⟩ | rfl | hk
        · exact Or.inl ⟨proc, by rw [attachNode, OrdDict.get?_set_of_ne he]; exact hp⟩
        · exact absurd rfl he
        · exact Or.inr hk
  obtain ⟨hin, hout⟩ := hfold g.nodes.entries (init g.channels).attachStart (by
    intro node proc hp e he hmem
    by_cases hk : node = Const.START
    · subst hk
      rw [attachStart, OrdDict.get?_set_self] at hp
      obtain rfl := Option.some.inj hp
      exact joinName_ne_start _ _ (List.mem_singleton.mp hmem)
    · rw [attachStart, OrdDict.get?_set_of_ne hk] at hp
      cases hp)
  exact ⟨fun k hk => hin k (Or.inr hk), fun node proc hp e he hmem => absurd hmem (hout node proc hp e he)⟩

theorem Joined.attachEdge {g : StateGraph} {c : CompiledStateGraph} (h : Joined g c)
    {e₀ : List String × String} (he₀ : e₀ ∈ g.waitingEdges) :
    Joined g (CompiledStateGraph.attachEdge g.nodes c e₀) := by
  unfold CompiledStateGraph.attachEdge
  split
  · next spec proc₀ hspec hproc =>
    refine ⟨fun k hk => ?_, fun node proc hp e he hmem => ?_⟩
    · by_cases hk' : k = e₀.2
      · subst hk'
        exact ⟨_, OrdDict.get?_set_self _ _ _⟩
      · rw [OrdDict.get?_set_of_ne hk']
        exact h.nodes k hk
    · by_cases hk : node = e₀.2
      · subst hk
        rw [OrdDict.get?_set_self] at hp
        obtain rfl := Option.some.inj hp
        rcases List.mem_append.mp hmem with hmem | hmem
        · exact h.triggers _ proc₀ hproc e he hmem
        · exact ⟨e₀, he₀, (List.mem_singleton.mp hmem).symm, rfl⟩
      · rw [OrdDict.get?_set_of_ne hk] at hp
        exact h.triggers node proc hp e he hmem
  · exact h

/-- What attaching an edge makes of the barrier of another one, or of its own. -/
theorem attachEdge_join {g : StateGraph} {c : CompiledStateGraph} (h : Joined g c)
    {e e₀ : List String × String} {spec : StateNodeSpec} (hjoin : g.Joins e spec)
    (he₀ : e₀ ∈ g.waitingEdges)
    (hthere : e₀ = e ∨ (c.channels.get? (joinName e.1 e.2) = some (barrier e spec.defer [] false) ∧
      ∃ proc, c.nodes.get? e.2 = some proc ∧ joinName e.1 e.2 ∈ proc.triggers)) :
    (attachEdge g.nodes c e₀).channels.get? (joinName e.1 e.2) = some (barrier e spec.defer [] false) ∧
      ∃ proc, (attachEdge g.nodes c e₀).nodes.get? e.2 = some proc ∧
        joinName e.1 e.2 ∈ proc.triggers := by
  by_cases heq : e₀ = e
  · subst heq
    obtain ⟨proc, hproc⟩ := h.nodes e₀.2 (OrdDict.mem_keys_iff.mpr ⟨spec, hjoin.target⟩)
    unfold attachEdge
    rw [hjoin.target, hproc]
    refine ⟨OrdDict.get?_set_self _ _ _, _, OrdDict.get?_set_self _ _ _, ?_⟩
    exact List.mem_append_right _ (List.mem_singleton_self _)
  · obtain ⟨hch, proc, hproc, hmem⟩ := hthere.resolve_left heq
    have hname : joinName e.1 e.2 ≠ joinName e₀.1 e₀.2 := fun h => heq (hjoin.unshared e₀ he₀ h.symm)
    unfold attachEdge
    split
    · next spec₀ proc₀ hspec₀ hproc₀ =>
      refine ⟨by rw [OrdDict.get?_set_of_ne hname]; exact hch, ?_⟩
      by_cases hk : e.2 = e₀.2
      · refine ⟨{ proc₀ with triggers := proc₀.triggers ++ [joinName e₀.1 e₀.2] }, ?_, ?_⟩
        · show (c.nodes.set e₀.2 _).get? e.2 = _
          rw [hk, OrdDict.get?_set_self]
        · rw [hk] at hproc
          obtain rfl := Option.some.inj (hproc₀.symm.trans hproc)
          exact List.mem_append_left _ hmem
      · exact ⟨proc, by rw [OrdDict.get?_set_of_ne hk]; exact hproc, hmem⟩
    · exact ⟨hch, proc, hproc, hmem⟩

end CompiledStateGraph

open CompiledStateGraph in
/-- The barrier of the edge in the compiled graph, whose target it triggers, and no other node. -/
theorem StateGraph.compile_join {g : StateGraph} {e : List String × String} {spec : StateNodeSpec}
    (hjoin : g.Joins e spec) :
    g.compile.channels.get? (joinName e.1 e.2) = some (barrier e spec.defer [] false) ∧
      (∃ proc, g.compile.nodes.get? e.2 = some proc ∧ joinName e.1 e.2 ∈ proc.triggers) ∧
      ∀ node proc, g.compile.nodes.get? node = some proc → joinName e.1 e.2 ∈ proc.triggers →
        node = e.2 := by
  have hedges : ∀ (edges : List (List String × String)) (c : CompiledStateGraph), Joined g c →
      (∀ e₀ ∈ edges, e₀ ∈ g.waitingEdges) →
      (e ∈ edges ∨ (c.channels.get? (joinName e.1 e.2) = some (barrier e spec.defer [] false) ∧
        ∃ proc, c.nodes.get? e.2 = some proc ∧ joinName e.1 e.2 ∈ proc.triggers)) →
      Joined g (edges.foldl (attachEdge g.nodes) c) ∧
        (edges.foldl (attachEdge g.nodes) c).channels.get? (joinName e.1 e.2) =
          some (barrier e spec.defer [] false) ∧
        ∃ proc, (edges.foldl (attachEdge g.nodes) c).nodes.get? e.2 = some proc ∧
          joinName e.1 e.2 ∈ proc.triggers := by
    intro edges
    induction edges with
    | nil => exact fun c hc _ hthere => ⟨hc, hthere.resolve_left List.not_mem_nil⟩
    | cons e₀ rest ih =>
      intro c hc hsub hthere
      have he₀ := hsub e₀ List.mem_cons_self
      refine ih _ (hc.attachEdge he₀) (fun e' he' => hsub e' (List.mem_cons_of_mem _ he')) ?_
      rcases hthere with hmem | hthere
      · rcases List.mem_cons.mp hmem with rfl | hmem
        · exact Or.inr (attachEdge_join hc hjoin he₀ (Or.inl rfl))
        · exact Or.inl hmem
      · exact Or.inr (attachEdge_join hc hjoin he₀ (Or.inr hthere))
  obtain ⟨hjoined, hch, hproc⟩ := hedges g.waitingEdges _ (joined_attachNodes g) (fun _ h => h)
    (Or.inl hjoin.edge)
  refine ⟨hch, hproc, fun node proc hp hmem => ?_⟩
  obtain ⟨e', he', hname, rfl⟩ := hjoined.triggers node proc hp e hjoin.edge hmem
  rw [hjoin.unshared e' he' hname]

/-- A channel is listed iff it triggers some node. -/
theorem contains_triggerToNodes {nodes : OrdDict String PregelNode} {chan : String} :
    (triggerToNodes nodes).contains chan = true ↔
      ∃ name proc, nodes.get? name = some proc ∧ chan ∈ proc.triggers := by
  have hnode : ∀ (name : String) (trigs : List String) (d : TriggerToNodes),
      (∀ names, d.get? chan = some names → names ≠ []) →
        ∀ names, (trigs.foldl (addTrigger name) d).get? chan = some names → names ≠ [] := by
    intro name trigs
    induction trigs with
    | nil => exact fun _ hd => hd
    | cons t rest ih =>
      intro d hd
      refine ih _ fun names hnames => ?_
      unfold addTrigger at hnames
      by_cases ht : chan = t
      · subst ht
        rw [OrdDict.get?_set_self] at hnames
        rw [← Option.some.inj hnames]
        exact List.append_ne_nil_of_right_ne_nil _ (List.cons_ne_nil _ _)
      · rw [OrdDict.get?_set_of_ne ht] at hnames
        exact hd names hnames
  have hall : ∀ (entries : List (String × PregelNode)) (d : TriggerToNodes),
      (∀ names, d.get? chan = some names → names ≠ []) → ∀ names,
        (entries.foldl (fun d e => e.2.triggers.foldl (addTrigger e.1) d) d).get? chan = some names →
          names ≠ [] := by
    intro entries
    induction entries with
    | nil => exact fun _ hd => hd
    | cons e rest ih => exact fun d hd => ih _ (hnode e.1 e.2.triggers d hd)
  constructor
  · intro h
    obtain ⟨names, hnames⟩ := Option.isSome_iff_exists.mp h
    obtain ⟨name, hname⟩ := List.exists_mem_of_ne_nil _
      (hall nodes.entries ∅ (fun _ hd => nomatch hd) names hnames)
    obtain ⟨proc, hp, hmem⟩ := (@mem_triggerToNodes _ _ chan).mp
      (show name ∈ (triggerToNodes nodes).getD chan [] by
        rw [OrdDict.getD, show (triggerToNodes nodes).get? chan = some names from hnames]
        exact hname)
    exact ⟨name, proc, hp, hmem⟩
  · intro h
    obtain ⟨name, hmem⟩ : ∃ name, name ∈ (triggerToNodes nodes).getD chan [] := by
      obtain ⟨name, proc, hp, hmem⟩ := h
      exact ⟨name, mem_triggerToNodes.mpr ⟨proc, hp, hmem⟩⟩
    unfold OrdDict.contains
    cases hget : (triggerToNodes nodes).get? chan with
    | some _ => rfl
    | none =>
      rw [OrdDict.getD, hget] at hmem
      cases hmem

/-! ## Calls -/

section Calls
variable {V : Type} [LinearOrder V] {p : Program V} {l l' : Loop V} {tasks : List TaskWrites}
  {us : List String}

/-- The call ended a step. -/
def isStep (tasks : List TaskWrites) : Bool := tasks.any fun t => !t.triggers.isEmpty

theorem Loop.apply_phases (h : l.apply p tasks = some (l', us)) :
    ∃ s₃ s, ApplyPhases l.checkpoint l.channels tasks (l.checkpoint.next p.getNextVersion)
      p.triggerToNodes s₃ s ∧ l' = l.after tasks s ∧ us = s.updatedChannels := by
  unfold Loop.apply at h
  match ha : applyWrites l.checkpoint l.channels tasks (some p.getNextVersion) p.triggerToNodes with
  | (s, .error e) =>
    rw [ha] at h
    cases h
  | (s, .ok ()) =>
    rw [ha] at h
    cases h
    obtain ⟨s₃, hphases⟩ := applyWrites_phases ha
    exact ⟨s₃, s, hphases, rfl, rfl⟩

omit [LinearOrder V] in
/-- One channel of the call: before the end of the run, and after the call. -/
theorem ApplyPhases.channel {cp : Checkpoint V} {channels : OrdDict String Channel} {v : V}
    {ttn : TriggerToNodes} {s₃ s : ApplyState V} (h : ApplyPhases cp channels tasks v ttn s₃ s)
    {chan : String} {ch : Channel} (hch : channels.get? chan = some ch) :
    ∃ w₃, ChannelView.Notified v (decide (chan ∈ triggerChannels tasks channels))
        (writesFor (SortBy.sortBy TaskWrites.sortKey tasks) chan) (isStep tasks)
        ⟨ch, cp.channelVersions.get? chan, false⟩ w₃ ∧
      s₃.view chan = some w₃ ∧
      s.view chan = some (if finishes ttn (isStep tasks) s₃ then w₃.finish v else w₃) := by
  have hnotified := h.notified chan
  have hfinished := h.finished chan
  have hview : ApplyState.view chan ⟨cp, channels, []⟩ =
      some ⟨ch, cp.channelVersions.get? chan, false⟩ := by
    simp [ApplyState.view, hch]
  rw [hview] at hnotified
  generalize hw : s₃.view chan = view at hnotified hfinished
  cases hnotified with
  | some hn => exact ⟨_, hn, rfl, hfinished⟩

omit [LinearOrder V] in
theorem ApplyState.view_eq_some {s : ApplyState V} {chan : String} {w : ChannelView V}
    (h : s.view chan = some w) : s.channels.get? chan = some w.channel ∧
      s.checkpoint.channelVersions.get? chan = w.version ∧
      (w.updated = true ↔ chan ∈ s.updatedChannels) := by
  unfold ApplyState.view at h
  obtain ⟨c, hc, rfl⟩ := Option.map_eq_some_iff.mp h
  exact ⟨hc, rfl, decide_eq_true_iff⟩

omit [LinearOrder V] in
/-- What a call leaves of a barrier. -/
theorem ApplyPhases.barrier {cp : Checkpoint V} {channels : OrdDict String Channel} {v : V}
    {ttn : TriggerToNodes} {s₃ s : ApplyState V} (h : ApplyPhases cp channels tasks v ttn s₃ s)
    {e : List String × String} {defer : Bool} {seen : List PyVal} {finished : Bool} {ch : Channel}
    (hbarrier : ch = barrier e defer seen finished)
    (hch : channels.get? (joinName e.1 e.2) = some ch) {consumed : Bool}
    (hconsumed : consumed =
      (decide (joinName e.1 e.2 ∈ triggerChannels tasks channels) && ch.isAvailable)) :
    ∃ seen', s.channels.get? (joinName e.1 e.2) = some (LangGraph.barrier e defer seen'
        ((finished && !consumed) || (finishes ttn (isStep tasks) s₃ && complete e seen'))) ∧
      ∀ x, x ∈ seen' ↔ (consumed = false ∧ x ∈ seen) ∨
        x ∈ writesFor (SortBy.sortBy TaskWrites.sortKey tasks) (joinName e.1 e.2) := by
  obtain ⟨w₃, hnotified, -, hw⟩ := h.channel hch
  obtain ⟨seen', hw₃, hseen'⟩ := hnotified.barrier hbarrier
  rw [← hconsumed] at hw₃ hseen'
  refine ⟨seen', ?_, hseen'⟩
  rw [(ApplyState.view_eq_some hw).1]
  cases finishes ttn (isStep tasks) s₃ with
  | false => rw [if_neg Bool.false_ne_true, hw₃, Bool.false_and, Bool.or_false]
  | true =>
    rw [if_pos rfl]
    show some w₃.channel.finish.1 = _
    rw [hw₃, finish_barrier, Bool.true_and]

/-! ## The end of the run -/

/-- Some node is due by a channel that does not wait for the end of the run. -/
def Loop.Pending (p : Program V) (l : Loop V) : Prop :=
  ∃ node chan, p.Triggers node chan ∧ l.unread node chan = true ∧
    ∃ ch, l.channels.get? chan = some ch ∧ ch.isAvailable = true ∧ ch.waitsForFinish = false

/-- The trigger channels are settled. -/
def Loop.Settled (p : Program V) (l : Loop V) : Prop :=
  ∀ node chan, p.Triggers node chan → ∀ ch, l.channels.get? chan = some ch → ch.Settled

/-- A step that leaves no trigger over ends the run iff no node is due after it by a
    channel that does not wait for that. -/
theorem ApplyPhases.finishes_iff {s₃ s : ApplyState V}
    (h : ApplyPhases l.checkpoint l.channels tasks (l.checkpoint.next p.getNextVersion)
      p.triggerToNodes s₃ s) (hw : l.Wired p) (hs : l.Settled p) (hstep : isStep tasks = true)
    (hover : ∀ node chan, p.Triggers node chan → ∀ ch, (l.after tasks s).channels.get? chan = some ch →
      ch.isAvailable = true → chan ∈ s.updatedChannels) :
    finishes p.triggerToNodes (isStep tasks) s₃ = true ↔ ¬(l.after tasks s).Pending p := by
  constructor
  · intro hfin hpending
    obtain ⟨node, chan, ht, -, ch', hch', ha, hwaits⟩ := hpending
    obtain ⟨ch, -, hch, -⟩ := hw node chan ht
    obtain ⟨w₃, -, hw₃, hview⟩ := h.channel hch
    rw [hfin, if_pos rfl] at hview
    obtain ⟨hchannel, -, hupdated⟩ := ApplyState.view_eq_some hview
    obtain rfl : (w₃.finish (l.checkpoint.next p.getNextVersion)).channel = ch' :=
      Option.some.inj (hchannel.symm.trans hch')
    -- the end of the run changes nothing of the channel, so that it was updated before
    have hwaits₃ : w₃.channel.waitsForFinish = false := by
      rw [← Channel.waitsForFinish_finish]
      exact hwaits
    have hmem : chan ∈ s₃.updatedChannels := by
      rw [← (ApplyState.view_eq_some hw₃).2.2]
      have hu := hupdated.mpr (hover node chan ht _ hch' ha)
      rw [ChannelView.finish, Channel.finish_of_not_waits hwaits₃, ChannelView.record_false] at hu
      exact hu
    have hnone := List.all_eq_true.mp (Bool.and_eq_true_iff.mp hfin).2 chan hmem
    rw [show p.triggerToNodes.contains chan = true from
      contains_triggerToNodes.mpr ⟨node, ht⟩] at hnone
    cases hnone
  · intro hpending
    by_contra hfin
    apply hpending
    have hfin' : finishes p.triggerToNodes (isStep tasks) s₃ = false := Bool.not_eq_true _ ▸ hfin
    have hsome : ¬(s₃.updatedChannels.all fun chan => !p.triggerToNodes.contains chan) = true := by
      intro hall
      rw [finishes, hstep, hall] at hfin'
      cases hfin'
    rw [List.all_eq_true] at hsome
    push Not at hsome
    obtain ⟨chan, hmem, hcontains⟩ := hsome
    obtain ⟨node, ht⟩ := contains_triggerToNodes.mp (show p.triggerToNodes.contains chan = true by
      simpa using hcontains)
    obtain ⟨ch, -, hch, -⟩ := hw node chan ht
    obtain ⟨w₃, hnotified, hw₃, hview⟩ := h.channel hch
    rw [hfin', if_neg Bool.false_ne_true] at hview
    obtain ⟨-, hreleased⟩ := hnotified.released (hs node chan ht ch hch) rfl
    have hupdated := (ApplyState.view_eq_some hw₃).2.2.mpr hmem
    obtain ⟨ha, hwaits⟩ := hreleased hupdated
    obtain ⟨hchannel, -, hmem'⟩ := ApplyState.view_eq_some hview
    refine ⟨node, chan, ht, ?_, w₃.channel, hchannel, ha, hwaits⟩
    simp [Loop.after, written, hmem'.mp hupdated]

end Calls

end LangGraph
