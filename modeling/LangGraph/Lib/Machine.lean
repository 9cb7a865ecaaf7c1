import Mathlib.Data.List.Induction

/- Machines with a partial step on events.

   `Reachable step ok init` are the states of the runs from `init` whose every
   step meets `ok`. An invariant of the step holds in all of them
   (`Reachable.invariant`), and a run over a list of events reaches its end
   (`Reachable.of_run`). -/
namespace Machine

variable {σ ε : Type}

inductive Reachable (step : σ → ε → Option σ) (ok : σ → ε → Prop) (init : σ) : σ → Prop where
  | start : Reachable step ok init init
  | step {s s' : σ} {e : ε} : Reachable step ok init s → ok s e → step s e = some s' →
      Reachable step ok init s'

/-- The state after the events, in order. -/
def run (step : σ → ε → Option σ) : σ → List ε → Option σ
  | s, [] => some s
  | s, e :: es => (step s e).bind fun s' => run step s' es

/-- Every step of the run over the events meets `ok`. -/
def Meets (step : σ → ε → Option σ) (ok : σ → ε → Prop) : σ → List ε → Prop
  | _, [] => True
  | s, e :: es => ok s e ∧ ∀ s', step s e = some s' → Meets step ok s' es

instance Meets.instDecidable (step : σ → ε → Option σ) (ok : σ → ε → Prop)
    [∀ s e, Decidable (ok s e)] : ∀ (s : σ) (es : List ε), Decidable (Meets step ok s es)
  | _, [] => isTrue trivial
  | s, e :: es =>
    match hs : step s e with
    | none => decidable_of_iff (ok s e) ⟨fun h => ⟨h, fun _ h' => by simp [hs] at h'⟩, And.left⟩
    | some s' =>
      have := Meets.instDecidable step ok s' es
      decidable_of_iff (ok s e ∧ Meets step ok s' es)
        ⟨fun h => ⟨h.1, fun _ h' => by cases hs.symm.trans h'; exact h.2⟩,
          fun h => ⟨h.1, h.2 s' hs⟩⟩

section
variable {step : σ → ε → Option σ} {ok : σ → ε → Prop} {init : σ}

theorem Meets.of_forall (h : ∀ s e, ok s e) : ∀ (s : σ) (es : List ε), Meets step ok s es
  | _, [] => trivial
  | s, e :: es => ⟨h s e, fun s' _ => Meets.of_forall h s' es⟩

theorem Meets.cons {s s' : σ} {e : ε} {es : List ε} (hok : ok s e) (hs : step s e = some s')
    (hrest : Meets step ok s' es) : Meets step ok s (e :: es) :=
  ⟨hok, fun _ h => Option.some_inj.mp (hs.symm.trans h) ▸ hrest⟩

theorem Reachable.invariant {P : σ → Prop} (hinit : P init)
    (hstep : ∀ s e s', P s → ok s e → step s e = some s' → P s') {s : σ}
    (h : Reachable step ok init s) : P s := by
  induction h with
  | start => exact hinit
  | step _ hok hs ih => exact hstep _ _ _ ih hok hs

theorem Reachable.mono {ok' : σ → ε → Prop} (hle : ∀ s e, ok s e → ok' s e) {s : σ}
    (h : Reachable step ok init s) : Reachable step ok' init s := by
  induction h with
  | start => exact .start
  | step _ hok hs ih => exact .step ih (hle _ _ hok) hs

theorem Reachable.extend {s : σ} (h : Reachable step ok init s) :
    ∀ {es : List ε} {s' : σ}, Meets step ok s es → run step s es = some s' →
      Reachable step ok init s' := by
  intro es
  induction es generalizing s with
  | nil =>
    intro s' _ hrun
    cases hrun
    exact h
  | cons e es ih =>
    intro s' hok hrun
    obtain ⟨s₁, hs, hrest⟩ := Option.bind_eq_some_iff.mp hrun
    exact ih (.step h hok.1 hs) (hok.2 s₁ hs) hrest

theorem Reachable.of_run {es : List ε} {s : σ} (hok : Meets step ok init es)
    (hrun : run step init es = some s) : Reachable step ok init s :=
  Reachable.start.extend hok hrun

theorem run_append : ∀ (es es' : List ε) (s : σ),
    run step s (es ++ es') = (run step s es).bind fun s' => run step s' es'
  | [], _, _ => rfl
  | e :: es, es', s => by
    show (step s e).bind (fun s₁ => run step s₁ (es ++ es')) =
      ((step s e).bind fun s₁ => run step s₁ es).bind _
    rw [Option.bind_assoc]
    exact congrArg _ (funext fun s₁ => run_append es es' s₁)

/-- What is read off the end of a run holds of a reachable state. -/
theorem exists_of_run {es : List ε} (hok : Meets step ok init es) {α : Type} {f : σ → α} {a : α}
    (h : (run step init es).map f = some a) : ∃ s, Reachable step ok init s ∧ f s = a := by
  obtain ⟨s, hs, hf⟩ := Option.map_eq_some_iff.mp h
  exact ⟨s, Reachable.of_run hok hs, hf⟩

end

section Total
variable {f : σ → ε → σ} {I P : σ → Prop} {C : σ → ε → Prop} {s₀ : σ}

theorem foldl_invariant (hI : I s₀) (hstep : ∀ s e, I s → I (f s e)) (es : List ε) :
    I (es.foldl f s₀) := by
  induction es generalizing s₀ with
  | nil => exact hI
  | cons e es ih => exact ih (hstep s₀ e hI)

theorem foldl_prefix_iff (hI : I s₀) (hstep : ∀ s e, I s → I (f s e)) (hP : P s₀)
    (hiff : ∀ s e, I s → P s → (P (f s e) ↔ C s e)) (es : List ε) :
    (∀ pre, pre <+: es → P (pre.foldl f s₀)) ↔
      ∀ pre e, pre ++ [e] <+: es → C (pre.foldl f s₀) e := by
  constructor
  · intro h pre e hpre
    have hnext := h _ hpre
    rw [List.foldl_append] at hnext
    exact (hiff _ _ (foldl_invariant hI hstep pre)
      (h pre ((List.prefix_append pre [e]).trans hpre))).mp hnext
  · intro h pre
    induction pre using List.reverseRecOn with
    | nil => exact fun _ => hP
    | append_singleton pre e ih =>
      intro hpre
      rw [List.foldl_append]
      exact (hiff _ _ (foldl_invariant hI hstep pre)
        (ih ((List.prefix_append pre [e]).trans hpre))).mpr (h pre e hpre)

/-- Every step of the run over the events meets `C`. -/
def Along (f : σ → ε → σ) (C : σ → ε → Prop) : σ → List ε → Prop
  | _, [] => True
  | s, e :: es => C s e ∧ Along f C (f s e) es

instance Along.instDecidable (f : σ → ε → σ) (C : σ → ε → Prop) [∀ s e, Decidable (C s e)] :
    ∀ (s : σ) (es : List ε), Decidable (Along f C s es)
  | _, [] => isTrue trivial
  | s, e :: es =>
    have := Along.instDecidable f C (f s e) es
    inferInstanceAs (Decidable (_ ∧ _))

theorem Along.every : ∀ {es : List ε} {s : σ}, Along f C s es → ∀ pre e, pre ++ [e] <+: es →
    C (pre.foldl f s) e
  | [], _, _, pre, e, hpre => by simp at hpre
  | e₀ :: es, s, h, [], e, hpre => by
    rw [List.nil_append, List.cons_prefix_cons] at hpre
    rw [hpre.1]
    exact h.1
  | e₀ :: es, s, h, p :: pre, e, hpre => by
    rw [List.cons_append, List.cons_prefix_cons] at hpre
    obtain ⟨rfl, hpre⟩ := hpre
    exact h.2.every pre e hpre

theorem Along.of_isPrefix : ∀ {es es' : List ε} {s : σ}, Along f C s es → es' <+: es → Along f C s es'
  | _, [], _, _, _ => trivial
  | [], e' :: es', _, _, hpre => by simp at hpre
  | e :: es, e' :: es', s, h, hpre => by
    rw [List.cons_prefix_cons] at hpre
    obtain ⟨rfl, hpre⟩ := hpre
    exact ⟨h.1, h.2.of_isPrefix hpre⟩

theorem Along.invariant {es : List ε} (h : Along f C s₀ es) (hI : I s₀)
    (hstep : ∀ s e, I s → C s e → I (f s e)) : I (es.foldl f s₀) := by
  induction es generalizing s₀ with
  | nil => exact hI
  | cons e es ih => exact ih h.2 (hstep s₀ e hI h.1)

/-- With the events so far as the state, `C` holds of every event and those before it. -/
theorem Along.history {C : List ε → ε → Prop} {es : List ε}
    (h : Along (fun before e => before ++ [e]) C [] es) (pre : List ε) (e : ε)
    (hpre : pre ++ [e] <+: es) : C pre e := by
  have hfold : ∀ l : List ε, l.foldl (fun before e => before ++ [e]) [] = l := by
    intro l
    induction l using List.reverseRecOn with
    | nil => rfl
    | append_singleton l e ih => rw [List.foldl_append, ih, List.foldl_cons, List.foldl_nil]
  have := h.every pre e hpre
  rwa [hfold] at this

end Total
end Machine
