import Mathlib.Data.List.Nodup

/- Folds that visit distinct keys, over a state with one view for each key.

   `foldE` is the fold of a step that may fail: it stops at the first error with
   the state that step left. When a step at a key only changes the view of that
   key, the fold changes each visited key's view as the step does, and no other
   view (`view_foldl`, `view_foldE`). -/
namespace KeyedFold

variable {σ κ α β ε : Type}

def foldE (f : σ → α → σ × Except ε Unit) : σ → List α → σ × Except ε Unit
  | s, [] => (s, .ok ())
  | s, a :: rest =>
    match f s a with
    | (s', .error e) => (s', .error e)
    | (s', .ok ()) => foldE f s' rest

theorem foldE_cons_ok {f : σ → α → σ × Except ε Unit} {s s' : σ} {a : α} {rest : List α}
    (h : foldE f s (a :: rest) = (s', .ok ())) :
    ∃ s₁, f s a = (s₁, .ok ()) ∧ foldE f s₁ rest = (s', .ok ()) := by
  rw [foldE] at h
  match hf : f s a with
  | (s₁, .error e) =>
    rw [hf] at h
    cases h
  | (s₁, .ok ()) =>
    rw [hf] at h
    exact ⟨s₁, rfl, h⟩

/-- A property that every successful step keeps is kept by a successful fold. -/
theorem foldE_induction {f : σ → α → σ × Except ε Unit} {P : σ → Prop}
    (hstep : ∀ s a s', f s a = (s', .ok ()) → P s → P s') :
    ∀ {l : List α} {s s' : σ}, foldE f s l = (s', .ok ()) → P s → P s'
  | [], s, s', h, hs => by
    cases h
    exact hs
  | a :: l, s, s', h, hs => by
    obtain ⟨s₁, hf, hrest⟩ := foldE_cons_ok h
    exact foldE_induction hstep hrest (hstep s a s₁ hf hs)

/-- A property that every step keeps, failed or not, is kept by the fold. -/
theorem foldE_invariant {f : σ → α → σ × Except ε Unit} {P : σ → Prop}
    (hstep : ∀ s a, P s → P (f s a).1) : ∀ (l : List α) (s : σ), P s → P (foldE f s l).1
  | [], _, hs => hs
  | a :: l, s, hs => by
    have h₁ := hstep s a hs
    rw [foldE]
    match hf : f s a with
    | (s₁, .error e) => rwa [hf] at h₁
    | (s₁, .ok ()) =>
      rw [hf] at h₁
      exact foldE_invariant hstep l s₁ h₁

/-- Two folds whose steps keep a relation, and end alike, keep it and end alike. -/
theorem foldE_rel {f : σ → α → σ × Except ε Unit} {R : σ → σ → Prop}
    (hstep : ∀ s s' a, R s s' → R (f s a).1 (f s' a).1 ∧ (f s a).2 = (f s' a).2) :
    ∀ (l : List α) {s s' : σ}, R s s' →
      R (foldE f s l).1 (foldE f s' l).1 ∧ (foldE f s l).2 = (foldE f s' l).2
  | [], _, _, hs => ⟨hs, rfl⟩
  | a :: l, s, s', hs => by
    obtain ⟨h₁, hr⟩ := hstep s s' a hs
    rw [foldE, foldE]
    generalize f s a = r at h₁ hr
    generalize f s' a = r' at h₁ hr
    obtain ⟨s₁, e⟩ := r
    obtain ⟨s₁', e'⟩ := r'
    obtain rfl : e = e' := hr
    cases e with
    | error e => exact ⟨h₁, rfl⟩
    | ok u => exact foldE_rel hstep l h₁

section Views
variable {view : κ → σ → β}

theorem view_foldl [DecidableEq κ] {f : σ → κ → σ} {g : β → β}
    (hself : ∀ s k, view k (f s k) = g (view k s))
    (hother : ∀ s k c, c ≠ k → view c (f s k) = view c s) (c : κ) :
    ∀ (l : List κ) (s : σ), l.Nodup →
      view c (l.foldl f s) = if c ∈ l then g (view c s) else view c s
  | [], s, _ => by simp
  | k :: l, s, hn => by
    obtain ⟨hk, hn⟩ := List.nodup_cons.mp hn
    have ih := view_foldl hself hother c l (f s k) hn
    rw [List.foldl_cons, ih]
    by_cases hck : c = k
    · subst hck
      simp [hk, hself]
    · simp [hck, hother s k c hck]

/-- The same for a list of items that have distinct keys. -/
theorem view_foldl_key (view : κ → σ → β) {f : σ → α → σ} (key : α → κ) {g : α → β → β}
    (hself : ∀ s a, view (key a) (f s a) = g a (view (key a) s))
    (hother : ∀ s a c, c ≠ key a → view c (f s a) = view c s) :
    ∀ (l : List α) (s : σ), (l.map key).Nodup →
      (∀ c, c ∉ l.map key → view c (l.foldl f s) = view c s) ∧
        ∀ a ∈ l, view (key a) (l.foldl f s) = g a (view (key a) s)
  | [], s, _ => by simp
  | a :: l, s, hn => by
    obtain ⟨ha, hn⟩ := List.nodup_cons.mp hn
    obtain ⟨hout, hin⟩ := view_foldl_key view key hself hother l (f s a) hn
    rw [List.foldl_cons]
    refine ⟨?_, ?_⟩
    · intro c hc
      rw [List.map_cons, List.mem_cons, not_or] at hc
      rw [hout c hc.2, hother s a c hc.1]
    · intro b hb
      cases List.mem_cons.mp hb with
      | inl heq => rw [heq, hout _ ha, hself]
      | inr hb =>
        have hne : key b ≠ key a := fun e => ha (e ▸ List.mem_map_of_mem hb)
        rw [hin b hb, hother s a _ hne]

/-- `P a` relates the views that a successful step at `a` starts from and leaves. -/
theorem view_foldE {f : σ → α → σ × Except ε Unit} (key : α → κ) {P : α → β → β → Prop}
    (hself : ∀ s a s', f s a = (s', .ok ()) → P a (view (key a) s) (view (key a) s'))
    (hother : ∀ s a s' c, f s a = (s', .ok ()) → c ≠ key a → view c s' = view c s) :
    ∀ {l : List α} {s s' : σ}, (l.map key).Nodup → foldE f s l = (s', .ok ()) →
      (∀ c, c ∉ l.map key → view c s' = view c s) ∧
        ∀ a ∈ l, P a (view (key a) s) (view (key a) s')
  | [], s, s', _, h => by
    cases h
    simp
  | a :: l, s, s', hn, h => by
    obtain ⟨ha, hn⟩ := List.nodup_cons.mp hn
    obtain ⟨s₁, hf, hrest⟩ := foldE_cons_ok h
    obtain ⟨hout, hin⟩ := view_foldE key hself hother hn hrest
    refine ⟨?_, ?_⟩
    · intro c hc
      have hca : c ≠ key a := fun e => hc (by simp [e])
      have hcl : c ∉ l.map key := fun hm => hc (List.mem_cons_of_mem _ hm)
      rw [hout c hcl, hother s a s₁ c hf hca]
    · intro b hb
      rcases List.mem_cons.mp hb with rfl | hb
      · rw [hout _ ha]
        exact hself s b s₁ hf
      · have hne : key b ≠ key a := fun e => ha (e ▸ List.mem_map_of_mem hb)
        rw [← hother s a s₁ _ hf hne]
        exact hin b hb

end Views

end KeyedFold
