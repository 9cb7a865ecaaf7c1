import Mathlib.Data.List.Forall2
import Mathlib.Data.List.Induction

/- Computations that may fail: what is known of the parts of one that did not. -/
namespace Fallible

theorem bind_ok {ε α β : Type} {x : Except ε α} {f : α → Except ε β} {r : β}
    (h : x >>= f = .ok r) : ∃ a, x = .ok a ∧ f a = .ok r := by
  cases x with
  | error e => cases h
  | ok a => exact ⟨a, rfl, h⟩

theorem map_ok {ε α β : Type} {x : Except ε α} {f : α → β} {r : β} (h : x.map f = .ok r) :
    ∃ a, x = .ok a ∧ f a = r := by
  cases x with
  | error e => cases h
  | ok a => exact ⟨a, rfl, Except.ok.inj h⟩

/-- What each step of a loop keeps, a run of it keeps. -/
theorem foldlM_keeps {ε α σ : Type} {f : σ → α → Except ε σ} {P : List α → σ → Prop} {s : σ}
    (hstart : P [] s) (hstep : ∀ seen a s₁ s₂, P seen s₁ → f s₁ a = .ok s₂ → P (seen ++ [a]) s₂) :
    ∀ {l : List α} {s' : σ}, l.foldlM f s = .ok s' → P l s' := by
  intro l
  induction l using List.reverseRecOn with
  | nil =>
    intro s' h
    cases h
    exact hstart
  | append_singleton l a ih =>
    intro s' h
    rw [List.foldlM_append] at h
    obtain ⟨between, hrun, hlast⟩ := bind_ok h
    rw [List.foldlM_cons] at hlast
    obtain ⟨_, hone, hend⟩ := bind_ok hlast
    cases hend
    exact hstep l a between _ (ih hrun) hone

theorem forall₂_of_mapM {ε α β : Type} {f : α → Except ε β} : ∀ {l : List α} {l' : List β},
    l.mapM f = .ok l' → List.Forall₂ (fun a b => f a = .ok b) l l' := by
  intro l
  induction l with
  | nil =>
    intro l' h
    cases h
    exact .nil
  | cons a l ih =>
    intro l' h
    rw [List.mapM_cons] at h
    obtain ⟨b, hb, h⟩ := bind_ok h
    obtain ⟨bs, hbs, h⟩ := bind_ok h
    cases h
    exact .cons hb (ih hbs)

theorem mem_of_mapM {ε α β : Type} {f : α → Except ε β} {l : List α} {l' : List β} {b : β}
    (h : l.mapM f = .ok l') : b ∈ l' ↔ ∃ a ∈ l, f a = .ok b := by
  have hall := forall₂_of_mapM h
  clear h
  induction hall with
  | nil => simp
  | cons hab _ ih => simp [List.mem_cons, ih, hab, eq_comm]

/-- What is said side by side, where each side says it of its own. -/
theorem forall₂_iff {α β : Type} {R P : α → β → Prop} {Q : α → Prop} {l : List α} {l' : List β}
    (h : List.Forall₂ R l l') (hiff : ∀ a b, R a b → (P a b ↔ Q a)) :
    List.Forall₂ P l l' ↔ ∀ a ∈ l, Q a := by
  induction h with
  | nil => simp
  | cons hab _ ih => rw [List.forall₂_cons, List.forall_mem_cons, hiff _ _ hab, ih]

end Fallible
