import Mathlib.Order.Lattice

/- Stores that may drop an entry when it has expired.

   An entry is a value with the time at which it expires, if it does. `gone now t`
   says that at `now` an entry that expires at `t` has gone; it stays so. `Keeps`
   relates an entry to what a store holds of it, which may be nothing once the
   entry has gone. What is read at a later time is the same from both
   (`Keeps.unexpired_eq`), whatever has been purged in between (`Keeps.purge`). -/
namespace ExpiringMap

variable {ν T : Type} {gone : T → T → Prop}

/-- An entry that has gone at a time has gone at all later ones. -/
def Lasting [LE T] (gone : T → T → Prop) : Prop :=
  ∀ t now now', now ≤ now' → gone now t → gone now' t

def Gone (gone : T → T → Prop) (now : T) (expiry : Option T) : Prop := ∃ t ∈ expiry, gone now t

instance [∀ now t, Decidable (gone now t)] (now : T) (expiry : Option T) :
    Decidable (Gone gone now expiry) :=
  match expiry with
  | none => isFalse (by simp [Gone])
  | some t => decidable_of_iff (gone now t) (by simp [Gone])

/-- What is read of an entry. -/
def unexpired (gone : T → T → Prop) [∀ now t, Decidable (gone now t)] (now : T) :
    Option (ν × Option T) → Option ν
  | none => none
  | some (v, expiry) => if Gone gone now expiry then none else some v

/-- The store holds the entry, or nothing of an entry that has gone. -/
def Keeps (gone : T → T → Prop) (last : T) (held stored : Option (ν × Option T)) : Prop :=
  stored = held ∨ stored = none ∧ ∃ v expiry, held = some (v, expiry) ∧ Gone gone last expiry

namespace Keeps
variable {last now : T} {held stored : Option (ν × Option T)}

theorem refl (gone : T → T → Prop) (last : T) (held : Option (ν × Option T)) :
    Keeps gone last held held := Or.inl rfl

theorem eq_none (h : Keeps gone last none stored) : stored = none := by
  rcases h with h | ⟨h, -⟩
  · exact h
  · exact h

theorem later [LE T] (hg : Lasting gone) (hle : last ≤ now) (h : Keeps gone last held stored) :
    Keeps gone now held stored := by
  rcases h with h | ⟨h, v, expiry, hheld, t, ht, hgone⟩
  · exact Or.inl h
  · exact Or.inr ⟨h, v, expiry, hheld, t, ht, hg t last now hle hgone⟩

theorem unexpired_eq [∀ now t, Decidable (gone now t)] (h : Keeps gone now held stored) : unexpired gone now stored = unexpired gone now held := by
  rcases h with rfl | ⟨rfl, v, expiry, rfl, hgone⟩
  · rfl
  · simp only [unexpired, if_pos hgone]

/-- An entry that has gone may be dropped. -/
theorem purge {v : ν} {expiry : Option T} (h : Keeps gone now held (some (v, expiry)))
    (hgone : Gone gone now expiry) : Keeps gone now held none := by
  rcases h with h | ⟨h, -⟩
  · exact Or.inr ⟨rfl, v, expiry, h.symm, hgone⟩
  · cases h

end Keeps

section Ordered
variable [LinearOrder T]

/-- Two tests that differ at the instant of the expiry only read alike elsewhere. -/
theorem unexpired_le_eq_unexpired_lt {now : T} {held : Option (ν × Option T)}
    (h : ∀ e ∈ held, e.2 ≠ some now) :
    unexpired (fun now t => t ≤ now) now held = unexpired (fun now t => t < now) now held := by
  match held with
  | none => rfl
  | some (v, expiry) =>
    have hne : expiry ≠ some now := h (v, expiry) rfl
    have hiff : Gone (fun now t => t ≤ now) now expiry ↔ Gone (fun now t => t < now) now expiry := by
      constructor
      · intro hgone
        obtain ⟨t, ht, hle⟩ := hgone
        refine ⟨t, ht, lt_of_le_of_ne hle fun heq => hne ?_⟩
        rw [← heq]
        exact ht
      · intro hgone
        obtain ⟨t, ht, hlt⟩ := hgone
        exact ⟨t, ht, hlt.le⟩
    exact if_congr hiff rfl rfl

theorem lasting_le : Lasting fun now t : T => t ≤ now := fun _ _ _ hle h => h.trans hle

theorem lasting_lt : Lasting fun now t : T => t < now := fun _ _ _ hle h => h.trans_le hle

end Ordered
end ExpiringMap
