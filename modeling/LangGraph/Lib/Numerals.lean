import LangGraph.Lib.TextOrder
import Mathlib.Order.Monotone.Defs

/- Numerals of a fixed width.

   The digits of a number in some base, most significant first and filled with zeros to
   a width, compare as the numbers do (`digits_lt_digits_iff`), and so do the texts
   `%0wx` or `%0wd` that spell them (`padded_lt_padded_iff`), as long as the width holds
   the numbers. -/
namespace Numerals

/-- The last `w` digits of `n` in base `b`, most significant first. -/
def digits (b : Nat) : Nat → Nat → List Nat
  | 0, _ => []
  | w + 1, n => digits b w (n / b) ++ [n % b]

theorem length_digits (b : Nat) : ∀ w n : Nat, (digits b w n).length = w
  | 0, _ => rfl
  | w + 1, n => by rw [digits, List.length_append, length_digits b w, List.length_singleton]

theorem lt_of_mem_digits {b : Nat} (hb : 0 < b) : ∀ {w n d : Nat}, d ∈ digits b w n → d < b
  | 0, _, _, h => absurd h List.not_mem_nil
  | w + 1, n, d, h => by
    rcases List.mem_append.mp h with h | h
    · exact lt_of_mem_digits hb h
    · rw [List.mem_singleton.mp h]
      exact Nat.mod_lt n hb

theorem div_lt_pow {b w n : Nat} (hb : 0 < b) (h : n < b ^ (w + 1)) : n / b < b ^ w := by
  rw [Nat.pow_succ] at h
  exact (Nat.div_lt_iff_lt_mul hb).mpr h

theorem digits_inj {b : Nat} (hb : 0 < b) : ∀ {w m n : Nat}, m < b ^ w → n < b ^ w →
    digits b w m = digits b w n → m = n
  | 0, m, n, hm, hn, _ => by
    rw [Nat.pow_zero] at hm hn
    omega
  | w + 1, m, n, hm, hn, h => by
    obtain ⟨hq, hr⟩ := List.append_inj' h rfl
    have hdiv := digits_inj hb (div_lt_pow hb hm) (div_lt_pow hb hn) hq
    have hmod : m % b = n % b := by simpa using hr
    rw [← Nat.div_add_mod m b, ← Nat.div_add_mod n b, hdiv, hmod]

theorem lt_iff_div_mod {b : Nat} (hb : 0 < b) (m n : Nat) :
    m < n ↔ m / b < n / b ∨ m / b = n / b ∧ m % b < n % b := by
  have hm := Nat.div_add_mod m b
  have hn := Nat.div_add_mod n b
  have hlm := Nat.mod_lt m hb
  have hln := Nat.mod_lt n hb
  rcases lt_trichotomy (m / b) (n / b) with hlt | heq | hgt
  · have hmul : b * (m / b + 1) ≤ b * (n / b) := Nat.mul_le_mul_left b hlt
    rw [Nat.mul_succ] at hmul
    exact ⟨fun _ => Or.inl hlt, fun _ => by omega⟩
  · rw [heq] at hm
    exact ⟨fun _ => Or.inr ⟨heq, by omega⟩, fun _ => by omega⟩
  · have hmul : b * (n / b + 1) ≤ b * (m / b) := Nat.mul_le_mul_left b hgt
    rw [Nat.mul_succ] at hmul
    exact ⟨fun _ => by omega, fun _ => by omega⟩

/-- The digits compare as the numbers that they spell. -/
theorem digits_lt_digits_iff {b : Nat} (hb : 0 < b) : ∀ {w m n : Nat}, m < b ^ w → n < b ^ w →
    (digits b w m < digits b w n ↔ m < n)
  | 0, m, n, hm, hn => by
    rw [Nat.pow_zero] at hm hn
    simp only [digits, lt_irrefl, false_iff]
    omega
  | w + 1, m, n, hm, hn => by
    have hmq := div_lt_pow hb hm
    have hnq := div_lt_pow hb hn
    have hlen : (digits b w (m / b)).length = (digits b w (n / b)).length := by
      rw [length_digits, length_digits]
    have heq : digits b w (m / b) = digits b w (n / b) ↔ m / b = n / b :=
      ⟨digits_inj hb hmq hnq, fun h => by rw [h]⟩
    have hone : ([m % b] : List Nat) < [n % b] ↔ m % b < n % b := by
      rw [List.cons_lt_cons_iff]
      simp
    rw [digits, digits, TextOrder.append_lt_append_iff hlen, digits_lt_digits_iff hb hmq hnq, heq,
      hone, ← lt_iff_div_mod hb]

/- ── The texts ─────────────────────────────────────────────────── -/

/-- The digits of `n`, filled with zeros to the width `w`. -/
def padded (b w n : Nat) : List Char :=
  List.replicate (w - (Nat.toDigits b n).length) '0' ++ Nat.toDigits b n

theorem digits_zero (b : Nat) : ∀ w : Nat, digits b w 0 = List.replicate w 0
  | 0 => rfl
  | w + 1 => by
    rw [digits, Nat.zero_div, Nat.zero_mod, digits_zero b w, ← List.replicate_succ']

theorem padded_eq_map_digits {b : Nat} (hb : 1 < b) : ∀ {w n : Nat}, 0 < w → n < b ^ w →
    padded b w n = (digits b w n).map Nat.digitChar
  | w + 1, n, _, hn => by
    by_cases hlt : n < b
    · rw [padded, Nat.toDigits_of_lt_base hlt, digits, Nat.div_eq_of_lt hlt, Nat.mod_eq_of_lt hlt,
        digits_zero]
      simp [Nat.digitChar]
    · have hle : b ≤ n := not_lt.mp hlt
      -- more than one digit, so that the width is more than one
      have hw : 0 < w := by
        rcases Nat.eq_zero_or_pos w with rfl | hw
        · rw [Nat.pow_one] at hn
          omega
        · exact hw
      have ih := padded_eq_map_digits hb hw (div_lt_pow (by omega) hn)
      rw [padded, Nat.toDigits_of_base_le hb hle, digits, List.map_append, ← ih, padded,
        List.length_append, List.length_singleton, Nat.add_sub_add_right, List.append_assoc]
      rfl

theorem digitChar_lt_digitChar_iff : ∀ {d e : Nat}, d < 16 → e < 16 →
    (Nat.digitChar d < Nat.digitChar e ↔ d < e) := by
  have h : ∀ d e : Fin 16, Nat.digitChar d < Nat.digitChar e ↔ d.val < e.val := by decide
  intro d e hd he
  exact h ⟨d, hd⟩ ⟨e, he⟩

theorem map_lt_map_iff {α β : Type} [LinearOrder α] [LinearOrder β] {f : α → β} {P : α → Prop}
    (hf : ∀ a b, P a → P b → (f a < f b ↔ a < b)) : ∀ {s t : List α}, (∀ a ∈ s, P a) →
    (∀ b ∈ t, P b) → (s.map f < t.map f ↔ s < t)
  | _, [], _, _ => by simp
  | [], b :: t, _, _ => by simp
  | a :: s, b :: t, hs, ht => by
    have ha := hs a List.mem_cons_self
    have hb := ht b List.mem_cons_self
    have ih := map_lt_map_iff hf (fun c hc => hs c (List.mem_cons_of_mem a hc))
      fun c hc => ht c (List.mem_cons_of_mem b hc)
    have heq : f a = f b ↔ a = b := by
      have hab := (hf a b ha hb).not
      have hba := (hf b a hb ha).not
      rw [not_lt, not_lt] at hab hba
      rw [le_antisymm_iff, le_antisymm_iff, hab, hba]
    rw [List.map_cons, List.map_cons, List.cons_lt_cons_iff, List.cons_lt_cons_iff, ih, hf a b ha hb,
      heq]

theorem length_padded {b : Nat} (hb : 1 < b) {w n : Nat} (hw : 0 < w) (hn : n < b ^ w) :
    (padded b w n).length = w := by
  rw [padded_eq_map_digits hb hw hn, List.length_map, length_digits]

/-- Texts of one width compare as the numbers that they spell. -/
theorem padded_lt_padded_iff {b : Nat} (hb : 1 < b) (hb' : b ≤ 16) {w m n : Nat} (hw : 0 < w)
    (hm : m < b ^ w) (hn : n < b ^ w) : padded b w m < padded b w n ↔ m < n := by
  have hd : ∀ k, ∀ d ∈ digits b w k, d < 16 := fun k d h =>
    lt_of_lt_of_le (lt_of_mem_digits (by omega) h) hb'
  rw [padded_eq_map_digits hb hw hm, padded_eq_map_digits hb hw hn,
    map_lt_map_iff (fun _ _ => digitChar_lt_digitChar_iff) (hd m) (hd n),
    digits_lt_digits_iff (by omega) hm hn]

end Numerals
