import Mathlib.Data.List.Lex
import Mathlib.Data.String.Basic

/- The order of texts that begin with a field of fixed width.

   Texts compare character by character, so a field of fixed width is compared
   before what follows it (`append_lt_append_iff`), and two decimal fields of one
   width compare as the numbers they write (`lt_iff_ofDigitChars_lt`). -/
namespace TextOrder

section Fields
variable {α : Type} [LinearOrder α]

theorem append_lt_append_iff {s t : List α} : ∀ {a b : List α}, a.length = b.length →
    (a ++ s < b ++ t ↔ a < b ∨ a = b ∧ s < t)
  | [], [], _ => by simp
  | x :: a, y :: b, h => by
    have ih := append_lt_append_iff (s := s) (t := t) (Nat.succ.inj h)
    rw [List.cons_append, List.cons_append, List.cons_lt_cons_iff, List.cons_lt_cons_iff, ih,
      List.cons.injEq]
    constructor
    · intro hlt
      rcases hlt with hxy | ⟨rfl, hab | ⟨rfl, hst⟩⟩
      · exact Or.inl (Or.inl hxy)
      · exact Or.inl (Or.inr ⟨rfl, hab⟩)
      · exact Or.inr ⟨⟨rfl, rfl⟩, hst⟩
    · intro hlt
      rcases hlt with (hxy | ⟨rfl, hab⟩) | ⟨⟨rfl, rfl⟩, hst⟩
      · exact Or.inl hxy
      · exact Or.inr ⟨rfl, Or.inl hab⟩
      · exact Or.inr ⟨rfl, Or.inr ⟨rfl, hst⟩⟩

end Fields

/-- The value of the digit `c`. -/
def digit (c : Char) : Nat := c.toNat - '0'.toNat

theorem digit_lt_ten {c : Char} (h : c.isDigit = true) : digit c < 10 := by
  have hle := (Char.isDigit_iff_toNat.mp h).2
  have h9 : '9'.toNat = 57 := rfl
  have h0 : '0'.toNat = 48 := rfl
  unfold digit
  omega

theorem digit_lt_digit_iff {c d : Char} (hc : c.isDigit = true) (hd : d.isDigit = true) :
    digit c < digit d ↔ c < d := by
  have hc' := Char.isDigit_iff_toNat.mp hc
  have hd' := Char.isDigit_iff_toNat.mp hd
  rw [show c < d ↔ c.toNat < d.toNat from Iff.rfl]
  have h9 : '9'.toNat = 57 := rfl
  have h0 : '0'.toNat = 48 := rfl
  unfold digit
  omega

theorem digit_inj {c d : Char} (hc : c.isDigit = true) (hd : d.isDigit = true)
    (h : digit c = digit d) : c = d := by
  have hcd := (digit_lt_digit_iff hc hd).not.mp (by omega)
  have hdc := (digit_lt_digit_iff hd hc).not.mp (by omega)
  exact le_antisymm (not_lt.mp hdc) (not_lt.mp hcd)

theorem ofDigitChars_cons (c : Char) (cs : List Char) :
    Nat.ofDigitChars 10 (c :: cs) 0 = 10 ^ cs.length * digit c + Nat.ofDigitChars 10 cs 0 := by
  rw [Nat.ofDigitChars_cons, Nat.ofDigitChars_eq_ofDigitChars_zero]
  simp [digit]

theorem ofDigitChars_lt : ∀ {cs : List Char}, (∀ c ∈ cs, c.isDigit = true) →
    Nat.ofDigitChars 10 cs 0 < 10 ^ cs.length
  | [], _ => by simp
  | c :: cs, h => by
    have ih := ofDigitChars_lt fun d hd => h d (List.mem_cons_of_mem c hd)
    have hc := digit_lt_ten (h c List.mem_cons_self)
    rw [ofDigitChars_cons, List.length_cons, Nat.pow_succ]
    calc 10 ^ cs.length * digit c + Nat.ofDigitChars 10 cs 0
        < 10 ^ cs.length * digit c + 10 ^ cs.length := by omega
      _ = 10 ^ cs.length * (digit c + 1) := (Nat.mul_succ _ _).symm
      _ ≤ 10 ^ cs.length * 10 := Nat.mul_le_mul_left _ hc

/-- Decimal texts of one length compare as their values. -/
theorem lt_iff_ofDigitChars_lt : ∀ {a b : List Char}, a.length = b.length →
    (∀ c ∈ a, c.isDigit = true) → (∀ c ∈ b, c.isDigit = true) →
    (a < b ↔ Nat.ofDigitChars 10 a 0 < Nat.ofDigitChars 10 b 0)
  | [], [], _, _, _ => by simp
  | c :: a, d :: b, h, ha, hb => by
    have hlen : a.length = b.length := Nat.succ.inj h
    have ha' : ∀ e ∈ a, e.isDigit = true := fun e he => ha e (List.mem_cons_of_mem c he)
    have hb' : ∀ e ∈ b, e.isDigit = true := fun e he => hb e (List.mem_cons_of_mem d he)
    have hc := ha c List.mem_cons_self
    have hd := hb d List.mem_cons_self
    have hla := ofDigitChars_lt ha'
    have hlb := ofDigitChars_lt hb'
    rw [List.cons_lt_cons_iff, lt_iff_ofDigitChars_lt hlen ha' hb', ofDigitChars_cons,
      ofDigitChars_cons, hlen, ← digit_lt_digit_iff hc hd]
    rw [hlen] at hla
    -- the first digits decide unless they are equal
    rcases lt_trichotomy (digit c) (digit d) with hlt | heq | hgt
    · have hmul : 10 ^ b.length * (digit c + 1) ≤ 10 ^ b.length * digit d :=
        Nat.mul_le_mul_left _ hlt
      rw [Nat.mul_succ] at hmul
      exact ⟨fun _ => by omega, fun _ => Or.inl hlt⟩
    · have hcd := digit_inj hc hd heq
      rw [heq]
      simp [hcd]
    · have hmul : 10 ^ b.length * (digit d + 1) ≤ 10 ^ b.length * digit c :=
        Nat.mul_le_mul_left _ hgt
      rw [Nat.mul_succ] at hmul
      have hcd : c ≠ d := by
        intro hcd
        rw [hcd] at hgt
        exact lt_irrefl _ hgt
      refine ⟨fun h => ?_, fun h => ?_⟩
      · rcases h with h | ⟨h, -⟩
        · omega
        · exact absurd h hcd
      · omega

end TextOrder
