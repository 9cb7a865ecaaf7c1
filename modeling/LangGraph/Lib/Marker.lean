import Mathlib.Data.List.Infix

/- Texts cut at a marker word.

   A word occurs first where no part of the text before it, continued by less than
   the word, has it inside: `append_marker_inj` cuts two equal texts there. What a
   word can occur in is told piece by piece: a piece without letters of the word
   separates (`infix_append_sep`), and a word that does not begin as it ends does
   not lie across the border to its own beginning (`infix_append_dropLast`). -/
namespace Marker
variable {α : Type}

/-- The word is not cut by a piece that has none of its letters. -/
theorem infix_append_sep {w a b : List α} (sep : List α) (hne : sep ≠ []) (hsep : ∀ c ∈ sep, c ∉ w)
    (h : w <:+: a ++ (sep ++ b)) : w <:+: a ∨ w <:+: b := by
  have hnil : ∀ {z : List α}, z <+: sep → z <:+: w → z = [] := by
    intro z hz hzw
    cases z with
    | nil => rfl
    | cons c z => exact absurd (hzw.subset List.mem_cons_self) (hsep c (hz.subset List.mem_cons_self))
  rcases List.infix_append_iff.mp h with h | h | ⟨y, z, rfl, hy, hz⟩
  · exact Or.inl h
  · rcases List.infix_append_iff.mp h with h | h | ⟨y, z, rfl, hy, hz⟩
    · left
      rw [show w = [] from List.eq_nil_iff_forall_not_mem.mpr fun c hc => hsep c (h.subset hc) hc]
      exact List.nil_infix
    · exact Or.inr h
    · -- the letters before the border are letters of the separator
      have : y = [] := List.eq_nil_iff_forall_not_mem.mpr fun c hc =>
        hsep c (hy.subset hc) (List.mem_append_left _ hc)
      subst this
      exact Or.inr hz.isInfix
  · have : z = [] := by
      cases z with
      | nil => rfl
      | cons c z =>
        obtain ⟨d, sep, rfl⟩ := List.exists_cons_of_ne_nil hne
        have hd : c = d := (List.cons_prefix_cons.mp hz).1
        exact absurd (List.mem_append_right y (hd ▸ List.mem_cons_self)) (hsep d List.mem_cons_self)
    subst this
    rw [List.append_nil]
    exact Or.inl hy.isInfix

/-- A proper end of the first word is no beginning of the second. -/
def NoOverlap [DecidableEq α] (w w' : List α) : Prop :=
  ∀ z ∈ w.tails, z ≠ [] → z ≠ w → ¬ z <+: w'

instance [DecidableEq α] (w w' : List α) : Decidable (NoOverlap w w') :=
  inferInstanceAs (Decidable (∀ z ∈ w.tails, z ≠ [] → z ≠ w → ¬ z <+: w'))

theorem infix_append_dropLast [DecidableEq α] {w w' n : List α} (hlen : w.length = w'.length) (hw : w ≠ [])
    (hover : NoOverlap w w') (h : w <:+: n ++ w'.dropLast) : w <:+: n := by
  have hshort : w'.dropLast.length < w.length := by
    have hpos := List.length_pos_iff.mpr hw
    rw [List.length_dropLast]
    omega
  rcases List.infix_append_iff.mp h with h | h | ⟨y, z, rfl, hy, hz⟩
  · exact h
  · exact absurd h.length_le (by omega)
  · by_cases hz' : z = []
    · rw [hz', List.append_nil]
      exact hy.isInfix
    · have hne : z ≠ y ++ z := by
        intro heq
        have hle := hz.length_le
        rw [heq] at hle
        omega
      exact absurd (hz.trans (List.dropLast_prefix w'))
        (hover z ((List.mem_tails z _).mpr (List.suffix_append y z)) hz' hne)

/-- Two texts whose first markers are these agree part by part. -/
theorem append_marker_inj {p p' w w' a a' : List α} (hlen : w.length = w'.length)
    (hw : ¬ w <:+: p' ++ w'.dropLast) (hw' : ¬ w' <:+: p ++ w.dropLast)
    (h : p ++ (w ++ a) = p' ++ (w' ++ a')) : p = p' ∧ w = w' ∧ a = a' := by
  have hle : ∀ {p p' w w' a a' : List α}, w.length = w'.length → ¬ w <:+: p' ++ w'.dropLast →
      p ++ (w ++ a) = p' ++ (w' ++ a') → p'.length ≤ p.length := by
    intro p p' w w' a a' hlen hw h
    by_contra hlt
    apply hw
    have hleft : p ++ w <+: p' ++ (w' ++ a') := ⟨a, by rw [List.append_assoc, h]⟩
    have hright : p' ++ w'.dropLast <+: p' ++ (w' ++ a') :=
      (List.prefix_append_right_inj p').mpr ((List.dropLast_prefix w').trans (List.prefix_append w' a'))
    have hpre : p ++ w <+: p' ++ w'.dropLast := by
      apply List.prefix_of_prefix_length_le hleft hright
      rw [List.length_append, List.length_append, List.length_dropLast]
      omega
    exact (List.suffix_append p w).isInfix.trans hpre.isInfix
  have hp : p.length = p'.length :=
    Nat.le_antisymm (hle hlen.symm hw' h.symm) (hle hlen hw h)
  obtain ⟨rfl, htail⟩ := List.append_inj h hp
  obtain ⟨rfl, rfl⟩ := List.append_inj htail hlen
  exact ⟨rfl, rfl, rfl⟩

/-- A word around a text is read off it. -/
theorem append_twice_inj {n m s : List α} (h : n ++ (s ++ n) = m ++ (s ++ m)) : n = m := by
  have hlen := congrArg List.length h
  simp only [List.length_append] at hlen
  exact (List.append_inj h (by omega)).1

/-- Cut at the last separator. -/
theorem append_sep_inj {c : α} {a a' b b' : List α} (hb : c ∉ b) (hb' : c ∉ b')
    (h : a ++ c :: b = a' ++ c :: b') : a = a' ∧ b = b' := by
  have hnil : ∀ {x b b' : List α}, c ∉ b → c :: b = x ++ c :: b' → x = [] := by
    intro x b b' hb h
    cases x with
    | nil => rfl
    | cons d x =>
      obtain ⟨-, rfl⟩ := List.cons_eq_cons.mp h
      exact absurd (List.mem_append_right x List.mem_cons_self) hb
  rcases List.append_eq_append_iff.mp h with ⟨x, rfl, hx⟩ | ⟨x, rfl, hx⟩
  · obtain rfl := hnil hb hx
    exact ⟨(List.append_nil a).symm, (List.cons_eq_cons.mp hx).2⟩
  · obtain rfl := hnil hb' hx
    exact ⟨List.append_nil a', (List.cons_eq_cons.mp hx).2.symm⟩

end Marker
