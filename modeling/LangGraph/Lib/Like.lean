import Mathlib.Data.List.Infix

/- The LIKE operator of SQL, without an escape character: `%` stands for any
   string and `_` for any character. `same` says when two characters count as
   equal. `like_append_percent`: a pattern with `%` at its end matches what
   begins with a match of the rest. -/
namespace Like

variable {same : Char → Char → Bool}

def like (same : Char → Char → Bool) : List Char → List Char → Bool
  | [], text => text.isEmpty
  | c :: pattern, text =>
    if c = '%' then text.tails.any (like same pattern)
    else
      match text with
      | [] => false
      | d :: text => (c == '_' || same c d) && like same pattern text

theorem like_percent {pattern text : List Char} :
    like same ('%' :: pattern) text = true ↔ ∃ a b, text = a ++ b ∧ like same pattern b = true := by
  have htails : like same ('%' :: pattern) text = text.tails.any (like same pattern) := by
    cases text <;> simp [like]
  rw [htails, List.any_eq_true]
  constructor
  · rintro ⟨b, hb, h⟩
    obtain ⟨a, ha⟩ := (List.mem_tails _ _).mp hb
    exact ⟨a, b, ha.symm, h⟩
  · rintro ⟨a, b, rfl, h⟩
    exact ⟨b, (List.mem_tails _ _).mpr (List.suffix_append a b), h⟩

theorem like_cons {c : Char} (hc : c ≠ '%') {pattern text : List Char} :
    like same (c :: pattern) text = true ↔
      ∃ d rest, text = d :: rest ∧ (c = '_' ∨ same c d = true) ∧ like same pattern rest = true := by
  cases text with
  | nil => simp [like, hc]
  | cons d rest => simp [like, hc]

/-- A pattern that ends in `%` matches what begins with a match of the rest. -/
theorem like_append_percent : ∀ {pattern text : List Char},
    like same (pattern ++ ['%']) text = true ↔ ∃ a, a <+: text ∧ like same pattern a = true
  | [], text => by
    rw [List.nil_append, like_percent]
    constructor
    · exact fun _ => ⟨[], List.nil_prefix, rfl⟩
    · exact fun _ => ⟨text, [], by simp, rfl⟩
  | c :: pattern, text => by
    by_cases hc : c = '%'
    · subst hc
      rw [List.cons_append, like_percent]
      constructor
      · rintro ⟨a, b, rfl, h⟩
        obtain ⟨a', ⟨b', rfl⟩, h'⟩ := like_append_percent.mp h
        refine ⟨a ++ a', ⟨b', by simp⟩, ?_⟩
        exact like_percent.mpr ⟨a, a', rfl, h'⟩
      · rintro ⟨a, ⟨b, rfl⟩, h⟩
        obtain ⟨a₁, a₂, rfl, h'⟩ := like_percent.mp h
        refine ⟨a₁, a₂ ++ b, by simp, ?_⟩
        exact like_append_percent.mpr ⟨a₂, List.prefix_append a₂ b, h'⟩
    · rw [List.cons_append, like_cons hc]
      constructor
      · rintro ⟨d, rest, rfl, hd, h⟩
        obtain ⟨a, ha, h'⟩ := like_append_percent.mp h
        exact ⟨d :: a, List.cons_prefix_cons.mpr ⟨rfl, ha⟩, (like_cons hc).mpr ⟨d, a, rfl, hd, h'⟩⟩
      · rintro ⟨a, ha, h⟩
        obtain ⟨d, a', rfl, hd, h'⟩ := (like_cons hc).mp h
        obtain ⟨b, rfl⟩ := ha
        exact ⟨d, a' ++ b, rfl, hd, like_append_percent.mpr ⟨a', List.prefix_append a' b, h'⟩⟩

/-- Patterns one after the other match texts one after the other. -/
theorem like_append : ∀ {p a : List Char}, like same p a = true → ∀ {q b : List Char},
    like same q b = true → like same (p ++ q) (a ++ b) = true
  | [], a, h, q, b, h' => by
    have ha : a = [] := List.isEmpty_iff.mp h
    rw [ha]
    exact h'
  | c :: p, a, h, q, b, h' => by
    by_cases hc : c = '%'
    · subst hc
      obtain ⟨a₁, a₂, rfl, hp⟩ := like_percent.mp h
      exact like_percent.mpr ⟨a₁, a₂ ++ b, by rw [List.append_assoc], like_append hp h'⟩
    · obtain ⟨d, rest, rfl, hd, hp⟩ := (like_cons hc).mp h
      exact (like_cons hc).mpr ⟨d, rest ++ b, rfl, hd, like_append hp h'⟩

/-- A pattern matches itself. -/
theorem like_self (hsame : ∀ c, same c c = true) : ∀ pattern : List Char, like same pattern pattern = true
  | [] => rfl
  | c :: pattern => by
    by_cases hc : c = '%'
    · subst hc
      exact like_percent.mpr ⟨['%'], pattern, rfl, like_self hsame pattern⟩
    · exact (like_cons hc).mpr ⟨c, pattern, rfl, Or.inr (hsame c), like_self hsame pattern⟩

/-- Without wildcards the pattern matches the texts that are the same character by character. -/
theorem like_plain : ∀ {pattern text : List Char}, (∀ c ∈ pattern, c ≠ '%' ∧ c ≠ '_') →
    (like same pattern text = true ↔ List.Forall₂ (fun c d => same c d = true) pattern text)
  | [], text, _ => by
    cases text with
    | nil => exact iff_of_true rfl List.Forall₂.nil
    | cons d text => exact iff_of_false (by simp [like]) (fun h => nomatch h)
  | c :: pattern, text, h => by
    have hc := h c List.mem_cons_self
    rw [like_cons hc.1]
    constructor
    · rintro ⟨d, rest, rfl, hd, hrest⟩
      have hd : same c d = true := hd.resolve_left hc.2
      exact List.Forall₂.cons hd ((like_plain fun c' hc' => h c' (List.mem_cons_of_mem _ hc')).mp hrest)
    · intro hall
      cases hall with
      | cons hd hrest =>
        exact ⟨_, _, rfl, Or.inr hd,
          (like_plain fun c' hc' => h c' (List.mem_cons_of_mem _ hc')).mpr hrest⟩

end Like
