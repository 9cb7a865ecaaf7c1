import Mathlib.Data.List.Count
import Mathlib.Data.List.Induction
import Mathlib.Data.List.Nodup
import Mathlib.Data.List.Perm.Subperm

/- Names that are made distinct by numbers.

   `give` numbers a name that is taken by how often it is taken, `firstFree` by the first
   number that makes it a new one. `firstFree_not_mem`: the second scheme always finds a new
   name. `names_apart_iff`: when the first one keeps the items of a list apart, where an item
   that is listed again is named again. -/
namespace NumberedNames

def numbered (base : String) (k : Nat) : String := base ++ "_" ++ toString k

theorem toList_numbered (base : String) (k : Nat) :
    (numbered base k).toList = base.toList ++ '_' :: Nat.toDigits 10 k := by
  simp [numbered, String.toList_append, Nat.toString_eq_repr, Nat.toList_repr]

/-- The last underscore parts the name and the number. -/
theorem numbered_inj {base base' : String} {k k' : Nat} :
    numbered base k = numbered base' k' ↔ base = base' ∧ k = k' := by
  constructor
  · intro h
    have hlist := congrArg (fun s : String => s.toList.reverse) h
    simp only [toList_numbered, List.reverse_append, List.reverse_cons, List.append_assoc,
      List.singleton_append] at hlist
    have hdigits : ∀ k, ∀ c ∈ (Nat.toDigits 10 k).reverse, c ≠ '_' := by
      intro k c hc heq
      rw [heq, List.mem_reverse] at hc
      exact Nat.underscore_not_in_toDigits hc
    have htake := congrArg (List.takeWhile (· ≠ '_')) hlist
    have hdrop := congrArg (List.dropWhile (· ≠ '_')) hlist
    rw [List.takeWhile_append_of_pos (by simpa using hdigits k),
      List.takeWhile_append_of_pos (by simpa using hdigits k')] at htake
    rw [List.dropWhile_append_of_pos (by simpa using hdigits k),
      List.dropWhile_append_of_pos (by simpa using hdigits k')] at hdrop
    simp at htake hdrop
    refine ⟨String.toList_inj.mp hdrop, ?_⟩
    have hvalue := congrArg (fun ds => Nat.ofDigitChars 10 ds 0) htake
    simpa [Nat.ofDigitChars_ten_toDigits] using hvalue
  · intro h
    rw [h.1, h.2]

theorem numbered_ne (base : String) (k : Nat) : numbered base k ≠ base := by
  intro h
  have hlen := congrArg (fun s : String => s.toList.length) h
  simp only [toList_numbered, List.length_append, List.length_cons] at hlen
  omega

theorem underscore_mem_numbered (base : String) (k : Nat) : '_' ∈ (numbered base k).toList := by
  rw [toList_numbered]
  exact List.mem_append_right _ List.mem_cons_self

/- ── By count ──────────────────────────────────────────────────────────────── -/

/-- A name, with the number of times that it is in use if it is. -/
def give (used : List String) (base : String) : String :=
  if base ∈ used then numbered base (used.count base) else base

/-- The names that are given to some bases, one after the other. -/
def given (bases : List String) : List String :=
  bases.foldl (fun used base => used ++ [give used base]) []

theorem given_concat (bases : List String) (base : String) :
    given (bases ++ [base]) = given bases ++ [give (given bases) base] := by
  rw [given, List.foldl_append]
  rfl

theorem given_subset (bases bases' : List String) : given bases ⊆ given (bases ++ bases') := by
  induction bases' using List.reverseRecOn with
  | nil => rw [List.append_nil]; exact List.Subset.refl _
  | append_singleton bases' base ih =>
    rw [← List.append_assoc, given_concat]
    exact List.subset_append_of_subset_left _ ih

theorem give_eq_iff {used : List String} {base name : String} :
    give used base = name ↔
      (base ∉ used ∧ base = name) ∨ (base ∈ used ∧ numbered base (used.count base) = name) := by
  rw [give]
  split
  · next hused => simp [hused]
  · next hfree => simp [hfree]

/-- Two bases that get the same name: the later one finds its base in use, and the earlier
    one is the later one with its number and found that free, or is the same and found it
    in use as often. -/
def Clash (used : List String) (base : String) (used' : List String) (base' : String) : Prop :=
  base' ∈ used' ∧ ((base ∉ used ∧ base = numbered base' (used'.count base')) ∨
    (base ∈ used ∧ base = base' ∧ used.count base = used'.count base'))

theorem give_eq_give_iff {used used' : List String} {base base' : String}
    (h : give used base ∈ used') : give used base = give used' base' ↔ Clash used base used' base' := by
  have hlater : give used base = give used' base' → base' ∈ used' := by
    intro heq
    by_contra hfree
    rw [give, give, if_neg hfree] at heq
    exact hfree (heq ▸ h)
  unfold Clash
  constructor
  · intro heq
    have hmem := hlater heq
    refine ⟨hmem, ?_⟩
    rw [give, give, if_pos hmem] at heq
    by_cases hused : base ∈ used
    · rw [if_pos hused, numbered_inj] at heq
      exact .inr ⟨hused, heq⟩
    · rw [if_neg hused] at heq
      exact .inl ⟨hused, heq⟩
  · intro hclash
    obtain ⟨hmem, hclash⟩ := hclash
    rw [give, give, if_pos hmem]
    cases hclash with
    | inl hclash => rw [if_neg hclash.1, ← hclash.2]
    | inr hclash => rw [if_pos hclash.1, hclash.2.2, hclash.2.1]

/- ── Items that are listed more than once ──────────────────────────────────── -/

section LastListed
variable {α : Type} {l pre pre' : List α} {a b : α}

/-- The item is listed after these for the last time. -/
def LastListed (l pre : List α) (a : α) : Prop := ∃ post, l = pre ++ a :: post ∧ a ∉ post

theorem LastListed.mem (h : LastListed l pre a) : a ∈ l := by
  obtain ⟨post, rfl, -⟩ := h
  exact List.mem_append_right _ List.mem_cons_self

theorem lastListed_concat :
    LastListed (l ++ [b]) pre a ↔ (a = b ∧ pre = l) ∨ (a ≠ b ∧ LastListed l pre a) := by
  constructor
  · intro h
    obtain ⟨post, hl, hpost⟩ := h
    cases List.eq_nil_or_concat post with
    | inl hnil =>
      rw [hnil] at hl
      have hlast := List.append_inj' hl rfl
      exact .inl ⟨(List.cons.inj hlast.2).1.symm, hlast.1.symm⟩
    | inr hconcat =>
      obtain ⟨post', c, rfl⟩ := hconcat
      have hlast : l ++ [b] = (pre ++ a :: post') ++ [c] := by simpa using hl
      obtain ⟨hl', hc⟩ := List.append_inj' hlast rfl
      have hbc : b = c := (List.cons.inj hc).1
      refine .inr ⟨fun hab => hpost ?_, post', hl', fun hmem => hpost ?_⟩
      · simp [hab, hbc]
      · simp [hmem]
  · intro h
    cases h with
    | inl h => exact ⟨[], by rw [h.1, h.2], List.not_mem_nil⟩
    | inr h =>
      obtain ⟨hne, post, rfl, hpost⟩ := h
      refine ⟨post ++ [b], by simp, fun hmem => ?_⟩
      cases List.mem_append.mp hmem with
      | inl hmem => exact hpost hmem
      | inr hmem => exact hne (List.mem_singleton.mp hmem)

theorem exists_lastListed (h : a ∈ l) : ∃ pre, LastListed l pre a := by
  induction l using List.reverseRecOn with
  | nil => cases h
  | append_singleton l b ih =>
    by_cases hab : a = b
    · exact ⟨l, lastListed_concat.mpr (.inl ⟨hab, rfl⟩)⟩
    · obtain ⟨pre, hpre⟩ := ih ((List.mem_append.mp h).resolve_right fun hb =>
        hab (List.mem_singleton.mp hb))
      exact ⟨pre, lastListed_concat.mpr (.inr ⟨hab, hpre⟩)⟩

theorem LastListed.unique (h : LastListed l pre a) (h' : LastListed l pre' a) : pre = pre' := by
  induction l using List.reverseRecOn with
  | nil =>
    have := h.mem
    cases this
  | append_singleton l b ih =>
    cases lastListed_concat.mp h with
    | inl h =>
      cases lastListed_concat.mp h' with
      | inl h' => rw [h.2, h'.2]
      | inr h' => exact absurd h.1 h'.1
    | inr h =>
      cases lastListed_concat.mp h' with
      | inl h' => exact absurd h'.1 h.1
      | inr h' => exact ih h.2 h'.2

/-- Of two items, one is listed for the last time before the other. -/
theorem LastListed.before_or_after (h : LastListed l pre a) (h' : LastListed l pre' b)
    (hne : a ≠ b) : pre ++ [a] <+: pre' ∨ pre' ++ [b] <+: pre := by
  obtain ⟨post, hl, -⟩ := h
  obtain ⟨post', hl', -⟩ := h'
  have hpre : pre ++ [a] <+: l := ⟨post, by simp [hl]⟩
  have hpre' : pre' ++ [b] <+: l := ⟨post', by simp [hl']⟩
  rcases Nat.lt_trichotomy pre.length pre'.length with hlt | heq | hgt
  · exact .inl (List.prefix_of_prefix_length_le hpre ((List.prefix_append _ _).trans hpre')
      (by rw [List.length_append]; exact hlt))
  · have hsame := (List.prefix_of_prefix_length_le hpre hpre' (by simp [heq])).eq_of_length
      (by simp [heq])
    exact absurd (List.cons.inj (List.append_inj' hsame rfl).2).1 hne
  · exact .inr (List.prefix_of_prefix_length_le hpre' ((List.prefix_append _ _).trans hpre)
      (by rw [List.length_append]; exact hgt))

/-- The name that an item gets after these ones. -/
def nameAfter (base : α → String) (pre : List α) (a : α) : String :=
  give (given (pre.map base)) (base a)

theorem nameAfter_mem_given {base : α → String} (h : pre ++ [a] <+: pre') :
    nameAfter base pre a ∈ given (pre'.map base) := by
  obtain ⟨post, rfl⟩ := h
  rw [List.map_append]
  apply given_subset
  rw [List.map_append, List.map_singleton, given_concat]
  exact List.mem_append_right _ List.mem_cons_self

/-- The names of the last time keep the items of a list apart, unless two of them clash. -/
theorem names_apart_iff {base : α → String} :
    (∀ pre a pre' b, LastListed l pre a → LastListed l pre' b → a ≠ b →
        nameAfter base pre a ≠ nameAfter base pre' b) ↔
      ∀ pre a pre' b, LastListed l pre a → LastListed l pre' b → a ≠ b → pre ++ [a] <+: pre' →
        ¬Clash (given (pre.map base)) (base a) (given (pre'.map base)) (base b) := by
  constructor
  · intro h pre a pre' b ha hb hne hbefore hclash
    exact h pre a pre' b ha hb hne ((give_eq_give_iff (nameAfter_mem_given hbefore)).mpr hclash)
  · intro h pre a pre' b ha hb hne heq
    cases ha.before_or_after hb hne with
    | inl hbefore =>
      exact h pre a pre' b ha hb hne hbefore ((give_eq_give_iff (nameAfter_mem_given hbefore)).mp heq)
    | inr hafter =>
      exact h pre' b pre a hb ha hne.symm hafter
        ((give_eq_give_iff (nameAfter_mem_given hafter)).mp heq.symm)

end LastListed

/- ── By search ─────────────────────────────────────────────────────────────── -/

def firstFreeFrom (used : List String) (base : String) : Nat → Nat → String
  | 0, k => numbered base k
  | fuel + 1, k => if numbered base k ∈ used then firstFreeFrom used base fuel (k + 1) else numbered base k

/-- The name itself, or with the first number that makes it a new one. -/
def firstFree (used : List String) (base : String) : String :=
  if base ∈ used then firstFreeFrom used base used.length 1 else base

theorem firstFree_eq {used : List String} {base : String} (h : base ∉ used) :
    firstFree used base = base := if_neg h

/-- So many numbers cannot all be in use. -/
theorem le_of_numbered_mem {used : List String} {base : String} (hbase : base ∈ used) {k : Nat}
    (hk : k ≠ 0) (h : ∀ i, 1 ≤ i → i < k → numbered base i ∈ used) : k ≤ used.length := by
  have hnodup : (base :: (List.range (k - 1)).map fun i => numbered base (i + 1)).Nodup := by
    refine List.nodup_cons.mpr ⟨fun hmem => ?_, ?_⟩
    · obtain ⟨i, -, hi⟩ := List.mem_map.mp hmem
      exact numbered_ne base _ hi
    · refine List.nodup_range.map fun i i' hi => ?_
      have := (numbered_inj.mp hi).2
      omega
  have hsub : (base :: (List.range (k - 1)).map fun i => numbered base (i + 1)) ⊆ used := by
    apply List.cons_subset.mpr
    refine ⟨hbase, fun name hname => ?_⟩
    obtain ⟨i, hi, rfl⟩ := List.mem_map.mp hname
    have := List.mem_range.mp hi
    exact h (i + 1) (by omega) (by omega)
  have hlen := (hnodup.subperm hsub).length_le
  simp only [List.length_cons, List.length_map, List.length_range] at hlen
  omega

theorem firstFreeFrom_not_mem {used : List String} {base : String} (hbase : base ∈ used) :
    ∀ (fuel k : Nat), used.length + 1 ≤ fuel + k → k ≠ 0 →
      (∀ i, 1 ≤ i → i < k → numbered base i ∈ used) → firstFreeFrom used base fuel k ∉ used := by
  intro fuel
  induction fuel with
  | zero =>
    intro k hfuel hk h
    have hle := le_of_numbered_mem hbase hk h
    omega
  | succ fuel ih =>
    intro k hfuel hk h
    rw [firstFreeFrom]
    split
    · next hmem =>
      refine ih (k + 1) (by omega) (by omega) fun i hi hik => ?_
      by_cases hlast : i = k
      · rw [hlast]
        exact hmem
      · exact h i hi (by omega)
    · next hfree => exact hfree

theorem firstFree_not_mem (used : List String) (base : String) : firstFree used base ∉ used := by
  by_cases hbase : base ∈ used
  · rw [firstFree, if_pos hbase]
    exact firstFreeFrom_not_mem hbase used.length 1 (by omega) (by omega) fun i hi hik => by omega
  · rw [firstFree_eq hbase]
    exact hbase

end NumberedNames
