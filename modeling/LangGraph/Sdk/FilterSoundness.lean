import Mathlib.Algebra.GroupWithZero.Nat
import LangGraph.Sdk.Subscription

/- Exactly when `filter_covers` and `compute_union_filter` are sound. A filter with
   an empty list of namespaces is delivered every namespace, so what covers it has
   to let every namespace through: it is unscoped, or the empty namespace is among
   its prefixes and it has no depth (`matchesAll_iff`). The two functions read the
   empty list as one that asks for nothing. -/
namespace LangGraph.Sdk

/-! The events of a filter's channels. -/

/-- The channel of some event. -/
def isChannel (ch : String) : Bool :=
  directMethods.contains ch || ch = "custom" || ch = "input" ||
    "custom:".toList.isPrefixOf ch.toList && ch ≠ "custom:"

/-- Some event is of a channel the filter asks for. -/
def SubscribeParams.Hears (p : SubscribeParams) : Prop := ∃ ch ∈ p.channels, isChannel ch = true

instance (p : SubscribeParams) : Decidable p.Hears := by
  unfold SubscribeParams.Hears
  infer_instance

/-- An event of the channel at the namespace. -/
theorem exists_event {ch : String} (h : isChannel ch = true) (ns : Namespace) :
    ∃ event : Event, event.ns = ns ∧ inferChannel event = some ch := by
  simp only [isChannel, Bool.or_eq_true, Bool.and_eq_true, List.contains_iff_mem,
    decide_eq_true_eq] at h
  obtain ((hdirect | rfl) | rfl) | ⟨hcustom, hne⟩ := h
  · exact ⟨⟨some ch, ns, none, none, none⟩, rfl, by simp [inferChannel, hdirect]⟩
  · exact ⟨⟨some "custom", ns, none, none, none⟩, rfl, by simp [inferChannel, directMethods]⟩
  · exact ⟨⟨some "input.requested", ns, none, none, none⟩, rfl,
      by simp [inferChannel, directMethods]⟩
  · obtain ⟨rest, hrest⟩ := List.isPrefixOf_iff_prefix.mp hcustom
    have hch : ch = "custom:" ++ String.ofList rest := by
      have hlist : (String.ofList rest).toList = rest := String.toList_ofList
      rw [← String.toList_inj, String.toList_append, hlist]
      exact hrest.symm
    have hname : String.ofList rest ≠ "" := by
      intro h0
      rw [h0] at hch
      exact hne hch
    refine ⟨⟨some "custom", ns, some (String.ofList rest), none, none⟩, rfl, ?_⟩
    have hnot : ("custom" ∈ directMethods) = False := by decide
    simp only [inferChannel, hnot, if_false, if_true, hname, hch]

theorem isChannel_of_infer {event : Event} {ch : String} (h : inferChannel event = some ch) :
    isChannel ch = true := by
  unfold inferChannel at h
  split at h
  · cases h
  · split at h
    · rename_i hmem
      cases h
      simp only [isChannel, List.contains_iff_mem.mpr hmem, Bool.true_or]
    · split at h
      · split at h
        · cases h
          decide
        · split at h
          · cases h
            decide
          · rename_i name _ hname
            cases h
            have hpre : "custom:".toList.isPrefixOf ("custom:" ++ name).toList = true := by
              rw [String.toList_append]
              exact List.isPrefixOf_iff_prefix.mpr (List.prefix_append _ _)
            have hne : "custom:" ++ name ≠ "custom:" := by
              intro he
              have hl := congrArg String.toList he
              rw [String.toList_append] at hl
              have hnil := List.append_right_eq_self.mp hl
              exact hname (String.toList_inj.mp (by rw [hnil]; rfl))
            simp only [isChannel, hpre, hne, ne_eq, not_false_eq_true, decide_true,
              Bool.and_self, Bool.or_true]
      · split at h
        · cases h
          decide
        · cases h

/-- A filter that asks for the channel of an event hears something. -/
theorem hears_of_matches {event : Event} {p : SubscribeParams}
    (h : matchesSubscription event p = true) : p.Hears := by
  simp only [matchesSubscription] at h
  cases hch : inferChannel event with
  | none => simp [hch] at h
  | some ch =>
    simp only [hch, Bool.and_eq_true, asksForChannel, Bool.or_eq_true, List.contains_iff_mem] at h
    cases h.1 with
    | inl hmem => exact ⟨ch, hmem, isChannel_of_infer hch⟩
    | inr hcustom => exact ⟨"custom", hcustom.2, by decide⟩

/-! The filters that let every namespace through. -/

/-- No list of namespaces narrows the filter. -/
def SubscribeParams.MatchesAll (p : SubscribeParams) : Prop :=
  p.Unscoped ∨ [] ∈ p.namespaces.getD [] ∧ p.depth = none

instance (p : SubscribeParams) : Decidable p.MatchesAll := by
  unfold SubscribeParams.MatchesAll
  infer_instance

theorem namespaceMatches_of_matchesAll {p : SubscribeParams} (h : p.MatchesAll) (ns : Namespace) :
    namespaceMatches ns p.namespaces p.depth = true := by
  cases h with
  | inl h => exact namespaceMatches_of_unscoped h ns p.depth
  | inr h =>
    cases hp : p.namespaces with
    | none => rfl
    | some nss =>
      rw [hp, Option.getD_some] at h
      apply (namespaceMatches_iff (List.ne_nil_of_mem h.1)).mpr
      refine ⟨[], h.1, ?_, ?_⟩
      · unfold isPrefixMatch
        rfl
      · rw [h.2]
        rfl

theorem length_le_of_isPrefixMatch : ∀ {ns start : Namespace}, isPrefixMatch ns start = true →
    start.length ≤ ns.length
  | _, [], _ => Nat.zero_le _
  | [], _ :: _, h => by simp [isPrefixMatch] at h
  | _ :: ns, _ :: start, h => by
    rw [isPrefixMatch, Bool.and_eq_true] at h
    have := length_le_of_isPrefixMatch h.2
    simp only [List.length_cons]
    omega

theorem length_le_sum {start : Namespace} : ∀ {nss : List Namespace}, start ∈ nss →
    start.length ≤ (nss.map List.length).sum
  | x :: nss, h => by
    rw [List.map_cons, List.sum_cons]
    cases List.mem_cons.mp h with
    | inl e =>
      rw [e]
      omega
    | inr h =>
      have := length_le_sum h
      omega

theorem matchesAll_iff (p : SubscribeParams) :
    (∀ ns, namespaceMatches ns p.namespaces p.depth = true) ↔ p.MatchesAll := by
  constructor
  · intro h
    by_cases hu : p.Unscoped
    · exact .inl hu
    right
    obtain ⟨nss, hp, hnss⟩ : ∃ nss, p.namespaces = some nss ∧ nss ≠ [] := by
      cases hp : p.namespaces with
      | none => exact absurd (by simp [SubscribeParams.Unscoped, hp]) hu
      | some nss =>
        refine ⟨nss, rfl, ?_⟩
        intro he
        exact hu (by simp [SubscribeParams.Unscoped, hp, he])
    rw [hp] at h ⊢
    constructor
    · -- the empty namespace has only itself as a prefix
      obtain ⟨start, hstart, hpre, _⟩ := (namespaceMatches_iff hnss).mp (h [])
      have hlen := length_le_of_isPrefixMatch hpre
      have hnil : start = [] := List.eq_nil_of_length_eq_zero (Nat.le_zero.mp hlen)
      rw [Option.getD_some, ← hnil]
      exact hstart
    · cases hd : p.depth with
      | none => rfl
      | some d =>
        -- a namespace too long for every prefix and the depth
        let ns : Namespace := List.replicate ((nss.map List.length).sum + d.toNat + 1) ""
        obtain ⟨start, hstart, _, hfits⟩ := (namespaceMatches_iff hnss).mp (h ns)
        have hle := length_le_sum hstart
        rw [hd] at hfits
        simp only [depthFits, ns, List.length_replicate, decide_eq_true_eq] at hfits
        omega
  · exact fun h ns => namespaceMatches_of_matchesAll h ns

/-- What covers a filter with an empty list lets every namespace through. -/
theorem covers_of_empty {f p : SubscribeParams} (hp : p.namespaces = some [])
    (hhears : p.Hears) (h : Covers f p) : f.MatchesAll := by
  apply (matchesAll_iff f).mp
  intro ns
  obtain ⟨ch, hch, hchan⟩ := hhears
  obtain ⟨event, hns, hinfer⟩ := exists_event hchan ns
  have hevent : matchesSubscription event p = true := by
    simp only [matchesSubscription, hinfer, hp, Bool.and_eq_true]
    refine ⟨?_, rfl⟩
    rw [asksForChannel, List.contains_iff_mem.mpr hch, Bool.true_or]
  have hf := h event hevent
  simp only [matchesSubscription, hinfer, Bool.and_eq_true] at hf
  rw [← hns]
  exact hf.2

/-- The coverer lets every namespace through where the target's list is empty. -/
def EmptyListCovered (f p : SubscribeParams) : Prop :=
  p.namespaces = some [] → p.Hears → f.MatchesAll

theorem filterCovers_sound_iff (f p : SubscribeParams) :
    (filterCovers f p = true → Covers f p) ↔ (filterCovers f p = true → EmptyListCovered f p) := by
  constructor
  · exact fun h hc hp hhears => covers_of_empty hp hhears (h hc)
  · intro h hc
    by_cases hp : p.namespaces = some []
    · by_cases hhears : p.Hears
      · have hall := h hc hp hhears
        simp only [filterCovers, Bool.and_eq_true, List.all_eq_true, List.contains_iff_mem] at hc
        exact Covers.of_parts hc.1 fun ns _ => namespaceMatches_of_matchesAll hall ns
      · exact fun event hevent => absurd (hears_of_matches hevent) hhears
    · exact covers_of_filterCovers hc fun he => absurd he hp

/-! The union lets every namespace through. -/

namespace UnionState

theorem foldl_wildcardNamespaces : ∀ (subs : List SubscribeParams) (u : UnionState),
    (subs.foldl add u).wildcardNamespaces =
      (u.wildcardNamespaces || subs.any fun p => p.namespaces.isNone)
  | [], u => by simp
  | p :: subs, u => by
    rw [List.foldl_cons, foldl_wildcardNamespaces, List.any_cons, ← Bool.or_assoc]
    rfl

theorem foldl_unboundedDepth : ∀ (subs : List SubscribeParams) (u : UnionState),
    (subs.foldl add u).unboundedDepth = (u.unboundedDepth || subs.any fun p => p.depth.isNone)
  | [], u => by simp
  | p :: subs, u => by
    rw [List.foldl_cons, foldl_unboundedDepth, List.any_cons, ← Bool.or_assoc]
    rfl

/-- What the map holds is from the lists. -/
theorem of_get?_foldl {k v : Namespace} : ∀ {subs : List SubscribeParams} {u : UnionState},
    (subs.foldl add u).namespaceMap.get? k = some v →
      u.namespaceMap.get? k = some v ∨ v = k ∧ ∃ p ∈ subs, k ∈ p.namespaces.getD []
  | [], _, h => .inl h
  | p :: subs, u, h => by
    rw [List.foldl_cons] at h
    cases of_get?_foldl h with
    | inr h =>
      obtain ⟨hv, q, hq, hk⟩ := h
      exact .inr ⟨hv, q, List.mem_cons_of_mem p hq, hk⟩
    | inl h =>
      cases hp : p.namespaces with
      | none => exact .inl (by simpa [add, hp] using h)
      | some nss =>
        simp only [add, hp] at h
        split at h
        · exact .inl h
        · rw [OrdDict.get?_setAll_map (fun ns => ns)] at h
          split at h
          · rename_i hk
            cases h
            exact .inr ⟨rfl, p, List.mem_cons_self, by rw [hp]; exact hk⟩
          · exact .inl h

end UnionState

/-- No list narrows the union: one is missing, all are empty, or one has the empty
    namespace and some filter no depth. -/
def UnionUnscoped (filters : List SubscribeParams) : Prop :=
  (∃ p ∈ filters, p.namespaces = none) ∨ (∀ p ∈ filters, p.namespaces = some []) ∨
    (∃ p ∈ filters, [] ∈ p.namespaces.getD []) ∧ ∃ p ∈ filters, p.depth = none

theorem matchesAll_union_iff {filters : List SubscribeParams} (hne : filters ≠ []) :
    (computeUnionFilter filters).MatchesAll ↔ UnionUnscoped filters := by
  rw [computeUnionFilter, if_neg hne]
  have hwild := UnionState.foldl_wildcardNamespaces filters .init
  have hunb := UnionState.foldl_unboundedDepth filters .init
  have hget : ∀ k v, (filters.foldl UnionState.add .init).namespaceMap.get? k = some v →
      v = k ∧ ∃ p ∈ filters, k ∈ p.namespaces.getD [] := by
    intro k v h
    exact (UnionState.of_get?_foldl h).resolve_left (by simp [UnionState.init])
  have hinc : ∀ p ∈ filters, (filters.foldl UnionState.add .init).Includes p :=
    fun p hp => UnionState.foldl_includes (.inl hp)
  generalize filters.foldl UnionState.add .init = u at hwild hunb hget hinc ⊢
  have hdepth : u.result.depth = none ↔ ∃ p ∈ filters, p.depth = none := by
    have hu : u.unboundedDepth = true ↔ ∃ p ∈ filters, p.depth = none := by
      rw [hunb, UnionState.init, Bool.false_or, List.any_eq_true]
      simp only [Option.isNone_iff_eq_none]
    rw [← hu]
    cases hb : u.unboundedDepth with
    | true => simp [UnionState.result, hb]
    | false => simp [UnionState.result, hb]
  have hnone : u.wildcardNamespaces = true ↔ ∃ p ∈ filters, p.namespaces = none := by
    rw [hwild, UnionState.init, Bool.false_or, List.any_eq_true]
    simp only [Option.isNone_iff_eq_none]
  cases hw : u.wildcardNamespaces with
  | true =>
    have hun : u.result.Unscoped := by simp [SubscribeParams.Unscoped, UnionState.result, hw]
    exact iff_of_true (.inl hun) (.inl (hnone.mp hw))
  | false =>
    have hsome : ∀ p ∈ filters, ∃ nss, p.namespaces = some nss := by
      intro p hp
      cases hns : p.namespaces with
      | none =>
        rw [hnone.mpr ⟨p, hp, hns⟩] at hw
        cases hw
      | some nss => exact ⟨nss, rfl⟩
    have hnot : ¬ ∃ p ∈ filters, p.namespaces = none := by
      rw [← hnone, hw]
      exact Bool.false_ne_true
    have hmem : ∀ k, k ∈ u.namespaceMap.values ↔ ∃ p ∈ filters, k ∈ p.namespaces.getD [] := by
      intro k
      rw [OrdDict.mem_values_iff]
      constructor
      · intro h
        obtain ⟨k', h⟩ := h
        obtain ⟨hv, hex⟩ := hget k' k h
        rw [hv]
        exact hex
      · intro h
        obtain ⟨p, hp, hk⟩ := h
        obtain ⟨nss, hnss⟩ := hsome p hp
        rw [hnss, Option.getD_some] at hk
        exact ⟨k, (hinc p hp).namespaces nss hnss hw k hk⟩
    cases hent : u.namespaceMap.entries with
    | nil =>
      have hempty : ∀ p ∈ filters, p.namespaces = some [] := by
        intro p hp
        obtain ⟨nss, hnss⟩ := hsome p hp
        cases nss with
        | nil => exact hnss
        | cons k nss =>
          have hk : k ∈ u.namespaceMap.values := by
            rw [hmem]
            exact ⟨p, hp, by rw [hnss]; exact List.mem_cons_self⟩
          rw [OrdDict.values, hent] at hk
          cases hk
      have hun : u.result.Unscoped := by
        simp [SubscribeParams.Unscoped, UnionState.result, hw, hent]
      exact iff_of_true (.inl hun) (.inr (.inl hempty))
    | cons e es =>
      have hres : u.result.namespaces = some u.namespaceMap.values := by
        simp [UnionState.result, hw, hent]
      have hval : u.namespaceMap.values ≠ [] := by
        rw [OrdDict.values, hent]
        exact List.cons_ne_nil _ _
      have hun : ¬ u.result.Unscoped := by
        rw [SubscribeParams.Unscoped, hres, Option.getD_some]
        exact hval
      have hall : ¬ ∀ p ∈ filters, p.namespaces = some [] := by
        intro hall
        obtain ⟨k, hk⟩ := List.exists_mem_of_ne_nil _ hval
        obtain ⟨p, hp, hkp⟩ := (hmem k).mp hk
        rw [hall p hp] at hkp
        cases hkp
      rw [SubscribeParams.MatchesAll, or_iff_right hun, UnionUnscoped, or_iff_right hnot,
        or_iff_right hall, hres, Option.getD_some, hmem, hdepth]

/-- Where some list is empty, and its filter hears something, the union is narrowed
    by no list. -/
def EmptyListsUnited (filters : List SubscribeParams) : Prop :=
  ∀ p ∈ filters, p.namespaces = some [] → p.Hears → UnionUnscoped filters

theorem computeUnionFilter_covers_iff (filters : List SubscribeParams) :
    (∀ p ∈ filters, Covers (computeUnionFilter filters) p) ↔ EmptyListsUnited filters := by
  constructor
  · intro h p hp hempty hhears
    apply (matchesAll_union_iff (List.ne_nil_of_mem hp)).mp
    exact covers_of_empty hempty hhears (h p hp)
  · intro h p hp
    have hinc := UnionState.foldl_includes (u := .init) (.inl hp)
    by_cases hempty : p.namespaces = some []
    · by_cases hhears : p.Hears
      · have hall := (matchesAll_union_iff (List.ne_nil_of_mem hp)).mpr (h p hp hempty hhears)
        apply Covers.of_parts
        · intro ch hch
          rw [computeUnionFilter_of_mem hp]
          exact SortBy.mem_sortBy.mpr (hinc.channels ch hch)
        · exact fun ns _ => namespaceMatches_of_matchesAll hall ns
      · exact fun event hevent => absurd (hears_of_matches hevent) hhears
    · rw [computeUnionFilter_of_mem hp]
      exact hinc.covers fun he => absurd he hempty

/-- Both functions are sound exactly where no filter with an empty list of
    namespaces meets one that is scoped. -/
theorem filters_sound_iff (coverer target : SubscribeParams) (filters : List SubscribeParams) :
    ((filterCovers coverer target = true → Covers coverer target) ↔
      (filterCovers coverer target = true → EmptyListCovered coverer target)) ∧
    ((∀ p ∈ filters, Covers (computeUnionFilter filters) p) ↔ EmptyListsUnited filters) :=
  ⟨filterCovers_sound_iff coverer target, computeUnionFilter_covers_iff filters⟩

/-- The filter of the namespace `a` is said to cover the one with an empty list,
    which is delivered the event of the outermost graph; so is their union. -/
theorem not_filters_sound :
    ¬ ((∀ f p : SubscribeParams, filterCovers f p = true → Covers f p) ∧
      ∀ filters : List SubscribeParams, ∀ p ∈ filters, Covers (computeUnionFilter filters) p) := by
  intro ⟨h, _⟩
  have hcovers := h ⟨["values"], some [["a"]], none⟩ ⟨["values"], some [], none⟩ (by decide)
  have hevent := hcovers ⟨some "values", [], none, none, none⟩ (by decide)
  exact absurd hevent (by decide)

end LangGraph.Sdk
