import LangGraph.Lib.OrdDict
import LangGraph.Lib.SortBy
import Mathlib.Data.String.Basic
import Mathlib.Data.List.TakeWhile

/- Matching of events with the filters of subscriptions in the SDK.

   Correspondence (source ↔ Lean):
     `SubscribeParams`       ↔ `SubscribeParams`
     `normalize_segment`     ↔ `normalizeSegment`
     `is_prefix_match`       ↔ `isPrefixMatch`
     `namespace_matches`     ↔ `namespaceMatches`
     `infer_channel`         ↔ `inferChannel`
     `matches_subscription`  ↔ `matchesSubscription`
     `compute_union_filter`  ↔ `computeUnionFilter`
     `filter_covers`         ↔ `filterCovers`
   `Covers` is what the last two are for: every event that the one filter lets
   through, the other lets through. Both have it up to one input
   (`covers_of_filterCovers`, `computeUnionFilter_covers`): a filter with an empty
   list of namespaces lets every namespace through, as one without the list does,
   but the two functions read the list as one that asks for nothing. -/
namespace LangGraph.Sdk

open SortBy

abbrev Namespace := List String

/-- The fields of a protocol event that the client reads: `ns` is `params.namespace`
    (`[]` where it is missing) and `name` is `params.data.name`. -/
structure Event where
  method : Option String
  ns : Namespace
  name : Option String
  seq : Option Int
  eventId : Option String
  deriving DecidableEq

/-- `none` for a key that is missing. -/
structure SubscribeParams where
  channels : List String
  namespaces : Option (List Namespace)
  depth : Option Int
  deriving DecidableEq

/-- The segment without the dynamic suffix after `:`. -/
def normalizeSegment (segment : String) : String :=
  String.ofList (segment.toList.takeWhile (· ≠ ':'))

def hasSuffix (segment : String) : Bool := segment.toList.contains ':'

/-- One round of the loop of `is_prefix_match`. -/
def segmentMatches (candidate seg : String) : Bool :=
  candidate = seg || !hasSuffix seg && normalizeSegment candidate = seg

/-- Whether the first namespace starts with the second. -/
def isPrefixMatch : Namespace → Namespace → Bool
  | _, [] => true
  | [], _ :: _ => false
  | candidate :: eventNs, seg :: start => segmentMatches candidate seg && isPrefixMatch eventNs start

def depthFits (eventNs start : Namespace) : Option Int → Bool
  | none => true
  | some depth => (eventNs.length : Int) - start.length ≤ depth

/-- `not prefixes` holds of a missing list and of an empty one. -/
def namespaceMatches (eventNs : Namespace) (prefixes : Option (List Namespace))
    (depth : Option Int) : Bool :=
  match prefixes with
  | none => true
  | some [] => true
  | some (start :: rest) =>
    (start :: rest).any fun start => isPrefixMatch eventNs start && depthFits eventNs start depth

def directMethods : List String :=
  ["values", "checkpoints", "updates", "messages", "tools", "lifecycle", "tasks"]

def inferChannel (event : Event) : Option String :=
  match event.method with
  | none => none
  | some method =>
    if method ∈ directMethods then some method
    else if method = "custom" then
      match event.name with
      | none => some "custom"
      | some name => if name = "" then some "custom" else some ("custom:" ++ name)
    else if method = "input.requested" then some "input"
    else none

def asksForChannel (channels : List String) (channel : String) : Bool :=
  channels.contains channel || "custom:".toList.isPrefixOf channel.toList && channels.contains "custom"

def matchesSubscription (event : Event) (definition : SubscribeParams) : Bool :=
  match inferChannel event with
  | none => false
  | some channel =>
    asksForChannel definition.channels channel &&
      namespaceMatches event.ns definition.namespaces definition.depth

/-- The variables of the loop of `compute_union_filter`; `namespace_map` maps the tuple of a
    namespace to the namespace. -/
structure UnionState where
  channels : List String
  wildcardNamespaces : Bool
  namespaceMap : OrdDict Namespace Namespace
  unboundedDepth : Bool
  maxDepth : Int

def UnionState.init : UnionState := ⟨[], false, ∅, false, 0⟩

/-- The body of the loop. -/
def UnionState.add (u : UnionState) (sub : SubscribeParams) : UnionState where
  channels := sub.channels.foldl (fun l ch => l.insert ch) u.channels
  wildcardNamespaces := u.wildcardNamespaces || sub.namespaces.isNone
  namespaceMap :=
    match sub.namespaces with
    | none => u.namespaceMap
    | some nss =>
      if u.wildcardNamespaces then u.namespaceMap
      else u.namespaceMap.setAll (nss.map fun ns => (ns, ns))
  unboundedDepth := u.unboundedDepth || sub.depth.isNone
  maxDepth :=
    match sub.depth with
    | none => u.maxDepth
    | some depth => if !u.unboundedDepth && u.maxDepth < depth then depth else u.maxDepth

def UnionState.result (u : UnionState) : SubscribeParams where
  channels := sortBy id u.channels
  namespaces :=
    if !u.wildcardNamespaces && !u.namespaceMap.entries.isEmpty then some u.namespaceMap.values
    else none
  depth := if u.unboundedDepth then none else some u.maxDepth

def computeUnionFilter (subscriptions : List SubscribeParams) : SubscribeParams :=
  if subscriptions = [] then ⟨[], none, none⟩
  else (subscriptions.foldl UnionState.add UnionState.init).result

/-- The depth of the coverer against the depth below the target's longer prefix. -/
def depthCovers (tp cp : Namespace) : (covererDepth targetDepth : Option Int) → Bool
  | none, _ => true
  | some _, none => false
  | some cd, some td => (tp.length : Int) - cp.length + td ≤ cd

def filterCovers (coverer target : SubscribeParams) : Bool :=
  (target.channels.all fun ch => coverer.channels.contains ch) &&
    match coverer.namespaces, target.namespaces with
    | none, _ =>
      match coverer.depth, target.depth with
      | none, _ => true
      | some _, none => false
      | some cd, some td => td ≤ cd
    | some _, none => false
    | some cns, some tns =>
      tns.all fun tp => cns.any fun cp =>
        isPrefixMatch tp cp && depthCovers tp cp coverer.depth target.depth

/-- Every event of the second filter is one of the first. -/
def Covers (f p : SubscribeParams) : Prop :=
  ∀ event, matchesSubscription event p = true → matchesSubscription event f = true

/-! Prefixes: the match is a preorder. -/

theorem segmentMatches_trans {a b c : String} (hab : segmentMatches a b = true)
    (hbc : segmentMatches b c = true) : segmentMatches a c = true := by
  simp only [segmentMatches, Bool.or_eq_true, Bool.and_eq_true, decide_eq_true_eq,
    Bool.not_eq_true'] at hab hbc ⊢
  rcases hab with rfl | ⟨hb, hab⟩
  · exact hbc
  rcases hbc with rfl | ⟨hc, hbc⟩
  · exact .inr ⟨hb, hab⟩
  -- `b` has no suffix, so that it is its own normal form
  have hnorm : normalizeSegment b = b := by
    have hall : ∀ x ∈ b.toList, (decide (x ≠ ':')) = true := by
      intro x hx
      apply decide_eq_true
      rintro rfl
      rw [hasSuffix, List.contains_iff_mem.mpr hx] at hb
      exact Bool.noConfusion hb
    rw [normalizeSegment, List.takeWhile_eq_self_iff.mpr hall, String.ofList_toList]
  refine .inr ⟨hc, ?_⟩
  calc normalizeSegment a = b := hab
    _ = normalizeSegment b := hnorm.symm
    _ = c := hbc

theorem isPrefixMatch_trans : ∀ {a b c : Namespace}, isPrefixMatch a b = true →
    isPrefixMatch b c = true → isPrefixMatch a c = true
  | _, _, [], _, _ => by unfold isPrefixMatch; rfl
  | _, [], _ :: _, _, h => by simp [isPrefixMatch] at h
  | [], _ :: _, _ :: _, h, _ => by simp [isPrefixMatch] at h
  | x :: a, y :: b, z :: c, hab, hbc => by
    simp only [isPrefixMatch, Bool.and_eq_true] at hab hbc ⊢
    exact ⟨segmentMatches_trans hab.1 hbc.1, isPrefixMatch_trans hab.2 hbc.2⟩

/-! What a filter lets through. -/

theorem asksForChannel_mono {l l' : List String} (h : ∀ ch ∈ l, ch ∈ l') {ch : String}
    (hch : asksForChannel l ch = true) : asksForChannel l' ch = true := by
  simp only [asksForChannel, Bool.or_eq_true, Bool.and_eq_true, List.contains_iff_mem] at hch ⊢
  rcases hch with hch | ⟨hcustom, hch⟩
  · exact .inl (h ch hch)
  · exact .inr ⟨hcustom, h _ hch⟩

/-- The list does not narrow: it is missing or empty. -/
def SubscribeParams.Unscoped (p : SubscribeParams) : Prop := p.namespaces.getD [] = []

instance (p : SubscribeParams) : Decidable p.Unscoped := by
  unfold SubscribeParams.Unscoped
  infer_instance

theorem namespaceMatches_of_unscoped {p : SubscribeParams} (h : p.Unscoped) (ns : Namespace)
    (depth : Option Int) : namespaceMatches ns p.namespaces depth = true := by
  unfold SubscribeParams.Unscoped at h
  unfold namespaceMatches
  match hp : p.namespaces with
  | none => rfl
  | some [] => rfl
  | some (start :: rest) => simp [hp] at h

theorem namespaceMatches_iff {ns : Namespace} {nss : List Namespace} {depth : Option Int}
    (h : nss ≠ []) : namespaceMatches ns (some nss) depth = true ↔
      ∃ start ∈ nss, isPrefixMatch ns start = true ∧ depthFits ns start depth = true := by
  match nss with
  | [] => exact absurd rfl h
  | start :: rest => simp [namespaceMatches]

theorem Covers.of_parts {f p : SubscribeParams} (hchannels : ∀ ch ∈ p.channels, ch ∈ f.channels)
    (hns : ∀ ns, namespaceMatches ns p.namespaces p.depth = true →
      namespaceMatches ns f.namespaces f.depth = true) : Covers f p := by
  intro event h
  simp only [matchesSubscription] at h ⊢
  cases hch : inferChannel event with
  | none => simp [hch] at h
  | some ch =>
    simp only [hch, Bool.and_eq_true] at h ⊢
    exact ⟨asksForChannel_mono hchannels h.1, hns _ h.2⟩

theorem depthFits_of_depthCovers {ns tp cp : Namespace} {cd td : Option Int}
    (hcovers : depthCovers tp cp cd td = true) (hfits : depthFits ns tp td = true) :
    depthFits ns cp cd = true := by
  cases cd with
  | none => rfl
  | some cd =>
    cases td with
    | none => simp [depthCovers] at hcovers
    | some td =>
      simp only [depthCovers, depthFits, decide_eq_true_eq] at hcovers hfits ⊢
      omega

/-- `filter_covers` is right unless it takes an empty list for one that asks for nothing. -/
theorem covers_of_filterCovers {f p : SubscribeParams} (h : filterCovers f p = true)
    (hempty : p.namespaces = some [] → f.Unscoped) : Covers f p := by
  simp only [filterCovers, Bool.and_eq_true, List.all_eq_true, List.contains_iff_mem] at h
  obtain ⟨hchannels, hns⟩ := h
  apply Covers.of_parts hchannels
  intro ns hmatch
  cases hf : f.namespaces with
  | none => rfl
  | some cns =>
    cases hp : p.namespaces with
    | none => simp [hf, hp] at hns
    | some tns =>
      by_cases htns : tns = []
      · have := namespaceMatches_of_unscoped (hempty (htns ▸ hp)) ns f.depth
        rwa [hf] at this
      rw [hp, namespaceMatches_iff htns] at hmatch
      obtain ⟨tp, htp, hstart, hfits⟩ := hmatch
      simp only [hf, hp, List.all_eq_true, List.any_eq_true, Bool.and_eq_true] at hns
      obtain ⟨cp, hcp, htc, hdepth⟩ := hns tp htp
      have hcns : cns ≠ [] := List.ne_nil_of_mem hcp
      apply (namespaceMatches_iff hcns).mpr
      exact ⟨cp, hcp, isPrefixMatch_trans hstart htc, depthFits_of_depthCovers hdepth hfits⟩

/-! The union. -/

namespace UnionState

/-- What the loop has taken in of a filter. -/
structure Includes (u : UnionState) (p : SubscribeParams) : Prop where
  channels : ∀ ch ∈ p.channels, ch ∈ u.channels
  wildcard : p.namespaces = none → u.wildcardNamespaces = true
  namespaces : ∀ nss, p.namespaces = some nss → u.wildcardNamespaces = false →
    ∀ ns ∈ nss, u.namespaceMap.get? ns = some ns
  unbounded : p.depth = none → u.unboundedDepth = true
  depth : ∀ d, p.depth = some d → u.unboundedDepth = false → d ≤ u.maxDepth

theorem mem_insertAll {ch : String} : ∀ {l l' : List String},
    ch ∈ l.foldl (fun l ch => l.insert ch) l' ↔ ch ∈ l' ∨ ch ∈ l
  | [], l' => by simp
  | x :: l, l' => by
    rw [List.foldl_cons, mem_insertAll, List.mem_insert_iff, List.mem_cons]
    tauto

theorem add_includes (u : UnionState) (p : SubscribeParams) : (u.add p).Includes p where
  channels := fun ch hch => mem_insertAll.mpr (.inr hch)
  wildcard := fun h => by simp [add, h]
  namespaces := fun nss h hw ns hns => by
    have hu : u.wildcardNamespaces = false := by simpa [add, h] using hw
    simp only [add, h, hu, Bool.false_eq_true, if_false]
    rw [OrdDict.get?_setAll_map (fun ns => ns), if_pos hns]
  unbounded := fun h => by simp [add, h]
  depth := fun d h hb => by
    have hu : u.unboundedDepth = false := by simpa [add, h] using hb
    simp only [add, h, hu, Bool.not_false, Bool.true_and, decide_eq_true_eq]
    split
    · exact le_refl d
    · omega

theorem Includes.add {u : UnionState} {q : SubscribeParams} (h : u.Includes q)
    (p : SubscribeParams) : (u.add p).Includes q where
  channels := fun ch hch => mem_insertAll.mpr (.inl (h.channels ch hch))
  wildcard := fun hq => by simp [UnionState.add, h.wildcard hq]
  namespaces := fun nss hq hw ns hns => by
    have hw' := Bool.or_eq_false_iff.mp hw
    have hold := h.namespaces nss hq hw'.1 ns hns
    cases hp : p.namespaces with
    | none => simp [hp] at hw'
    | some nss' =>
      simp only [UnionState.add, hp, hw'.1, Bool.false_eq_true, if_false]
      rw [OrdDict.get?_setAll_map (fun ns => ns), hold, ite_self]
  unbounded := fun hq => by simp [UnionState.add, h.unbounded hq]
  depth := fun d hq hb => by
    have hb' := Bool.or_eq_false_iff.mp hb
    have hold := h.depth d hq hb'.1
    simp only [UnionState.add]
    split
    · exact hold
    · split
      · rename_i hlt
        simp only [Bool.and_eq_true, decide_eq_true_eq] at hlt
        omega
      · exact hold

theorem foldl_includes {q : SubscribeParams} : ∀ {subs : List SubscribeParams} {u : UnionState},
    q ∈ subs ∨ u.Includes q → (subs.foldl add u).Includes q
  | [], _, h => h.resolve_left List.not_mem_nil
  | p :: subs, u, h => by
    apply foldl_includes (u := u.add p)
    rcases h with h | h
    · rcases List.mem_cons.mp h with rfl | h
      · exact .inr (u.add_includes q)
      · exact .inl h
    · exact .inr (h.add p)

theorem Includes.covers {u : UnionState} {p : SubscribeParams} (h : u.Includes p)
    (hempty : p.namespaces = some [] → u.result.Unscoped) : Covers u.result p := by
  apply Covers.of_parts
  · intro ch hch
    exact mem_sortBy.mpr (h.channels ch hch)
  intro ns hmatch
  by_cases hw : u.result.Unscoped
  · exact namespaceMatches_of_unscoped hw ns _
  cases hp : p.namespaces with
  | none => exact absurd (by simp [SubscribeParams.Unscoped, result, h.wildcard hp]) hw
  | some nss =>
    have hnss : nss ≠ [] := fun hnil => hw (hempty (hnil ▸ hp))
    rw [hp, namespaceMatches_iff hnss] at hmatch
    obtain ⟨start, hstart, hpre, hfits⟩ := hmatch
    have hwild : u.wildcardNamespaces = false := by
      by_contra hwild
      exact hw (by simp [SubscribeParams.Unscoped, result, hwild])
    have hval : start ∈ u.namespaceMap.values :=
      OrdDict.mem_values_iff.mpr ⟨start, h.namespaces nss hp hwild start hstart⟩
    have hentries : u.namespaceMap.entries ≠ [] := by
      intro hnil
      simp [OrdDict.values, hnil] at hval
    have hresult : u.result.namespaces = some u.namespaceMap.values := by
      simp [result, hwild, hentries]
    rw [hresult]
    apply (namespaceMatches_iff (List.ne_nil_of_mem hval)).mpr
    refine ⟨start, hval, hpre, ?_⟩
    cases hd : p.depth with
    | none => simp [result, h.unbounded hd, depthFits]
    | some d =>
      cases hb : u.unboundedDepth with
      | true => simp [result, hb, depthFits]
      | false =>
        have hle := h.depth d hd hb
        simp only [hd, depthFits, decide_eq_true_eq] at hfits
        simp only [result, hb, depthFits, Bool.false_eq_true, if_false, decide_eq_true_eq]
        omega

/-- Lists that are all empty leave the map empty. -/
theorem foldl_namespaceMap : ∀ {subs : List SubscribeParams} {u : UnionState},
    (∀ p ∈ subs, p.namespaces = some []) → (subs.foldl add u).namespaceMap = u.namespaceMap
  | [], _, _ => rfl
  | p :: subs, u, h => by
    rw [List.foldl_cons, foldl_namespaceMap fun q hq => h q (List.mem_cons_of_mem p hq)]
    simp [add, h p List.mem_cons_self]

end UnionState

/-- No filter has an empty list of namespaces beside others that are scoped. -/
def ScopesAgree (filters : List SubscribeParams) : Prop :=
  (∀ p ∈ filters, p.namespaces ≠ some []) ∨ (∃ p ∈ filters, p.namespaces = none) ∨
    ∀ p ∈ filters, p.namespaces = some []

instance (filters : List SubscribeParams) : Decidable (ScopesAgree filters) := by
  unfold ScopesAgree
  infer_instance

theorem computeUnionFilter_of_mem {filters : List SubscribeParams} {p : SubscribeParams}
    (hp : p ∈ filters) :
    computeUnionFilter filters = (filters.foldl UnionState.add UnionState.init).result :=
  if_neg (List.ne_nil_of_mem hp)

theorem computeUnionFilter_covers {filters : List SubscribeParams} (h : ScopesAgree filters)
    {p : SubscribeParams} (hp : p ∈ filters) : Covers (computeUnionFilter filters) p := by
  rw [computeUnionFilter_of_mem hp]
  apply (UnionState.foldl_includes (.inl hp)).covers
  intro hempty
  rcases h with h | ⟨q, hq, hnone⟩ | h
  · exact absurd hempty (h p hp)
  · have hincludes := UnionState.foldl_includes (u := .init) (.inl hq)
    simp [SubscribeParams.Unscoped, UnionState.result, hincludes.wildcard hnone]
  · have hmap := UnionState.foldl_namespaceMap (u := .init) h
    have hinit : UnionState.init.namespaceMap.entries.isEmpty = true := rfl
    simp [SubscribeParams.Unscoped, UnionState.result, hmap, hinit]

end LangGraph.Sdk
