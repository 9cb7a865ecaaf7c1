import Mathlib.Logic.Relation
import Mathlib.Data.List.Nodup

/- Depth-first search of a graph whose successors are found on the way, each by a
   computation that may fail, and the order in which the search leaves the nodes.

   `Left` is what a search that succeeds has added: the nodes that it left, in
   their order. They are those reachable from where it began (`mem_order_iff`),
   and what a node reaches without coming back to it is left before it
   (`before_of_away`). `visit_ne_outOfFuel`: the nodes of the graph, one more than
   there are, is fuel enough. -/
namespace DepthFirst

inductive Stop (ε : Type) where
  | outOfFuel
  | raised (e : ε)
  deriving DecidableEq, Repr

/-- The nodes entered so far, the last one first, and those left, in order. -/
structure Search (α : Type) where
  visited : List α
  order : List α
  deriving DecidableEq, Repr

section
variable {α ε : Type}

/-- One search after the other, till one fails. -/
def visitEach (visit : α → Search α → Except ε (Search α)) :
    List α → Search α → Except ε (Search α)
  | [], s => .ok s
  | b :: bs, s =>
    match visit b s with
    | .error e => .error e
    | .ok s' => visitEach visit bs s'

variable [DecidableEq α] (next : α → Except ε (List α))

def visit : Nat → α → Search α → Except (Stop ε) (Search α)
  | 0, _, _ => .error .outOfFuel
  | fuel + 1, a, s =>
    if a ∈ s.visited then .ok s
    else
      match next a with
      | .error e => .error (.raised e)
      | .ok bs =>
        match visitEach (visit fuel) bs ⟨a :: s.visited, s.order⟩ with
        | .error e => .error e
        | .ok s' => .ok ⟨s'.visited, s'.order ++ [a]⟩

def Edge (a b : α) : Prop := ∃ bs, next a = .ok bs ∧ b ∈ bs

abbrev Reach : α → α → Prop := Relation.ReflTransGen (Edge next)

/-- A step to a node from which there is no way back to `p`. -/
def Away (p a b : α) : Prop := Edge next a b ∧ ¬Reach next b p

/-! ## What a search adds -/

/-- `new` are the nodes that a search from `s` to `s'` left: it entered no others. A
    successor of a node left is left as well or was entered before, and one that is
    not left by the time `x` is, leads to `x`. -/
structure Left (s s' : Search α) (new : List α) : Prop where
  order : s'.order = s.order ++ new
  visited : ∀ x, x ∈ s'.visited ↔ x ∈ s.visited ∨ x ∈ new
  fresh : ∀ x ∈ new, x ∉ s.visited
  nodup : new.Nodup
  closed : ∀ x ∈ new, ∀ y, Edge next x y → y ∈ s.visited ∨ y ∈ new
  before : ∀ l x r, new = l ++ x :: r → ∀ z ∈ l ++ [x], ∀ y, Edge next z y →
    y ∈ s.visited ∨ y ∈ l ++ [x] ∨ Reach next y x

variable {next}

omit [DecidableEq α] in
theorem Left.refl (s : Search α) : Left next s s [] := by
  refine ⟨(List.append_nil _).symm, fun x => ?_, ?_, List.nodup_nil, ?_, ?_⟩
  · simp
  · intro x hx
    cases hx
  · intro x hx
    cases hx
  · intro l x r hsplit
    cases l <;> cases hsplit

omit [DecidableEq α] in
theorem Left.trans {s s₁ s₂ : Search α} {new new' : List α} (h : Left next s s₁ new)
    (h' : Left next s₁ s₂ new') : Left next s s₂ (new ++ new') := by
  refine ⟨?_, fun x => ?_, ?_, ?_, ?_, ?_⟩
  · rw [h'.order, h.order, List.append_assoc]
  · rw [h'.visited, h.visited, List.mem_append, or_assoc]
  · intro x hx
    cases List.mem_append.mp hx with
    | inl hx => exact h.fresh x hx
    | inr hx => exact fun hv => h'.fresh x hx ((h.visited x).mpr (Or.inl hv))
  · refine List.nodup_append.mpr ⟨h.nodup, h'.nodup, ?_⟩
    intro x hx y hy heq
    exact h'.fresh y hy ((h.visited y).mpr (Or.inr (heq ▸ hx)))
  · intro x hx y hy
    rw [List.mem_append]
    cases List.mem_append.mp hx with
    | inl hx => exact (h.closed x hx y hy).imp_right Or.inl
    | inr hx =>
      cases h'.closed x hx y hy with
      | inl hv => exact ((h.visited y).mp hv).imp_right Or.inl
      | inr hnew => exact Or.inr (Or.inr hnew)
  · intro l x r hsplit z hz y hy
    have hlate : ∀ l', l = new ++ l' → new' = l' ++ x :: r →
        y ∈ s.visited ∨ y ∈ l ++ [x] ∨ Reach next y x := by
      intro l' hl hnew'
      have hfirst : y ∈ s₁.visited → y ∈ s.visited ∨ y ∈ l ++ [x] ∨ Reach next y x := by
        intro hv
        refine ((h.visited y).mp hv).imp_right fun hnew => Or.inl ?_
        rw [hl]
        simp [hnew]
      rw [hl, List.append_assoc, List.mem_append] at hz
      cases hz with
      | inl hz =>
        apply hfirst
        exact (h.visited y).mpr (h.closed z hz y hy)
      | inr hz =>
        cases h'.before l' x r hnew' z hz y hy with
        | inl hv => exact hfirst hv
        | inr hrest =>
          refine Or.inr (hrest.imp_left fun hmem => ?_)
          rw [hl, List.append_assoc]
          exact List.mem_append_right _ hmem
    cases List.append_eq_append_iff.mp hsplit with
    | inl hright =>
      obtain ⟨l', hl, hnew'⟩ := hright
      exact hlate l' hl hnew'
    | inr hleft =>
      obtain ⟨l', hnew, hrest⟩ := hleft
      cases l' with
      | nil => exact hlate [] (by rw [hnew]; simp) hrest.symm
      | cons x' r' =>
        obtain ⟨rfl, -⟩ := List.cons.inj hrest
        exact h.before l x r' hnew z hz y hy

omit [DecidableEq α] in
/-- A node is entered, its successors are searched, and it is left. -/
theorem Left.node {s s' : Search α} {new bs : List α} {a : α} (hbs : next a = .ok bs)
    (ha : a ∉ s.visited) (h : Left next ⟨a :: s.visited, s.order⟩ s' new)
    (hall : ∀ b ∈ bs, b ∈ s'.visited) (hreach : ∀ x ∈ new, Reach next a x) :
    Left next s ⟨s'.visited, s'.order ++ [a]⟩ (new ++ [a]) := by
  have hmem : ∀ y, y ∈ s'.visited ↔ y ∈ s.visited ∨ y ∈ new ++ [a] := by
    intro y
    rw [h.visited, List.mem_cons, List.mem_append, List.mem_singleton]
    tauto
  have hedge : ∀ x ∈ new ++ [a], ∀ y, Edge next x y → y ∈ s.visited ∨ y ∈ new ++ [a] := by
    intro x hx y hy
    rw [← hmem]
    cases List.mem_append.mp hx with
    | inl hx => exact (h.visited y).mpr (h.closed x hx y hy)
    | inr hx =>
      obtain ⟨bs', hbs', hy⟩ := hy
      rw [List.mem_singleton.mp hx, hbs] at hbs'
      cases hbs'
      exact hall y hy
  refine ⟨?_, hmem, ?_, ?_, hedge, ?_⟩
  · rw [h.order, List.append_assoc]
  · intro x hx
    cases List.mem_append.mp hx with
    | inl hx => exact fun hv => h.fresh x hx (List.mem_cons_of_mem a hv)
    | inr hx => exact List.mem_singleton.mp hx ▸ ha
  · refine List.nodup_append.mpr ⟨h.nodup, List.nodup_singleton a, ?_⟩
    intro x hx y hy heq
    apply h.fresh x hx
    rw [heq, List.mem_singleton.mp hy]
    exact List.mem_cons_self
  · intro l x r hsplit z hz y hy
    cases List.eq_nil_or_concat r with
    | inl hr =>
      -- the node itself is the last one left
      subst hr
      rw [← hsplit] at hz ⊢
      exact (hedge z hz y hy).imp_right Or.inl
    | inr hr =>
      obtain ⟨r', c, rfl⟩ := hr
      have hnew : new = l ++ x :: r' := by
        have hsplit' : new ++ [a] = (l ++ x :: r') ++ [c] := by
          rw [hsplit]
          simp
        exact (List.append_inj' hsplit' rfl).1
      have hx : x ∈ new := by
        rw [hnew]
        simp
      cases h.before l x r' hnew z hz y hy with
      | inr hrest => exact Or.inr hrest
      | inl hv =>
        cases List.mem_cons.mp hv with
        | inl hya => exact Or.inr (Or.inr (hya ▸ hreach x hx))
        | inr hv => exact Or.inl hv

theorem visitEach_left {fuel : Nat} (ih : ∀ a (s s' : Search α), visit next fuel a s = .ok s' →
      ∃ new, Left next s s' new ∧ a ∈ s'.visited ∧ ∀ x ∈ new, Reach next a x) :
    ∀ (bs : List α) (s s' : Search α), visitEach (visit next fuel) bs s = .ok s' →
      ∃ new, Left next s s' new ∧ (∀ b ∈ bs, b ∈ s'.visited) ∧
        ∀ x ∈ new, ∃ b ∈ bs, Reach next b x := by
  intro bs
  induction bs with
  | nil =>
    intro s s' h
    cases h
    exact ⟨[], Left.refl s, fun b hb => (by cases hb), fun x hx => (by cases hx)⟩
  | cons b bs ihbs =>
    intro s s' h
    rw [visitEach] at h
    split at h
    · cases h
    · next s₁ hs₁ =>
      obtain ⟨new, hleft, hb, hreach⟩ := ih b s s₁ hs₁
      obtain ⟨new', hleft', hall, hreach'⟩ := ihbs s₁ s' h
      refine ⟨new ++ new', hleft.trans hleft', ?_, ?_⟩
      · intro c hc
        cases List.mem_cons.mp hc with
        | inl hcb => exact (hleft'.visited c).mpr (Or.inl (hcb ▸ hb))
        | inr hc => exact hall c hc
      · intro x hx
        cases List.mem_append.mp hx with
        | inl hx => exact ⟨b, List.mem_cons_self, hreach x hx⟩
        | inr hx =>
          obtain ⟨c, hc, hcx⟩ := hreach' x hx
          exact ⟨c, List.mem_cons_of_mem b hc, hcx⟩

theorem visit_left : ∀ (fuel : Nat) (a : α) (s s' : Search α), visit next fuel a s = .ok s' →
    ∃ new, Left next s s' new ∧ a ∈ s'.visited ∧ ∀ x ∈ new, Reach next a x := by
  intro fuel
  induction fuel with
  | zero =>
    intro a s s' h
    cases h
  | succ fuel ih =>
    intro a s s' h
    rw [visit] at h
    split at h
    · next ha =>
      cases h
      exact ⟨[], Left.refl s, ha, fun x hx => (by cases hx)⟩
    · next ha =>
      split at h
      · cases h
      · next bs hbs =>
        split at h
        · cases h
        · next s₁ hs₁ =>
          cases h
          obtain ⟨new, hleft, hall, hreach⟩ := visitEach_left ih bs _ s₁ hs₁
          have hedge : ∀ x ∈ new, Reach next a x := by
            intro x hx
            obtain ⟨b, hb, hbx⟩ := hreach x hx
            exact Relation.ReflTransGen.head ⟨bs, hbs, hb⟩ hbx
          refine ⟨new ++ [a], hleft.node hbs ha hall hedge, ?_, ?_⟩
          · exact (hleft.visited a).mpr (Or.inl List.mem_cons_self)
          · intro x hx
            cases List.mem_append.mp hx with
            | inl hx => exact hedge x hx
            | inr hx => exact List.mem_singleton.mp hx ▸ Relation.ReflTransGen.refl

/-! ## A whole search -/

section
variable {fuel : Nat} {a : α} {s : Search α} (h : visit next fuel a ⟨[], []⟩ = .ok s)
include h

theorem left_of_visit : Left next ⟨[], []⟩ s s.order ∧ a ∈ s.order ∧ ∀ x ∈ s.order, Reach next a x := by
  obtain ⟨new, hleft, ha, hreach⟩ := visit_left fuel a _ s h
  have hnew : s.order = new := hleft.order
  rw [hnew]
  refine ⟨hleft, ?_, hreach⟩
  cases (hleft.visited a).mp ha with
  | inl hv => cases hv
  | inr hnew => exact hnew

theorem nodup_order : s.order.Nodup := (left_of_visit h).1.nodup

theorem mem_order_iff (x : α) : x ∈ s.order ↔ Reach next a x := by
  obtain ⟨hleft, ha, hreach⟩ := left_of_visit h
  refine ⟨hreach x, fun hx => ?_⟩
  induction hx with
  | refl => exact ha
  | tail _ hyz ih =>
    cases hleft.closed _ ih _ hyz with
    | inl hv => cases hv
    | inr hmem => exact hmem

theorem getLast?_order : s.order.getLast? = some a := by
  cases fuel with
  | zero => cases h
  | succ fuel =>
    rw [visit, if_neg List.not_mem_nil] at h
    split at h
    · cases h
    · split at h
      · cases h
      · cases h
        exact List.getLast?_concat

/-- What a node reaches by nodes that do not lead back to it is left before it. -/
theorem before_of_away {p q : α} (hp : p ∈ s.order) (hq : Relation.TransGen (Away next p) p q) :
    [q, p].Sublist s.order := by
  obtain ⟨hleft, -, -⟩ := left_of_visit h
  obtain ⟨l, r, hsplit⟩ := List.append_of_mem hp
  have hmem : ∀ z ∈ l ++ [p], ∀ y, Away next p z y → y ∈ l := by
    intro z hz y hy
    cases hleft.before l p r hsplit z hz y hy.1 with
    | inl hv => cases hv
    | inr hrest =>
      cases hrest with
      | inr hback => exact absurd hback hy.2
      | inl hy' =>
        cases List.mem_append.mp hy' with
        | inl hyl => exact hyl
        | inr hyp => exact absurd (List.mem_singleton.mp hyp ▸ Relation.ReflTransGen.refl) hy.2
  have hql : q ∈ l := by
    induction hq with
    | single hy => exact hmem p (by simp) _ hy
    | tail _ hy ih => exact hmem _ (List.mem_append_left _ ih) _ hy
  rw [hsplit]
  have hboth : [q].Sublist l ∧ [p].Sublist (p :: r) :=
    ⟨List.singleton_sublist.mpr hql, List.singleton_sublist.mpr List.mem_cons_self⟩
  exact hboth.1.append hboth.2

end

/-! ## Fuel -/

/-- How many of the nodes were not entered. -/
def unvisited (nodes visited : List α) : Nat := nodes.countP fun x => x ∉ visited

theorem unvisited_le {nodes visited visited' : List α} (h : ∀ x ∈ visited, x ∈ visited') :
    unvisited nodes visited' ≤ unvisited nodes visited := by
  apply List.countP_mono_left
  intro x _ hx
  simp only [decide_eq_true_eq] at hx ⊢
  exact fun hv => hx (h x hv)

theorem unvisited_lt {nodes visited : List α} {a : α} (ha : a ∈ nodes) (hv : a ∉ visited) :
    unvisited nodes (a :: visited) < unvisited nodes visited := by
  induction nodes with
  | nil => cases ha
  | cons b nodes ih =>
    have hle : unvisited nodes (a :: visited) ≤ unvisited nodes visited :=
      unvisited_le fun x hx => List.mem_cons_of_mem a hx
    unfold unvisited at ih hle ⊢
    rw [List.countP_cons, List.countP_cons]
    by_cases hb : b = a
    · rw [if_neg (by simp [hb]), if_pos (by simp [hb, hv])]
      omega
    · have ih := ih ((List.mem_cons.mp ha).resolve_left fun h => hb h.symm)
      have hsame : b ∉ a :: visited ↔ b ∉ visited := by simp [hb]
      simp only [hsame]
      omega

theorem visit_ne_outOfFuel (nodes : List α) (hnodes : ∀ x ∈ nodes, ∀ y, Edge next x y → y ∈ nodes) :
    ∀ (fuel : Nat) (a : α) (s : Search α), a ∈ nodes → unvisited nodes s.visited < fuel →
      visit next fuel a s ≠ .error .outOfFuel := by
  intro fuel
  induction fuel with
  | zero =>
    intro a s _ hfuel
    omega
  | succ fuel ih =>
    intro a s ha hfuel
    rw [visit]
    split
    · intro h
      cases h
    · next hv =>
      split
      · intro h
        cases h
      · next bs hbs =>
        have hlt := unvisited_lt ha hv
        have heach : ∀ (cs : List α) (s' : Search α), (∀ c ∈ cs, c ∈ nodes) →
            unvisited nodes s'.visited < fuel → visitEach (visit next fuel) cs s' ≠ .error .outOfFuel := by
          intro cs
          induction cs with
          | nil =>
            intro s' _ _ h
            cases h
          | cons c cs ihcs =>
            intro s' hcs hfuel'
            rw [visitEach]
            split
            · next e he =>
              intro h
              cases h
              exact ih c s' (hcs c List.mem_cons_self) hfuel' he
            · next s₁ hs₁ =>
              obtain ⟨new, hleft, -, -⟩ := visit_left fuel c s' s₁ hs₁
              apply ihcs s₁ fun d hd => hcs d (List.mem_cons_of_mem c hd)
              have hle : unvisited nodes s₁.visited ≤ unvisited nodes s'.visited :=
                unvisited_le fun x hx => (hleft.visited x).mpr (Or.inl hx)
              omega
        split
        · next e he =>
          intro h
          cases h
          exact heach bs _ (fun b hb => hnodes a ha b ⟨bs, hbs, hb⟩)
            (Nat.lt_of_lt_of_le hlt (Nat.le_of_lt_succ hfuel)) he
        · intro h
          cases h

end

end DepthFirst
