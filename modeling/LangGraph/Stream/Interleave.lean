import LangGraph.Stream.Tee
import Mathlib.Data.List.Perm.Subperm

/- Several projections of a run in the order of arrival.

   Correspondence (source ↔ Lean):
     `StreamChannel._items`, `_closed`, `_error`      ↔ `Chan`
     the checks on `*names` (run_stream.py)           ↔ `locks`, `interleave`
     the scan of `GraphRunStream.interleave`          ↔ `scan`
     one round of its `while` loop                    ↔ `round`
     the loop after a pump without more               ↔ `settle`, `noMore`
     `StreamMux._next_push_seq`                       ↔ `State.seq`
     `StreamMux.close`, `fail`                        ↔ `Act.finish`
   Between two items the consumer does what it likes: the channels may be pushed to, and
   the run may end. Without a pump the loop does as after one that returns False.
   `interleave_faithful_iff`: when all items come, in the order of their stamps. -/
namespace LangGraph.Interleave

open Tee (Err Kind)

variable {T : Type}

structure Chan (T : Type) where
  items : List (Nat × T)
  closed : Bool
  error : Option Err

/-- An item with its channel and its stamp. -/
structure Stamped (T : Type) where
  stamp : Nat
  name : String
  item : T

inductive At where
  | ready
  | pumping
  | ended (raised : Option Err)
  deriving DecidableEq

/-- The generator and the named channels. `yielded`, `pushed` and `ending` record what
    was yielded, what there was to yield, and how the run ended: with an error or not. -/
structure State (T : Type) where
  names : List String
  chan : String → Chan T
  seq : Nat
  done : List String
  pos : At
  yielded : List (Stamped T)
  pushed : List (Stamped T)
  ending : Option (Option Err)

/- ── The start ─────────────────────────────────────────────────────────────── -/

inductive Projection where
  | channel (isAsync : Option Bool) (subscribed : Bool)
  | other

/-- Every name is a bound sync channel without a subscriber, and locked in turn. -/
def locks (extensions : String → Option Projection) : List String → List String → Bool
  | _, [] => true
  | locked, name :: names =>
    match extensions name with
    | some (.channel (some false) false) => name ∉ locked && locks extensions (name :: locked) names
    | _ => false

/-- What an earlier subscriber has left in the channels. -/
structure Backlog (T : Type) (seq : Nat) where
  items : List (Stamped T)
  sorted : items.Pairwise (·.stamp < ·.stamp)
  le : ∀ x ∈ items, x.stamp ≤ seq

def onChannel (items : List (Stamped T)) (name : String) : List (Nat × T) :=
  (items.filter (·.name = name)).map fun x => (x.stamp, x.item)

/-- None raises: a name is no projection, or one that cannot be locked. -/
def interleave (extensions : String → Option Projection) (names : List String) (seq : Nat)
    (backlog : Backlog T seq) (ending : Option (Option Err)) : Option (State T) :=
  if locks extensions [] names then
    some ⟨names, fun name => ⟨onChannel backlog.items name, ending.isSome, ending.join⟩, seq, [],
      .ready, [], backlog.items.filter (·.name ∈ names), ending⟩
  else none

/- ── The loop ──────────────────────────────────────────────────────────────── -/

namespace State

def items (σ : State T) (name : String) : List (Nat × T) := (σ.chan name).items

/-- The names that are done, and the least stamp at the head of another channel. -/
def scan (σ : State T) : List String → Option (Nat × String) → List String →
    Except Err (List String × Option (Nat × String))
  | done, best, [] => .ok (done, best)
  | done, best, name :: names =>
    if name ∈ done then scan σ done best names
    else
      match σ.items name with
      | [] =>
        if (σ.chan name).closed then
          match (σ.chan name).error with
          | some e => .error e
          | none => scan σ (name :: done) best names
        else scan σ done best names
      | (stamp, _) :: _ =>
        match best with
        | none => scan σ done (some (stamp, name)) names
        | some (least, _) =>
          if stamp < least then scan σ done (some (stamp, name)) names
          else scan σ done best names

def quit (σ : State T) (raised : Option Err) : State T := { σ with pos := .ended raised }

/-- The head of the channel is yielded. -/
def yield (σ : State T) (done : List String) (name : String) : State T :=
  match σ.items name with
  | [] => σ
  | (stamp, item) :: rest =>
    { σ with
      chan := Function.update σ.chan name { σ.chan name with items := rest }
      done := done
      pos := .ready
      yielded := σ.yielded ++ [⟨stamp, name, item⟩] }

def round (σ : State T) : State T :=
  if σ.done.length < σ.names.length then
    match σ.scan σ.done none σ.names with
    | .error e => σ.quit (some (Kind.tee.raises e))
    | .ok (done, some (_, name)) => σ.yield done name
    | .ok (done, none) => { σ with done := done, pos := .pumping }
  else σ.quit none

/-- The channels that are closed and empty are done. -/
def settle (σ : State T) : List String → List String → Except Err (List String)
  | done, [] => .ok done
  | done, name :: names =>
    if name ∉ done ∧ σ.items name = [] then
      if (σ.chan name).closed then
        match (σ.chan name).error with
        | some e => .error e
        | none => settle σ (name :: done) names
      else settle σ done names
    else settle σ done names

def noMore (σ : State T) : State T :=
  match σ.settle σ.done σ.names with
  | .error e => σ.quit (some (Kind.tee.raises e))
  | .ok done =>
    if done.length = σ.done.length then σ.quit none else { σ with done := done }.round

end State

inductive Act (T : Type) where
  | push (name : String) (x : T)
  | other
  | finish (err : Option Err)
  | next
  | pumped (more : Bool)

def isOver (pos : At) : Bool :=
  match pos with
  | .ended _ => true
  | _ => false

/-- A push to a closed channel raises in the transformer that pushes. -/
def advance (σ : State T) : Act T → Option (State T)
  | .push name x =>
    if name ∈ σ.names ∧ (σ.chan name).closed = false then
      some { σ with
        seq := σ.seq + 1
        chan := Function.update σ.chan name
          { σ.chan name with items := σ.items name ++ [(σ.seq + 1, x)] }
        pushed := σ.pushed ++ [⟨σ.seq + 1, name, x⟩] }
    else none
  | .other => some { σ with seq := σ.seq + 1 }
  | .finish err =>
    if σ.ending = none then
      some { σ with
        chan := fun name =>
          if (σ.chan name).closed then σ.chan name
          else { σ.chan name with closed := true, error := err }
        ending := some err }
    else none
  | .next => if σ.pos = .ready then some σ.round else none
  | .pumped more =>
    if σ.pos = .pumping then some (if more then σ.round else σ.noMore) else none

/-- When the generator is over the channels are free, and it takes part no longer. -/
def step (σ : State T) (a : Act T) : Option (State T) :=
  if isOver σ.pos then some σ else advance σ a

/-- The items are yielded in the order they were pushed, all of them before the end,
    which is that of the run. -/
def Faithful (σ : State T) : Prop :=
  σ.yielded <+: σ.pushed ∧
    ∀ raised, σ.pos = .ended raised → σ.yielded = σ.pushed ∧ raised = σ.ending.join

/-- Every named channel is empty. -/
def AllEmpty (σ : State T) : Prop := ∀ name ∈ σ.names, σ.items name = []

/-- Before a round: when the run has failed, the channels are all empty or none is, and
    there is one that raises. -/
def RoundSafe (σ : State T) : Prop :=
  ∀ e, σ.ending = some (some e) → σ.names ≠ [] ∧
    ((∀ name ∈ σ.names, σ.items name ≠ []) ∨ AllEmpty σ ∧ e ≠ .stopIteration)

/-- Before the pump returns without more: the channels are all empty, or the run was
    closed and one that was not done is. -/
def NoMoreSafe (σ : State T) : Prop :=
  (AllEmpty σ ∧ σ.ending ≠ some (some .stopIteration)) ∨
    σ.ending = some none ∧ ∃ name ∈ σ.names, name ∉ σ.done ∧ σ.items name = []

/-- Nothing is lost by the step. -/
def Safe (σ : State T) (a : Act T) : Prop :=
  isOver σ.pos = false →
    match a with
    | .next => RoundSafe σ
    | .pumped true => RoundSafe σ
    | .pumped false => NoMoreSafe σ
    | _ => True

/- ── What the loop keeps ───────────────────────────────────────────────────── -/

/-- The flags of the channels are those of the run. -/
def Flags (ending : Option (Option Err)) (c : Chan T) : Prop :=
  c.closed = ending.isSome ∧ c.error = ending.join

structure Inv (σ : State T) : Prop where
  nodup : σ.names.Nodup
  flags : ∀ name ∈ σ.names, Flags σ.ending (σ.chan name)
  queued : ∃ rest, σ.pushed = σ.yielded ++ rest ∧ (∀ x ∈ rest, x.name ∈ σ.names) ∧
    ∀ name ∈ σ.names, σ.items name = onChannel rest name
  sorted : σ.pushed.Pairwise (·.stamp < ·.stamp)
  le : ∀ x ∈ σ.pushed, x.stamp ≤ σ.seq
  done : σ.done.Nodup ∧ ∀ name ∈ σ.done, name ∈ σ.names ∧ σ.items name = [] ∧
    σ.ending = some none
  pumping : σ.pos = .pumping → σ.names ≠ []

section

variable {σ : State T}

theorem roundSafe_of_open (h : σ.ending = none) : RoundSafe σ :=
  fun _ hf => nomatch h.symm.trans hf

theorem onChannel_eq_nil_iff {items : List (Stamped T)} {name : String} :
    onChannel items name = [] ↔ ∀ x ∈ items, x.name ≠ name := by
  simp [onChannel, List.filter_eq_nil_iff]

theorem scan_error : ∀ {names done : List String} {best : Option (Nat × String)} {e : Err},
    σ.scan done best names = .error e →
      ∃ name ∈ names, name ∉ done ∧ σ.items name = [] ∧ (σ.chan name).error = some e
  | [], _, _, _, h => nomatch h
  | name :: names, done, best, e, h => by
    have hrest : ∀ {done' : List String} {best' : Option (Nat × String)}, done ⊆ done' →
        σ.scan done' best' names = .error e →
          ∃ n ∈ name :: names, n ∉ done ∧ σ.items n = [] ∧ (σ.chan n).error = some e := by
      intro done' best' hsub h'
      obtain ⟨n, hn, hdone, hitems, herr⟩ := scan_error h'
      exact ⟨n, List.mem_cons_of_mem _ hn, fun hf => hdone (hsub hf), hitems, herr⟩
    unfold State.scan at h
    split at h
    · exact hrest (List.Subset.refl _) h
    · rename_i hname
      split at h
      · rename_i hitems
        split at h
        · split at h
          · rename_i e' herr
            cases h
            exact ⟨name, List.mem_cons_self, hname, hitems, herr⟩
          · exact hrest (List.subset_cons_self _ _) h
        · exact hrest (List.Subset.refl _) h
      · split at h
        · exact hrest (List.Subset.refl _) h
        · split at h
          · exact hrest (List.Subset.refl _) h
          · exact hrest (List.Subset.refl _) h

/-- What a scan that does not raise finds: the channels that are done, and the least
    stamp among the heads of the others. -/
structure Found (σ : State T) (done : List String) (best : Option (Nat × String))
    (names : List String) (done' : List String) (best' : Option (Nat × String)) : Prop where
  added : ∀ n ∈ done', n ∈ done ∨ n ∈ names ∧ σ.items n = [] ∧
    (σ.chan n).closed = true ∧ (σ.chan n).error = none
  nodup : done.Nodup → done'.Nodup
  sound : ∀ n ∈ names, n ∉ done → σ.items n = [] → (σ.chan n).closed = true →
    (σ.chan n).error = none
  none_iff : best' = none ↔ best = none ∧ ∀ n ∈ names, n ∉ done → σ.items n = []
  head : ∀ s n, best' = some (s, n) → best = some (s, n) ∨
    n ∈ names ∧ n ∉ done ∧ ∃ x rest, σ.items n = (s, x) :: rest
  least : ∀ s n, best' = some (s, n) → (∀ t m, best = some (t, m) → s ≤ t) ∧
    ∀ m ∈ names, m ∉ done → ∀ t x rest, σ.items m = (t, x) :: rest → s ≤ t

/-- A channel that is passed over adds nothing. -/
theorem Found.skip {name : String} {names done done' : List String}
    {best best' : Option (Nat × String)} (h : Found σ done best names done' best')
    (hname : name ∈ done ∨ σ.items name = [] ∧ (σ.chan name).closed = false) :
    Found σ done best (name :: names) done' best' := by
  have hempty : name ∉ done → σ.items name = [] := fun hd => (hname.resolve_left hd).1
  refine ⟨?_, h.nodup, ?_, ?_, ?_, ?_⟩
  · intro n hn
    exact (h.added n hn).imp_right fun h' => ⟨List.mem_cons_of_mem _ h'.1, h'.2⟩
  · intro n hn hd hitems hclosed
    cases List.mem_cons.mp hn with
    | inl heq =>
      rw [heq] at hd hclosed
      exact absurd ((hname.resolve_left hd).2.symm.trans hclosed) Bool.false_ne_true
    | inr hmem => exact h.sound n hmem hd hitems hclosed
  · rw [h.none_iff]
    apply and_congr_right
    intro _
    refine ⟨fun hall n hn hd => ?_, fun hall n hn => hall n (List.mem_cons_of_mem _ hn)⟩
    cases List.mem_cons.mp hn with
    | inl heq =>
      rw [heq] at hd ⊢
      exact hempty hd
    | inr hmem => exact hall n hmem hd
  · intro s n hs
    exact (h.head s n hs).imp_right fun h' => ⟨List.mem_cons_of_mem _ h'.1, h'.2⟩
  · intro s n hs
    refine ⟨(h.least s n hs).1, ?_⟩
    intro m hm hd t x rest hitems
    cases List.mem_cons.mp hm with
    | inl heq =>
      rw [heq] at hd hitems
      exact (nomatch (hempty hd).symm.trans hitems)
    | inr hmem => exact (h.least s n hs).2 m hmem hd t x rest hitems

/-- The head of a channel is the least so far, or another head is. -/
theorem Found.cons {name : String} {names done done' : List String}
    {best best₁ best' : Option (Nat × String)} {stamp : Nat} {x : T} {rest : List (Nat × T)}
    (h : Found σ done best₁ names done' best') (hname : name ∉ done)
    (hitems : σ.items name = (stamp, x) :: rest)
    (hbest : best₁ = some (stamp, name) ∧ (∀ t m, best = some (t, m) → stamp ≤ t) ∨
      best₁ = best ∧ ∃ t m, best = some (t, m) ∧ t ≤ stamp) :
    Found σ done best (name :: names) done' best' := by
  have hsome : best₁ ≠ none := by
    cases hbest with
    | inl hb =>
      rw [hb.1]
      exact Option.some_ne_none _
    | inr hb =>
      obtain ⟨heq, t, m, hb, _⟩ := hb
      rw [heq, hb]
      exact Option.some_ne_none _
  refine ⟨?_, h.nodup, ?_, ?_, ?_, ?_⟩
  · intro n hn
    exact (h.added n hn).imp_right fun h' => ⟨List.mem_cons_of_mem _ h'.1, h'.2⟩
  · intro n hn hd hi hc
    cases List.mem_cons.mp hn with
    | inl heq =>
      rw [heq, hitems] at hi
      exact (nomatch hi)
    | inr hmem => exact h.sound n hmem hd hi hc
  · apply iff_of_false
    · exact fun hf => hsome (h.none_iff.mp hf).1
    · intro hf
      exact (nomatch hitems.symm.trans (hf.2 name List.mem_cons_self hname))
  · intro s n hs
    cases h.head s n hs with
    | inl hb =>
      cases hbest with
      | inl hnew =>
        rw [hnew.1] at hb
        cases hb
        exact .inr ⟨List.mem_cons_self, hname, x, rest, hitems⟩
      | inr hold => exact .inl (hold.1 ▸ hb)
    | inr h' => exact .inr ⟨List.mem_cons_of_mem _ h'.1, h'.2⟩
  · intro s n hs
    obtain ⟨hle, hleast⟩ := h.least s n hs
    have hboth : s ≤ stamp ∧ ∀ t m, best = some (t, m) → s ≤ t := by
      cases hbest with
      | inl hnew =>
        have hstamp := hle stamp name hnew.1
        exact ⟨hstamp, fun t m hb => Nat.le_trans hstamp (hnew.2 t m hb)⟩
      | inr hold =>
        obtain ⟨heq, t, m, hb, ht⟩ := hold
        rw [heq] at hle
        exact ⟨Nat.le_trans (hle t m hb) ht, hle⟩
    refine ⟨hboth.2, ?_⟩
    intro m hm hd t y rest' hi
    cases List.mem_cons.mp hm with
    | inl heq =>
      rw [heq, hitems] at hi
      cases hi
      exact hboth.1
    | inr hmem => exact hleast m hmem hd t y rest' hi

theorem scan_ok : ∀ {names done done' : List String} {best best' : Option (Nat × String)},
    σ.scan done best names = .ok (done', best') → Found σ done best names done' best'
  | [], done, done', best, best', h => by
    cases h
    exact ⟨fun n hn => .inl hn, id, fun n hn => (List.not_mem_nil hn).elim,
      ⟨fun h => ⟨h, fun n hn => (List.not_mem_nil hn).elim⟩, And.left⟩, fun _ _ h => .inl h,
      fun s n h => ⟨fun t m h' => by cases h.symm.trans h'; exact Nat.le_refl s,
        fun m hm => (List.not_mem_nil hm).elim⟩⟩
  | name :: names, done, done', best, best', h => by
    unfold State.scan at h
    split at h
    · rename_i hname
      exact (scan_ok h).skip (.inl hname)
    · rename_i hname
      split at h
      · rename_i hitems
        split at h
        · rename_i hclosed
          split at h
          · exact (nomatch h)
          · rename_i herr
            -- closed, empty and without an error: the channel is done
            have ih := scan_ok h
            refine ⟨?_, fun hd => ih.nodup (List.nodup_cons.mpr ⟨hname, hd⟩), ?_, ?_, ?_, ?_⟩
            · intro n hn
              cases ih.added n hn with
              | inl hmem =>
                cases List.mem_cons.mp hmem with
                | inl heq => exact .inr ⟨heq ▸ List.mem_cons_self, heq ▸ ⟨hitems, hclosed, herr⟩⟩
                | inr hmem => exact .inl hmem
              | inr h' => exact .inr ⟨List.mem_cons_of_mem _ h'.1, h'.2⟩
            · intro n hn hd hi hc
              by_cases heq : n = name
              · exact heq ▸ herr
              · exact ih.sound n ((List.mem_cons.mp hn).resolve_left heq)
                  (fun hf => (List.mem_cons.mp hf).elim heq hd) hi hc
            · rw [ih.none_iff]
              apply and_congr_right
              intro _
              refine ⟨fun hall n hn hd => ?_, fun hall n hn hd => ?_⟩
              · by_cases heq : n = name
                · exact heq ▸ hitems
                · exact hall n ((List.mem_cons.mp hn).resolve_left heq)
                    (fun hf => (List.mem_cons.mp hf).elim heq hd)
              · exact hall n (List.mem_cons_of_mem _ hn) (fun hf => hd (List.mem_cons_of_mem _ hf))
            · intro s n hs
              refine (ih.head s n hs).imp_right fun h' => ?_
              exact ⟨List.mem_cons_of_mem _ h'.1,
                fun hf => h'.2.1 (List.mem_cons_of_mem _ hf), h'.2.2⟩
            · intro s n hs
              refine ⟨(ih.least s n hs).1, ?_⟩
              intro m hm hd t x rest hi
              by_cases heq : m = name
              · rw [heq, hitems] at hi
                exact (nomatch hi)
              · exact (ih.least s n hs).2 m ((List.mem_cons.mp hm).resolve_left heq)
                  (fun hf => (List.mem_cons.mp hf).elim heq hd) t x rest hi
        · rename_i hclosed
          exact (scan_ok h).skip (.inr ⟨hitems, Bool.eq_false_iff.mpr hclosed⟩)
      · rename_i stamp item rest hitems
        split at h
        · exact (scan_ok h).cons hname hitems (.inl ⟨rfl, fun _ _ hf => nomatch hf⟩)
        · rename_i least m
          split at h
          · rename_i hlt
            refine (scan_ok h).cons hname hitems (.inl ⟨rfl, fun t _ hb => ?_⟩)
            cases hb
            exact Nat.le_of_lt hlt
          · rename_i hge
            exact (scan_ok h).cons hname hitems (.inr ⟨rfl, least, m, rfl, Nat.not_lt.mp hge⟩)

theorem onChannel_cons (y : Stamped T) (rest : List (Stamped T)) (name : String) :
    onChannel (y :: rest) name =
      if y.name = name then (y.stamp, y.item) :: onChannel rest name else onChannel rest name := by
  unfold onChannel
  rw [List.filter_cons]
  by_cases h : y.name = name
  · simp [h]
  · simp [h]

/-- What is queued, when nothing is. -/
theorem allEmpty_iff {rest : List (Stamped T)} (hnames : ∀ x ∈ rest, x.name ∈ σ.names)
    (hitems : ∀ name ∈ σ.names, σ.items name = onChannel rest name) :
    AllEmpty σ ↔ rest = [] := by
  constructor
  · intro h
    cases rest with
    | nil => rfl
    | cons y rest =>
      have hy := hnames y List.mem_cons_self
      have hempty := (hitems y.name hy).symm.trans (h y.name hy)
      exact absurd rfl (onChannel_eq_nil_iff.mp hempty y List.mem_cons_self)
  · intro h name hname
    rw [hitems name hname, h]
    rfl

/-- Faithfulness of a state in which the generator is over. -/
theorem faithful_over_iff (h : Inv σ) (raised : Option Err) :
    Faithful (σ.quit raised) ↔ AllEmpty σ ∧ raised = σ.ending.join := by
  obtain ⟨rest, hpushed, hnames, hitems⟩ := h.queued
  rw [allEmpty_iff hnames hitems]
  unfold Faithful
  show σ.yielded <+: σ.pushed ∧ (∀ r, At.ended raised = .ended r → σ.yielded = σ.pushed ∧
    r = σ.ending.join) ↔ _
  rw [hpushed]
  constructor
  · intro hf
    obtain ⟨hall, hraised⟩ := hf.2 raised rfl
    exact ⟨List.self_eq_append_right.mp hall, hraised⟩
  · intro hf
    refine ⟨List.prefix_append _ _, ?_⟩
    intro r hr
    rw [hf.1, List.append_nil, ← At.ended.inj hr]
    exact ⟨rfl, hf.2⟩

theorem faithful_of_open (h : Inv σ) (hpos : ∀ raised, σ.pos ≠ .ended raised) : Faithful σ := by
  obtain ⟨rest, hpushed, _⟩ := h.queued
  refine ⟨?_, fun raised hf => absurd hf (hpos raised)⟩
  rw [hpushed]
  exact List.prefix_append _ _

/-- The least head is the first of what is queued. -/
theorem first_of_least {rest : List (Stamped T)} {s : Nat} {name : String} {x : T}
    {r : List (Nat × T)} (hsorted : rest.Pairwise (·.stamp < ·.stamp))
    (hnames : ∀ y ∈ rest, y.name ∈ σ.names)
    (hitems : ∀ n ∈ σ.names, σ.items n = onChannel rest n) (hname : name ∈ σ.names)
    (hhead : σ.items name = (s, x) :: r)
    (hleast : ∀ n ∈ σ.names, ∀ t y r, σ.items n = (t, y) :: r → s ≤ t) :
    ∃ rest', rest = ⟨s, name, x⟩ :: rest' := by
  cases rest with
  | nil => exact (nomatch (hitems name hname).symm.trans hhead)
  | cons y rest =>
    have hy := hnames y List.mem_cons_self
    have hle : s ≤ y.stamp := by
      apply hleast y.name hy y.stamp y.item (onChannel rest y.name)
      rw [hitems y.name hy, onChannel_cons, if_pos rfl]
    rw [hitems name hname, onChannel_cons] at hhead
    split at hhead
    · rename_i heq
      cases hhead
      exact ⟨rest, by rw [← heq]⟩
    · -- the head of the channel comes after the first of all
      have hmem : (s, x) ∈ onChannel rest name := by
        rw [hhead]
        exact List.mem_cons_self
      obtain ⟨z, hz, heq⟩ := List.mem_map.mp hmem
      have hlt := List.rel_of_pairwise_cons hsorted (List.mem_filter.mp hz).1
      rw [show z.stamp = s from congrArg Prod.fst heq] at hlt
      omega

/-- What is left when the first of what is queued is yielded. -/
theorem Inv.yield (h : Inv σ) {done : List String} {s : Nat} {name : String} {x : T}
    {r : List (Nat × T)} (hname : name ∈ σ.names) (hhead : σ.items name = (s, x) :: r)
    (hleast : ∀ n ∈ σ.names, ∀ t y r, σ.items n = (t, y) :: r → s ≤ t)
    (hdone : done.Nodup ∧ ∀ n ∈ done, n ∈ σ.names ∧ σ.items n = [] ∧ σ.ending = some none) :
    Inv (σ.yield done name) ∧ (σ.yield done name).pos = .ready := by
  obtain ⟨rest, hpushed, hnames, hitems⟩ := h.queued
  have hsorted : rest.Pairwise (·.stamp < ·.stamp) :=
    (List.pairwise_append.mp (hpushed ▸ h.sorted)).2.1
  obtain ⟨rest', hrest⟩ := first_of_least hsorted hnames hitems hname hhead hleast
  have hy : σ.yield done name = { σ with
      chan := Function.update σ.chan name { σ.chan name with items := r }
      done := done
      pos := .ready
      yielded := σ.yielded ++ [⟨s, name, x⟩] } := by
    unfold State.yield
    rw [hhead]
  have hchan : ∀ n, n ≠ name → (σ.yield done name).chan n = σ.chan n := by
    intro n hn
    rw [hy]
    exact Function.update_of_ne hn _ _
  have hself : (σ.yield done name).chan name = { σ.chan name with items := r } := by
    rw [hy]
    exact Function.update_self _ _ _
  have hr : r = onChannel rest' name := by
    have hcons := hitems name hname
    rw [hhead, hrest, onChannel_cons, if_pos rfl] at hcons
    exact (List.cons.inj hcons).2
  refine ⟨⟨?_, ?_, ⟨rest', ?_, ?_, ?_⟩, ?_, ?_, ⟨?_, ?_⟩, ?_⟩, by rw [hy]⟩
  · rw [hy]
    exact h.nodup
  · intro n hn
    have hn' : n ∈ σ.names := by
      rw [hy] at hn
      exact hn
    have hf := h.flags n hn'
    have hend : (σ.yield done name).ending = σ.ending := by rw [hy]
    rw [hend]
    by_cases heq : n = name
    · rw [heq, hself]
      exact heq ▸ hf
    · rw [hchan n heq]
      exact hf
  · rw [hy]
    show σ.pushed = (σ.yielded ++ [⟨s, name, x⟩]) ++ rest'
    rw [hpushed, hrest, List.append_assoc, List.singleton_append]
  · rw [hy]
    exact fun y hmem => hnames y (hrest ▸ List.mem_cons_of_mem _ hmem)
  · intro n hn
    have hn' : n ∈ σ.names := by
      rw [hy] at hn
      exact hn
    unfold State.items
    by_cases heq : n = name
    · rw [heq, hself, hr]
    · rw [hchan n heq]
      have hcons := hitems n hn'
      rw [hrest, onChannel_cons, if_neg (fun hf => heq hf.symm)] at hcons
      exact hcons
  · rw [hy]
    exact h.sorted
  · rw [hy]
    exact h.le
  · rw [hy]
    exact hdone.1
  · intro n hn
    have hn' : n ∈ done := by
      rw [hy] at hn
      exact hn
    obtain ⟨hmem, hempty, hend⟩ := hdone.2 n hn'
    have hne : n ≠ name := by
      intro heq
      rw [heq, hhead] at hempty
      exact (nomatch hempty)
    refine ⟨by rw [hy]; exact hmem, ?_, by rw [hy]; exact hend⟩
    unfold State.items
    rw [hchan n hne]
    exact hempty
  · rw [hy]
    exact fun hf => nomatch hf

/-- The names that are done after a scan. -/
theorem Found.done {done' : List String} {best' : Option (Nat × String)} (h : Inv σ)
    (hf : Found σ σ.done none σ.names done' best') :
    done'.Nodup ∧ ∀ n ∈ done', n ∈ σ.names ∧ σ.items n = [] ∧ σ.ending = some none := by
  refine ⟨hf.nodup h.done.1, ?_⟩
  intro n hn
  cases hf.added n hn with
  | inl hmem => exact h.done.2 n hmem
  | inr hnew =>
    obtain ⟨hname, hitems, hclosed, herror⟩ := hnew
    obtain ⟨hc, he⟩ := h.flags n hname
    refine ⟨hname, hitems, ?_⟩
    rw [hclosed] at hc
    rw [herror] at he
    cases hend : σ.ending with
    | none =>
      rw [hend] at hc
      exact (nomatch hc)
    | some err =>
      rw [hend] at he
      exact congrArg some he.symm

/-- A channel raises when the run has failed, with its error. -/
theorem ending_of_error (h : Inv σ) {name : String} (hname : name ∈ σ.names) {e : Err}
    (herror : (σ.chan name).error = some e) : σ.ending = some (some e) := by
  have he := (h.flags name hname).2
  rw [herror] at he
  cases hend : σ.ending with
  | none =>
    rw [hend] at he
    exact (nomatch he)
  | some err =>
    rw [hend] at he
    exact congrArg some he.symm

theorem done_of_failed (h : Inv σ) {e : Err} (hend : σ.ending = some (some e)) : σ.done = [] := by
  apply List.eq_nil_iff_forall_not_mem.mpr
  intro n hn
  exact (nomatch (h.done.2 n hn).2.2.symm.trans hend)

theorem raises_eq_iff (e : Err) : Kind.tee.raises e = e ↔ e ≠ .stopIteration := by
  cases e with
  | stopIteration => exact iff_of_false (fun h => nomatch h) (fun h => h rfl)
  | exception | baseException | stopAsyncIteration | runtimeError =>
    exact iff_of_true rfl (fun h => nomatch h)

/-- When the generator raises for a channel, everything was yielded exactly if all the
    channels are empty. -/
theorem faithful_raise_iff (h : Inv σ) {e : Err} (hend : σ.ending = some (some e)) :
    Faithful (σ.quit (some (Kind.tee.raises e))) ↔ AllEmpty σ ∧ e ≠ .stopIteration := by
  rw [faithful_over_iff h, hend, ← raises_eq_iff]
  exact and_congr_right fun _ => Option.some_inj

theorem Inv.quit (h : Inv σ) (raised : Option Err) : Inv (σ.quit raised) :=
  ⟨h.nodup, h.flags, h.queued, h.sorted, h.le, h.done, fun hf => nomatch hf⟩

/-- When as many names are done as there are, all channels are empty. -/
theorem allEmpty_of_length (h : Inv σ) (hlen : σ.names.length ≤ σ.done.length) : AllEmpty σ := by
  have hsub : σ.done ⊆ σ.names := fun n hn => (h.done.2 n hn).1
  have hperm := (h.done.1.subperm hsub).perm_of_length_le hlen
  intro n hn
  exact (h.done.2 n (hperm.mem_iff.mpr hn)).2.1

/-- One round keeps what the loop keeps, and loses nothing exactly when it is safe. -/
theorem round_spec (h : Inv σ) : Inv σ.round ∧ (Faithful σ.round ↔ RoundSafe σ) := by
  unfold State.round
  split
  · rename_i hlen
    have hnonempty : σ.names ≠ [] := by
      intro hf
      rw [hf] at hlen
      exact absurd hlen (Nat.not_lt_zero _)
    split
    · rename_i e herr
      obtain ⟨name, hname, _, hitems, hce⟩ := scan_error herr
      have hend := ending_of_error h hname hce
      refine ⟨h.quit _, ?_⟩
      rw [faithful_raise_iff h hend]
      constructor
      · intro hf e' he'
        rw [hend] at he'
        cases he'
        exact ⟨hnonempty, .inr hf⟩
      · intro hf
        exact (hf e hend).2.resolve_left fun hall => hall name hname hitems
    · rename_i done stamp name hok
      have hfound := scan_ok hok
      obtain ⟨hname, hd, x, r, hhead⟩ := (hfound.head stamp name rfl).resolve_left
        (fun hf => nomatch hf)
      have hleast : ∀ n ∈ σ.names, ∀ t y r, σ.items n = (t, y) :: r → stamp ≤ t := by
        intro n hn t y r' hi
        apply (hfound.least stamp name rfl).2 n hn _ t y r' hi
        intro hmem
        exact nomatch (h.done.2 n hmem).2.1.symm.trans hi
      obtain ⟨hinv, hpos⟩ := h.yield hname hhead hleast (hfound.done h)
      refine ⟨hinv, iff_of_true ?_ ?_⟩
      · apply faithful_of_open hinv
        intro raised hf
        exact (nomatch hpos.symm.trans hf)
      · -- when the run has failed, an empty channel would have raised
        intro e hend
        refine ⟨hnonempty, .inl ?_⟩
        intro n hn hi
        obtain ⟨hc, he⟩ := h.flags n hn
        rw [hend] at hc he
        have hnone := hfound.sound n hn (by rw [done_of_failed h hend]; exact List.not_mem_nil)
          hi hc
        exact (nomatch he.symm.trans hnone)
    · rename_i done hok
      have hfound := scan_ok hok
      have hempty := (hfound.none_iff.mp rfl).2
      have hdone := hfound.done h
      have hinv : Inv { σ with done := done, pos := .pumping } :=
        ⟨h.nodup, h.flags, h.queued, h.sorted, h.le, hdone, fun _ => hnonempty⟩
      refine ⟨hinv, iff_of_true ?_ ?_⟩
      · exact faithful_of_open hinv fun raised hf => nomatch hf
      · intro e hend
        obtain ⟨n, hn⟩ := List.exists_mem_of_ne_nil _ hnonempty
        have hd : n ∉ σ.done := by
          rw [done_of_failed h hend]
          exact List.not_mem_nil
        obtain ⟨hc, he⟩ := h.flags n hn
        rw [hend] at hc he
        exact (nomatch he.symm.trans (hfound.sound n hn hd (hempty n hn hd) hc))
  · rename_i hlen
    refine ⟨h.quit none, ?_⟩
    rw [faithful_over_iff h]
    have hall : AllEmpty σ := allEmpty_of_length h (Nat.not_lt.mp hlen)
    rw [and_iff_right hall]
    constructor
    · intro hf e hend
      rw [hend] at hf
      exact (nomatch hf)
    · intro hf
      cases hend : σ.ending with
      | none => rfl
      | some err =>
        cases err with
        | none => rfl
        | some e =>
          -- no name is done when the run has failed, so there are none
          have hzero : σ.names = [] := by
            apply List.eq_nil_of_length_eq_zero
            rw [done_of_failed h hend, List.length_nil] at hlen
            omega
          exact absurd hzero (hf e hend).1

theorem settle_error : ∀ {names done : List String} {e : Err},
    σ.settle done names = .error e →
      ∃ name ∈ names, σ.items name = [] ∧ (σ.chan name).error = some e
  | [], _, _, h => nomatch h
  | name :: names, done, e, h => by
    have hrest : ∀ {done' : List String}, σ.settle done' names = .error e →
        ∃ n ∈ name :: names, σ.items n = [] ∧ (σ.chan n).error = some e := by
      intro done' h'
      obtain ⟨n, hn, hitems, herr⟩ := settle_error h'
      exact ⟨n, List.mem_cons_of_mem _ hn, hitems, herr⟩
    unfold State.settle at h
    split at h
    · rename_i hname
      split at h
      · split at h
        · rename_i e' herr
          cases h
          exact ⟨name, List.mem_cons_self, hname.2, herr⟩
        · exact hrest h
      · exact hrest h
    · exact hrest h

/-- What the loop after the pump finds when it does not raise: the channels that are
    closed and empty. -/
structure Settled (σ : State T) (done names done' : List String) : Prop where
  added : ∀ n ∈ done', n ∈ done ∨ n ∈ names ∧ σ.items n = [] ∧
    (σ.chan n).closed = true ∧ (σ.chan n).error = none
  nodup : done.Nodup → done'.Nodup
  le : done.length ≤ done'.length
  sound : ∀ n ∈ names, n ∉ done → σ.items n = [] → (σ.chan n).closed = true →
    (σ.chan n).error = none ∧ done.length < done'.length

theorem Settled.skip {name : String} {names done done' : List String}
    (h : Settled σ done names done')
    (hname : name ∉ done → σ.items name = [] → (σ.chan name).closed = false) :
    Settled σ done (name :: names) done' := by
  refine ⟨?_, h.nodup, h.le, ?_⟩
  · intro n hn
    exact (h.added n hn).imp_right fun h' => ⟨List.mem_cons_of_mem _ h'.1, h'.2⟩
  · intro n hn hd hi hc
    cases List.mem_cons.mp hn with
    | inl heq =>
      rw [heq] at hd hi hc
      exact absurd ((hname hd hi).symm.trans hc) Bool.false_ne_true
    | inr hmem => exact h.sound n hmem hd hi hc

theorem settle_ok : ∀ {names done done' : List String},
    σ.settle done names = .ok done' → Settled σ done names done'
  | [], done, done', h => by
    cases h
    exact ⟨fun n hn => .inl hn, id, Nat.le_refl _, fun n hn => (List.not_mem_nil hn).elim⟩
  | name :: names, done, done', h => by
    unfold State.settle at h
    split at h
    · rename_i hname
      split at h
      · rename_i hclosed
        split at h
        · exact (nomatch h)
        · rename_i herr
          have ih := settle_ok h
          have hle := ih.le
          rw [List.length_cons] at hle
          refine ⟨?_, fun hd => ih.nodup (List.nodup_cons.mpr ⟨hname.1, hd⟩), by omega, ?_⟩
          · intro n hn
            cases ih.added n hn with
            | inl hmem =>
              cases List.mem_cons.mp hmem with
              | inl heq => exact .inr ⟨heq ▸ List.mem_cons_self, heq ▸ ⟨hname.2, hclosed, herr⟩⟩
              | inr hmem => exact .inl hmem
            | inr h' => exact .inr ⟨List.mem_cons_of_mem _ h'.1, h'.2⟩
          · intro n hn hd hi hc
            refine ⟨?_, by omega⟩
            by_cases heq : n = name
            · exact heq ▸ herr
            · exact (ih.sound n ((List.mem_cons.mp hn).resolve_left heq)
                (fun hf => (List.mem_cons.mp hf).elim heq hd) hi hc).1
      · rename_i hclosed
        exact (settle_ok h).skip fun _ _ => Bool.eq_false_iff.mpr hclosed
    · rename_i hname
      exact (settle_ok h).skip fun hd hi => absurd ⟨hd, hi⟩ hname

/-- Nothing new is done unless the run was closed. -/
theorem Settled.same {done' : List String} (h : Inv σ)
    (hs : Settled σ σ.done σ.names done') (hend : σ.ending ≠ some none) :
    done'.length = σ.done.length := by
  have hsub : done' ⊆ σ.done := by
    intro n hn
    refine (hs.added n hn).resolve_right fun hnew => hend ?_
    obtain ⟨hname, _, hclosed, herror⟩ := hnew
    obtain ⟨hc, he⟩ := h.flags n hname
    rw [hclosed] at hc
    rw [herror] at he
    cases hcase : σ.ending with
    | none =>
      rw [hcase] at hc
      exact (nomatch hc)
    | some err =>
      rw [hcase] at he
      exact congrArg some he.symm
  have hle := ((hs.nodup h.done.1).subperm hsub).length_le
  have hge := hs.le
  omega

/-- The pump has no more: what the loop keeps, and when nothing is lost. -/
theorem noMore_spec (h : Inv σ) (hpos : σ.pos = .pumping) :
    Inv σ.noMore ∧ (Faithful σ.noMore ↔ NoMoreSafe σ) := by
  have hnonempty := h.pumping hpos
  unfold State.noMore
  split
  · rename_i e herr
    obtain ⟨name, hname, hitems, hce⟩ := settle_error herr
    have hend := ending_of_error h hname hce
    refine ⟨h.quit _, ?_⟩
    rw [faithful_raise_iff h hend]
    unfold NoMoreSafe
    rw [hend]
    constructor
    · exact fun hf => .inl ⟨hf.1, fun heq => hf.2 (Option.some_inj.mp (Option.some_inj.mp heq))⟩
    · intro hf
      cases hf with
      | inl hf => exact ⟨hf.1, fun heq => hf.2 (congrArg (some ∘ some) heq)⟩
      | inr hf => exact (nomatch hf.1)
  · rename_i done hok
    have hs := settle_ok hok
    split
    · rename_i hlen
      -- no channel is done that was not: the loop breaks
      refine ⟨h.quit none, ?_⟩
      rw [faithful_over_iff h]
      unfold NoMoreSafe
      have hnew : ¬ (σ.ending = some none ∧ ∃ name ∈ σ.names, name ∉ σ.done ∧ σ.items name = []) := by
        intro hf
        obtain ⟨hend, name, hname, hd, hi⟩ := hf
        have hc := (h.flags name hname).1
        rw [hend] at hc
        have hlt := (hs.sound name hname hd hi hc).2
        omega
      rw [or_iff_left hnew]
      apply and_congr_right
      intro hall
      cases hend : σ.ending with
      | none => exact iff_of_true rfl (fun hf => nomatch hf)
      | some err =>
        cases err with
        | none => exact iff_of_true rfl (fun hf => nomatch hf)
        | some e =>
          -- an empty channel would have raised
          obtain ⟨n, hn⟩ := List.exists_mem_of_ne_nil _ hnonempty
          obtain ⟨hc, he⟩ := h.flags n hn
          rw [hend] at hc he
          have hd : n ∉ σ.done := by
            rw [done_of_failed h hend]
            exact List.not_mem_nil
          exact (nomatch he.symm.trans (hs.sound n hn hd (hall n hn) hc).1)
    · rename_i hlen
      have hend : σ.ending = some none := by
        apply Decidable.byContradiction
        exact fun hne => hlen (hs.same h hne)
      obtain ⟨n, hn, hnd⟩ : ∃ n ∈ done, n ∉ σ.done := by
        apply Decidable.byContradiction
        intro hno
        have hsub : done ⊆ σ.done := fun n hn => Decidable.byContradiction fun hnd => hno ⟨n, hn, hnd⟩
        have hle := ((hs.nodup h.done.1).subperm hsub).length_le
        have hge := hs.le
        omega
      have hdone : done.Nodup ∧ ∀ m ∈ done, m ∈ σ.names ∧ σ.items m = [] ∧
          σ.ending = some none := by
        refine ⟨hs.nodup h.done.1, ?_⟩
        intro m hm
        cases hs.added m hm with
        | inl hmem => exact h.done.2 m hmem
        | inr hnew => exact ⟨hnew.1, hnew.2.1, hend⟩
      have hinv : Inv { σ with done := done } :=
        ⟨h.nodup, h.flags, h.queued, h.sorted, h.le, hdone, h.pumping⟩
      obtain ⟨hround, hfaithful⟩ := round_spec hinv
      refine ⟨hround, ?_⟩
      rw [hfaithful]
      apply iff_of_true
      · intro e he
        exact (nomatch hend.symm.trans he)
      · exact .inr ⟨hend, n, (hdone.2 n hn).1, hnd, (hdone.2 n hn).2.1⟩

theorem onChannel_append (x y : List (Stamped T)) (name : String) :
    onChannel (x ++ y) name = onChannel x name ++ onChannel y name := by
  rw [onChannel, List.filter_append, List.map_append]
  rfl

theorem Inv.push (h : Inv σ) {name : String} (hname : name ∈ σ.names) {x : T}
    (hopen : (σ.chan name).closed = false) :
    Inv { σ with
      seq := σ.seq + 1
      chan := Function.update σ.chan name
        { σ.chan name with items := σ.items name ++ [(σ.seq + 1, x)] }
      pushed := σ.pushed ++ [⟨σ.seq + 1, name, x⟩] } := by
  obtain ⟨rest, hpushed, hnames, hitems⟩ := h.queued
  have hne : ∀ n ∈ σ.done, n ≠ name := by
    intro n hn heq
    obtain ⟨hmem, _, hend⟩ := h.done.2 n hn
    have hc := (h.flags n hmem).1
    rw [hend, heq, hopen] at hc
    exact (nomatch hc)
  refine ⟨h.nodup, ?_, ⟨rest ++ [⟨σ.seq + 1, name, x⟩], ?_, ?_, ?_⟩, ?_, ?_, ⟨h.done.1, ?_⟩, h.pumping⟩
  · intro n hn
    show Flags σ.ending (Function.update σ.chan name _ n)
    by_cases heq : n = name
    · rw [heq, Function.update_self]
      exact h.flags name hname
    · rw [Function.update_of_ne heq]
      exact h.flags n hn
  · show σ.pushed ++ _ = _
    rw [hpushed, List.append_assoc]
  · intro y hy
    cases List.mem_append.mp hy with
    | inl hmem => exact hnames y hmem
    | inr hmem =>
      rw [List.mem_singleton.mp hmem]
      exact hname
  · intro n hn
    show (Function.update σ.chan name _ n).items = _
    rw [onChannel_append, onChannel_cons]
    by_cases heq : n = name
    · rw [heq, Function.update_self, if_pos rfl, ← hitems name hname]
      rfl
    · rw [Function.update_of_ne heq, if_neg (fun hf => heq hf.symm)]
      show σ.items n = onChannel rest n ++ []
      rw [hitems n hn, List.append_nil]
  · apply List.pairwise_append.mpr
    refine ⟨h.sorted, List.pairwise_singleton _ _, ?_⟩
    intro y hy z hz
    rw [List.mem_singleton.mp hz]
    exact Nat.lt_succ_of_le (h.le y hy)
  · intro y hy
    cases List.mem_append.mp hy with
    | inl hmem => exact Nat.le_succ_of_le (h.le y hmem)
    | inr hmem =>
      have hstamp : y.stamp = σ.seq + 1 := congrArg Stamped.stamp (List.mem_singleton.mp hmem)
      exact Nat.le_of_eq hstamp
  · intro n hn
    obtain ⟨hmem, hi, hend⟩ := h.done.2 n hn
    refine ⟨hmem, ?_, hend⟩
    show (Function.update σ.chan name _ n).items = []
    rw [Function.update_of_ne (hne n hn)]
    exact hi

theorem Inv.finish (h : Inv σ) (hend : σ.ending = none) (err : Option Err) :
    Inv { σ with
      chan := fun name =>
        if (σ.chan name).closed then σ.chan name
        else { σ.chan name with closed := true, error := err }
      ending := some err } := by
  have hitems : ∀ name, (if (σ.chan name).closed then σ.chan name
      else { σ.chan name with closed := true, error := err }).items = σ.items name := by
    intro name
    split
    · rfl
    · rfl
  obtain ⟨rest, hpushed, hnames, hrest⟩ := h.queued
  refine ⟨h.nodup, ?_, ⟨rest, hpushed, hnames, ?_⟩, h.sorted, h.le, ⟨h.done.1, ?_⟩, h.pumping⟩
  · intro name hname
    have hc := (h.flags name hname).1
    rw [hend] at hc
    show Flags (some err) (if (σ.chan name).closed then _ else _)
    rw [hc]
    exact ⟨rfl, rfl⟩
  · exact fun name hname => (hitems name).trans (hrest name hname)
  · intro n hn
    exact (nomatch hend.symm.trans (h.done.2 n hn).2.2)

/-- A step keeps what the loop keeps, and loses nothing exactly when it is safe. -/
theorem step_spec (h : Inv σ) (hfaithful : Faithful σ) {a : Act T} {σ' : State T}
    (hstep : step σ a = some σ') : Inv σ' ∧ (Faithful σ' ↔ Safe σ a) := by
  unfold step at hstep
  split at hstep
  · rename_i hover
    rw [← Option.some_inj.mp hstep]
    exact ⟨h, iff_of_true hfaithful fun hf => absurd (hf.symm.trans hover) Bool.false_ne_true⟩
  · rename_i hover
    have hopen : isOver σ.pos = false := Bool.eq_false_iff.mpr hover
    have hpos : ∀ raised, σ.pos ≠ .ended raised := by
      intro raised hf
      rw [hf] at hopen
      exact (nomatch hopen)
    unfold Safe
    rw [forall_prop_of_true hopen]
    unfold advance at hstep
    cases a with
    | push name x =>
      simp only at hstep
      split at hstep
      · rename_i hcan
        rw [← Option.some_inj.mp hstep]
        have hinv := h.push (x := x) hcan.1 hcan.2
        exact ⟨hinv, iff_of_true (faithful_of_open hinv hpos) trivial⟩
      · exact (nomatch hstep)
    | other =>
      rw [← Option.some_inj.mp hstep]
      have hinv : Inv { σ with seq := σ.seq + 1 } :=
        ⟨h.nodup, h.flags, h.queued, h.sorted, fun y hy => Nat.le_succ_of_le (h.le y hy),
          h.done, h.pumping⟩
      exact ⟨hinv, iff_of_true (faithful_of_open hinv hpos) trivial⟩
    | finish err =>
      simp only at hstep
      split at hstep
      · rename_i hend
        rw [← Option.some_inj.mp hstep]
        have hinv := h.finish hend err
        exact ⟨hinv, iff_of_true (faithful_of_open hinv hpos) trivial⟩
      · exact (nomatch hstep)
    | next =>
      simp only at hstep
      split at hstep
      · rw [← Option.some_inj.mp hstep]
        exact round_spec h
      · exact (nomatch hstep)
    | pumped more =>
      simp only at hstep
      split at hstep
      · rename_i hpump
        rw [← Option.some_inj.mp hstep]
        cases more with
        | true => exact round_spec h
        | false => exact noMore_spec h hpump
      · exact (nomatch hstep)

end

/- ── Runs ──────────────────────────────────────────────────────────────────── -/

section

variable {extensions : String → Option Projection} {names : List String} {seq : Nat}
  {backlog : Backlog T seq} {ending : Option (Option Err)}

theorem nodup_of_locks : ∀ {locked names : List String}, locks extensions locked names = true →
    names.Nodup ∧ ∀ n ∈ names, n ∉ locked
  | _, [], _ => ⟨List.nodup_nil, fun n hn => (List.not_mem_nil hn).elim⟩
  | locked, name :: names, h => by
    unfold locks at h
    split at h
    · rw [Bool.and_eq_true, decide_eq_true_eq] at h
      obtain ⟨hnodup, hfree⟩ := nodup_of_locks h.2
      refine ⟨List.nodup_cons.mpr ⟨fun hf => hfree name hf List.mem_cons_self, hnodup⟩, ?_⟩
      intro n hn
      cases List.mem_cons.mp hn with
      | inl heq => exact heq ▸ h.1
      | inr hmem => exact fun hf => hfree n hmem (List.mem_cons_of_mem _ hf)
    · exact (nomatch h)

theorem inv_interleave {σ : State T}
    (h : interleave extensions names seq backlog ending = some σ) : Inv σ ∧ Faithful σ := by
  unfold interleave at h
  split at h
  · rename_i hlocks
    rw [← Option.some_inj.mp h]
    have hinv : Inv ⟨names, fun name => ⟨onChannel backlog.items name, ending.isSome, ending.join⟩,
        seq, [], .ready, [], backlog.items.filter (·.name ∈ names), ending⟩ := by
      refine ⟨(nodup_of_locks hlocks).1, fun _ _ => ⟨rfl, rfl⟩, ⟨_, rfl, ?_, ?_⟩,
        backlog.sorted.filter _, ?_, ⟨List.nodup_nil, fun n hn => (List.not_mem_nil hn).elim⟩,
        fun hf => nomatch hf⟩
      · exact fun x hx => of_decide_eq_true (List.mem_filter.mp hx).2
      · intro name hname
        show onChannel backlog.items name = _
        rw [onChannel, onChannel, List.filter_filter]
        congr 1
        apply List.filter_congr
        intro x _
        by_cases hx : x.name = name
        · simp [hx, hname]
        · simp [hx]
      · exact fun x hx => backlog.le x (List.mem_filter.mp hx).1
    exact ⟨hinv, faithful_of_open hinv fun raised hf => nomatch hf⟩
  · exact (nomatch h)

/-- In every run whose steps are safe every item comes, in the order of the stamps,
    before the end of the run does; a step that is not safe loses something. -/
theorem interleave_faithful_iff {σ₀ : State T}
    (h : interleave extensions names seq backlog ending = some σ₀) (σ : State T)
    (hreach : Machine.Reachable step Safe σ₀ σ) :
    Faithful σ ∧ σ.pushed.Pairwise (·.stamp < ·.stamp) ∧
      ∀ a σ', step σ a = some σ' → (Faithful σ' ↔ Safe σ a) := by
  have hboth : Inv σ ∧ Faithful σ := by
    apply hreach.invariant (P := fun σ => Inv σ ∧ Faithful σ) (inv_interleave h)
    intro σ a σ' hσ hsafe hstep
    obtain ⟨hinv, hiff⟩ := step_spec hσ.1 hσ.2 hstep
    exact ⟨hinv, hiff.mpr hsafe⟩
  exact ⟨hboth.2, hboth.1.sorted, fun a σ' hstep => (step_spec hboth.1 hboth.2 hstep).2⟩

end

/-- Two channels of a mux, and nothing left in them. -/
def twoChannels : String → Option Projection :=
  fun _ => some (.channel (some false) false)

def noBacklog : Backlog Nat 0 := ⟨[], List.Pairwise.nil, fun _ hx => (List.not_mem_nil hx).elim⟩

def unread (names : List String) : State Nat :=
  ⟨names, fun _ => ⟨[], false, none⟩, 0, [], .ready, [], [], none⟩

/-- An item comes, and then the run is closed. -/
theorem interleave_faithful_iff_closed :
    ∃ σ, Machine.Reachable step Safe (unread ["values", "lifecycle"]) σ ∧
      σ.pos = .ended none ∧ Faithful σ := by
  have hrun : (Machine.run step (unread ["values", "lifecycle"])
      [.push "lifecycle" 7, .next, .next, .finish none, .pumped false]).map (·.pos) =
      some (.ended none) := rfl
  have hok : Machine.Meets step Safe (unread ["values", "lifecycle"])
      [.push "lifecycle" 7, .next, .next, .finish none, .pumped false] := by
    apply Machine.Meets.cons (fun _ => trivial) rfl
    apply Machine.Meets.cons (fun _ => roundSafe_of_open rfl) rfl
    apply Machine.Meets.cons (fun _ => roundSafe_of_open rfl) rfl
    apply Machine.Meets.cons (fun _ => trivial) rfl
    refine Machine.Meets.cons (fun _ => .inr ?_) rfl trivial
    exact ⟨rfl, "values", List.mem_cons_self, List.not_mem_nil, rfl⟩
  obtain ⟨σ, hreach, hpos⟩ := Machine.exists_of_run hok hrun
  have hstart : interleave twoChannels ["values", "lifecycle"] 0 noBacklog none =
      some (unread ["values", "lifecycle"]) := rfl
  exact ⟨σ, hreach, hpos, (interleave_faithful_iff hstart σ hreach).1⟩

/-- The last status comes while the run is closed, and is lost. -/
theorem not_interleave_faithful :
    ¬ ∀ (σ₀ σ : State Nat), interleave twoChannels ["lifecycle"] 0 noBacklog none = some σ₀ →
      Machine.Reachable step (fun _ _ => True) σ₀ σ → Faithful σ := by
  intro h
  have hrun : (Machine.run step (unread ["lifecycle"])
      [.next, .push "lifecycle" 7, .finish none, .pumped false]).map
        (fun σ => (σ.pos, σ.yielded.length, σ.pushed.length)) =
      some (.ended none, 0, 1) := rfl
  obtain ⟨σ, hreach, hpos⟩ :=
    Machine.exists_of_run (Machine.Meets.of_forall (fun _ _ => trivial) _ _) hrun
  have hall := ((h _ σ rfl hreach).2 none (congrArg Prod.fst hpos)).1
  have hlen := congrArg (fun p => p.2) hpos
  rw [hall] at hlen
  simp only [Prod.mk.injEq] at hlen
  omega

end LangGraph.Interleave
