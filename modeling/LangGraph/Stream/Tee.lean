import LangGraph.Lib.Machine
import Mathlib.Logic.Function.Basic

/- The branches of a stream channel.

   Correspondence (source ↔ Lean):
     `StreamChannel` (stream/stream_channel.py)   ↔ `StreamChannel`
     `push`; `close`, `fail`, the pump's end      ↔ `Act.push`; `Act.finish`
     `tee(n)`, `atee(n)`                          ↔ `subscribe .tee n`, `subscribe .atee n`
     `__next__`, `__anext__` of a branch          ↔ `Act.advance`, its body `advance`
     `next(source)`, `source.__anext__()`         ↔ `pull`
     waiting for the `asyncio.Lock`, taking it    ↔ `Act.queue`, `Act.acquire`
     the return of the pump                       ↔ `Act.pumped`
   A branch that waits for the pump holds the lock of `atee`; in `tee` it runs in the
   one thread that the others need. Without a pump the cursor does as after a pump
   that has returned False. `branches_alike_iff`: when the branches end alike. -/
namespace LangGraph.Tee

variable {T : Type}

/- ── Errors ────────────────────────────────────────────────────────────────── -/

/-- Errors as far as the two generators tell them apart. -/
inductive Err where
  | exception (name : String)
  | baseException (name : String)
  | stopIteration
  | stopAsyncIteration
  | runtimeError (cause : Err)
  deriving DecidableEq

inductive Kind where
  | tee
  | atee
  deriving DecidableEq

/-- What the source raises for the error of the channel: a generator may not raise
    the exception that ends it. -/
def Kind.raises : Kind → Err → Err
  | _, .stopIteration => .runtimeError .stopIteration
  | .atee, .stopAsyncIteration => .runtimeError .stopAsyncIteration
  | _, e => e

/-- `except Exception`, which `atee` has and `tee` does not: the error is kept for
    every branch. -/
def Kind.stores : Kind → Err → Bool
  | .tee, _ => false
  | .atee, .baseException _ => false
  | .atee, _ => true

/- ── Channels and branches ─────────────────────────────────────────────────── -/

/-- How the items end. -/
inductive Ending where
  | closed
  | failed (e : Err)
  | exhausted
  deriving DecidableEq

/-- What a branch raises at its end, if anything. -/
def Ending.outcome : Ending → Option Err
  | .failed e => some e
  | _ => none

structure StreamChannel (T : Type) where
  items : List T
  closed : Bool
  error : Option Err
  isAsync : Option Bool
  subscribed : Bool
  closed_of_error : error ≠ none → closed = true

inductive At where
  | idle
  | waiting
  | pumping
  | ended (raised : Option Err)
  deriving DecidableEq

/-- A branch, its buffer, and what it has yielded. -/
structure Branch (T : Type) where
  buf : List T
  yielded : List T
  pos : At

/-- The channel with its branches. `pushed` and `ending` record what was done to the
    channel since it was subscribed. -/
structure State (T : Type) where
  items : List T
  closed : Bool
  error : Option Err
  finished : Bool
  exhausted : Bool
  stored : Option Err
  lock : Option Nat
  branch : Nat → Branch T
  pushed : List T
  ending : Option Ending

/-- None raises: too few branches, a channel of the other mode, or one that already
    has a subscriber. -/
def subscribe (kind : Kind) (n : Nat) (ch : StreamChannel T) : Option (State T) :=
  if n < 1 then none
  else if ch.isAsync ≠ some (decide (kind = .atee)) then none
  else if ch.subscribed then none
  else some ⟨ch.items, ch.closed, ch.error, false, false, none, none,
    fun _ => ⟨[], [], .idle⟩, ch.items,
    if ch.closed then some (match ch.error with
      | some e => .failed e
      | none => .closed) else none⟩

namespace State

def update (σ : State T) (i : Nat) (b : Branch T) : State T :=
  { σ with branch := Function.update σ.branch i b }

/-- The first item of the buffer is yielded. -/
def emit (σ : State T) (i : Nat) : State T :=
  match (σ.branch i).buf with
  | [] => σ
  | x :: xs => σ.update i ⟨xs, (σ.branch i).yielded ++ [x], .idle⟩

/-- The branch is over. -/
def quit (σ : State T) (i : Nat) (raised : Option Err) : State T :=
  σ.update i { σ.branch i with pos := .ended raised }

/-- An item of the source goes to every branch. -/
def distribute (σ : State T) (x : T) (xs : List T) : State T :=
  { σ with items := xs, branch := fun j => { σ.branch j with buf := (σ.branch j).buf ++ [x] } }

/-- The source has ended without raising. -/
def drained (σ : State T) (i : Nat) : State T :=
  { σ with finished := true, exhausted := true }.quit i σ.stored

/-- The source has raised in a branch. -/
def failed (kind : Kind) (σ : State T) (i : Nat) (e : Err) : State T :=
  let e := kind.raises e
  if kind.stores e then
    { σ with finished := true, exhausted := true, stored := some e }.quit i (some e)
  else { σ with finished := true }.quit i (some e)

/-- The source calls the pump for a branch. -/
def request (σ : State T) (i : Nat) : State T :=
  { σ with lock := some i }.update i { σ.branch i with pos := .pumping }

/-- The source is asked by a branch whose buffer is empty. -/
def pull (kind : Kind) (σ : State T) (i : Nat) : State T :=
  if σ.finished then σ.drained i
  else
    match σ.items with
    | x :: xs => (σ.distribute x xs).emit i
    | [] =>
      if σ.closed then
        match σ.error with
        | none => σ.drained i
        | some e => σ.failed kind i e
      else σ.request i

def advance (kind : Kind) (σ : State T) (i : Nat) : State T :=
  match (σ.branch i).buf with
  | _ :: _ => σ.emit i
  | [] =>
    if σ.exhausted then σ.quit i σ.stored
    else if σ.lock ≠ none then σ.update i { σ.branch i with pos := .waiting }
    else σ.pull kind i

end State

inductive Act (T : Type) where
  | push (x : T)
  | finish (ending : Ending)
  | advance (i : Nat)
  | queue (i : Nat)
  | acquire (i : Nat)
  | pumped (more : Bool)

/-- Nothing is pushed to a channel that has ended, and the pump says that there is no
    more only then. A branch that is over stays so. -/
def step (kind : Kind) (n : Nat) (σ : State T) : Act T → Option (State T)
  | .push x =>
    if σ.ending = none then some { σ with items := σ.items ++ [x], pushed := σ.pushed ++ [x] }
    else none
  | .finish ending =>
    if σ.ending = none then
      match ending with
      | .closed => some { σ with closed := true, ending := some ending }
      | .failed e => some { σ with closed := true, error := some e, ending := some ending }
      | .exhausted => some { σ with ending := some ending }
    else none
  | .advance i =>
    if i < n ∧ (σ.branch i).pos = .idle ∧ (kind = .tee → σ.lock = none) then
      some (σ.advance kind i)
    else none
  | .queue i =>
    -- the lock is handed to those that wait for it first
    if i < n ∧ (σ.branch i).pos = .idle ∧ kind = .atee ∧ (σ.branch i).buf = [] ∧
        σ.exhausted = false then
      some (σ.update i { σ.branch i with pos := .waiting })
    else none
  | .acquire i =>
    if i < n ∧ (σ.branch i).pos = .waiting ∧ σ.lock = none then some (σ.advance kind i)
    else none
  | .pumped more =>
    match σ.lock with
    | none => none
    | some i =>
      if more = false ∧ σ.ending = none then none
      else if more = false ∧ σ.items = [] ∧ σ.closed = false then
        some ({ σ with lock := none }.drained i)
      else some ({ σ with lock := none }.pull kind i)

/-- The states of `n` branches of the channel, in any order of advances. -/
def Reachable (kind : Kind) (n : Nat) (ch : StreamChannel T) (σ : State T) : Prop :=
  ∃ σ₀, subscribe kind n ch = some σ₀ ∧
    Machine.Reachable (step kind n) (fun _ _ => True) σ₀ σ

/-- A branch has yielded the first of the items, and when it is over all of them, and
    it has raised what the channel failed with. -/
def Alike (n : Nat) (σ : State T) : Prop :=
  ∀ i < n, (σ.branch i).yielded <+: σ.pushed ∧
    ∀ raised, (σ.branch i).pos = .ended raised →
      (σ.branch i).yielded = σ.pushed ∧
        ∃ ending, σ.ending = some ending ∧ raised = ending.outcome

/-- Once the channel is closed, or has failed, a branch that is advanced while none is in
    the pump yields a further item or is over: it does not wait. -/
def Answers (kind : Kind) (n : Nat) (σ : State T) : Prop :=
  ∀ i < n, (σ.branch i).pos = .idle → σ.closed = true → σ.lock = none →
    ((σ.advance kind i).branch i).pos = .idle ∧
        (∃ x, ((σ.advance kind i).branch i).yielded = (σ.branch i).yielded ++ [x]) ∨
      ∃ raised, ((σ.advance kind i).branch i).pos = .ended raised

/-- Every branch was advanced to its end. -/
def Complete (n : Nat) (σ : State T) : Prop :=
  ∀ i < n, ∃ raised, (σ.branch i).pos = .ended raised

/-- The channel did not fail, or with an error that a generator can raise and that is
    kept for every branch, or there is one branch only. -/
def EndsAlike (kind : Kind) (n : Nat) (σ : State T) : Prop :=
  ∀ e, σ.ending = some (.failed e) → kind.raises e = e ∧ (n = 1 ∨ kind.stores e = true)

/- ── What a run keeps ──────────────────────────────────────────────────────── -/

/-- The ending and what the channel has of it. -/
def Flags : Option Ending → Bool → Option Err → Prop
  | some .closed, closed, error => closed = true ∧ error = none
  | some (.failed e), closed, error => closed = true ∧ error = some e
  | _, closed, error => closed = false ∧ error = none

/-- How the branches are over that are, once the source has ended. -/
def Results (kind : Kind) (n : Nat) (σ : State T) : Prop :=
  match σ.ending with
  | some (.failed e) =>
    if kind.stores (kind.raises e) then
      σ.exhausted = true ∧ σ.stored = some (kind.raises e) ∧
        ∀ i raised, (σ.branch i).pos = .ended raised → raised = some (kind.raises e)
    else
      -- the branch that asked raises, the others find the source at its end
      σ.stored = none ∧ ∃ i < n, (σ.branch i).pos = .ended (some (kind.raises e)) ∧
        ∀ j, j ≠ i → ∀ raised, (σ.branch j).pos = .ended raised → raised = none
  | _ => σ.stored = none ∧ ∀ i raised, (σ.branch i).pos = .ended raised → raised = none

structure Inv (kind : Kind) (n : Nat) (σ : State T) : Prop where
  split : ∀ i, σ.pushed = (σ.branch i).yielded ++ (σ.branch i).buf ++ σ.items
  flags : Flags σ.ending σ.closed σ.error
  source : σ.finished = true → σ.items = [] ∧ σ.ending ≠ none
  running : σ.finished = false → σ.exhausted = false ∧ σ.stored = none ∧
    ∀ i raised, (σ.branch i).pos ≠ .ended raised
  holder : ∀ i, σ.lock = some i → i < n ∧ (σ.branch i).pos = .pumping ∧
    (σ.branch i).buf = [] ∧ σ.finished = false
  past : ∀ i raised, (σ.branch i).pos = .ended raised → i < n ∧ (σ.branch i).buf = []
  results : σ.finished = true → Results kind n σ

section

variable {kind : Kind} {n : Nat} {σ : State T}

theorem State.update_branch_self (σ : State T) (i : Nat) (b : Branch T) :
    (σ.update i b).branch i = b := by
  simp [State.update]

theorem State.update_branch_of_ne (σ : State T) {i j : Nat} (h : j ≠ i) (b : Branch T) :
    (σ.update i b).branch j = σ.branch j := by
  simp [State.update, Function.update_of_ne h]

theorem State.drained_eq (hfin : σ.finished = true) (hex : σ.exhausted = true) :
    ({ σ with finished := true, exhausted := true } : State T) = σ := by
  cases σ
  cases hfin
  cases hex
  rfl

/-- A branch that is not over, and stays so, is moved or takes from its buffer. -/
theorem Inv.update (h : Inv kind n σ) {i : Nat} {b : Branch T}
    (hpos : ∀ raised, (σ.branch i).pos ≠ .ended raised) (hpos' : ∀ raised, b.pos ≠ .ended raised)
    (hlock : σ.lock ≠ some i)
    (hsplit : b.yielded ++ b.buf = (σ.branch i).yielded ++ (σ.branch i).buf) :
    Inv kind n (σ.update i b) := by
  have hended : ∀ j raised, ((σ.update i b).branch j).pos = .ended raised ↔
      (σ.branch j).pos = .ended raised := by
    intro j raised
    by_cases hj : j = i
    · rw [hj, State.update_branch_self]
      exact iff_of_false (hpos' raised) (hpos raised)
    · rw [State.update_branch_of_ne σ hj]
  refine ⟨?_, h.flags, h.source, ?_, ?_, ?_, ?_⟩
  · intro j
    show σ.pushed = _ ++ σ.items
    by_cases hj : j = i
    · rw [hj, State.update_branch_self, hsplit]
      exact h.split i
    · rw [State.update_branch_of_ne σ hj]
      exact h.split j
  · intro hrun
    obtain ⟨hex, hstored, hnone⟩ := h.running hrun
    exact ⟨hex, hstored, fun j raised hj => hnone j raised ((hended j raised).mp hj)⟩
  · intro j hj
    have hne : j ≠ i := by
      intro heq
      exact hlock (heq ▸ hj)
    rw [State.update_branch_of_ne σ hne]
    exact h.holder j hj
  · intro j raised hj
    have hne : j ≠ i := by
      intro heq
      rw [heq] at hj
      exact hpos raised ((hended i raised).mp hj)
    rw [State.update_branch_of_ne σ hne]
    exact h.past j raised ((hended j raised).mp hj)
  · intro hfin
    have hres := h.results hfin
    unfold Results at hres ⊢
    show (match σ.ending with | some (.failed e) => _ | _ => _)
    simp only [hended]
    exact hres

/-- A branch is over, and the source has ended. -/
theorem Inv.ended (h : Inv kind n σ) {i : Nat} (hi : i < n) (hbuf : (σ.branch i).buf = [])
    (hlock : σ.lock = none) (hitems : σ.items = []) (hending : σ.ending ≠ none)
    (exhausted : Bool) (stored raised : Option Err)
    (hres : Results kind n ({ σ with
      finished := true, exhausted := exhausted, stored := stored }.quit i raised)) :
    Inv kind n ({ σ with
      finished := true, exhausted := exhausted, stored := stored }.quit i raised) := by
  refine ⟨?_, h.flags, fun _ => ⟨hitems, hending⟩, fun hf => (nomatch hf), ?_, ?_, fun _ => hres⟩
  · intro j
    show σ.pushed = _ ++ σ.items
    by_cases hj : j = i
    · rw [hj, State.quit, State.update_branch_self]
      exact h.split i
    · rw [State.quit, State.update_branch_of_ne _ hj]
      exact h.split j
  · intro j hj
    have hj' : σ.lock = some j := hj
    rw [hlock] at hj'
    exact (nomatch hj')
  · intro j raised' hj
    by_cases hji : j = i
    · rw [hji, State.quit, State.update_branch_self]
      exact ⟨hi, hbuf⟩
    · rw [State.quit, State.update_branch_of_ne _ hji] at hj ⊢
      exact h.past j raised' hj

/-- The source was drained before the branch asked, or is now, and its channel did not
    fail. -/
theorem Inv.drained (h : Inv kind n σ) {i : Nat} (hi : i < n) (hbuf : (σ.branch i).buf = [])
    (hpos : ∀ raised, (σ.branch i).pos ≠ .ended raised) (hlock : σ.lock = none)
    (hitems : σ.items = []) (hending : σ.ending ≠ none)
    (hfailed : σ.finished = false → ∀ e, σ.ending ≠ some (.failed e)) :
    Inv kind n (σ.drained i) := by
  apply h.ended hi hbuf hlock hitems hending
  have hold : ∀ {j raised}, j ≠ i →
      ((({ σ with finished := true, exhausted := true } : State T).quit i σ.stored).branch j).pos =
        .ended raised → (σ.branch j).pos = .ended raised := by
    intro j raised hj hpos'
    rw [State.quit, State.update_branch_of_ne _ hj] at hpos'
    exact hpos'
  have hnew : ∀ {raised}, ((({ σ with finished := true, exhausted := true } :
      State T).quit i σ.stored).branch i).pos = .ended raised → raised = σ.stored := by
    intro raised hpos'
    rw [State.quit, State.update_branch_self] at hpos'
    exact (At.ended.inj hpos').symm
  cases hfin : σ.finished with
  | true =>
    have hres := h.results hfin
    unfold Results at hres ⊢
    show (match σ.ending with | some (.failed e) => _ | _ => _)
    cases hend : σ.ending with
    | none => exact absurd hend hending
    | some ending =>
      rw [hend] at hres
      cases ending with
      | failed e =>
        simp only at hres ⊢
        split at hres
        · rename_i hstores
          rw [if_pos hstores]
          refine ⟨rfl, hres.2.1, ?_⟩
          intro j raised hj
          by_cases hji : j = i
          · rw [hji] at hj
            rw [hnew hj, hres.2.1]
          · exact hres.2.2 j raised (hold hji hj)
        · rename_i hstores
          rw [if_neg hstores]
          obtain ⟨hstored, j₀, hj₀, hpos₀, hothers⟩ := hres
          have hne : j₀ ≠ i := by
            intro heq
            exact hpos _ (heq ▸ hpos₀)
          refine ⟨hstored, j₀, hj₀, ?_, ?_⟩
          · rw [State.quit, State.update_branch_of_ne _ hne]
            exact hpos₀
          · intro j hj raised hjr
            by_cases hji : j = i
            · rw [hji] at hjr
              rw [hnew hjr, hstored]
            · exact hothers j hj raised (hold hji hjr)
      | closed | exhausted =>
        refine ⟨hres.1, ?_⟩
        intro j raised hj
        by_cases hji : j = i
        · rw [hji] at hj
          rw [hnew hj, hres.1]
        · exact hres.2 j raised (hold hji hj)
  | false =>
    obtain ⟨_, hstored, hnone⟩ := h.running hfin
    have hok : ∀ j raised, ((({ σ with finished := true, exhausted := true } :
        State T).quit i σ.stored).branch j).pos = .ended raised → raised = none := by
      intro j raised hj
      by_cases hji : j = i
      · rw [hji] at hj
        rw [hnew hj, hstored]
      · exact absurd (hold hji hj) (hnone j raised)
    unfold Results
    show (match σ.ending with | some (.failed e) => _ | _ => _)
    cases hend : σ.ending with
    | none => exact absurd hend hending
    | some ending =>
      cases ending with
      | failed e => exact absurd hend (hfailed hfin e)
      | closed | exhausted => exact ⟨hstored, hok⟩

/-- While the source runs, its next item goes to all branches. -/
theorem Inv.distribute (h : Inv kind n σ) (hrun : σ.finished = false) (hlock : σ.lock = none)
    {x : T} {xs : List T} (hitems : σ.items = x :: xs) : Inv kind n (σ.distribute x xs) := by
  obtain ⟨hex, hstored, hnone⟩ := h.running hrun
  refine ⟨?_, h.flags, ?_, fun _ => ⟨hex, hstored, hnone⟩, ?_, ?_, ?_⟩
  · intro j
    have hj := h.split j
    rw [hitems] at hj
    show σ.pushed = (σ.branch j).yielded ++ ((σ.branch j).buf ++ [x]) ++ xs
    rw [hj]
    simp
  · intro hfin
    exact absurd (hrun.symm.trans hfin) Bool.false_ne_true
  · intro j hj
    exact absurd (hlock.symm.trans hj) (Option.some_ne_none j).symm
  · intro j raised hj
    exact absurd hj (hnone j raised)
  · intro hfin
    exact absurd (hrun.symm.trans hfin) Bool.false_ne_true

theorem Inv.emit (h : Inv kind n σ) {i : Nat} (hpos : ∀ raised, (σ.branch i).pos ≠ .ended raised)
    (hlock : σ.lock ≠ some i) : Inv kind n (σ.emit i) := by
  unfold State.emit
  split
  · exact h
  · rename_i x xs hbuf
    apply h.update hpos _ hlock
    · rw [hbuf, List.append_assoc, List.singleton_append]
    · exact fun _ hf => nomatch hf

theorem Inv.move (h : Inv kind n σ) {i : Nat} (hpos : ∀ raised, (σ.branch i).pos ≠ .ended raised)
    (hlock : σ.lock ≠ some i) {pos : At} (hpos' : ∀ raised, pos ≠ .ended raised) :
    Inv kind n (σ.update i { σ.branch i with pos := pos }) :=
  h.update (b := { σ.branch i with pos := pos }) hpos hpos' hlock rfl

theorem Inv.request (h : Inv kind n σ) {i : Nat} (hi : i < n) (hbuf : (σ.branch i).buf = [])
    (hpos : ∀ raised, (σ.branch i).pos ≠ .ended raised) (hlock : σ.lock = none)
    (hrun : σ.finished = false) : Inv kind n (σ.request i) := by
  have hmoved : Inv kind n (σ.update i { σ.branch i with pos := .pumping }) := by
    apply h.move hpos
    · rw [hlock]
      exact (Option.some_ne_none i).symm
    · exact fun _ hf => nomatch hf
  refine ⟨hmoved.split, hmoved.flags, hmoved.source, hmoved.running, ?_, hmoved.past,
    hmoved.results⟩
  intro j hj
  rw [← Option.some_inj.mp hj, State.request, State.update_branch_self]
  exact ⟨hi, rfl, hbuf, hrun⟩

/-- The source raises, in the branch that asked. -/
theorem Inv.failed (h : Inv kind n σ) {i : Nat} (hi : i < n) (hbuf : (σ.branch i).buf = [])
    (hlock : σ.lock = none) (hitems : σ.items = []) (hrun : σ.finished = false) {e : Err}
    (hending : σ.ending = some (.failed e)) : Inv kind n (σ.failed kind i e) := by
  obtain ⟨_, hstored, hnone⟩ := h.running hrun
  have hsome : σ.ending ≠ none := by
    rw [hending]
    exact Option.some_ne_none _
  unfold State.failed
  simp only
  split
  · rename_i hstores
    apply h.ended hi hbuf hlock hitems hsome
    unfold Results
    show (match σ.ending with | some (.failed e) => _ | _ => _)
    rw [hending]
    simp only [if_pos hstores]
    refine ⟨rfl, rfl, ?_⟩
    intro j raised hj
    by_cases hji : j = i
    · rw [hji, State.quit, State.update_branch_self] at hj
      exact (At.ended.inj hj).symm
    · rw [State.quit, State.update_branch_of_ne _ hji] at hj
      exact absurd hj (hnone j raised)
  · rename_i hstores
    apply h.ended hi hbuf hlock hitems hsome
    unfold Results
    show (match σ.ending with | some (.failed e) => _ | _ => _)
    rw [hending]
    simp only [if_neg hstores]
    refine ⟨hstored, i, hi, ?_, ?_⟩
    · rw [State.quit, State.update_branch_self]
    · intro j hji raised hj
      rw [State.quit, State.update_branch_of_ne _ hji] at hj
      exact absurd hj (hnone j raised)

/-- A branch whose buffer is empty asks the source. -/
theorem Inv.pull (h : Inv kind n σ) {i : Nat} (hi : i < n) (hbuf : (σ.branch i).buf = [])
    (hpos : ∀ raised, (σ.branch i).pos ≠ .ended raised) (hlock : σ.lock = none) :
    Inv kind n (σ.pull kind i) := by
  have hflags := h.flags
  unfold State.pull
  split
  · rename_i hfin
    obtain ⟨hitems, hending⟩ := h.source hfin
    exact h.drained hi hbuf hpos hlock hitems hending
      (fun hf => absurd (hf.symm.trans hfin) Bool.false_ne_true)
  · rename_i hfin
    have hrun : σ.finished = false := Bool.eq_false_iff.mpr hfin
    split
    · rename_i x xs hitems
      apply (h.distribute hrun hlock hitems).emit hpos
      show σ.lock ≠ some i
      rw [hlock]
      exact (Option.some_ne_none i).symm
    · rename_i hitems
      split
      · rename_i hclosed
        -- the channel was closed, or has failed
        rw [hclosed] at hflags
        cases hend : σ.ending with
        | none =>
          rw [hend] at hflags
          exact (nomatch hflags.1)
        | some ending =>
          have hsome : σ.ending ≠ none := by
            rw [hend]
            exact Option.some_ne_none ending
          rw [hend] at hflags
          cases ending with
          | exhausted => exact (nomatch hflags.1)
          | closed =>
            rw [hflags.2]
            apply h.drained hi hbuf hpos hlock hitems hsome
            intro _ e he
            exact (nomatch hend.symm.trans he)
          | failed e =>
            rw [hflags.2]
            exact h.failed hi hbuf hlock hitems hrun hend
      · exact h.request hi hbuf hpos hlock hrun

theorem Inv.advance (h : Inv kind n σ) {i : Nat} (hi : i < n)
    (hpos : (σ.branch i).pos = .idle ∨ (σ.branch i).pos = .waiting) :
    Inv kind n (σ.advance kind i) := by
  have hopen : ∀ raised, (σ.branch i).pos ≠ .ended raised := by
    intro raised hf
    rw [hf] at hpos
    exact hpos.elim (fun hf => nomatch hf) (fun hf => nomatch hf)
  have hlock : σ.lock ≠ some i := by
    intro hf
    rw [(h.holder i hf).2.1] at hpos
    exact hpos.elim (fun hf => nomatch hf) (fun hf => nomatch hf)
  unfold State.advance
  split
  · exact h.emit hopen hlock
  · rename_i hbuf
    split
    · rename_i hex
      have hfin : σ.finished = true := by
        apply Decidable.byContradiction
        intro hf
        exact Bool.false_ne_true ((h.running (Bool.eq_false_iff.mpr hf)).1.symm.trans hex)
      obtain ⟨hitems, hending⟩ := h.source hfin
      have hfree : σ.lock = none := by
        cases hl : σ.lock with
        | none => rfl
        | some j => exact absurd ((h.holder j hl).2.2.2.symm.trans hfin) Bool.false_ne_true
      have hsame : σ.quit i σ.stored = σ.drained i := by
        rw [State.drained, State.drained_eq hfin hex]
      rw [hsame]
      exact h.drained hi hbuf hopen hfree hitems hending
        (fun hf => absurd (hf.symm.trans hfin) Bool.false_ne_true)
    · split
      · exact h.move hopen hlock fun _ hf => nomatch hf
      · rename_i hfree
        exact h.pull hi hbuf hopen (not_not.mp hfree)

theorem Inv.step (h : Inv kind n σ) {a : Act T} {σ' : State T}
    (hstep : step kind n σ a = some σ') : Inv kind n σ' := by
  unfold Tee.step at hstep
  cases a with
  | push x =>
    simp only at hstep
    split at hstep
    · rename_i hending
      rw [← Option.some_inj.mp hstep]
      refine ⟨?_, h.flags, ?_, h.running, h.holder, h.past, h.results⟩
      · intro i
        show σ.pushed ++ [x] = _ ++ (σ.items ++ [x])
        rw [h.split i, List.append_assoc]
      · exact fun hfin => absurd hending (h.source hfin).2
    · exact (nomatch hstep)
  | finish ending =>
    simp only at hstep
    split at hstep
    · rename_i hending
      have hrun : σ.finished = false := by
        apply Bool.eq_false_iff.mpr
        exact fun hfin => (h.source hfin).2 hending
      have hflags := h.flags
      rw [hending] at hflags
      have hno : ∀ {P : Prop}, σ.finished = true → P := fun hfin =>
        absurd (hrun.symm.trans hfin) Bool.false_ne_true
      cases ending with
      | closed =>
        rw [← Option.some_inj.mp hstep]
        exact ⟨h.split, ⟨rfl, hflags.2⟩, fun hf => hno hf, h.running, h.holder, h.past,
          fun hf => hno hf⟩
      | failed e =>
        rw [← Option.some_inj.mp hstep]
        exact ⟨h.split, ⟨rfl, rfl⟩, fun hf => hno hf, h.running, h.holder, h.past,
          fun hf => hno hf⟩
      | exhausted =>
        rw [← Option.some_inj.mp hstep]
        exact ⟨h.split, hflags, fun hf => hno hf, h.running, h.holder, h.past,
          fun hf => hno hf⟩
    · exact (nomatch hstep)
  | advance i =>
    simp only at hstep
    split at hstep
    · rename_i hcan
      rw [← Option.some_inj.mp hstep]
      exact h.advance hcan.1 (.inl hcan.2.1)
    · exact (nomatch hstep)
  | queue i =>
    simp only at hstep
    split at hstep
    · rename_i hcan
      rw [← Option.some_inj.mp hstep]
      apply h.move
      · intro raised hf
        exact (nomatch hf.symm.trans hcan.2.1)
      · intro hf
        exact (nomatch (h.holder i hf).2.1.symm.trans hcan.2.1)
      · exact fun _ hf => nomatch hf
    · exact (nomatch hstep)
  | acquire i =>
    simp only at hstep
    split at hstep
    · rename_i hcan
      rw [← Option.some_inj.mp hstep]
      exact h.advance hcan.1 (.inr hcan.2.1)
    · exact (nomatch hstep)
  | pumped more =>
    simp only at hstep
    split at hstep
    · exact (nomatch hstep)
    · rename_i i hlock
      obtain ⟨hi, hpos, hbuf, hrun⟩ := h.holder i hlock
      have hopen : ∀ raised, (σ.branch i).pos ≠ .ended raised :=
        fun raised hf => nomatch hf.symm.trans hpos
      have hfree : Inv kind n { σ with lock := none } :=
        ⟨h.split, h.flags, h.source, h.running, fun _ hj => (nomatch hj), h.past, h.results⟩
      split at hstep
      · exact (nomatch hstep)
      · rename_i hmore
        split at hstep
        · rename_i hend
          rw [← Option.some_inj.mp hstep]
          have hsome : σ.ending ≠ none := fun hf => hmore ⟨hend.1, hf⟩
          apply hfree.drained hi hbuf hopen rfl hend.2.1 hsome
          intro _ e he
          have hflags := h.flags
          have he' : σ.ending = some (.failed e) := he
          rw [he', hend.2.2] at hflags
          exact (nomatch hflags.1)
        · rw [← Option.some_inj.mp hstep]
          exact hfree.pull hi hbuf hopen rfl

end

/- ── The branches ──────────────────────────────────────────────────────────── -/

section

variable {kind : Kind} {n : Nat} {ch : StreamChannel T} {σ : State T}

theorem inv_subscribe {σ₀ : State T} (h : subscribe kind n ch = some σ₀) : Inv kind n σ₀ ∧ 1 ≤ n := by
  unfold subscribe at h
  split at h
  · exact (nomatch h)
  · rename_i hn
    split at h
    · exact (nomatch h)
    · split at h
      · exact (nomatch h)
      · rw [← Option.some_inj.mp h]
        refine ⟨⟨?_, ?_, fun hf => (nomatch hf), ?_, fun j hj => (nomatch hj), ?_,
          fun hf => (nomatch hf)⟩, Nat.not_lt.mp hn⟩
        · exact fun _ => rfl
        · cases hclosed : ch.closed with
          | false =>
            have hnone : ch.error = none := by
              apply Decidable.byContradiction
              exact fun hf => Bool.false_ne_true (hclosed.symm.trans (ch.closed_of_error hf))
            exact ⟨rfl, hnone⟩
          | true =>
            cases ch.error with
            | none => exact ⟨rfl, rfl⟩
            | some e => exact ⟨rfl, rfl⟩
        · exact fun _ => ⟨rfl, rfl, fun _ _ hf => (nomatch hf)⟩
        · exact fun _ _ hf => nomatch hf

theorem Inv.of_reachable (h : Reachable kind n ch σ) : Inv kind n σ ∧ 1 ≤ n := by
  obtain ⟨σ₀, hsub, hreach⟩ := h
  obtain ⟨hinv, hn⟩ := inv_subscribe hsub
  exact ⟨hreach.invariant hinv fun _ _ _ hs _ hstep => hs.step hstep, hn⟩

/-- A branch that is over has yielded everything, and the source has ended. -/
theorem Inv.all (h : Inv kind n σ) {i : Nat} {raised : Option Err}
    (hpos : (σ.branch i).pos = .ended raised) :
    (σ.branch i).yielded = σ.pushed ∧ σ.finished = true ∧ ∃ ending, σ.ending = some ending := by
  have hfin : σ.finished = true := by
    apply Decidable.byContradiction
    intro hf
    exact (h.running (Bool.eq_false_iff.mpr hf)).2.2 i raised hpos
  obtain ⟨hitems, hending⟩ := h.source hfin
  refine ⟨?_, hfin, Option.ne_none_iff_exists'.mp hending⟩
  rw [h.split i, (h.past i raised hpos).2, hitems, List.append_nil, List.append_nil]

theorem Inv.alike (h : Inv kind n σ) (hends : EndsAlike kind n σ) : Alike n σ := by
  intro i hi
  refine ⟨?_, ?_⟩
  · rw [h.split i, List.append_assoc]
    exact List.prefix_append _ _
  · intro raised hpos
    obtain ⟨hall, hfin, ending, hending⟩ := h.all hpos
    refine ⟨hall, ending, hending, ?_⟩
    have hres := h.results hfin
    unfold Results at hres
    rw [hending] at hres
    cases ending with
    | closed | exhausted => exact hres.2 i raised hpos
    | failed e =>
      obtain ⟨hraises, hone⟩ := hends e hending
      simp only [hraises] at hres
      show raised = some e
      split at hres
      · exact hres.2.2 i raised hpos
      · rename_i hstores
        obtain ⟨_, j, hj, hposj, _⟩ := hres
        have hn : n = 1 := hone.resolve_right hstores
        have hij : i = j := by omega
        rw [hij, hposj] at hpos
        exact (At.ended.inj hpos).symm

/-- When all branches are over, they are so alike only in that case. -/
theorem Inv.endsAlike (h : Inv kind n σ) (hn : 1 ≤ n) (hcomplete : Complete n σ)
    (halike : Alike n σ) : EndsAlike kind n σ := by
  intro e hending
  have hraised : ∀ i < n, ∀ raised, (σ.branch i).pos = .ended raised → raised = some e := by
    intro i hi raised hpos
    obtain ⟨_, ending, hend, hout⟩ := (halike i hi).2 raised hpos
    have heq : ending = .failed e := Option.some_inj.mp (hend.symm.trans hending)
    rw [hout, heq]
    rfl
  obtain ⟨raised, hpos⟩ := hcomplete 0 hn
  have hres := h.results (h.all hpos).2.1
  unfold Results at hres
  rw [hending] at hres
  simp only at hres
  split at hres
  · rename_i hstores
    have heq := (hres.2.2 0 raised hpos).symm.trans (hraised 0 hn raised hpos)
    have hraises : kind.raises e = e := Option.some_inj.mp heq
    exact ⟨hraises, .inr (hraises ▸ hstores)⟩
  · obtain ⟨_, i, hi, hposi, hothers⟩ := hres
    refine ⟨Option.some_inj.mp (hraised i hi _ hposi), .inl ?_⟩
    -- another branch would have ended without raising
    apply Decidable.byContradiction
    intro hne
    obtain ⟨j, hj, hji⟩ : ∃ j < n, j ≠ i := by
      by_cases hi0 : i = 0
      · exact ⟨1, by omega, by omega⟩
      · exact ⟨0, by omega, fun hf => hi0 hf.symm⟩
    obtain ⟨raised', hposj⟩ := hcomplete j hj
    exact nomatch (hothers j hji raised' hposj).symm.trans (hraised j hj raised' hposj)

theorem State.quit_pos (σ : State T) (i : Nat) (raised : Option Err) :
    ((σ.quit i raised).branch i).pos = .ended raised := by
  rw [State.quit, State.update_branch_self]

theorem State.emit_cons {i : Nat} {x : T} {xs : List T} (h : (σ.branch i).buf = x :: xs) :
    ((σ.emit i).branch i).pos = .idle ∧
      ((σ.emit i).branch i).yielded = (σ.branch i).yielded ++ [x] := by
  unfold State.emit
  rw [h]
  simp only [State.update_branch_self, and_self]

/-- A branch that is advanced does not wait once the channel is closed. -/
theorem answers (kind : Kind) (n : Nat) (σ : State T) : Answers kind n σ := by
  intro i _ _ hclosed hlock
  unfold State.advance
  split
  · rename_i x xs hbuf
    exact .inl ⟨(State.emit_cons hbuf).1, x, (State.emit_cons hbuf).2⟩
  · rename_i hbuf
    split
    · exact .inr ⟨_, State.quit_pos _ _ _⟩
    · rw [if_neg (not_not.mpr hlock)]
      unfold State.pull
      split
      · exact .inr ⟨_, State.quit_pos _ _ _⟩
      · split
        · rename_i x xs _
          have hone : ((σ.distribute x xs).branch i).buf = [x] := by
            show (σ.branch i).buf ++ [x] = [x]
            rw [hbuf, List.nil_append]
          exact .inl ⟨(State.emit_cons hone).1, x, (State.emit_cons hone).2⟩
        · split
          · exact .inr ⟨_, State.quit_pos _ _ _⟩
          · unfold State.failed
            simp only
            split
            · exact .inr ⟨_, State.quit_pos _ _ _⟩
            · exact .inr ⟨_, State.quit_pos _ _ _⟩

end

/-- In every state of every run of the branches: each has yielded the first items in
    order, all of them when it is over, and it is over as the channel ended, if the
    channel did not fail, or with an error that is kept for every branch, or there is
    one branch. When all branches are over, that is so only then. -/
theorem branches_alike_iff (kind : Kind) (n : Nat) (ch : StreamChannel T) (σ : State T)
    (h : Reachable kind n ch σ) :
    (EndsAlike kind n σ → Alike n σ) ∧ Answers kind n σ ∧
      (Complete n σ → (Alike n σ ↔ EndsAlike kind n σ)) := by
  obtain ⟨hinv, hn⟩ := Inv.of_reachable h
  exact ⟨hinv.alike, answers kind n σ,
    fun hcomplete => ⟨hinv.endsAlike hn hcomplete, hinv.alike⟩⟩

/-- A channel as it is bound, before anything is pushed. -/
def bound (isAsync : Bool) : StreamChannel Nat :=
  ⟨[], false, none, some isAsync, false, fun h => absurd rfl h⟩

/-- The branches of it. -/
def fresh : State Nat :=
  ⟨[], false, none, false, false, none, none, fun _ => ⟨[], [], .idle⟩, [], none⟩

/-- Two branches of `atee`: the second waits while the first is in the pump, and both
    raise the error. -/
theorem branches_alike_iff_atee :
    ∃ σ, Reachable .atee 2 (bound true) σ ∧ Complete 2 σ ∧
      (Alike 2 σ ↔ EndsAlike .atee 2 σ) := by
  have hrun : (Machine.run (step .atee 2) fresh
      [.advance 0, .advance 1, .push 7, .pumped true, .acquire 1,
        .finish (.failed (.exception "boom")), .advance 1, .advance 0]).map
        (fun σ => ((σ.branch 0).pos, (σ.branch 1).pos)) =
      some (.ended (some (.exception "boom")), .ended (some (.exception "boom"))) := rfl
  obtain ⟨σ, hreach, hpos⟩ :=
    Machine.exists_of_run (Machine.Meets.of_forall (fun _ _ => trivial) _ _) hrun
  have hreach' : Reachable .atee 2 (bound true) σ := ⟨_, rfl, hreach⟩
  have hcomplete : Complete 2 σ := by
    intro i hi
    have hi' : i = 0 ∨ i = 1 := by omega
    cases hi' with
    | inl h => exact ⟨_, h ▸ congrArg Prod.fst hpos⟩
    | inr h => exact ⟨_, h ▸ congrArg Prod.snd hpos⟩
  exact ⟨σ, hreach', hcomplete, (branches_alike_iff .atee 2 (bound true) σ hreach').2.2 hcomplete⟩

/-- Two branches of `tee`: the first raises the error, the second stops. -/
theorem not_branches_alike :
    ¬ ∀ (kind : Kind) (n : Nat) (ch : StreamChannel Nat) (σ : State Nat),
      Reachable kind n ch σ → Alike n σ := by
  intro h
  have hrun : (Machine.run (step .tee 2) fresh
      [.push 7, .finish (.failed (.exception "boom")), .advance 0, .advance 0,
        .advance 1, .advance 1]).map (fun σ => ((σ.branch 1).pos, σ.ending)) =
      some (.ended none, some (.failed (.exception "boom"))) := rfl
  obtain ⟨σ, hreach, hpos⟩ :=
    Machine.exists_of_run (Machine.Meets.of_forall (fun _ _ => trivial) _ _) hrun
  obtain ⟨_, ending, hending, hout⟩ :=
    (h .tee 2 (bound false) σ ⟨_, rfl, hreach⟩ 1 (by omega)).2 none (congrArg Prod.fst hpos)
  have heq : ending = .failed (.exception "boom") :=
    Option.some_inj.mp (hending.symm.trans (congrArg Prod.snd hpos))
  rw [heq] at hout
  exact (nomatch hout)

end LangGraph.Tee
