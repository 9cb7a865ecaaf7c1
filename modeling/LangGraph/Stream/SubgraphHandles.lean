import LangGraph.Stream.Lifecycle

/- The handles of `SubgraphTransformer`.

   A handle wraps a mini-mux whose own `SubgraphTransformer` has the handles of
   the next level, so the handles of a run form a forest. Every handle is filed
   under the full namespace of its subgraph, which is also the scope of its
   mini-mux.

   Correspondence (source ↔ Lean):
     `SubgraphRunStream`, as far as it is read here ↔ `Handle`
     `handle._mux`                                  ↔ `MiniMux` and the children
     `SubgraphTransformer`                          ↔ `SubgraphTransformer`
     `_mark_terminal`                               ↔ `Handle.markTerminal`
     `_on_started`, `_on_terminal`                  ↔ `Handles.set`, `Handles.onTerminal`
     `_complete_open_handles`, `fail`               ↔ `Handles.complete`, `Handles.fail`
     `process`                                      ↔ `bookkeep`, then `process`
   `handle._mux.close()` and `.fail(err)` finalize or fail the transformers of the
   mini-mux, its `SubgraphTransformer` among them, and close its main log; the
   other transformers keep nothing that is read here. `aprocess`, `_aon_terminal`,
   `_acomplete_open_handles` and `afail` take the same steps with `await` between
   them, so that the definitions are those of both lanes.

   The forest keeps one invariant (`Open`, `Closed`), by which an event and the
   end of the run act on each handle on its own: `handles_result`,
   `handles_start`, `handles_complete` and `handles_fail`. -/
namespace LangGraph.Stream

structure Handle where
  graphName : Option String
  triggerCallId : Option String
  status : SubgraphStatus
  error : Option String
  seenTerminal : Bool
  deriving DecidableEq

structure MiniMux where
  base : TasksLifecycle
  /-- `_events._closed` -/
  closed : Bool
  deriving DecidableEq

namespace Handle

/-- A handle that is terminal stays as it is. -/
def markTerminal (h : Handle) (status : SubgraphStatus) (error : Option String) : Handle :=
  if h.seenTerminal then h
  else { h with status, error := h.error.or error, seenTerminal := true }

def ofStarted (s : Started) : Handle := ⟨s.graphName, s.triggerCallId, .started, none, false⟩

@[simp] theorem seenTerminal_markTerminal (h : Handle) (status : SubgraphStatus)
    (error : Option String) : (h.markTerminal status error).seenTerminal = true := by
  unfold markTerminal
  split
  · assumption
  · rfl

theorem markTerminal_of_terminal {h : Handle} (hterm : h.seenTerminal = true)
    (status : SubgraphStatus) (error : Option String) : h.markTerminal status error = h :=
  if_pos hterm

theorem status_markTerminal {h : Handle} (hterm : h.seenTerminal = false)
    (status : SubgraphStatus) (error : Option String) :
    (h.markTerminal status error).status = status := by
  rw [markTerminal, hterm]
  rfl

end Handle

namespace MiniMux

def init (scope : Namespace) : MiniMux := ⟨.init scope, false⟩

/-- After the sweep of its transformers and the close of its main log. -/
def shut (m : MiniMux) : MiniMux := ⟨{ m.base with opened := ∅ }, true⟩

end MiniMux

/-- The dictionary `_handles` in insertion order: a handle with its namespace, its mini-mux and
    the handles of that mini-mux. -/
inductive Handles where
  | nil
  | cons (ns : Namespace) (handle : Handle) (mux : MiniMux) (children rest : Handles)
  deriving DecidableEq

namespace Handles

def keys : Handles → List Namespace
  | nil => []
  | cons ns _ _ _ rest => ns :: rest.keys

/-- Every handle of the forest, with its namespace. -/
def all : Handles → List (Namespace × Handle)
  | nil => []
  | cons ns handle _ children rest => (ns, handle) :: (children.all ++ rest.all)

def find? (key : Namespace) : Handles → Option (MiniMux × Handles)
  | nil => none
  | cons ns _ mux children rest => if ns = key then some (mux, children) else rest.find? key

/-- The handle of a key with another state of its mini-mux. -/
def replace : Handles → Namespace → MiniMux → Handles → Handles
  | nil, _, _, _ => nil
  | cons ns handle mux' children' rest, key, mux, children =>
    if ns = key then cons ns handle mux children rest
    else cons ns handle mux' children' (rest.replace key mux children)

def set (key : Namespace) (handle : Handle) (mux : MiniMux) : Handles → Handles
  | nil => cons key handle mux nil nil
  | cons ns handle' mux' children' rest =>
    if ns = key then cons ns handle mux nil rest
    else cons ns handle' mux' children' (rest.set key handle mux)

/-- Complete what is not terminal and close its mini-mux. The loop over `_open` and the loop
    over `_handles` do the same to such a handle. -/
def complete : Handles → Handles
  | nil => nil
  | cons ns handle mux children rest =>
    if handle.seenTerminal then cons ns handle mux children rest.complete
    else if mux.closed then cons ns (handle.markTerminal .completed none) mux children rest.complete
    else cons ns (handle.markTerminal .completed none) mux.shut children.complete rest.complete

/-- Mark every handle and fail the mini-muxes that are not closed. -/
def fail (err : RunError) : Handles → Handles
  | nil => nil
  | cons ns handle mux children rest =>
    let handle := handle.markTerminal (statusFromException err).1 (statusFromException err).2
    if mux.closed then cons ns handle mux children (rest.fail err)
    else cons ns handle mux.shut (children.fail err) (rest.fail err)

/-- `RuntimeError(error or "Subgraph failed")` -/
def runtimeError (error : Option String) : RunError :=
  .other ((error.filter (· ≠ "")).getD "Subgraph failed")

/-- `_close_or_fail_handle` on the handles of a mini-mux that is not closed. -/
def closeOrFail (status : SubgraphStatus) (error : Option String) (children : Handles) : Handles :=
  if status = .failed then children.fail (runtimeError error) else children.complete

/-- `_on_terminal` on one handle. -/
def closeEntry (status : SubgraphStatus) (error : Option String) (ns : Namespace) (handle : Handle)
    (mux : MiniMux) (children rest : Handles) : Handles :=
  if handle.seenTerminal then cons ns handle mux children rest
  else if mux.closed then cons ns (handle.markTerminal status error) mux children rest
  else cons ns (handle.markTerminal status error) mux.shut (children.closeOrFail status error) rest

def onTerminal (t : Terminal) : Handles → Handles
  | nil => nil
  | cons ns handle mux children rest =>
    if ns = t.ns then closeEntry t.status t.error ns handle mux children rest
    else cons ns handle mux children (rest.onTerminal t)

end Handles

structure SubgraphTransformer where
  base : TasksLifecycle
  handles : Handles
  deriving DecidableEq

namespace SubgraphTransformer

def init (scope : Namespace) : SubgraphTransformer := ⟨.init scope, .nil⟩

/-- Direct children only. -/
def shouldTrack (scope ns : Namespace) : Bool :=
  ns.length = scope.length + 1 ∧ ns.take scope.length = scope

/-- The bookkeeping of `_TasksLifecycleBase.process` with the hooks. -/
def bookkeep (t : SubgraphTransformer) (event : TaskEvent) : SubgraphTransformer :=
  match event.data with
  | .start data =>
    let (base, started) := (t.base.recordPendingToolCalls data).handleTaskStart
      (shouldTrack t.base.scope) event.ns data
    ⟨base, started.elim t.handles fun s => t.handles.set s.ns (.ofStarted s) (.init s.ns)⟩
  | .result data =>
    let (base, transitions) := t.base.popTerminalTransitions event.ns data
    ⟨base, transitions.foldl (fun handles terminal => handles.onTerminal terminal) t.handles⟩

/-- The event goes on to the mini-mux of its next segment; the number is that of the segments
    below the scope. -/
def process (event : TaskEvent) : Nat → SubgraphTransformer → SubgraphTransformer
  | 0, t => t.bookkeep event
  | n + 1, t =>
    let t := t.bookkeep event
    let key := event.ns.take (t.base.scope.length + 1)
    match t.handles.find? key with
    | none => t
    | some (mux, children) =>
      if mux.closed then t
      else
        let child := process event n ⟨mux.base, children⟩
        { t with handles := t.handles.replace key { mux with base := child.base } child.handles }

def finalize (t : SubgraphTransformer) : SubgraphTransformer :=
  ⟨{ t.base with opened := ∅ }, t.handles.complete⟩

def fail (t : SubgraphTransformer) (err : RunError) : SubgraphTransformer :=
  ⟨{ t.base with opened := ∅ }, t.handles.fail err⟩

end SubgraphTransformer

/-! The invariant of the forest. -/

namespace Handles

/-- Below a mini-mux that is closed. -/
def Closed : Handles → Prop
  | nil => True
  | cons _ handle mux children rest =>
    handle.seenTerminal = true ∧ mux.closed = true ∧ children.Closed ∧ rest.Closed

/-- The handles of a mux that is not closed, with its scope and its `_open`: a handle is
    terminal when its mini-mux is closed, and is in `_open` until then if it can be. -/
def Open (scope : Namespace) (opened : OrdDict Namespace String) : Handles → Prop
  | nil => True
  | cons ns handle mux children rest =>
    (ns ≠ [] ∧ ns.dropLast = scope ∧ ns ∉ rest.keys) ∧
    (handle.seenTerminal = true ∧ mux.closed = true ∧ opened.get? ns = none ∧ children.Closed ∨
      handle.seenTerminal = false ∧ mux.closed = false ∧ opened.get? ns = triggerOf ns ∧
      mux.base.scope = ns ∧ (∀ c, c ∈ mux.base.seen ↔ c ∈ children.keys) ∧
      (∀ c i, mux.base.opened.get? c = some i → c ∈ children.keys) ∧
      children.Open ns mux.base.opened) ∧
    rest.Open scope opened

/-- Mark every handle. -/
def markAll (status : SubgraphStatus) (error : Option String) (p : Namespace × Handle) :
    Namespace × Handle := (p.1, p.2.markTerminal status error)

theorem Closed.terminal : ∀ {handles : Handles}, handles.Closed → ∀ p ∈ handles.all,
    p.2.seenTerminal = true
  | cons ns handle mux children rest, h, p, hp => by
    obtain ⟨hterm, -, hchildren, hrest⟩ := h
    rcases List.mem_cons.mp hp with rfl | hp
    · exact hterm
    rcases List.mem_append.mp hp with hp | hp
    · exact hchildren.terminal p hp
    · exact hrest.terminal p hp

theorem Closed.complete : ∀ {handles : Handles}, handles.Closed → handles.complete = handles
  | nil, _ => rfl
  | cons ns handle mux children rest, h => by
    rw [Handles.complete, if_pos h.1, h.2.2.2.complete]

theorem Closed.fail (err : RunError) : ∀ {handles : Handles}, handles.Closed →
    handles.fail err = handles
  | nil, _ => rfl
  | cons ns handle mux children rest, h => by
    rw [Handles.fail, if_pos h.2.1, Handle.markTerminal_of_terminal h.1, h.2.2.2.fail err]

theorem Closed.markAll {handles : Handles} (h : handles.Closed) (status : SubgraphStatus)
    (error : Option String) : handles.all.map (Handles.markAll status error) = handles.all := by
  have hid : ∀ p ∈ handles.all, Handles.markAll status error p = id p := by
    intro p hp
    rw [Handles.markAll, Handle.markTerminal_of_terminal (h.terminal p hp), id_eq]
  rw [List.map_congr_left hid, List.map_id]

/-- Completing a mini-mux completes every handle below that is not terminal. -/
theorem Open.complete {scope : Namespace} {opened : OrdDict Namespace String} :
    ∀ {handles : Handles}, handles.Open scope opened →
      handles.complete.Closed ∧ handles.complete.all = handles.all.map (markAll .completed none)
  | nil, _ => ⟨trivial, rfl⟩
  | cons ns handle mux children rest, h => by
    obtain ⟨-, hentry, hrest⟩ := h
    have ihrest := hrest.complete
    rcases hentry with ⟨hterm, hclosed, -, hchildren⟩ | ⟨hterm, hclosed, -, -, -, -, hchildren⟩
    · rw [Handles.complete, if_pos hterm]
      refine ⟨⟨hterm, hclosed, hchildren, ihrest.1⟩, ?_⟩
      simp only [all, List.map_cons, List.map_append, ihrest.2, hchildren.markAll, markAll,
        Handle.markTerminal_of_terminal hterm]
    · have ihchildren := hchildren.complete
      rw [Handles.complete, if_neg (by rw [hterm]; decide), if_neg (by rw [hclosed]; decide)]
      refine ⟨⟨Handle.seenTerminal_markTerminal .., rfl, ihchildren.1, ihrest.1⟩, ?_⟩
      simp only [all, List.map_cons, List.map_append, ihrest.2, ihchildren.2, markAll]

theorem Open.fail {scope : Namespace} {opened : OrdDict Namespace String} (err : RunError) :
    ∀ {handles : Handles}, handles.Open scope opened →
      (handles.fail err).Closed ∧ (handles.fail err).all =
        handles.all.map (markAll (statusFromException err).1 (statusFromException err).2)
  | nil, _ => ⟨trivial, rfl⟩
  | cons ns handle mux children rest, h => by
    obtain ⟨-, hentry, hrest⟩ := h
    have ihrest := hrest.fail err
    rcases hentry with ⟨hterm, hclosed, -, hchildren⟩ | ⟨hterm, hclosed, -, -, -, -, hchildren⟩
    · rw [Handles.fail, if_pos hclosed]
      refine ⟨⟨Handle.seenTerminal_markTerminal .., hclosed, hchildren, ihrest.1⟩, ?_⟩
      simp only [all, List.map_cons, List.map_append, ihrest.2, hchildren.markAll, markAll]
    · have ihchildren := hchildren.fail err
      rw [Handles.fail, if_neg (by rw [hclosed]; decide)]
      refine ⟨⟨Handle.seenTerminal_markTerminal .., rfl, ihchildren.1, ihrest.1⟩, ?_⟩
      simp only [all, List.map_cons, List.map_append, ihrest.2, ihchildren.2, markAll]

/-- A handle that is not terminal is below a handle of the first level. -/
theorem Open.exists_key {scope : Namespace} {opened : OrdDict Namespace String} :
    ∀ {handles : Handles}, handles.Open scope opened → ∀ p ∈ handles.all,
      p.2.seenTerminal = false → ∃ c ∈ handles.keys, c ≠ [] ∧ c.dropLast = scope ∧ c <+: p.1
  | cons ns handle mux children rest, h, p, hp, hterm => by
    obtain ⟨⟨hne, hscope, -⟩, hentry, hrest⟩ := h
    have hkey : ∃ c ∈ (cons ns handle mux children rest).keys, c ≠ [] ∧ c.dropLast = scope ∧ c <+: ns :=
      ⟨ns, List.mem_cons_self, hne, hscope, List.prefix_refl ns⟩
    rcases List.mem_cons.mp hp with rfl | hp
    · exact hkey
    rcases List.mem_append.mp hp with hp | hp
    · rcases hentry with ⟨-, -, -, hchildren⟩ | ⟨-, -, -, -, -, -, hchildren⟩
      · rw [hchildren.terminal p hp] at hterm
        exact nomatch hterm
      · obtain ⟨c, -, -, hc, hpre⟩ := hchildren.exists_key p hp hterm
        refine ⟨ns, List.mem_cons_self, hne, hscope, ?_⟩
        rw [← hc]
        exact (List.dropLast_prefix c).trans hpre
    · obtain ⟨c, hc, hrest⟩ := hrest.exists_key p hp hterm
      exact ⟨c, List.mem_cons_of_mem ns hc, hrest⟩

/-! The result of a task. -/

/-- The handles of the first level that `p` selects, closed. -/
def closeWhere (p : Namespace → Bool) (status : SubgraphStatus) (error : Option String) :
    Handles → Handles
  | nil => nil
  | cons ns handle mux children rest =>
    if p ns then closeEntry status error ns handle mux children (rest.closeWhere p status error)
    else cons ns handle mux children (rest.closeWhere p status error)

@[simp] theorem keys_closeEntry (status : SubgraphStatus) (error : Option String) (ns : Namespace)
    (handle : Handle) (mux : MiniMux) (children rest : Handles) :
    (closeEntry status error ns handle mux children rest).keys = ns :: rest.keys := by
  unfold closeEntry
  split
  · rfl
  · split <;> rfl

@[simp] theorem keys_closeWhere (p : Namespace → Bool) (status : SubgraphStatus)
    (error : Option String) : ∀ handles : Handles, (handles.closeWhere p status error).keys = handles.keys
  | nil => rfl
  | cons ns handle mux children rest => by
    rw [closeWhere]
    split
    · rw [keys_closeEntry, keys_closeWhere, keys]
    · rw [keys, keys_closeWhere, keys]

theorem closeWhere_congr {p q : Namespace → Bool} (status : SubgraphStatus) (error : Option String) :
    ∀ {handles : Handles}, (∀ c ∈ handles.keys, p c = q c) →
      handles.closeWhere p status error = handles.closeWhere q status error
  | nil, _ => rfl
  | cons ns handle mux children rest, h => by
    rw [closeWhere, closeWhere, h ns List.mem_cons_self,
      closeWhere_congr status error fun c hc => h c (List.mem_cons_of_mem ns hc)]

theorem closeWhere_false (status : SubgraphStatus) (error : Option String) :
    ∀ handles : Handles, handles.closeWhere (fun _ => false) status error = handles
  | nil => rfl
  | cons ns handle mux children rest => by
    rw [closeWhere, if_neg (by decide), closeWhere_false]

/-- A handle that is closed already stays as it is. -/
theorem closeWhere_closeWhere (p q : Namespace → Bool) (status : SubgraphStatus)
    (error : Option String) : ∀ handles : Handles,
      (handles.closeWhere p status error).closeWhere q status error =
        handles.closeWhere (fun c => p c || q c) status error
  | nil => rfl
  | cons ns handle mux children rest => by
    have ih := closeWhere_closeWhere p q status error rest
    by_cases hp : p ns = true
    · simp only [closeWhere, hp, if_true, Bool.true_or]
      unfold closeEntry
      split
      · rename_i hterm
        simp only [closeWhere, closeEntry, hterm, if_true, ite_self, ih]
      · split
        · simp only [closeWhere, closeEntry, Handle.seenTerminal_markTerminal, if_true, ite_self, ih]
        · simp only [closeWhere, closeEntry, Handle.seenTerminal_markTerminal, if_true, ite_self, ih]
    · simp only [closeWhere, hp, Bool.false_or, Bool.false_eq_true, if_false, ih]

theorem onTerminal_eq (t : Terminal) : ∀ {handles : Handles}, handles.keys.Nodup →
    handles.onTerminal t = handles.closeWhere (fun c => decide (c = t.ns)) t.status t.error
  | nil, _ => rfl
  | cons ns handle mux children rest, h => by
    obtain ⟨hns, hrest⟩ := List.nodup_cons.mp h
    rw [onTerminal, closeWhere]
    by_cases heq : ns = t.ns
    · rw [if_pos heq, if_pos (decide_eq_true heq)]
      congr 1
      rw [closeWhere_congr (q := fun _ => false), closeWhere_false]
      intro c hc
      apply decide_eq_false
      rintro rfl
      exact hns (heq ▸ hc)
    · rw [if_neg heq, if_neg (by simpa using heq), onTerminal_eq t hrest]

theorem onTerminals_eq (status : SubgraphStatus) (error : Option String) :
    ∀ (l : List Namespace) {handles : Handles}, handles.keys.Nodup →
      (l.map fun ns => (⟨ns, status, error⟩ : Terminal)).foldl (fun h t => h.onTerminal t) handles =
        handles.closeWhere (fun c => l.contains c) status error
  | [], handles, _ => by
    rw [List.map_nil, List.foldl_nil]
    exact (closeWhere_false status error handles).symm
  | ns :: l, handles, h => by
    rw [List.map_cons, List.foldl_cons, onTerminal_eq _ h,
      onTerminals_eq status error l (by rwa [keys_closeWhere]), closeWhere_closeWhere]
    apply closeWhere_congr
    intro c _
    rw [List.contains_cons, beq_eq_decide]

theorem Open.nodup_keys {scope : Namespace} {opened : OrdDict Namespace String} :
    ∀ {handles : Handles}, handles.Open scope opened → handles.keys.Nodup
  | nil, _ => List.nodup_nil
  | cons _ _ _ _ _, h => List.nodup_cons.mpr ⟨h.1.2.2, h.2.2.nodup_keys⟩

/-- The result of a task at `r` ends the subgraph above or at `ns`, in a run with the scope. -/
def ends (scope r : Namespace) (id : Option String) (ns : Namespace) : Bool :=
  scope.length ≤ r.length && r.length < ns.length && ns.take r.length = r && id.any (· ≠ "") &&
    id = triggerOf (ns.take (r.length + 1))

/-- The status and the error of what is still open below a subgraph that ends. -/
def belowStatus (data : TaskResult) : SubgraphStatus × Option String :=
  if (terminalFromResult data).1 = .failed then
    statusFromException (runtimeError (terminalFromResult data).2)
  else (.completed, none)

/-- What the result of a task does to a handle. -/
def resultEffect (scope r : Namespace) (data : TaskResult) (p : Namespace × Handle) :
    Namespace × Handle :=
  if ends scope r data.id p.1 then
    if p.1.length = r.length + 1 then
      markAll (terminalFromResult data).1 (terminalFromResult data).2 p
    else markAll (belowStatus data).1 (belowStatus data).2 p
  else p

theorem markAll_of_terminal {p : Namespace × Handle} (h : p.2.seenTerminal = true)
    (status : SubgraphStatus) (error : Option String) : markAll status error p = p := by
  rw [markAll, Handle.markTerminal_of_terminal h]

theorem resultEffect_of_terminal {p : Namespace × Handle} (h : p.2.seenTerminal = true)
    (scope r : Namespace) (data : TaskResult) : resultEffect scope r data p = p := by
  unfold resultEffect
  split
  · split <;> exact markAll_of_terminal h _ _
  · rfl

theorem Closed.resultEffect {handles : Handles} (h : handles.Closed) (scope r : Namespace)
    (data : TaskResult) : handles.all.map (Handles.resultEffect scope r data) = handles.all := by
  have hid : ∀ p ∈ handles.all, Handles.resultEffect scope r data p = id p :=
    fun p hp => resultEffect_of_terminal (h.terminal p hp) scope r data
  rw [List.map_congr_left hid, List.map_id]

theorem Open.closeOrFail {scope : Namespace} {opened : OrdDict Namespace String} {handles : Handles}
    (h : handles.Open scope opened) (data : TaskResult) :
    (handles.closeOrFail (terminalFromResult data).1 (terminalFromResult data).2).Closed ∧
    (handles.closeOrFail (terminalFromResult data).1 (terminalFromResult data).2).all =
      handles.all.map (markAll (belowStatus data).1 (belowStatus data).2) := by
  unfold Handles.closeOrFail belowStatus
  split
  · exact h.fail _
  · exact h.complete

/-- Below a namespace of the first level, the namespace of that level decides. -/
theorem ends_of_isPrefix {r c ns : Namespace} {id : Option String} (hlen : c.length = r.length + 1)
    (hc : c.dropLast = r) (hpre : c <+: ns) :
    ends r r id ns = (id.any (· ≠ "") && decide (id = triggerOf c)) := by
  obtain ⟨l, rfl⟩ := hpre
  have hr : r <+: c := hc ▸ List.dropLast_prefix c
  have htake : (c ++ l).take r.length = r := by
    rw [List.take_append_of_le_length (by omega)]
    exact (List.prefix_iff_eq_take.mp hr).symm
  have htake' : (c ++ l).take (r.length + 1) = c := by rw [← hlen, List.take_left]
  have hlt : r.length < c.length + l.length := by omega
  simp [ends, htake, htake', hlt]

/-- The mux whose tasks the result is about: it closes the handles of its first level. -/
theorem Open.closeWhere {r : Namespace} {opened opened' : OrdDict Namespace String} (data : TaskResult)
    {p : Namespace → Bool}
    (hp : ∀ c, p c = (opened.get? c).any fun i => TasksLifecycle.closes r data.id (c, i))
    (hopened : ∀ c, opened'.get? c = if p c then none else opened.get? c) :
    ∀ {handles : Handles}, handles.Open r opened →
      (handles.closeWhere p (terminalFromResult data).1 (terminalFromResult data).2).Open r opened' ∧
      (handles.closeWhere p (terminalFromResult data).1 (terminalFromResult data).2).all =
        handles.all.map (resultEffect r r data)
  | nil, _ => ⟨trivial, rfl⟩
  | cons ns handle mux children rest, h => by
    obtain ⟨⟨hne, hdrop, hkeys⟩, hentry, hrest⟩ := h
    have ihrest := hrest.closeWhere data hp hopened
    have hlen : ns.length = r.length + 1 := by
      have := List.length_pos_of_ne_nil hne
      rw [← hdrop, List.length_dropLast]
      omega
    have hplace : ns ≠ [] ∧ ns.dropLast = r ∧
        ns ∉ (rest.closeWhere p (terminalFromResult data).1 (terminalFromResult data).2).keys := by
      rw [keys_closeWhere]
      exact ⟨hne, hdrop, hkeys⟩
    rcases hentry with ⟨hterm, hclosed, hnone, hchildren⟩ |
      ⟨hterm, hclosed, hget, hscope, hseen, hopen, hchildren⟩
    · have hpns : p ns = false := by rw [hp, hnone]; rfl
      rw [Handles.closeWhere, if_neg (by rw [hpns]; decide)]
      refine ⟨⟨hplace, .inl ⟨hterm, hclosed, ?_, hchildren⟩, ihrest.1⟩, ?_⟩
      · rw [hopened, hpns, hnone]
        rfl
      · simp only [all, List.map_cons, List.map_append, ihrest.2, hchildren.resultEffect]
        rw [resultEffect_of_terminal hterm]
    have hends : ∀ d, ns <+: d → ends r r data.id d = p ns := by
      intro d hd
      rw [ends_of_isPrefix hlen hdrop hd, hp, hget]
      cases htrigger : triggerOf ns with
      | none => cases data.id <;> simp
      | some i => simp [TasksLifecycle.closes, hdrop]
    have hbelow : ∀ q ∈ children.all, q.2.seenTerminal = false →
        ns <+: q.1 ∧ ns.length < q.1.length := by
      intro q hq hqterm
      obtain ⟨c, -, hcne, hcdrop, hcpre⟩ := hchildren.exists_key q hq hqterm
      have hclen := List.length_pos_of_ne_nil hcne
      have hnslen : ns.length = c.length - 1 := by rw [← hcdrop, List.length_dropLast]
      have hle := hcpre.length_le
      exact ⟨(hcdrop ▸ List.dropLast_prefix c).trans hcpre, by omega⟩
    by_cases hpns : p ns = true
    · rw [Handles.closeWhere, if_pos hpns, closeEntry, if_neg (by rw [hterm]; decide),
        if_neg (by rw [hclosed]; decide)]
      have hbelowClosed := hchildren.closeOrFail data
      refine ⟨⟨hplace, .inl ⟨Handle.seenTerminal_markTerminal .., rfl, ?_, hbelowClosed.1⟩,
        ihrest.1⟩, ?_⟩
      · rw [hopened, if_pos hpns]
      · have hself : resultEffect r r data (ns, handle) =
            (ns, handle.markTerminal (terminalFromResult data).1 (terminalFromResult data).2) := by
          rw [resultEffect, if_pos ((hends ns (List.prefix_refl ns)).trans hpns), if_pos hlen]
          rfl
        have hchild : ∀ q ∈ children.all,
            markAll (belowStatus data).1 (belowStatus data).2 q = resultEffect r r data q := by
          intro q hq
          cases hqterm : q.2.seenTerminal with
          | true => rw [markAll_of_terminal hqterm, resultEffect_of_terminal hqterm]
          | false =>
            obtain ⟨hpre, hlt⟩ := hbelow q hq hqterm
            rw [resultEffect, if_pos ((hends q.1 hpre).trans hpns), if_neg (by omega)]
        simp only [all, List.map_cons, List.map_append, ihrest.2, hbelowClosed.2, hself,
          List.map_congr_left hchild]
    · have hpns' : p ns = false := Bool.eq_false_iff.mpr hpns
      rw [Handles.closeWhere, if_neg hpns]
      refine ⟨⟨hplace, .inr ⟨hterm, hclosed, ?_, hscope, hseen, hopen, hchildren⟩, ihrest.1⟩, ?_⟩
      · rw [hopened, if_neg hpns, hget]
      · have hself : resultEffect r r data (ns, handle) = (ns, handle) := by
          rw [resultEffect, if_neg]
          rw [hends ns (List.prefix_refl ns)]
          exact hpns
        have hchild : ∀ q ∈ children.all, resultEffect r r data q = id q := by
          intro q hq
          cases hqterm : q.2.seenTerminal with
          | true => exact resultEffect_of_terminal hqterm r r data
          | false =>
            rw [resultEffect, if_neg]
            · rfl
            · rw [hends q.1 (hbelow q hq hqterm).1]
              exact hpns
        simp only [all, List.map_cons, List.map_append, ihrest.2, hself, List.map_congr_left hchild,
          List.map_id]

theorem Open.dropLast_key {scope : Namespace} {opened : OrdDict Namespace String} :
    ∀ {handles : Handles}, handles.Open scope opened → ∀ c ∈ handles.keys,
      c.dropLast = scope ∧ c.length = scope.length + 1
  | cons ns handle mux children rest, h, c, hc => by
    rcases List.mem_cons.mp hc with rfl | hc
    · have hpos := List.length_pos_of_ne_nil h.1.1
      refine ⟨h.1.2.1, ?_⟩
      rw [← h.1.2.1, List.length_dropLast]
      omega
    · exact h.2.2.dropLast_key c hc

theorem Open.congr {scope : Namespace} {opened opened' : OrdDict Namespace String} :
    ∀ {handles : Handles}, (∀ c ∈ handles.keys, opened'.get? c = opened.get? c) →
      handles.Open scope opened → handles.Open scope opened'
  | nil, _, _ => trivial
  | cons ns handle mux children rest, hsame, h => by
    refine ⟨h.1, ?_, h.2.2.congr fun c hc => hsame c (List.mem_cons_of_mem ns hc)⟩
    rw [hsame ns List.mem_cons_self]
    exact h.2.1

/-- Two handles of the first level have no namespace below them in common. -/
theorem eq_of_isPrefix {c d ns : Namespace} (hlen : c.length = d.length) (hc : c <+: ns)
    (hd : d <+: ns) : c = d :=
  (List.prefix_of_prefix_length_le hc hd hlen.le).eq_of_length hlen

theorem mem_keys_of_find? {key : Namespace} {found : MiniMux × Handles} :
    ∀ {handles : Handles}, handles.find? key = some found → key ∈ handles.keys
  | cons ns _ _ _ rest, h => by
    rw [find?] at h
    split at h
    · rename_i hns
      exact hns ▸ List.mem_cons_self
    · exact List.mem_cons_of_mem ns (mem_keys_of_find? h)

theorem Open.not_isPrefix {scope key : Namespace} {opened : OrdDict Namespace String}
    {handles : Handles} (h : handles.Open scope opened) (hlen : key.length = scope.length + 1)
    (hkey : key ∉ handles.keys) : ∀ p ∈ handles.all, p.2.seenTerminal = false → ¬key <+: p.1 := by
  intro p hp hterm hpre
  obtain ⟨c, hc, -, -, hcpre⟩ := h.exists_key p hp hterm
  have hclen := (h.dropLast_key c hc).2
  exact hkey (eq_of_isPrefix (hlen.trans hclen.symm) hpre hcpre ▸ hc)

/-- Where no open mini-mux has the key, nothing below the key is open. -/
theorem Open.off {scope key : Namespace} {opened : OrdDict Namespace String}
    (hlen : key.length = scope.length + 1) : ∀ {handles : Handles}, handles.Open scope opened →
      (∀ mux children, handles.find? key = some (mux, children) → mux.closed = true) →
        ∀ p ∈ handles.all, p.2.seenTerminal = false → ¬key <+: p.1
  | cons ns handle mux children rest, h, hfind, p, hp, hterm => by
    have hself : ∀ q ∈ (ns, handle) :: children.all, q.2.seenTerminal = false → ns <+: q.1 := by
      intro q hq hqterm
      rcases List.mem_cons.mp hq with rfl | hq
      · exact List.prefix_refl ns
      rcases h.2.1 with ⟨-, -, -, hchildren⟩ | ⟨-, -, -, -, -, -, hchildren⟩
      · rw [hchildren.terminal q hq] at hqterm
        exact nomatch hqterm
      · obtain ⟨c, -, -, hdrop, hpre⟩ := hchildren.exists_key q hq hqterm
        exact (hdrop ▸ List.dropLast_prefix c).trans hpre
    have hnslen : ns.length = scope.length + 1 := (h.dropLast_key ns List.mem_cons_self).2
    rw [all, ← List.cons_append] at hp
    by_cases hns : ns = key
    · -- the entry of the key is closed, and the rest has another
      rcases List.mem_append.mp hp with hp | hp
      · have hmux := hfind mux children (by rw [find?, if_pos hns])
        rcases h.2.1 with ⟨hhandle, -, -, hchildren⟩ | ⟨-, hopen, -⟩
        · rcases List.mem_cons.mp hp with rfl | hp
          · rw [hhandle] at hterm
            exact nomatch hterm
          · rw [hchildren.terminal p hp] at hterm
            exact nomatch hterm
        · rw [hmux] at hopen
          exact nomatch hopen
      · exact h.2.2.not_isPrefix hlen (hns ▸ h.1.2.2) p hp hterm
    · rcases List.mem_append.mp hp with hp | hp
      · intro hpre
        exact hns (eq_of_isPrefix (hnslen.trans hlen.symm) (hself p hp hterm) hpre)
      · apply Open.off hlen h.2.2 _ p hp hterm
        intro mux' children' hrest
        exact hfind mux' children' (by rw [find?, if_neg hns, hrest])

end Handles

namespace SubgraphTransformer

/-- The bookkeeping of a mux that is not closed knows the handles of its first level. -/
structure Ok (t : SubgraphTransformer) : Prop where
  seen : ∀ c, c ∈ t.base.seen ↔ c ∈ t.handles.keys
  opened : ∀ c i, t.base.opened.get? c = some i → c ∈ t.handles.keys
  handles : t.handles.Open t.base.scope t.base.opened

theorem ok_init (scope : Namespace) : (init scope).Ok where
  seen := fun _ => Iff.rfl
  opened := fun _ _ h => nomatch h
  handles := trivial

theorem Ok.of_base {t : SubgraphTransformer} {b : TasksLifecycle} (h : t.Ok)
    (hscope : b.scope = t.base.scope) (hseen : b.seen = t.base.seen)
    (hopened : b.opened = t.base.opened) : (⟨b, t.handles⟩ : SubgraphTransformer).Ok where
  seen := by simp only [hseen]; exact h.seen
  opened := by simp only [hopened]; exact h.opened
  handles := by simp only [hscope, hopened]; exact h.handles

end SubgraphTransformer

namespace Handles

open SubgraphTransformer in
/-- An open mini-mux and the forest around it. -/
theorem Open.around {scope key : Namespace} {opened : OrdDict Namespace String} {mux : MiniMux}
    {children : Handles} (hclosed : mux.closed = false) : ∀ {handles : Handles},
      handles.Open scope opened → handles.find? key = some (mux, children) →
        (⟨mux.base, children⟩ : SubgraphTransformer).Ok ∧ mux.base.scope = key ∧
        ∃ l₁ l₂, handles.all = l₁ ++ children.all ++ l₂ ∧
          (∀ p ∈ l₁ ++ l₂, p.2.seenTerminal = false → ¬(key <+: p.1 ∧ key.length < p.1.length)) ∧
          ∀ child : SubgraphTransformer, child.Ok → child.base.scope = key →
            (handles.replace key { mux with base := child.base } child.handles).Open scope opened ∧
            (handles.replace key { mux with base := child.base } child.handles).keys = handles.keys ∧
            (handles.replace key { mux with base := child.base } child.handles).all =
              l₁ ++ child.handles.all ++ l₂
  | cons ns handle mux' children' rest, h, hfind => by
    have hnslen : ns.length = scope.length + 1 := (h.dropLast_key ns List.mem_cons_self).2
    rw [find?] at hfind
    split at hfind
    · rename_i hns
      rw [Option.some.injEq, Prod.mk.injEq] at hfind
      obtain ⟨rfl, rfl⟩ := hfind
      subst hns
      obtain ⟨hplace, hentry, hrest⟩ := h
      rcases hentry with ⟨-, hclosed', -⟩ | ⟨hterm, -, hget, hscope, hseen, hopen, hchildren⟩
      · rw [hclosed] at hclosed'
        exact nomatch hclosed'
      refine ⟨⟨hseen, hopen, hscope.symm ▸ hchildren⟩, hscope, [(ns, handle)], rest.all, rfl, ?_, ?_⟩
      · intro p hp hpterm hpre
        rcases List.mem_append.mp hp with hp | hp
        · rw [List.mem_singleton.mp hp] at hpre
          exact Nat.lt_irrefl _ hpre.2
        · exact hrest.not_isPrefix hnslen hplace.2.2 p hp hpterm hpre.1
      · intro child hchild hchildscope
        rw [replace, if_pos rfl]
        refine ⟨⟨hplace, .inr ⟨hterm, hclosed, hget, hchildscope, hchild.seen, hchild.opened, ?_⟩,
          hrest⟩, rfl, rfl⟩
        rw [← hchildscope]
        exact hchild.handles
    · rename_i hns
      obtain ⟨hok, hscope, l₁, l₂, hall, hoff, hreplace⟩ := h.2.2.around hclosed hfind
      refine ⟨hok, hscope, (ns, handle) :: (children'.all ++ l₁), l₂, ?_, ?_, ?_⟩
      · rw [all, hall]
        simp
      · intro p hp hpterm hpre
        rw [List.cons_append, List.append_assoc, ← List.cons_append] at hp
        rcases List.mem_append.mp hp with hp | hp
        · -- an entry of another key
          have hkeylen : key.length = scope.length + 1 :=
            (h.2.2.dropLast_key key (mem_keys_of_find? hfind)).2
          have hone : (cons ns handle mux' children' nil).Open scope opened :=
            ⟨⟨h.1.1, h.1.2.1, List.not_mem_nil⟩, h.2.1, trivial⟩
          refine hone.not_isPrefix hkeylen ?_ p ?_ hpterm hpre.1
          · intro hmem
            exact hns (List.mem_singleton.mp hmem).symm
          · rw [all, all, List.append_nil]
            exact hp
        · exact hoff p hp hpterm hpre
      · intro child hchild hchildscope
        obtain ⟨hopen, hkeys, hall'⟩ := hreplace child hchild hchildscope
        rw [replace, if_neg hns]
        refine ⟨⟨⟨h.1.1, h.1.2.1, hkeys ▸ h.1.2.2⟩, h.2.1, hopen⟩, ?_, ?_⟩
        · rw [keys, hkeys, keys]
        · rw [all, hall']
          simp

end Handles
namespace SubgraphTransformer

variable {t : SubgraphTransformer}

/-! The result of a task goes down to the mux that it is about. -/

theorem closes_iff {r c : Namespace} {id : Option String} {i : String} :
    TasksLifecycle.closes r id (c, i) = true ↔ id = some i ∧ i ≠ "" ∧ c.dropLast = r := by
  cases id with
  | none => simp [TasksLifecycle.closes]
  | some j =>
    simp only [TasksLifecycle.closes, Option.any_some, decide_not, Bool.and_eq_true,
      Bool.not_eq_true', decide_eq_false_iff_not, decide_eq_true_eq, Option.some.injEq]
    constructor
    · intro ⟨⟨hne, hdrop⟩, heq⟩
      exact ⟨heq, heq ▸ hne, hdrop⟩
    · intro ⟨heq, hne, hdrop⟩
      exact ⟨⟨heq ▸ hne, hdrop⟩, heq⟩

/-- A result about another namespace than the scope is not for this mux. -/
theorem Ok.bookkeep_other {r : Namespace} (h : t.Ok) (hr : r ≠ t.base.scope) (data : TaskResult) :
    t.bookkeep ⟨r, .result data⟩ = t := by
  have hclose : ∀ e ∈ t.base.opened.entries, TasksLifecycle.closes r data.id e = false := by
    intro e he
    rw [Bool.eq_false_iff]
    intro hcloses
    have hkey := h.opened e.1 e.2 (OrdDict.get?_eq_some_iff.mpr he)
    exact hr ((closes_iff.mp hcloses).2.2.symm.trans (h.handles.dropLast_key e.1 hkey).1)
  have hopened : (t.base.opened.filterMap fun c i =>
      if TasksLifecycle.closes r data.id (c, i) then none else some i) = t.base.opened := by
    apply OrdDict.ext
    show List.filterMap _ _ = _
    have hid : ∀ e ∈ t.base.opened.entries, (if TasksLifecycle.closes r data.id (e.1, e.2) then none
        else some e.2).map (e.1, ·) = some e := by
      intro e he
      rw [hclose e he]
      rfl
    rw [List.filterMap_congr hid, List.filterMap_some]
  have hnone : t.base.opened.entries.filter (TasksLifecycle.closes r data.id) = [] :=
    List.filter_eq_nil_iff.mpr fun e he => Bool.eq_false_iff.mp (hclose e he)
  simp only [bookkeep, TasksLifecycle.popTerminalTransitions, hnone, hopened]
  rfl

theorem Ok.bookkeep_result (h : t.Ok) (data : TaskResult) :
    (t.bookkeep ⟨t.base.scope, .result data⟩).Ok ∧
    (t.bookkeep ⟨t.base.scope, .result data⟩).base.scope = t.base.scope ∧
    (t.bookkeep ⟨t.base.scope, .result data⟩).handles.all =
      t.handles.all.map (Handles.resultEffect t.base.scope t.base.scope data) := by
  have hhandles : (t.bookkeep ⟨t.base.scope, .result data⟩).handles =
      t.handles.closeWhere (fun c => (t.base.opened.get? c).any fun i =>
        TasksLifecycle.closes t.base.scope data.id (c, i))
        (terminalFromResult data).1 (terminalFromResult data).2 := by
    show List.foldl _ _ (((t.base.opened.entries.filter _).map fun e => _)) = _
    have hmap : ((t.base.opened.entries.filter (TasksLifecycle.closes t.base.scope data.id)).map
        fun e => (⟨e.1, (terminalFromResult data).1, (terminalFromResult data).2⟩ : Terminal)) =
          ((t.base.opened.entries.filter (TasksLifecycle.closes t.base.scope data.id)).map
            Prod.fst).map fun ns => ⟨ns, (terminalFromResult data).1, (terminalFromResult data).2⟩ := by
      rw [List.map_map]
      rfl
    rw [hmap, Handles.onTerminals_eq _ _ _ h.handles.nodup_keys]
    apply Handles.closeWhere_congr
    intro c _
    rw [Bool.eq_iff_iff, List.contains_iff_mem, Option.any_eq_true]
    constructor
    · intro hc
      obtain ⟨e, he, rfl⟩ := List.mem_map.mp hc
      rw [List.mem_filter] at he
      exact ⟨e.2, OrdDict.get?_eq_some_iff.mpr he.1, he.2⟩
    · intro ⟨i, hi, hcloses⟩
      exact List.mem_map.mpr
        ⟨(c, i), List.mem_filter.mpr ⟨OrdDict.get?_eq_some_iff.mp hi, hcloses⟩, rfl⟩
  have hopened : ∀ c, (t.bookkeep ⟨t.base.scope, .result data⟩).base.opened.get? c =
      if ((t.base.opened.get? c).any fun i => TasksLifecycle.closes t.base.scope data.id (c, i)) then
        none else t.base.opened.get? c := by
    intro c
    show (OrdDict.filterMap _ _).get? c = _
    rw [OrdDict.get?_filterMap]
    cases t.base.opened.get? c with
    | none => rfl
    | some i => rfl
  have hclose := h.handles.closeWhere data (fun _ => rfl) hopened
  refine ⟨⟨?_, ?_, ?_⟩, rfl, ?_⟩
  · rw [hhandles, Handles.keys_closeWhere]
    exact h.seen
  · intro c i hi
    rw [hhandles, Handles.keys_closeWhere]
    rw [hopened] at hi
    split at hi
    · exact nomatch hi
    · exact h.opened c i hi
  · rw [hhandles]
    exact hclose.1
  · rw [hhandles]
    exact hclose.2

/-- Where no handle is below a namespace, a result changes none. -/
theorem resultEffect_off {scope r : Namespace} {data : TaskResult}
    {l : List (Namespace × Handle)} (hoff : ∀ p ∈ l, p.2.seenTerminal = false →
      Handles.ends scope r data.id p.1 = false) : l.map (Handles.resultEffect scope r data) = l := by
  have hid : ∀ p ∈ l, Handles.resultEffect scope r data p = id p := by
    intro p hp
    cases hterm : p.2.seenTerminal with
    | true => exact Handles.resultEffect_of_terminal hterm scope r data
    | false =>
      rw [Handles.resultEffect, if_neg]
      · rfl
      · rw [hoff p hp hterm]
        decide
  rw [List.map_congr_left hid, List.map_id]

theorem prefix_of_ends {scope r ns : Namespace} {id : Option String}
    (h : Handles.ends scope r id ns = true) :
    scope.length ≤ r.length ∧ r.length < ns.length ∧ r <+: ns := by
  simp only [Handles.ends, Bool.and_eq_true, decide_eq_true_eq] at h
  obtain ⟨⟨⟨⟨hscope, hlt⟩, htake⟩, -⟩, -⟩ := h
  exact ⟨hscope, hlt, htake ▸ List.take_prefix _ _⟩

theorem ends_congr {scope scope' r : Namespace} (h : scope.length ≤ r.length)
    (h' : scope'.length ≤ r.length) (id : Option String) (ns : Namespace) :
    Handles.ends scope r id ns = Handles.ends scope' r id ns := by
  simp [Handles.ends, h, h']

/-- The event stays with a mux that has no open mini-mux for it. -/
theorem process_of_off {event : TaskEvent} {n : Nat} {t : SubgraphTransformer}
    (hfind : ∀ mux children, (t.bookkeep event).handles.find?
      (event.ns.take ((t.bookkeep event).base.scope.length + 1)) = some (mux, children) →
        mux.closed = true) : process event (n + 1) t = t.bookkeep event := by
  simp only [process]
  split
  · rfl
  · rename_i mux children hsome
    rw [if_pos (hfind mux children hsome)]

theorem process_of_open {event : TaskEvent} {n : Nat} {t : SubgraphTransformer} {mux : MiniMux}
    {children : Handles} (hfind : (t.bookkeep event).handles.find?
      (event.ns.take ((t.bookkeep event).base.scope.length + 1)) = some (mux, children))
    (hclosed : mux.closed = false) :
    process event (n + 1) t = ⟨(t.bookkeep event).base,
      (t.bookkeep event).handles.replace (event.ns.take ((t.bookkeep event).base.scope.length + 1))
        { mux with base := (process event n ⟨mux.base, children⟩).base }
        (process event n ⟨mux.base, children⟩).handles⟩ := by
  simp only [process, hfind, hclosed, Bool.false_eq_true, if_false]

/-- An event finds a mini-mux that is open, or stays. -/
theorem off_or_open (handles : Handles) (key : Namespace) :
    (∀ mux children, handles.find? key = some (mux, children) → mux.closed = true) ∨
      ∃ mux children, handles.find? key = some (mux, children) ∧ mux.closed = false := by
  cases hfind : handles.find? key with
  | none => exact .inl fun _ _ h => nomatch h
  | some found =>
    cases hclosed : found.1.closed with
    | true =>
      left
      rintro mux children ⟨⟩
      exact hclosed
    | false => exact .inr ⟨found.1, found.2, rfl, hclosed⟩

theorem Ok.process_result (r : Namespace) (data : TaskResult) : ∀ (n : Nat) {t : SubgraphTransformer},
    t.Ok → r.length - t.base.scope.length = n →
      (process ⟨r, .result data⟩ n t).Ok ∧
      (process ⟨r, .result data⟩ n t).base.scope = t.base.scope ∧
      (process ⟨r, .result data⟩ n t).handles.all =
        t.handles.all.map (Handles.resultEffect t.base.scope r data)
  | 0, t, h, hn => by
    rw [process]
    by_cases hr : r = t.base.scope
    · rw [hr]
      exact h.bookkeep_result data
    rw [h.bookkeep_other hr data]
    refine ⟨h, rfl, (resultEffect_off ?_).symm⟩
    intro p hp hterm
    rw [Bool.eq_false_iff]
    intro hends
    -- the handle is below the scope, and the scope is not longer than `r`
    obtain ⟨hle, -, hpre⟩ := prefix_of_ends hends
    obtain ⟨c, -, -, hdrop, hcpre⟩ := h.handles.exists_key p hp hterm
    have hscope : t.base.scope <+: p.1 := (hdrop ▸ List.dropLast_prefix c).trans hcpre
    exact hr (Handles.eq_of_isPrefix (by omega) hpre hscope)
  | n + 1, t, h, hn => by
    have hlen : t.base.scope.length < r.length := by omega
    have hr : r ≠ t.base.scope := fun heq => by rw [heq] at hlen; omega
    have hstay := h.bookkeep_other hr data
    have hkeylen : (r.take (t.base.scope.length + 1)).length = t.base.scope.length + 1 := by
      rw [List.length_take]
      omega
    have hkeypre : r.take (t.base.scope.length + 1) <+: r := List.take_prefix _ _
    rcases off_or_open t.handles (r.take (t.base.scope.length + 1)) with
      hfind | ⟨mux, children, hfind, hclosed⟩
    · rw [process_of_off (by rw [hstay]; exact hfind), hstay]
      refine ⟨h, rfl, (resultEffect_off ?_).symm⟩
      intro p hp hterm
      rw [Bool.eq_false_iff]
      intro hends
      exact h.handles.off hkeylen hfind p hp hterm (hkeypre.trans (prefix_of_ends hends).2.2)
    obtain ⟨hok, hscope, l₁, l₂, hall, hout, hreplace⟩ := h.handles.around hclosed hfind
    obtain ⟨hchild, hchildscope, hchildall⟩ :=
      Ok.process_result r data n hok (by rw [hscope, hkeylen]; omega)
    obtain ⟨hopen, hkeys, hreplaced⟩ := hreplace _ hchild (hchildscope.trans hscope)
    rw [process_of_open (by rw [hstay]; exact hfind) hclosed, hstay]
    refine ⟨⟨?_, ?_, hopen⟩, rfl, ?_⟩
    · intro c
      rw [h.seen c]
      exact hkeys ▸ Iff.rfl
    · intro c i hi
      exact hkeys ▸ h.opened c i hi
    · have hside : ∀ l, l ⊆ l₁ ++ l₂ → l.map (Handles.resultEffect t.base.scope r data) = l := by
        intro l hl
        apply resultEffect_off
        intro p hp hterm
        rw [Bool.eq_false_iff]
        intro hends
        obtain ⟨-, hlt, hpre⟩ := prefix_of_ends hends
        exact hout p (hl hp) hterm ⟨hkeypre.trans hpre, by omega⟩
      have hsame : Handles.resultEffect mux.base.scope r data =
          Handles.resultEffect t.base.scope r data := by
        funext p
        unfold Handles.resultEffect
        rw [ends_congr (by rw [hscope, hkeylen]; omega) hlen.le]
      show (Handles.replace _ _ _ _).all = _
      rw [hreplaced, hchildall, hsame, hall, List.map_append, List.map_append,
        hside l₁ (List.subset_append_left _ _), hside l₂ (List.subset_append_right _ _)]

end SubgraphTransformer

/-! The start of a task. -/

namespace Handles

/-- A new handle of the first level. -/
theorem Open.set {scope key : Namespace} {opened opened' : OrdDict Namespace String}
    {handle : Handle} (hne : key ≠ []) (hdrop : key.dropLast = scope)
    (hterm : handle.seenTerminal = false) (hkey : opened'.get? key = triggerOf key)
    (hopened : ∀ c, c ≠ key → opened'.get? c = opened.get? c) :
    ∀ {handles : Handles}, handles.Open scope opened → key ∉ handles.keys →
      (handles.set key handle (.init key)).Open scope opened' ∧
      (handles.set key handle (.init key)).keys = handles.keys ++ [key] ∧
      (handles.set key handle (.init key)).all = handles.all ++ [(key, handle)]
  | nil, _, _ => by
    refine ⟨⟨⟨hne, hdrop, List.not_mem_nil⟩, .inr ?_, trivial⟩, rfl, rfl⟩
    exact ⟨hterm, rfl, hkey, rfl, fun _ => Iff.rfl, fun _ _ h => (nomatch h), trivial⟩
  | cons ns handle' mux children rest, h, hmem => by
    have hns : key ≠ ns := fun heq => hmem (heq ▸ List.mem_cons_self)
    have hrest : key ∉ rest.keys := fun h => hmem (List.mem_cons_of_mem ns h)
    obtain ⟨hopen, hkeys, hall⟩ := Open.set hne hdrop hterm hkey hopened h.2.2 hrest
    rw [Handles.set, if_neg fun heq => hns heq.symm]
    refine ⟨⟨⟨h.1.1, h.1.2.1, ?_⟩, ?_, hopen⟩, ?_, ?_⟩
    · rw [hkeys, List.mem_append, List.mem_singleton]
      exact not_or.mpr ⟨h.1.2.2, fun heq => hns heq.symm⟩
    · rw [hopened ns fun heq => hns heq.symm]
      exact h.2.1
    · rw [keys, hkeys, keys, List.cons_append]
    · rw [all, hall, all, List.cons_append, List.append_assoc]

end Handles

namespace SubgraphTransformer

variable {t : SubgraphTransformer}

open LifecycleTransformer (scope_recordPending seen_recordPending opened_recordPending)

/-- The handles after a start event: those there were, and perhaps one of the namespace. -/
structure Grows (ns : Namespace) (t t' : SubgraphTransformer) : Prop where
  ok : t'.Ok
  scope : t'.base.scope = t.base.scope
  kept : ∀ p ∈ t.handles.all, p ∈ t'.handles.all
  new : ∀ p ∈ t'.handles.all, p ∈ t.handles.all ∨ p.1 = ns ∧ p.2.seenTerminal = false ∧
    LifecycleTransformer.shouldTrack t.base.scope ns = true

theorem Ok.bookkeep_start (h : t.Ok) (ns : Namespace) (data : TaskStart) :
    Grows ns t (t.bookkeep ⟨ns, .start data⟩) := by
  have hrecorded := h.of_base (scope_recordPending t.base data) (seen_recordPending t.base data)
    (opened_recordPending t.base data)
  by_cases hknown : shouldTrack t.base.scope ns = false ∨
      ns ∈ (t.base.recordPendingToolCalls data).seen
  · have hsame : t.bookkeep ⟨ns, .start data⟩ = ⟨t.base.recordPendingToolCalls data, t.handles⟩ := by
      simp only [bookkeep, TasksLifecycle.handleTaskStart, if_pos hknown, Option.elim_none]
    rw [hsame]
    exact ⟨hrecorded, scope_recordPending _ _, fun _ hp => hp, fun _ hp => .inl hp⟩
  have htrack : shouldTrack t.base.scope ns = true := by
    by_contra htrack
    exact hknown (.inl (Bool.not_eq_true _ ▸ htrack))
  have hkey : ns ∉ t.handles.keys := by
    intro hmem
    exact hknown (.inr (by rw [seen_recordPending]; exact (h.seen ns).mpr hmem))
  simp only [shouldTrack, Bool.decide_and, Bool.and_eq_true, decide_eq_true_eq] at htrack
  obtain ⟨hlen, htake⟩ := htrack
  have hne : ns ≠ [] := by
    rintro rfl
    cases hlen
  have hdrop : ns.dropLast = t.base.scope := by
    rw [List.dropLast_eq_take, hlen, Nat.add_sub_cancel, htake]
  have hnone : t.base.opened.get? ns = none := by
    cases hget : t.base.opened.get? ns with
    | none => rfl
    | some i => exact absurd (h.opened ns i hget) hkey
  -- the new bookkeeping, whether or not the segment has a task's id
  obtain ⟨base, started, hstep, hstarted, hscope, hseen, hget, hother⟩ :
      ∃ base started, (t.base.recordPendingToolCalls data).handleTaskStart
          (shouldTrack t.base.scope) ns data = (base, some started) ∧ started.ns = ns ∧
        base.scope = t.base.scope ∧ base.seen = t.base.seen ++ [ns] ∧
        base.opened.get? ns = triggerOf ns ∧
        ∀ c, c ≠ ns → base.opened.get? c = t.base.opened.get? c := by
    simp only [TasksLifecycle.handleTaskStart, if_neg hknown]
    cases htrigger : triggerOf ns with
    | none =>
      exact ⟨_, _, rfl, rfl, scope_recordPending _ _, by rw [seen_recordPending],
        by rw [opened_recordPending]; exact hnone, fun c _ => by rw [opened_recordPending]⟩
    | some i =>
      refine ⟨_, _, rfl, rfl, scope_recordPending _ _, by rw [seen_recordPending],
        OrdDict.get?_set_self _ _ _, fun c hc => ?_⟩
      rw [opened_recordPending]
      exact OrdDict.get?_set_of_ne hc _ _
  have hset := @Handles.Open.set _ _ _ _ (.ofStarted started) hne hdrop rfl hget hother _ h.handles
    hkey
  have hnew : t.bookkeep ⟨ns, .start data⟩ =
      ⟨base, t.handles.set ns (.ofStarted started) (.init ns)⟩ := by
    simp only [bookkeep, hstep, Option.elim_some, hstarted]
  rw [hnew]
  obtain ⟨hopen, hkeys, hall⟩ := hset
  refine ⟨⟨fun c => ?_, fun c i hi => ?_, hscope.symm ▸ hopen⟩, hscope, fun p hp => ?_, fun p hp => ?_⟩
  · rw [hseen, hkeys, List.mem_append, List.mem_append, h.seen c]
  · rw [hkeys, List.mem_append, List.mem_singleton]
    by_cases hc : c = ns
    · exact .inr hc
    · exact .inl (h.opened c i (hother c hc ▸ hi))
  · rw [hall]
    exact List.mem_append_left _ hp
  · rw [hall, List.mem_append, List.mem_singleton] at hp
    rcases hp with hp | rfl
    · exact .inl hp
    · right
      refine ⟨rfl, rfl, ?_⟩
      simp [LifecycleTransformer.shouldTrack, hlen, htake]

theorem Ok.process_start (ns : Namespace) (data : TaskStart) : ∀ (n : Nat) {t : SubgraphTransformer},
    t.Ok → ns.length - t.base.scope.length = n → Grows ns t (process ⟨ns, .start data⟩ n t)
  | 0, t, h, _ => h.bookkeep_start ns data
  | n + 1, t, h, hn => by
    have hgrows := h.bookkeep_start ns data
    have hlen : t.base.scope.length < ns.length := by omega
    rcases off_or_open (t.bookkeep ⟨ns, .start data⟩).handles
        (ns.take ((t.bookkeep ⟨ns, .start data⟩).base.scope.length + 1)) with
      hfind | ⟨mux, children, hfind, hclosed⟩
    · rw [process_of_off hfind]
      exact hgrows
    obtain ⟨hok, hscope, l₁, l₂, hall, -, hreplace⟩ := hgrows.ok.handles.around hclosed hfind
    have hkeydrop := (hgrows.ok.handles.dropLast_key _ (Handles.mem_keys_of_find? hfind)).1
    have hkeylen : (ns.take ((t.bookkeep ⟨ns, .start data⟩).base.scope.length + 1)).length =
        t.base.scope.length + 1 := by
      rw [hgrows.scope, List.length_take]
      omega
    have hchild := Ok.process_start ns data n hok (by
      rw [show (⟨mux.base, children⟩ : SubgraphTransformer).base.scope = _ from hscope, hkeylen]
      omega)
    obtain ⟨hopen, hkeys, hreplaced⟩ := hreplace _ hchild.ok (hchild.scope.trans hscope)
    rw [process_of_open hfind hclosed]
    refine ⟨⟨fun c => ?_, fun c i hi => ?_, hopen⟩, hgrows.scope, fun p hp => ?_, fun p hp => ?_⟩
    · rw [hgrows.ok.seen c]
      exact hkeys ▸ Iff.rfl
    · exact hkeys ▸ hgrows.ok.opened c i hi
    · show p ∈ (Handles.replace _ _ _ _).all
      have hmem := hgrows.kept p hp
      rw [hall, List.mem_append, List.mem_append] at hmem
      rw [hreplaced, List.mem_append, List.mem_append]
      rcases hmem with (hmem | hmem) | hmem
      · exact .inl (.inl hmem)
      · exact .inl (.inr (hchild.kept p hmem))
      · exact .inr hmem
    · replace hp : p ∈ (Handles.replace _ _ _ _).all := hp
      rw [hreplaced, List.mem_append, List.mem_append] at hp
      have hold : p ∈ l₁ ++ children.all ++ l₂ → p ∈ t.handles.all ∨ p.1 = ns ∧
          p.2.seenTerminal = false ∧ LifecycleTransformer.shouldTrack t.base.scope ns = true :=
        fun hmem => hgrows.new p (hall ▸ hmem)
      simp only [List.mem_append] at hold
      rcases hp with (hp | hp) | hp
      · exact hold (.inl (.inl hp))
      · rcases hchild.new p hp with hp | ⟨hns, hterm, htrack⟩
        · exact hold (.inl (.inr hp))
        · right
          refine ⟨hns, hterm, ?_⟩
          -- the scope of the mini-mux is one segment longer than this one
          have htake : ns.take t.base.scope.length = t.base.scope := by
            have hpre : t.base.scope <+: ns := by
              rw [← hgrows.scope, ← hkeydrop]
              exact (List.dropLast_prefix _).trans (List.take_prefix _ _)
            exact (List.prefix_iff_eq_take.mp hpre).symm
          simp [LifecycleTransformer.shouldTrack, hlen, htake]
      · exact hold (.inr hp)

end SubgraphTransformer
end LangGraph.Stream
