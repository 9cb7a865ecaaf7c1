import Mathlib.Logic.Function.Basic
import Mathlib.Data.List.Infix
import LangGraph.Lib.Machine
import LangGraph.Lib.OrdDict

/- The handles of nested subgraphs, and the events that reach their inboxes.

   Correspondence (source ↔ Lean):
     `ScopedStreamHandle` (_async/stream.py)           ↔ `Handle`, in a `World` by its path
     `_parse_namespace_segment`                        ↔ `triggerCallId`
     `_is_direct_child`                                ↔ `child?`
     `ScopedStreamHandle._push_event`                  ↔ `pushEvent`
     `ScopedStreamHandle._register_descendant`         ↔ `register`
     `ScopedStreamHandle._unregister_descendant`       ↔ the branch of a result in `handleTask`
     the consumers of `messages` and `tool_calls`      ↔ `Act.take`
     `_HandleSubgraphsProjection._subgraphs_iter`      ↔ `Act.next`, `handleTask`
   A path is relative to the handle that events are pushed to, whose own path is `scope`.
   `active` are the last segments of the registered descendants, which are the active
   children of the consumer of `subgraphs`. The inboxes are unbounded, the end markers in
   them and the status of a handle are left out. `arrived` is a history: all events that
   were ever placed in an inbox. `grandchild_arrived` says what reaches a grandchild. -/
namespace LangGraph.Sdk.Scoped

variable {V : Type}

/- ── Events and handles ────────────────────────────────────────────────────── -/

inductive Kind where
  | messages
  | tools
  | tasks
  deriving DecidableEq

/-- What a tasks event says: a result, of a task with an id, or a task. -/
inductive Data where
  | result (id : Option String)
  | task
  deriving DecidableEq

/-- An event; `method` is none for other methods, `data` when it is not a dict. -/
structure Event (V : Type) where
  method : Option Kind
  space : List String
  data : Option Data
  value : V
  deriving DecidableEq

structure Handle (V : Type) where
  inbox : Kind → List (Event V)
  arrived : Kind → List (Event V)
  seen : List String
  active : List String

def Handle.new : Handle V := ⟨fun _ => [], fun _ => [], [], []⟩

abbrev World (V : Type) := List String → Handle V

def start : World V := fun _ => .new

/-- The event's namespace is the path or lies below it. -/
def under (path : List String) (e : Event V) : Bool := path.isPrefixOf e.space

/-- The task id of a segment, after its first colon. -/
def triggerCallId (segment : String) : Option String :=
  match segment.toList.dropWhile (· ≠ ':') with
  | [] => none
  | _ :: id => some (String.ofList id)

/-- The last segment of a namespace that is a direct child of a path. -/
def child? (path space : List String) : Option String :=
  if path.isPrefixOf space then
    match space.drop path.length with
    | [segment] => some segment
    | _ => none
  else none

def Handle.put (h : Handle V) (k : Kind) (es : List (Event V)) : Handle V :=
  { h with
    inbox := Function.update h.inbox k (h.inbox k ++ es)
    arrived := Function.update h.arrived k (h.arrived k ++ es) }

def World.put (w : World V) (q : List String) (k : Kind) (es : List (Event V)) : World V :=
  Function.update w q ((w q).put k es)

/-- `rest` is the event's namespace below the handle. The registered descendants are
    direct children, so at most one of them is on the way. -/
def pushEvent (w : World V) (e : Event V) (q : List String) : List String → World V
  | [] =>
    match e.method with
    | none => w
    | some k => w.put q k [e]
  | segment :: rest =>
    match e.method with
    | none => w
    | some k =>
      if segment ∈ (w q).active then pushEvent (w.put q k [e]) e (q ++ [segment]) rest
      else w.put q k [e]

section

variable (scope : List String)

/-- The namespace below the handle that events are pushed to. -/
def below (e : Event V) : List String :=
  if scope.isPrefixOf e.space then e.space.drop scope.length else []

/-- The events in the inboxes are read through, put back in their order, and those of the
    child are placed in its inboxes. -/
def register (w : World V) (q : List String) (segment : String) : World V :=
  let h := w q
  let g := q ++ [segment]
  let w := Function.update w q { h with
    seen := h.seen ++ [segment], active := h.active ++ [segment] }
  let place := fun (w : World V) (k : Kind) =>
    w.put g k ((h.inbox k).filter (under (scope ++ g)))
  place (place (place w .messages) .tools) .tasks

/-- What the consumer of `subgraphs` does with a tasks event. -/
def handleTask (w : World V) (q : List String) (e : Event V) : World V :=
  match e.data with
  | none => w
  | some (.result id) =>
    if id = none ∨ id = some "" then w
    else if e.space = scope ++ q then
      Function.update w q { w q with
        active := (w q).active.filter fun segment => triggerCallId segment ≠ id }
    else w
  | some .task =>
    match child? (scope ++ q) e.space with
    | none => w
    | some segment => if segment ∈ (w q).seen then w else register scope w q segment

inductive Act (V : Type) where
  | push (e : Event V)
  | take (q : List String) (k : Kind)
  | next (q : List String)

def Handle.pop (h : Handle V) (k : Kind) : Handle V :=
  { h with inbox := Function.update h.inbox k (h.inbox k).tail }

/-- An event is pushed, or a consumer takes the next one from its inbox: the one of
    `messages` or of `tool_calls` for itself, the one of `subgraphs` to handle it. -/
def step (w : World V) : Act V → Option (World V)
  | .push e => some (pushEvent w e [] (below scope e))
  | .take q k =>
    if k = .tasks ∨ (w q).inbox k = [] then none
    else some (Function.update w q ((w q).pop k))
  | .next q =>
    match (w q).inbox .tasks with
    | [] => none
    | e :: _ => some (handleTask scope (Function.update w q ((w q).pop .tasks)) q e)

end

/-- The events of a method that are pushed. -/
def pushed (k : Kind) : List (Act V) → List (Event V)
  | [] => []
  | .push e :: acts => if e.method = some k then e :: pushed k acts else pushed k acts
  | .take _ _ :: acts => pushed k acts
  | .next _ :: acts => pushed k acts

/-- How many events consumers have taken from an inbox. -/
def taken (h : Handle V) (k : Kind) : Nat := (h.arrived k).length - (h.inbox k).length

/- ── What a step does to the histories ─────────────────────────────────────── -/

section

variable {w w' : World V} {e : Event V} {q p : List String} {k : Kind}

/-- The handles that an event passes on its way down. -/
def way (w : World V) (q : List String) : List String → List (List String)
  | [] => [q]
  | segment :: rest =>
    if segment ∈ (w q).active then q :: way w (q ++ [segment]) rest else [q]

theorem put_active (w : World V) (q p : List String) (k : Kind) (es : List (Event V)) :
    (w.put q k es p).active = (w p).active ∧ (w.put q k es p).seen = (w p).seen := by
  by_cases hp : p = q
  · subst hp
    simp [World.put, Handle.put]
  · simp [World.put, hp]

theorem put_of_ne (w : World V) {q p : List String} (k : Kind) (es : List (Event V)) (h : p ≠ q) :
    w.put q k es p = w p := Function.update_of_ne h _ _

theorem put_self (w : World V) (q : List String) (k : Kind) (es : List (Event V)) :
    w.put q k es q = (w q).put k es := Function.update_self _ _ _

/-- What a change of one handle leaves as it is there, it leaves as it is everywhere. -/
theorem update_field (w : World V) (q : List String) {α : Type} (f : Handle V → α) {h : Handle V}
    (hf : f h = f (w q)) (p : List String) : f (Function.update w q h p) = f (w p) := by
  by_cases hp : p = q
  · subst hp
    rw [Function.update_self, hf]
  · rw [Function.update_of_ne hp]

theorem way_put (w : World V) (p : List String) (k : Kind) (es : List (Event V)) :
    ∀ (rest q : List String), way (w.put p k es) q rest = way w q rest
  | [], q => rfl
  | segment :: rest, q => by
    simp only [way, (put_active w p q k es).1, way_put w p k es rest]

/-- An event is placed in the inbox of its method of every handle on its way. -/
theorem pushEvent_eq (w : World V) (e : Event V) : ∀ (rest q : List String),
    pushEvent w e q rest = match e.method with
      | none => w
      | some k => (way w q rest).foldl (fun w q => w.put q k [e]) w := by
  intro rest
  induction rest generalizing w with
  | nil =>
    intro q
    unfold pushEvent way
    cases e.method with
    | none => rfl
    | some k => rfl
  | cons segment rest ih =>
    intro q
    unfold pushEvent way
    cases hm : e.method with
    | none => rfl
    | some k =>
      by_cases hseg : segment ∈ (w q).active
      · simp only [if_pos hseg, List.foldl_cons]
        rw [ih, hm]
        simp only [way_put]
      · simp only [if_neg hseg]
        rfl

/-- The segments of a path are active, one below the other. -/
def Linked (w : World V) : List String → List String → Prop
  | _, [] => True
  | q, segment :: rest => segment ∈ (w q).active ∧ Linked w (q ++ [segment]) rest

theorem linked_concat {segment : String} : ∀ {path q : List String},
    Linked w q (path ++ [segment]) ↔ Linked w q path ∧ segment ∈ (w (q ++ path)).active
  | [], q => by
    rw [List.append_nil]
    show segment ∈ (w q).active ∧ True ↔ True ∧ segment ∈ (w q).active
    exact and_comm
  | s :: path, q => by
    show s ∈ (w q).active ∧ Linked w (q ++ [s]) (path ++ [segment]) ↔
      (s ∈ (w q).active ∧ Linked w (q ++ [s]) path) ∧ _
    rw [linked_concat, and_assoc, List.append_assoc, List.singleton_append]

theorem mem_way : ∀ {rest q : List String},
    p ∈ way w q rest ↔ ∃ path, p = q ++ path ∧ path <+: rest ∧ Linked w q path
  | [], q => by
    refine ⟨?_, ?_⟩
    · intro h
      exact ⟨[], (List.mem_singleton.mp h).trans (List.append_nil q).symm, List.nil_prefix, trivial⟩
    · intro h
      obtain ⟨path, hp, hpath, _⟩ := h
      rw [hp, List.prefix_nil.mp hpath, List.append_nil]
      exact List.mem_singleton.mpr rfl
  | segment :: rest, q => by
    unfold way
    refine ⟨?_, ?_⟩
    · intro h
      split at h
      · rename_i hactive
        cases List.mem_cons.mp h with
        | inl heq => exact ⟨[], heq.trans (List.append_nil q).symm, List.nil_prefix, trivial⟩
        | inr hmem =>
          obtain ⟨path, hp, hpath, hlinked⟩ := mem_way.mp hmem
          refine ⟨segment :: path, ?_, List.cons_prefix_cons.mpr ⟨rfl, hpath⟩, hactive, hlinked⟩
          rw [hp, List.append_assoc, List.singleton_append]
      · exact ⟨[], (List.mem_singleton.mp h).trans (List.append_nil q).symm, List.nil_prefix,
          trivial⟩
    · intro h
      obtain ⟨path, hp, hpath, hlinked⟩ := h
      cases path with
      | nil =>
        rw [hp, List.append_nil]
        split
        · exact List.mem_cons_self
        · exact List.mem_singleton.mpr rfl
      | cons s path =>
        obtain ⟨rfl, htail⟩ := List.cons_prefix_cons.mp hpath
        rw [if_pos hlinked.1]
        apply List.mem_cons_of_mem
        rw [mem_way]
        refine ⟨path, ?_, htail, hlinked.2⟩
        rw [hp, List.append_assoc, List.singleton_append]

/-- From the top: a handle is on the way to the namespaces below it, if it is linked. -/
theorem mem_way_nil {rest : List String} : p ∈ way w [] rest ↔ p <+: rest ∧ Linked w [] p := by
  rw [mem_way]
  refine ⟨?_, ?_⟩
  · intro h
    obtain ⟨path, hp, hpath, hlinked⟩ := h
    rw [hp, List.nil_append]
    exact ⟨hpath, hlinked⟩
  · intro h
    exact ⟨p, (List.nil_append p).symm, h⟩

theorem child_mem_way {segment : String} {rest : List String} :
    p ++ [segment] ∈ way w [] rest ↔
      p ∈ way w [] rest ∧ segment ∈ (w p).active ∧ p ++ [segment] <+: rest := by
  rw [mem_way_nil, mem_way_nil, linked_concat, List.nil_append]
  refine ⟨?_, ?_⟩
  · intro h
    exact ⟨⟨(List.prefix_append p [segment]).trans h.1, h.2.1⟩, h.2.2, h.1⟩
  · intro h
    exact ⟨h.2.2, h.1.2, h.2.1⟩

theorem nodup_way : ∀ (rest q : List String), (way w q rest).Nodup
  | [], q => List.nodup_cons.mpr ⟨List.not_mem_nil, List.nodup_nil⟩
  | segment :: rest, q => by
    unfold way
    split
    · apply List.nodup_cons.mpr
      refine ⟨?_, nodup_way rest _⟩
      intro hmem
      obtain ⟨path, hp, _⟩ := mem_way.mp hmem
      have hlength := congrArg List.length hp
      rw [List.length_append, List.length_append, List.length_singleton] at hlength
      omega
    · exact List.nodup_cons.mpr ⟨List.not_mem_nil, List.nodup_nil⟩

/-- What a push leaves at a handle. -/
theorem pushEvent_apply (w : World V) (e : Event V) (rest : List String) :
    pushEvent w e [] rest p = match e.method with
      | none => w p
      | some k => if p ∈ way w [] rest then (w p).put k [e] else w p := by
  rw [pushEvent_eq]
  cases e.method with
  | none => rfl
  | some k =>
    show (way w [] rest).foldl (fun w q => w.put q k [e]) w p =
      if p ∈ way w [] rest then (w p).put k [e] else w p
    have hnodup : (way w [] rest).Nodup := nodup_way rest []
    revert hnodup
    generalize way w [] rest = qs
    intro hnodup
    induction qs generalizing w with
    | nil => simp
    | cons q qs ih =>
      obtain ⟨hq, hnodup⟩ := List.nodup_cons.mp hnodup
      rw [List.foldl_cons, ih _ hnodup]
      by_cases hp : p = q
      · subst hp
        rw [if_neg hq, if_pos List.mem_cons_self, put_self]
      · rw [put_of_ne w k [e] hp]
        simp only [List.mem_cons, hp, false_or]

theorem put_arrived (h : Handle V) (k k' : Kind) (es : List (Event V)) :
    (h.put k es).arrived k' = if k' = k then h.arrived k' ++ es else h.arrived k' := by
  by_cases hk : k' = k
  · subst hk
    simp [Handle.put]
  · simp [Handle.put, hk]

theorem put_inbox (h : Handle V) (k k' : Kind) (es : List (Event V)) :
    (h.put k es).inbox k' = if k' = k then h.inbox k' ++ es else h.inbox k' := by
  by_cases hk : k' = k
  · subst hk
    simp [Handle.put]
  · simp [Handle.put, hk]

/-- The handle with events placed in all of its inboxes. -/
def Handle.fill (h : Handle V) (es : Kind → List (Event V)) : Handle V :=
  ((h.put .messages (es .messages)).put .tools (es .tools)).put .tasks (es .tasks)

theorem fill_arrived (h : Handle V) (es : Kind → List (Event V)) (k : Kind) :
    (h.fill es).arrived k = h.arrived k ++ es k := by
  unfold Handle.fill
  cases k <;> simp [put_arrived]

theorem fill_inbox (h : Handle V) (es : Kind → List (Event V)) (k : Kind) :
    (h.fill es).inbox k = h.inbox k ++ es k := by
  unfold Handle.fill
  cases k <;> simp [put_inbox]

theorem ne_concat (q : List String) (segment : String) : q ≠ q ++ [segment] := by
  intro h
  have := congrArg List.length h
  rw [List.length_append, List.length_singleton] at this
  omega

/-- A registration fills the child's inboxes from those of the handle. -/
theorem register_child (scope : List String) (w : World V) (q : List String) (segment : String) :
    register scope w q segment (q ++ [segment]) = (w (q ++ [segment])).fill fun k =>
      ((w q).inbox k).filter (under (scope ++ (q ++ [segment]))) := by
  unfold register Handle.fill
  simp only [put_self]
  rw [Function.update_of_ne (ne_concat q segment).symm]

theorem register_self (scope : List String) (w : World V) (q : List String) (segment : String) :
    register scope w q segment q = { w q with
      seen := (w q).seen ++ [segment], active := (w q).active ++ [segment] } := by
  unfold register
  simp only [put_of_ne _ _ _ (ne_concat q segment), Function.update_self]

theorem register_of_ne (scope : List String) (w : World V) {q p : List String} {segment : String}
    (hq : p ≠ q) (hg : p ≠ q ++ [segment]) : register scope w q segment p = w p := by
  unfold register
  simp only [put_of_ne _ _ _ hg, Function.update_of_ne hq]

theorem register_arrived (scope : List String) (w : World V) {q p : List String}
    {segment : String} (hg : p ≠ q ++ [segment]) (k : Kind) :
    (register scope w q segment p).arrived k = (w p).arrived k := by
  by_cases hq : p = q
  · subst hq
    rw [register_self]
  · rw [register_of_ne scope w hq hg]

end

/- ── The inboxes are queues ────────────────────────────────────────────────── -/

/-- An inbox holds the last of what has arrived; a child that was not seen has no handle
    yet; active children were seen. -/
structure Inv (w : World V) : Prop where
  queue : ∀ q k, (w q).inbox k <:+ (w q).arrived k
  fresh : ∀ q segment, segment ∉ (w q).seen → w (q ++ [segment]) = .new
  active : ∀ q, ∀ segment ∈ (w q).active, segment ∈ (w q).seen

theorem inv_start : Inv (start : World V) :=
  ⟨fun _ _ => List.suffix_refl _, fun _ _ _ => rfl, fun _ _ h => (List.not_mem_nil h).elim⟩

section

variable {scope : List String} {w w' : World V} {e : Event V} {q p : List String} {k : Kind}

theorem put_queue {h : Handle V} (hqueue : ∀ k, h.inbox k <:+ h.arrived k) (k : Kind)
    (es : List (Event V)) (k' : Kind) : (h.put k es).inbox k' <:+ (h.put k es).arrived k' := by
  rw [put_inbox, put_arrived]
  split
  · obtain ⟨t, ht⟩ := hqueue k'
    exact ⟨t, by rw [← ht, List.append_assoc]⟩
  · exact hqueue k'

theorem Inv.push (h : Inv w) (e : Event V) (rest : List String) : Inv (pushEvent w e [] rest) := by
  have hsame : ∀ p, (pushEvent w e [] rest p).active = (w p).active ∧
      (pushEvent w e [] rest p).seen = (w p).seen := by
    intro p
    rw [pushEvent_apply]
    cases e.method with
    | none => exact ⟨rfl, rfl⟩
    | some k =>
      show (if _ then _ else _ : Handle V).active = _ ∧ (if _ then _ else _ : Handle V).seen = _
      split <;> exact ⟨rfl, rfl⟩
  refine ⟨?_, ?_, ?_⟩
  · intro q k
    rw [pushEvent_apply]
    cases e.method with
    | none => exact h.queue q k
    | some k' =>
      show (if _ then _ else _ : Handle V).inbox k <:+ (if _ then _ else _ : Handle V).arrived k
      split
      · exact put_queue (h.queue q) k' [e] k
      · exact h.queue q k
  · intro q segment hseen
    rw [(hsame q).2] at hseen
    rw [pushEvent_apply]
    cases e.method with
    | none => exact h.fresh q segment hseen
    | some k =>
      have hway : q ++ [segment] ∉ way w [] rest :=
        fun hmem => hseen (h.active q segment (child_mem_way.mp hmem).2.1)
      show (if q ++ [segment] ∈ way w [] rest then _ else _) = _
      rw [if_neg hway]
      exact h.fresh q segment hseen
  · intro q segment hactive
    rw [(hsame q).1] at hactive
    rw [(hsame q).2]
    exact h.active q segment hactive

/-- A handle at which something has arrived is not new. -/
theorem Inv.seen_of_arrived (h : Inv w) {segment : String}
    (harrived : (w (q ++ [segment])).arrived k ≠ []) : segment ∈ (w q).seen := by
  by_contra hseen
  rw [h.fresh q segment hseen] at harrived
  exact harrived rfl

theorem Inv.arrived_of_inbox (h : Inv w) (hinbox : (w q).inbox k ≠ []) : (w q).arrived k ≠ [] := by
  intro harrived
  have hsuffix := h.queue q k
  rw [harrived] at hsuffix
  exact hinbox (List.suffix_nil.mp hsuffix)

theorem Inv.pop (h : Inv w) (hinbox : (w q).inbox k ≠ []) :
    Inv (Function.update w q ((w q).pop k)) := by
  have hseen := update_field w q Handle.seen (rfl : ((w q).pop k).seen = (w q).seen)
  have hactive := update_field w q Handle.active (rfl : ((w q).pop k).active = (w q).active)
  refine ⟨?_, ?_, ?_⟩
  · intro p k'
    by_cases hp : p = q
    · subst hp
      rw [Function.update_self]
      show Function.update (w p).inbox k ((w p).inbox k).tail k' <:+ (w p).arrived k'
      by_cases hk : k' = k
      · subst hk
        rw [Function.update_self]
        exact (List.tail_suffix _).trans (h.queue p k')
      · rw [Function.update_of_ne hk]
        exact h.queue p k'
    · rw [Function.update_of_ne hp]
      exact h.queue p k'
  · intro p segment hnew
    rw [hseen] at hnew
    have hne : p ++ [segment] ≠ q := by
      intro heq
      rw [← heq] at hinbox
      exact hnew (h.seen_of_arrived (h.arrived_of_inbox hinbox))
    rw [Function.update_of_ne hne]
    exact h.fresh p segment hnew
  · intro p segment hmem
    rw [hactive] at hmem
    rw [hseen]
    exact h.active p segment hmem

theorem Inv.register (h : Inv w) (scope : List String) {segment : String}
    (harrived : (w q).arrived k ≠ []) (hnew : segment ∉ (w q).seen) :
    Inv (register scope w q segment) := by
  refine ⟨?_, ?_, ?_⟩
  · intro p k
    by_cases hg : p = q ++ [segment]
    · subst hg
      rw [register_child, fill_inbox, fill_arrived]
      obtain ⟨t, ht⟩ := h.queue (q ++ [segment]) k
      exact ⟨t, by rw [← ht, List.append_assoc]⟩
    · by_cases hq : p = q
      · subst hq
        rw [register_self]
        exact h.queue p k
      · rw [register_of_ne scope w hq hg]
        exact h.queue p k
  · intro p s hseen
    by_cases hg : p = q ++ [segment]
    · -- the child was new, and so were the handles below it
      subst hg
      rw [register_child] at hseen
      have hs : s ∉ (w (q ++ [segment])).seen := hseen
      have hq : q ++ [segment] ++ [s] ≠ q := by
        intro heq
        have := congrArg List.length heq
        rw [List.length_append, List.length_append, List.length_singleton,
          List.length_singleton] at this
        omega
      rw [register_of_ne scope w hq (ne_concat (q ++ [segment]) s).symm]
      exact h.fresh _ s hs
    · have hs : s ∉ (w p).seen := by
        by_cases hq : p = q
        · subst hq
          rw [register_self] at hseen
          exact fun hmem => hseen (List.mem_append_left _ hmem)
        · rwa [register_of_ne scope w hq hg] at hseen
      have hchild : p ++ [s] ≠ q ++ [segment] := by
        intro heq
        obtain ⟨rfl, hsegment⟩ := List.append_inj' heq rfl
        obtain rfl := List.singleton_inj.mp hsegment
        rw [register_self] at hseen
        exact hseen (List.mem_append_right _ (List.mem_singleton.mpr rfl))
      by_cases hq : p ++ [s] = q
      · subst hq
        exact absurd (h.seen_of_arrived harrived) hs
      · rw [register_of_ne scope w hq hchild]
        exact h.fresh p s hs
  · intro p s hactive
    by_cases hg : p = q ++ [segment]
    · subst hg
      rw [register_child] at hactive ⊢
      exact h.active _ s hactive
    · by_cases hq : p = q
      · subst hq
        rw [register_self] at hactive ⊢
        cases List.mem_append.mp hactive with
        | inl hmem => exact List.mem_append_left _ (h.active p s hmem)
        | inr hmem => exact List.mem_append_right _ hmem
      · rw [register_of_ne scope w hq hg] at hactive ⊢
        exact h.active p s hactive

theorem Inv.unregister (h : Inv w) (harrived : (w q).arrived k ≠ []) (f : String → Bool) :
    Inv (Function.update w q { w q with active := (w q).active.filter f }) := by
  generalize hv : ({ w q with active := (w q).active.filter f } : Handle V) = v
  have hseen := update_field w q Handle.seen (hv ▸ rfl : v.seen = (w q).seen)
  have hinbox := update_field w q Handle.inbox (hv ▸ rfl : v.inbox = (w q).inbox)
  have hcame := update_field w q Handle.arrived (hv ▸ rfl : v.arrived = (w q).arrived)
  refine ⟨?_, ?_, ?_⟩
  · intro p k
    rw [hinbox, hcame]
    exact h.queue p k
  · intro p s hs
    rw [hseen] at hs
    have hne : p ++ [s] ≠ q := by
      intro heq
      rw [← heq] at harrived
      exact hs (h.seen_of_arrived harrived)
    rw [Function.update_of_ne hne]
    exact h.fresh p s hs
  · intro p s hactive
    rw [hseen]
    by_cases hp : p = q
    · subst hp
      rw [Function.update_self, ← hv] at hactive
      exact h.active p s (List.mem_filter.mp hactive).1
    · rw [Function.update_of_ne hp] at hactive
      exact h.active p s hactive

/-- What a tasks event does at the handle that took it: nothing, it takes children away,
    or it registers one that was not seen. -/
theorem handleTask_cases (scope : List String) (w : World V) (q : List String) (e : Event V) :
    handleTask scope w q e = w ∨
      (∃ f : String → Bool, handleTask scope w q e =
        Function.update w q { w q with active := (w q).active.filter f }) ∨
      ∃ segment, segment ∉ (w q).seen ∧ handleTask scope w q e = register scope w q segment := by
  unfold handleTask
  split
  · exact .inl rfl
  · rename_i id _
    split
    · exact .inl rfl
    · split
      · exact .inr (.inl ⟨_, rfl⟩)
      · exact .inl rfl
  · split
    · exact .inl rfl
    · rename_i segment _
      split
      · exact .inl rfl
      · rename_i hnew
        exact .inr (.inr ⟨segment, hnew, rfl⟩)

theorem Inv.handleTask (h : Inv w) (scope : List String) (harrived : (w q).arrived k ≠ [])
    (e : Event V) : Inv (handleTask scope w q e) := by
  cases handleTask_cases scope w q e with
  | inl heq =>
    rw [heq]
    exact h
  | inr hcase =>
    cases hcase with
    | inl hfilter =>
      obtain ⟨f, heq⟩ := hfilter
      rw [heq]
      exact h.unregister harrived f
    | inr hregister =>
      obtain ⟨segment, hnew, heq⟩ := hregister
      rw [heq]
      exact h.register scope harrived hnew

/-- The step of the consumer of `subgraphs`. -/
theorem step_next (h : step scope w (.next q) = some w') :
    ∃ e rest, (w q).inbox .tasks = e :: rest ∧
      w' = handleTask scope (Function.update w q ((w q).pop .tasks)) q e := by
  simp only [step] at h
  cases hinbox : (w q).inbox .tasks with
  | nil =>
    rw [hinbox] at h
    exact (nomatch h)
  | cons e rest =>
    rw [hinbox] at h
    exact ⟨e, rest, rfl, (Option.some_inj.mp h).symm⟩

theorem step_take (h : step scope w (.take q k) = some w') :
    (w q).inbox k ≠ [] ∧ w' = Function.update w q ((w q).pop k) := by
  simp only [step] at h
  split at h
  · exact (nomatch h)
  · rename_i hno
    exact ⟨fun hempty => hno (.inr hempty), (Option.some_inj.mp h).symm⟩

theorem pop_arrived (w : World V) (q p : List String) (k k' : Kind) :
    (Function.update w q ((w q).pop k) p).arrived k' = (w p).arrived k' :=
  update_field w q (·.arrived k') (rfl : ((w q).pop k).arrived k' = (w q).arrived k') p

theorem Inv.step (h : Inv w) {a : Act V} (hstep : step scope w a = some w') : Inv w' := by
  cases a with
  | push e =>
    rw [← Option.some_inj.mp hstep]
    exact h.push e _
  | take q k =>
    obtain ⟨hinbox, rfl⟩ := step_take hstep
    exact h.pop hinbox
  | next q =>
    obtain ⟨e, rest, hinbox, rfl⟩ := step_next hstep
    have hne : (w q).inbox .tasks ≠ [] := by rw [hinbox]; exact List.cons_ne_nil _ _
    have harrived : (Function.update w q ((w q).pop .tasks) q).arrived .tasks ≠ [] := by
      rw [pop_arrived]
      exact h.arrived_of_inbox hne
    exact (h.pop hne).handleTask scope harrived e

theorem inv_run {acts : List (Act V)} : ∀ {w w' : World V}, Inv w →
    Machine.run (Scoped.step scope) w acts = some w' → Inv w' := by
  induction acts with
  | nil =>
    intro w w' h hrun
    cases hrun
    exact h
  | cons a acts ih =>
    intro w w' h hrun
    obtain ⟨w₁, hstep, hrest⟩ := Option.bind_eq_some_iff.mp hrun
    exact ih (h.step hstep) hrest

end

/- ── What follows a discovery ──────────────────────────────────────────────── -/

section

variable {scope : List String} {w w' : World V} {e : Event V} {p : List String}
  {segment : String} {n : Kind → Nat}

/-- While a child is active, the events under its path that have arrived at the handle,
    apart from the first `n`, have arrived at the child. -/
structure Follows (scope p : List String) (segment : String) (n : Kind → Nat) (w : World V) :
    Prop where
  seen : segment ∈ (w p).seen
  le : ∀ k, n k ≤ ((w p).arrived k).length
  child : segment ∈ (w p).active → ∀ k, (w (p ++ [segment])).arrived k =
    (((w p).arrived k).drop (n k)).filter (under (scope ++ (p ++ [segment])))

/-- It stays so when nothing arrives at the handle and the child, and the child does not
    become active. -/
theorem Follows.of_same (h : Follows scope p segment n w) (hseen : segment ∈ (w' p).seen)
    (hactive : segment ∈ (w' p).active → segment ∈ (w p).active)
    (hp : ∀ k, (w' p).arrived k = (w p).arrived k)
    (hg : ∀ k, (w' (p ++ [segment])).arrived k = (w (p ++ [segment])).arrived k) :
    Follows scope p segment n w' := by
  refine ⟨hseen, ?_, ?_⟩
  · intro k
    rw [hp]
    exact h.le k
  · intro hmem k
    rw [hp, hg]
    exact h.child (hactive hmem) k

theorem under_iff {g : List String} (hg : g ≠ []) :
    under (scope ++ g) e = true ↔ g <+: below scope e := by
  unfold under below
  rw [List.isPrefixOf_iff_prefix]
  split
  · rename_i hscope
    obtain ⟨rest, hrest⟩ := List.isPrefixOf_iff_prefix.mp hscope
    rw [← hrest, List.drop_left, List.prefix_append_right_inj]
  · rename_i hscope
    refine ⟨?_, ?_⟩
    · intro h
      exact absurd (List.isPrefixOf_iff_prefix.mpr ((List.prefix_append scope g).trans h)) hscope
    · intro h
      exact absurd (List.prefix_nil.mp h) hg

theorem Follows.push (h : Follows scope p segment n w) (e : Event V) :
    Follows scope p segment n (pushEvent w e [] (below scope e)) := by
  have hg : p ++ [segment] ≠ [] := List.append_ne_nil_of_right_ne_nil p (List.cons_ne_nil _ _)
  cases hm : e.method with
  | none =>
    have hsame : ∀ q, pushEvent w e [] (below scope e) q = w q := by
      intro q
      rw [pushEvent_apply, hm]
    exact h.of_same (hsame p ▸ h.seen) (fun hmem => hsame p ▸ hmem)
      (fun k => congrArg (·.arrived k) (hsame p)) fun k => congrArg (·.arrived k) (hsame _)
  | some k₀ =>
    have hput : ∀ q, pushEvent w e [] (below scope e) q =
        if q ∈ way w [] (below scope e) then (w q).put k₀ [e] else w q := by
      intro q
      rw [pushEvent_apply, hm]
    by_cases hway : p ∈ way w [] (below scope e)
    · have hp := hput p
      rw [if_pos hway] at hp
      refine ⟨?_, ?_, ?_⟩
      · rw [hp]
        exact h.seen
      · intro k
        have hle := h.le k
        rw [hp, put_arrived]
        split
        · rw [List.length_append]
          omega
        · exact hle
      · intro hactive k
        rw [hp] at hactive
        replace hactive : segment ∈ (w p).active := hactive
        have hchild := h.child hactive k
        rw [hput, hp, put_arrived]
        by_cases hunder : under (scope ++ (p ++ [segment])) e = true
        · have hmem := child_mem_way.mpr ⟨hway, hactive, (under_iff hg).mp hunder⟩
          rw [if_pos hmem, put_arrived]
          split
          · rw [hchild, List.drop_append_of_le_length (h.le k), List.filter_append]
            simp [hunder]
          · exact hchild
        · have hmem : p ++ [segment] ∉ way w [] (below scope e) :=
            fun hmem => hunder ((under_iff hg).mpr (child_mem_way.mp hmem).2.2)
          rw [if_neg hmem]
          split
          · rw [hchild, List.drop_append_of_le_length (h.le k), List.filter_append]
            simp [hunder]
          · exact hchild
    · have hp := hput p
      rw [if_neg hway] at hp
      have hmem : p ++ [segment] ∉ way w [] (below scope e) :=
        fun hmem => hway (child_mem_way.mp hmem).1
      have hc := hput (p ++ [segment])
      rw [if_neg hmem] at hc
      exact h.of_same (hp ▸ h.seen) (fun hactive => hp ▸ hactive)
        (fun k => congrArg (·.arrived k) hp) fun k => congrArg (·.arrived k) hc

theorem Follows.pop (h : Follows scope p segment n w) (q : List String) (k : Kind) :
    Follows scope p segment n (Function.update w q ((w q).pop k)) := by
  have hseen := update_field w q Handle.seen (rfl : ((w q).pop k).seen = (w q).seen) p
  have hactive := update_field w q Handle.active (rfl : ((w q).pop k).active = (w q).active) p
  apply h.of_same (hseen ▸ h.seen) (fun hmem => hactive ▸ hmem)
  · exact pop_arrived w q p k
  · exact pop_arrived w q (p ++ [segment]) k

/-- Neither the child nor its handle are found again: both were seen. -/
theorem Follows.handleTask (h : Follows scope p segment n w) (hinv : Inv w)
    {q : List String} (e : Event V) : Follows scope p segment n (handleTask scope w q e) := by
  cases handleTask_cases scope w q e with
  | inl heq =>
    rw [heq]
    exact h
  | inr hcase =>
    cases hcase with
    | inl hfilter =>
      obtain ⟨f, heq⟩ := hfilter
      rw [heq]
      generalize hv : ({ w q with active := (w q).active.filter f } : Handle V) = v
      have hseen := update_field w q Handle.seen (hv ▸ rfl : v.seen = (w q).seen)
      have harrived := update_field w q Handle.arrived (hv ▸ rfl : v.arrived = (w q).arrived)
      apply h.of_same ((hseen p).symm ▸ h.seen)
      · intro hactive
        by_cases hp : p = q
        · subst hp
          rw [Function.update_self, ← hv] at hactive
          exact (List.mem_filter.mp hactive).1
        · rwa [Function.update_of_ne hp] at hactive
      · exact fun k => congrFun (harrived p) k
      · exact fun k => congrFun (harrived (p ++ [segment])) k
    | inr hregister =>
      obtain ⟨s, hnew, heq⟩ := hregister
      have hp : p ≠ q ++ [s] := by
        intro hp
        have hseen := h.seen
        rw [hp, hinv.fresh q s hnew] at hseen
        exact (List.not_mem_nil hseen).elim
      have hg : p ++ [segment] ≠ q ++ [s] := by
        intro hg
        obtain ⟨rfl, hs⟩ := List.append_inj' hg rfl
        obtain rfl := List.singleton_inj.mp hs
        exact hnew h.seen
      rw [heq]
      by_cases hq : p = q
      · subst hq
        apply h.of_same
        · rw [register_self]
          exact List.mem_append_left _ h.seen
        · intro hactive
          rw [register_self] at hactive
          cases List.mem_append.mp hactive with
          | inl hmem => exact hmem
          | inr hmem => exact absurd (List.mem_singleton.mp hmem ▸ h.seen) hnew
        · exact register_arrived scope w hp
        · exact register_arrived scope w hg
      · have hsame := register_of_ne scope w hq hp
        exact h.of_same (hsame ▸ h.seen) (fun hmem => hsame ▸ hmem) (register_arrived scope w hp)
          (register_arrived scope w hg)

theorem Follows.step (h : Follows scope p segment n w) (hinv : Inv w) {a : Act V}
    (hstep : Scoped.step scope w a = some w') : Follows scope p segment n w' := by
  cases a with
  | push e =>
    rw [← Option.some_inj.mp hstep]
    exact h.push e
  | take q k =>
    obtain ⟨_, rfl⟩ := step_take hstep
    exact h.pop q k
  | next q =>
    obtain ⟨e, rest, hinbox, rfl⟩ := step_next hstep
    have hne : (w q).inbox .tasks ≠ [] := by rw [hinbox]; exact List.cons_ne_nil _ _
    exact (h.pop q .tasks).handleTask (hinv.pop hne) e

theorem follows_run {acts : List (Act V)} : ∀ {w w' : World V},
    Follows scope p segment n w → Inv w → Machine.run (Scoped.step scope) w acts = some w' →
      Follows scope p segment n w' := by
  induction acts with
  | nil =>
    intro w w' h _ hrun
    cases hrun
    exact h
  | cons a acts ih =>
    intro w w' h hinv hrun
    obtain ⟨w₁, hstep, hrest⟩ := Option.bind_eq_some_iff.mp hrun
    exact ih (h.step hinv hstep) (hinv.step hstep) hrest

/-- At its discovery a child has what was left in the inboxes of the handle. -/
theorem follows_discovery (hinv : Inv w) (hstep : Scoped.step scope w (.next p) = some w')
    (hbefore : segment ∉ (w p).active) (hafter : segment ∈ (w' p).active) :
    Follows scope p segment (taken (w' p)) w' := by
  obtain ⟨e, rest, hinbox, rfl⟩ := step_next hstep
  have hne : (w p).inbox .tasks ≠ [] := by rw [hinbox]; exact List.cons_ne_nil _ _
  have hpopped := hinv.pop hne
  have hnot : segment ∉ (Function.update w p ((w p).pop .tasks) p).active := by
    rw [Function.update_self]
    exact hbefore
  generalize Function.update w p ((w p).pop .tasks) = v at hpopped hnot hafter ⊢
  cases handleTask_cases scope v p e with
  | inl heq =>
    rw [heq] at hafter
    exact absurd hafter hnot
  | inr hcase =>
    cases hcase with
    | inl hfilter =>
      obtain ⟨f, heq⟩ := hfilter
      rw [heq, Function.update_self] at hafter
      exact absurd (List.mem_filter.mp hafter).1 hnot
    | inr hregister =>
      obtain ⟨s, hnew, heq⟩ := hregister
      rw [heq] at hafter ⊢
      have hs : segment = s := by
        rw [register_self] at hafter
        cases List.mem_append.mp hafter with
        | inl hmem => exact absurd hmem hnot
        | inr hmem => exact List.mem_singleton.mp hmem
      subst hs
      have htaken : ∀ k, taken (register scope v p segment p) k =
          ((v p).arrived k).length - ((v p).inbox k).length := by
        intro k
        rw [register_self]
        rfl
      refine ⟨?_, ?_, ?_⟩
      · rw [register_self]
        exact List.mem_append_right _ (List.mem_singleton.mpr rfl)
      · intro k
        rw [htaken, register_self]
        exact Nat.sub_le _ _
      · intro _ k
        rw [htaken, register_child, register_self, fill_arrived, hpopped.fresh p segment hnew,
          ← List.suffix_iff_eq_drop.mp (hpopped.queue p k)]
        rfl

theorem nil_mem_way (w : World V) (rest : List String) : [] ∈ way w [] rest :=
  mem_way_nil.mpr ⟨List.nil_prefix, trivial⟩

theorem arrived_handleTask (scope : List String) (w : World V) (q : List String) (e : Event V)
    (k : Kind) : (handleTask scope w q e []).arrived k = (w []).arrived k := by
  cases handleTask_cases scope w q e with
  | inl heq => rw [heq]
  | inr hcase =>
    cases hcase with
    | inl hfilter =>
      obtain ⟨f, heq⟩ := hfilter
      rw [heq]
      apply update_field w q (·.arrived k)
      rfl
    | inr hregister =>
      obtain ⟨s, _, heq⟩ := hregister
      rw [heq]
      apply register_arrived
      exact (List.append_ne_nil_of_right_ne_nil q (List.cons_ne_nil s [])).symm

/-- At the top everything arrives that is pushed. -/
theorem arrived_run (k : Kind) : ∀ {acts : List (Act V)} {w w' : World V},
    Machine.run (Scoped.step scope) w acts = some w' →
      (w' []).arrived k = (w []).arrived k ++ pushed k acts
  | [], w, w', hrun => by
    cases hrun
    exact (List.append_nil _).symm
  | a :: acts, w, w', hrun => by
    obtain ⟨w₁, hstep, hrest⟩ := Option.bind_eq_some_iff.mp hrun
    rw [arrived_run k hrest]
    cases a with
    | take q k' =>
      obtain ⟨_, rfl⟩ := step_take hstep
      rw [pop_arrived]
      rfl
    | next q =>
      obtain ⟨e, rest, _, rfl⟩ := step_next hstep
      rw [arrived_handleTask, pop_arrived]
      rfl
    | push e =>
      rw [← Option.some_inj.mp hstep, pushEvent_apply]
      cases hm : e.method with
      | none => simp [pushed, hm]
      | some k' =>
        simp only [if_pos (nil_mem_way w _), put_arrived]
        by_cases hk : k = k'
        · subst hk
          simp [pushed, hm]
        · have hne : e.method ≠ some k := fun heq => hk (Option.some_inj.mp (heq.symm.trans hm))
          simp [pushed, hk, hne]

end

/-- From its discovery on, and as long as it is active, a child of a handle gets exactly the
    events under its path, once and in the order of their arrival at the handle, apart from
    those that consumers of the handle had taken by then, whether they came before or after
    the discovery. At the top those are the events that are pushed. -/
theorem grandchild_arrived {scope p : List String} {segment : String}
    {before after : List (Act V)} {w₁ w₂ w₃ : World V}
    (hbefore : Machine.run (step scope) start before = some w₁)
    (hdiscovery : step scope w₁ (.next p) = some w₂)
    (hnew : segment ∉ (w₁ p).active) (hfound : segment ∈ (w₂ p).active)
    (hafter : Machine.run (step scope) w₂ after = some w₃)
    (hactive : segment ∈ (w₃ p).active) (k : Kind) :
    (w₃ (p ++ [segment])).arrived k =
        (((w₃ p).arrived k).drop (taken (w₂ p) k)).filter (under (scope ++ (p ++ [segment]))) ∧
      (w₃ (p ++ [segment])).inbox k <:+ (w₃ (p ++ [segment])).arrived k ∧
      (w₃ []).arrived k = pushed k (before ++ .next p :: after) := by
  have hinv₁ := inv_run inv_start hbefore
  have hinv₂ := hinv₁.step hdiscovery
  have hfollows := follows_run (follows_discovery hinv₁ hdiscovery hnew hfound) hinv₂ hafter
  refine ⟨hfollows.child hactive k, (inv_run hinv₂ hafter).queue _ k, ?_⟩
  have hrun : Machine.run (step scope) start (before ++ .next p :: after) = some w₃ := by
    rw [Machine.run_append, hbefore]
    show (step scope w₁ (.next p)).bind (fun w => Machine.run (step scope) w after) = some w₃
    rw [hdiscovery]
    exact hafter
  exact arrived_run k hrun

/-- A message of the child `tool:2`, before and after the tasks event that announces it. -/
def message (n : Nat) : Event Nat := ⟨some .messages, ["tool:2"], none, n⟩

def announced : Event Nat := ⟨some .tasks, ["tool:2"], some .task, 0⟩

theorem grandchild_arrived_message :
    ∃ w : World Nat, Machine.run (step []) start
        [.push (message 1), .push announced, .next [], .push (message 2)] = some w ∧
      (w ["tool:2"]).arrived .messages = [message 1, message 2] :=
  ⟨_, rfl, (@grandchild_arrived Nat [] [] "tool:2" [.push (message 1), .push announced]
    [.push (message 2)] _ _ _ rfl rfl (by decide) (by decide) rfl (by decide) .messages).1⟩

/-- The event from which the child is discovered does not reach it. -/
theorem not_grandchild_arrived :
    ¬ ∀ (scope p : List String) (segment : String) (acts : List (Act Nat)) (w : World Nat),
      Machine.run (step scope) start acts = some w → segment ∈ (w p).active →
        ∀ k, (w (p ++ [segment])).arrived k =
          ((w p).arrived k).filter (under (scope ++ (p ++ [segment]))) := by
  intro h
  exact absurd (h [] [] "tool:2" [.push announced, .next []] _ rfl (by decide) .tasks) (by decide)

end LangGraph.Sdk.Scoped
