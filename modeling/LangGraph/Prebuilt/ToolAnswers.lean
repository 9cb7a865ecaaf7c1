import Mathlib.Data.List.Flatten
import LangGraph.Lib.Fallible
import LangGraph.Prebuilt.ToolErrors

/- What a `ToolNode` returns for a batch of tool calls, counted by kind.

   Correspondence (source ↔ Lean):
     a tool call with what answers it (tool_node.py) ↔ `Turn`
     `_normalize_tool_response`, `_run_one`          ↔ `Turn.output`
     `_combine_tool_outputs`                         ↔ `combineToolOutputs`, by `combined_items`
   `combined_items` says what the combination is as a list of messages and commands:
   the commands that merge are taken out, and one command to the parent graph, with
   their `goto` and nothing else of them, stands at the end. -/
namespace LangGraph.ToolNode

open Fallible

variable {V : Type}

/- ── Batches ───────────────────────────────────────────────────────────────── -/

/-- What a call is answered with: the response of its tool, or the text of an error. -/
inductive Reply (V : Type) where
  | response (r : Response V)
  | error (content : String)

structure Turn (V : Type) where
  call : ToolCall V
  reply : Reply V

def Turn.output (texts : Texts V) (messagesKey : String) (inputType : InputType)
    (turn : Turn V) : Except ToolError (Output V) :=
  match turn.reply with
  | .response r => normalizeToolResponse texts messagesKey turn.call inputType r
  | .error content => .ok (errorMessage turn.call content)

/-- The messages and commands of a reply, as they come from the tool. -/
def Turn.items (turn : Turn V) : List (Item V) :=
  match turn.reply with
  | .response (.message m) => [.message m]
  | .response (.command c) => [.command c]
  | .response (.list items) => items
  | .response _ => []
  | .error content => (errorMessage turn.call content).flat

def Item.merges : Item V → Bool
  | .command c => c.merges
  | .message _ => false

/-- The tool messages with an id, those in a dict format included. -/
def Item.holds (id : String) : Item V → Nat
  | .message m => if m.toolCallId = id then 1 else 0
  | .command c => (c.update.messages.getD []).countP fun m => m.convert.answers id

def held (id : String) (items : List (Item V)) : Nat := (items.map (Item.holds id)).sum

def Item.updates : Item V → List (Option String × Update V)
  | .message _ => []
  | .command c =>
    match c.update with
    | .absent => []
    | u => [(c.graph, u)]

def Item.gotos : Item V → List (Option String × Target V)
  | .message _ => []
  | .command c => c.goto.targets.map (c.graph, ·)

/-- An entry of the node's update, as messages and commands. -/
def Combined.items : Combined V → List (Item V)
  | .command c => [.command c]
  | .messages _ ms => ms.map .message

/- ── The combination as one list ───────────────────────────────────────────── -/

/-- The command that the merged ones are replaced by. -/
def parentCommand (gotos : List (Target V)) : Command V :=
  ⟨some PARENT, .absent, none, .list gotos⟩

/-- The targets of the commands that merge. -/
def mergedTargets (items : List (Item V)) : List (Target V) :=
  (items.filter Item.merges).flatMap fun item =>
    match item with
    | .command c => c.goto.targets
    | .message _ => []

theorem Command.merges_graph {c : Command V} (h : c.merges = true) : c.graph = some PARENT := by
  unfold Command.merges at h
  exact of_decide_eq_true (Bool.and_eq_true_iff.mp h).1

theorem Command.merges_goto {c : Command V} (h : c.merges = true) :
    c.goto = .list c.goto.targets := by
  obtain ⟨graph, update, resume, goto⟩ := c
  cases goto with
  | list ts => rfl
  | one t => simp [Command.merges] at h
  | tuple ts => simp [Command.merges] at h

theorem mergedTargets_of_merges {c : Command V} (items : List (Item V))
    (h : c.merges = true) :
    mergedTargets (.command c :: items) = c.goto.targets ++ mergedTargets items := by
  unfold mergedTargets
  rw [List.filter_cons_of_pos (by exact h)]
  rfl

theorem mergedTargets_of_stays {c : Command V} (items : List (Item V))
    (h : c.merges = false) : mergedTargets (.command c :: items) = mergedTargets items := by
  unfold mergedTargets
  rw [List.filter_cons_of_neg (by simp [Item.merges, h])]

theorem combineLoop_items (keyed : Bool) (items : List (Item V)) (parent : Option (Command V)) :
    (combineLoop keyed parent items).1.flatMap Combined.items =
      items.filter (!Item.merges ·) := by
  induction items generalizing parent with
  | nil => rfl
  | cons item items ih =>
    cases item with
    | message m => exact congrArg (Item.message m :: ·) (ih parent)
    | command c =>
      cases hc : c.merges with
      | true =>
        rw [List.filter_cons_of_neg (by simp [Item.merges, hc])]
        cases parent with
        | none =>
          simp only [combineLoop, hc, if_true]
          exact ih _
        | some p =>
          simp only [combineLoop, hc, if_true]
          exact ih _
      | false =>
        rw [List.filter_cons_of_pos (by simp [Item.merges, hc])]
        simp only [combineLoop, hc]
        exact congrArg (Item.command c :: ·) (ih parent)

/-- A command that was merged to before takes up all the targets that follow. -/
theorem combineLoop_some (keyed : Bool) (items : List (Item V)) (gotos : List (Target V)) :
    (combineLoop keyed (some (parentCommand gotos)) items).2 =
      some (parentCommand (gotos ++ mergedTargets items)) := by
  induction items generalizing gotos with
  | nil => exact congrArg (some <| parentCommand ·) (List.append_nil gotos).symm
  | cons item items ih =>
    cases item with
    | message m => exact ih gotos
    | command c =>
      cases hc : c.merges with
      | true =>
        simp only [combineLoop, hc, if_true]
        rw [mergedTargets_of_merges items hc, ← List.append_assoc]
        exact ih (gotos ++ c.goto.targets)
      | false =>
        simp only [combineLoop, hc]
        rw [mergedTargets_of_stays items hc]
        exact ih gotos

theorem combineLoop_none (keyed : Bool) (items : List (Item V)) :
    (combineLoop keyed none items).2 =
      if items.any Item.merges then some (parentCommand (mergedTargets items)) else none := by
  induction items with
  | nil => rfl
  | cons item items ih =>
    cases item with
    | message m => exact ih
    | command c =>
      cases hc : c.merges with
      | true =>
        have hany : (Item.command c :: items).any Item.merges = true := by
          simp [Item.merges, hc]
        rw [hany, if_pos rfl, mergedTargets_of_merges items hc, ← combineLoop_some keyed]
        simp only [combineLoop, hc, if_true, parentCommand]
        rw [← Command.merges_goto hc]
      | false =>
        rw [List.any_cons, mergedTargets_of_stays items hc]
        simp only [combineLoop, hc, Item.merges, Bool.false_or]
        exact ih

/-- The one command that stands for those that merge. -/
def parentItems (items : List (Item V)) : List (Item V) :=
  if items.any Item.merges then [.command (parentCommand (mergedTargets items))] else []

theorem filterMap_message?_of_no_command {items : List (Item V)}
    (h : items.any isCommand = false) :
    (items.filterMap Item.message?).map Item.message = items := by
  induction items with
  | nil => rfl
  | cons item items ih =>
    cases item with
    | message m => exact congrArg (Item.message m :: ·) (ih h)
    | command c => simp [isCommand] at h

theorem no_merges_of_no_command {items : List (Item V)} (h : items.any isCommand = false) :
    items.any Item.merges = false := by
  apply List.any_eq_false.mpr
  intro item hitem
  cases item with
  | message m => exact Bool.false_ne_true
  | command c => exact absurd rfl (List.any_eq_false.mp h _ hitem)

/-- The combination, as messages and commands: what merges is taken out, and the one
    command to the parent graph stands at the end. -/
theorem combined_items (inputType : InputType) (outputs : List (Output V)) :
    (combineToolOutputs inputType outputs).flatMap Combined.items =
      (outputs.flatMap Output.flat).filter (!Item.merges ·) ++
        parentItems (outputs.flatMap Output.flat) := by
  unfold combineToolOutputs parentItems
  simp only
  generalize outputs.flatMap Output.flat = flat
  cases hcommand : flat.any isCommand with
  | false =>
    have hno := no_merges_of_no_command hcommand
    rw [if_pos rfl, hno, if_neg Bool.false_ne_true, List.append_nil,
      List.filter_eq_self.mpr fun item hitem => by
        simpa using List.any_eq_false.mp hno item hitem]
    show (flat.filterMap Item.message?).map Item.message ++ [] = flat
    rw [List.append_nil, filterMap_message?_of_no_command hcommand]
  | true =>
    have hitems := combineLoop_items (decide (inputType ≠ .list)) flat none
    have hparent := combineLoop_none (decide (inputType ≠ .list)) flat
    rw [if_neg (by simp)]
    generalize combineLoop (decide (inputType ≠ .list)) none flat = result at hitems hparent
    obtain ⟨combined, parent⟩ := result
    simp only at hitems hparent
    rw [hparent]
    cases flat.any Item.merges with
    | false => simpa using hitems
    | true => simp [hitems, Combined.items]

/- ── What is preserved ─────────────────────────────────────────────────────── -/

/-- The messages, the updates and the targets of `goto`, with the graph they go to, are
    those of the outputs, in their order. -/
structure Preserved (outputs combined : List (Item V)) : Prop where
  messages : combined.filterMap Item.message? = outputs.filterMap Item.message?
  updates : combined.flatMap Item.updates = outputs.flatMap Item.updates
  gotos : combined.flatMap Item.gotos = outputs.flatMap Item.gotos

/-- The commands that merge have no update, and their targets stand behind the others. -/
structure Mergeable (items : List (Item V)) : Prop where
  updates : ∀ item ∈ items, item.merges = true → item.updates = []
  gotos : items.flatMap Item.gotos =
    (items.filter (!Item.merges ·)).flatMap Item.gotos ++
      (items.filter Item.merges).flatMap Item.gotos

theorem gotos_parentItems (items : List (Item V)) :
    (parentItems items).flatMap Item.gotos =
      (items.filter Item.merges).flatMap Item.gotos := by
  have hmerged : (items.filter Item.merges).flatMap Item.gotos =
      (mergedTargets items).map (some PARENT, ·) := by
    unfold mergedTargets
    rw [List.map_flatMap]
    apply List.flatMap_congr
    intro item hitem
    cases item with
    | message m => rfl
    | command c =>
      have hgraph := Command.merges_graph (List.mem_filter.mp hitem).2
      show c.goto.targets.map (c.graph, ·) = _
      rw [hgraph]
  unfold parentItems
  cases hany : items.any Item.merges with
  | true =>
    rw [hmerged]
    exact List.append_nil _
  | false =>
    rw [List.filter_eq_nil_iff.mpr fun item hitem =>
      by simpa using List.any_eq_false.mp hany item hitem]
    rfl

theorem messages_parentItems (items : List (Item V)) :
    (parentItems items).filterMap Item.message? = [] := by
  unfold parentItems
  split <;> rfl

theorem updates_parentItems (items : List (Item V)) :
    (parentItems items).flatMap Item.updates = [] := by
  unfold parentItems
  split <;> rfl

theorem held_parentItems (id : String) (items : List (Item V)) :
    held id (parentItems items) = 0 := by
  unfold parentItems
  split <;> rfl

theorem messages_kept (items : List (Item V)) :
    (items.filter (!Item.merges ·)).filterMap Item.message? =
      items.filterMap Item.message? := by
  rw [List.filterMap_filter]
  apply List.filterMap_congr
  intro item _
  cases item with
  | message m => rfl
  | command c => simp [Item.message?]

/-- Taking elements out of a list leaves what it is mapped to as it is when nothing
    comes of them. -/
theorem flatMap_filter_eq_iff {α β : Type} (f : α → List β) (p : α → Bool) (l : List α) :
    (l.filter p).flatMap f = l.flatMap f ↔ ∀ a ∈ l, p a = false → f a = [] := by
  induction l with
  | nil => simp
  | cons a l ih =>
    have hle : ∀ l : List α, ((l.filter p).flatMap f).length ≤ (l.flatMap f).length :=
      fun l => (List.Sublist.flatMap List.filter_sublist f).length_le
    cases ha : p a with
    | true =>
      rw [List.filter_cons_of_pos ha, List.flatMap_cons, List.flatMap_cons,
        List.append_cancel_left_eq, ih]
      simp [ha]
    | false =>
      rw [List.filter_cons_of_neg (by simp [ha]), List.flatMap_cons]
      refine ⟨?_, ?_⟩
      · intro h
        have hlength := congrArg List.length h
        rw [List.length_append] at hlength
        have hnil : f a = [] := List.length_eq_zero_iff.mp (by have := hle l; omega)
        rw [hnil, List.nil_append, ih] at h
        intro b hb hpb
        cases List.mem_cons.mp hb with
        | inl hab => rw [hab, hnil]
        | inr hmem => exact h b hmem hpb
      · intro h
        rw [h a List.mem_cons_self ha, List.nil_append]
        exact ih.mpr fun b hb => h b (List.mem_cons_of_mem a hb)

/-- The combination loses nothing when no merged command has an update and the merged
    targets come last anyway. -/
theorem preserved_iff (inputType : InputType) (outputs : List (Output V)) :
    Preserved (outputs.flatMap Output.flat)
        ((combineToolOutputs inputType outputs).flatMap Combined.items) ↔
      Mergeable (outputs.flatMap Output.flat) := by
  rw [combined_items]
  generalize outputs.flatMap Output.flat = flat
  have hupdates : (flat.filter (!Item.merges ·) ++ parentItems flat).flatMap Item.updates =
      flat.flatMap Item.updates ↔
        ∀ item ∈ flat, item.merges = true → item.updates = [] := by
    rw [List.flatMap_append, updates_parentItems, List.append_nil, flatMap_filter_eq_iff]
    simp only [Bool.not_eq_false']
  have hgotos : (flat.filter (!Item.merges ·) ++ parentItems flat).flatMap Item.gotos =
      (flat.filter (!Item.merges ·)).flatMap Item.gotos ++
        (flat.filter Item.merges).flatMap Item.gotos := by
    rw [List.flatMap_append, gotos_parentItems]
  refine ⟨?_, ?_⟩
  · intro h
    exact ⟨hupdates.mp h.updates, h.gotos.symm.trans hgotos⟩
  · intro h
    refine ⟨?_, hupdates.mpr h.updates, hgotos.trans h.gotos.symm⟩
    rw [List.filterMap_append, messages_parentItems, List.append_nil, messages_kept]

/- ── What answers a call ───────────────────────────────────────────────────── -/

/-- The reply of a call targets the current graph: none of its commands names a graph. -/
def Turn.current (turn : Turn V) : Bool :=
  turn.items.all fun item =>
    match item with
    | .message _ => true
    | .command c => c.graph.isNone

/-- A command of the reply removes all messages. -/
def Turn.removesAll (turn : Turn V) : Bool :=
  turn.items.any fun item =>
    match item with
    | .message _ => false
    | .command c =>
      match c.update.messages with
      | some ms => ToolNode.removesAll (ms.map Message.convert)
      | none => false

/-- The messages of an item with an id that `_validate_tool_command_list` does not count:
    those of an update that is a list, and those in a dict format. -/
def Item.overlooked (id : String) : Item V → Nat
  | .message _ => 0
  | .command c =>
    match c.update with
    | .dict ms _ => ms.countP fun m => m.convert.answers id && !m.answers id
    | .list ms => ms.countP fun m => m.convert.answers id
    | _ => 0

/-- The reply answers its call, and only once. -/
def Turn.Answers (turn : Turn V) : Prop :=
  match turn.reply with
  | .error _ => True
  | .response (.message m) => m.toolCallId = turn.call.id
  | .response (.command c) =>
    c.update.messages ≠ none ∧ (Item.command c).holds turn.call.id ≤ 1
  | .response (.list items) => ∀ item ∈ items, item.overlooked turn.call.id = 0
  | .response _ => False

/-- The reply passes validation without an answer to its call. -/
def Turn.Silent (turn : Turn V) : Prop :=
  match turn.reply with
  | .response (.message m) => m.toolCallId ≠ turn.call.id
  | .response (.command c) => c.update.messages = none
  | _ => False

/-- The tool messages with an id that the calls with other ids are answered with, apart
    from those in commands that merge. -/
def foreign (id : String) (turns : List (Turn V)) : Nat :=
  held id (((turns.filter (·.call.id ≠ id)).flatMap Turn.items).filter (!Item.merges ·))

/-- Every call whose reply targets the current graph, and does not remove all messages,
    has exactly one tool message. -/
def Answered (turns : List (Turn V)) (combined : List (Item V)) : Prop :=
  ∀ turn ∈ turns, turn.current = true → turn.removesAll = false →
    held turn.call.id combined = 1

/-- Every such call is answered once by its own reply and by no other, or it is left
    out by its own reply and answered once by the others. -/
def Answerable (turns : List (Turn V)) : Prop :=
  ∀ turn ∈ turns, turn.current = true → turn.removesAll = false →
    turn.Answers ∧ foreign turn.call.id turns = 0 ∨
      turn.Silent ∧ foreign turn.call.id turns = 1

/-- What an item that does not merge holds. -/
def Item.weight (id : String) (item : Item V) : Nat :=
  if item.merges then 0 else item.holds id

theorem held_filter (id : String) (items : List (Item V)) :
    held id (items.filter (!Item.merges ·)) = (items.map (Item.weight id)).sum := by
  induction items with
  | nil => rfl
  | cons item items ih =>
    rw [List.map_cons, List.sum_cons]
    cases h : item.merges with
    | true =>
      rw [List.filter_cons_of_neg (by simp [h]), ih]
      simp [Item.weight, h]
    | false =>
      rw [List.filter_cons_of_pos (by simp [h])]
      show item.holds id + held id (items.filter (!Item.merges ·)) = _
      rw [ih]
      simp [Item.weight, h]

theorem held_append (id : String) (items items' : List (Item V)) :
    held id (items ++ items') = held id items + held id items' := by
  unfold held
  rw [List.map_append, List.sum_append]

/- ── Validation keeps what is counted ──────────────────────────────────────── -/

theorem map_eq_of_forall₂ {α β γ : Type} {R : α → β → Prop} {f : α → γ} {g : β → γ}
    (hR : ∀ a b, R a b → g b = f a) {l : List α} {l' : List β} (h : List.Forall₂ R l l') :
    l'.map g = l.map f := by
  induction h with
  | nil => rfl
  | cons hab _ ih => rw [List.map_cons, List.map_cons, hR _ _ hab, ih]

theorem exists_of_forall₂ {α β : Type} {R : α → β → Prop} {l : List α} {l' : List β}
    (h : List.Forall₂ R l l') : ∀ a ∈ l, ∃ b, R a b := by
  induction h with
  | nil => exact fun a ha => (nomatch ha)
  | cons hab _ ih =>
    intro a ha
    cases List.mem_cons.mp ha with
    | inl heq => exact ⟨_, heq ▸ hab⟩
    | inr hmem => exact ih a hmem

section

variable {texts : Texts V} {messagesKey : String} {call : ToolCall V} {inputType : InputType}

@[simp] theorem Message.answers_named (id : String) (m : Message V) :
    (m.named call).convert.answers id = m.convert.answers id := by
  cases m with
  | tool t =>
    by_cases h : t.toolCallId = call.id <;> simp [Message.named, Message.convert, h, Message.answers]
  | _ => rfl

theorem Update.messages_map (f : Message V → Message V) (u : Update V) :
    (u.map f).messages = u.messages.map (List.map f) := by
  cases u <;> rfl

/-- A command comes out of the validation with the messages and the targets it had. -/
theorem validateToolCommand_weight {c c' : Command V} {terminator : Bool} (id : String)
    (h : validateToolCommand texts messagesKey call inputType terminator c = .ok c') :
    (Item.command c').weight id = (Item.command c).weight id := by
  unfold validateToolCommand at h
  split at h
  · exact (nomatch h)
  · split at h
    · rw [← Except.ok.inj h]
    · simp only at h
      split at h
      · rw [← Except.ok.inj h]
      · split at h
        · exact (nomatch h)
        · rw [← Except.ok.inj h]
          unfold Item.weight
          show (if c.merges then 0 else _) = if c.merges then 0 else _
          congr 1
          simp only [Item.holds, Update.messages_map]
          cases c.update.messages with
          | none => rfl
          | some ms =>
            show (ms.map (Message.named call)).countP _ = ms.countP _
            rw [List.countP_map]
            exact List.countP_congr fun m _ => by simp

theorem validateToolCommandList_ok {items items' : List (Item V)}
    (h : validateToolCommandList texts messagesKey call inputType items = .ok items') :
    (items.map (terminators call.id)).sum = 1 ∧
      items.mapM (validateItem texts messagesKey call inputType) = .ok items' := by
  unfold validateToolCommandList at h
  simp only at h
  split at h
  · exact (nomatch h)
  · rename_i hcount
    exact ⟨not_not.mp hcount, h⟩

theorem validateItem_weight {item item' : Item V} (id : String)
    (h : validateItem texts messagesKey call inputType item = .ok item') :
    item'.weight id = item.weight id := by
  cases item with
  | message m =>
    rw [← Except.ok.inj h]
    rfl
  | command c =>
    obtain ⟨c', hc, hitem⟩ := map_ok h
    rw [← hitem]
    exact validateToolCommand_weight id hc

end

section

variable {texts : Texts V} {messagesKey : String} {inputType : InputType} {turn : Turn V}

/-- Normalisation changes the names and contents of messages, not what answers what. -/
theorem Turn.output_weight {output : Output V} (id : String)
    (h : turn.output texts messagesKey inputType = .ok output) :
    output.flat.map (Item.weight id) = turn.items.map (Item.weight id) := by
  obtain ⟨call, reply⟩ := turn
  cases reply with
  | error content =>
    rw [← Except.ok.inj h]
    rfl
  | response r =>
    replace h : normalizeToolResponse texts messagesKey call inputType r = .ok output := h
    cases r with
    | message m =>
      rw [← Except.ok.inj h]
      rfl
    | command c =>
      obtain ⟨c', hc, houtput⟩ := map_ok h
      rw [← houtput]
      exact congrArg (fun n => [n]) (validateToolCommand_weight id hc)
    | list items =>
      obtain ⟨items', hitems, houtput⟩ := map_ok h
      rw [← houtput]
      have hall := forall₂_of_mapM (validateToolCommandList_ok hitems).2
      exact map_eq_of_forall₂ (fun _ _ hitem => validateItem_weight id hitem) hall
    | badList => exact (nomatch h)
    | other type => exact (nomatch h)

theorem outputs_weight (id : String) {turns : List (Turn V)} {outputs : List (Output V)}
    (h : List.Forall₂ (fun turn output =>
      Turn.output texts messagesKey inputType turn = .ok output) turns outputs) :
    ((outputs.flatMap Output.flat).map (Item.weight id)).sum =
      (turns.map fun turn => (turn.items.map (Item.weight id)).sum).sum := by
  induction h with
  | nil => rfl
  | cons hturn _ ih =>
    rw [List.flatMap_cons, List.map_append, List.sum_append, Turn.output_weight id hturn, ih,
      List.map_cons, List.sum_cons]

/- ── What the validation leaves open ───────────────────────────────────────── -/

theorem Item.holds_eq (id : String) (item : Item V) :
    item.holds id = terminators id item + item.overlooked id := by
  cases item with
  | message m => rfl
  | command c =>
    obtain ⟨graph, update, resume, goto⟩ := c
    cases update with
    | absent => rfl
    | other v => rfl
    | list ms => exact (Nat.zero_add _).symm
    | dict ms rest =>
      show ms.countP (fun m => m.convert.answers id) = ms.countP (fun m => m.answers id) +
        ms.countP fun m => m.convert.answers id && !m.answers id
      induction ms with
      | nil => rfl
      | cons m ms ih =>
        have hconvert : m.answers id = true → m.convert.answers id = true := by
          cases m with
          | tool t => exact fun h => h
          | _ => exact fun h => (nomatch h)
        rw [List.countP_cons, List.countP_cons, List.countP_cons, ih]
        cases hm : m.answers id with
        | true => simp [hconvert hm]; omega
        | false => simp; omega

/-- A command to the current graph that passes has messages with the call's id, unless
    its update holds no messages or removes all. -/
theorem holds_pos_of_validated {call : ToolCall V} {c c' : Command V} (hgraph : c.graph = none)
    (hremoves : ∀ ms, c.update.messages = some ms →
      removesAll (ms.map Message.convert) = false)
    (hmessages : c.update.messages ≠ none)
    (h : validateToolCommand texts messagesKey call inputType true c = .ok c') :
    0 < (Item.command c).holds call.id := by
  unfold validateToolCommand at h
  split at h
  · exact (nomatch h)
  · cases hms : c.update.messages with
    | none => exact absurd hms hmessages
    | some ms =>
      simp only [hms, hremoves ms hms, hgraph, Bool.false_eq_true, if_false, true_and] at h
      split at h
      · exact (nomatch h)
      · rename_i hany
        obtain ⟨m, hm, hanswers⟩ := List.any_eq_true.mp ((Bool.not_eq_false _).mp hany)
        obtain ⟨m', hm', rfl⟩ := List.mem_map.mp hm
        show 0 < (c.update.messages.getD []).countP _
        rw [hms]
        exact List.countP_pos_iff.mpr ⟨m', hm', hanswers⟩

theorem sum_overlooked (id : String) (items : List (Item V)) :
    held id items = (items.map (terminators id)).sum +
      (items.map (Item.overlooked id)).sum := by
  induction items with
  | nil => rfl
  | cons item items ih =>
    have hitem := item.holds_eq id
    simp only [held, List.map_cons, List.sum_cons] at ih ⊢
    omega

/-- What a validated reply to the current graph holds: once what `Answers` says, and
    nothing where it is silent. -/
theorem Turn.held_items {output : Output V}
    (h : turn.output texts messagesKey inputType = .ok output) (hcurrent : turn.current = true)
    (hremoves : turn.removesAll = false) :
    (held turn.call.id turn.items = 1 ↔ turn.Answers) ∧
      (held turn.call.id turn.items = 0 ↔ turn.Silent) := by
  obtain ⟨call, reply⟩ := turn
  cases reply with
  | error content =>
    have hone : held call.id (Turn.items ⟨call, .error content⟩) = 1 := by
      simp [held, Turn.items, errorMessage, Output.flat, Item.holds]
    simp only [hone, Turn.Answers, Turn.Silent]
    simp
  | response r =>
    replace h : normalizeToolResponse texts messagesKey call inputType r = .ok output := h
    cases r with
    | badList => exact (nomatch h)
    | other type => exact (nomatch h)
    | message m =>
      show (held call.id [.message m] = 1 ↔ m.toolCallId = call.id) ∧
        (held call.id [.message m] = 0 ↔ m.toolCallId ≠ call.id)
      by_cases hid : m.toolCallId = call.id <;> simp [held, Item.holds, hid]
    | command c =>
      obtain ⟨c', hc, _⟩ := map_ok h
      have hheld : held call.id (Turn.items ⟨call, .response (.command c)⟩) =
          (Item.command c).holds call.id := Nat.add_zero _
      have hgraph : c.graph = none := by
        simpa [Turn.current, Turn.items, Option.isNone_iff_eq_none] using hcurrent
      have hnot : ∀ ms, c.update.messages = some ms →
          ToolNode.removesAll (ms.map Message.convert) = false := by
        intro ms hms
        simpa [Turn.removesAll, Turn.items, hms] using hremoves
      rw [hheld]
      show (_ ↔ c.update.messages ≠ none ∧ _ ≤ 1) ∧ (_ ↔ c.update.messages = none)
      by_cases hms : c.update.messages = none
      · have hzero : (Item.command c).holds call.id = 0 := by simp [Item.holds, hms]
        simp [hms, hzero]
      · have hpos := holds_pos_of_validated hgraph hnot hms hc
        simp only [hms, ne_eq, not_false_eq_true, true_and, iff_false]
        omega
    | list items =>
      obtain ⟨items', hitems, _⟩ := map_ok h
      have hcount := (validateToolCommandList_ok hitems).1
      have hsum := sum_overlooked call.id items
      show (held call.id items = 1 ↔ ∀ item ∈ items, item.overlooked call.id = 0) ∧
        (held call.id items = 0 ↔ False)
      rw [hcount] at hsum
      have hzero : (items.map (Item.overlooked call.id)).sum = 0 ↔
          ∀ item ∈ items, item.overlooked call.id = 0 := by
        rw [List.sum_eq_zero_iff_forall_eq_nat]
        simp
      rw [← hzero]
      exact ⟨by omega, by omega, fun h => h.elim⟩

/-- A reply to the current graph has no command that merges. -/
theorem Turn.weight_items (id : String) (hcurrent : turn.current = true) :
    (turn.items.map (Item.weight id)).sum = held id turn.items := by
  unfold held
  congr 1
  apply List.map_congr_left
  intro item hitem
  cases item with
  | message m => rfl
  | command c =>
    have hgraph : c.graph = none := by
      have := List.all_eq_true.mp hcurrent _ hitem
      simpa [Option.isNone_iff_eq_none] using this
    have hmerges : c.merges = false := by
      cases hc : c.merges with
      | false => rfl
      | true => exact absurd (hgraph.symm.trans (Command.merges_graph hc)) (by simp)
    simp [Item.weight, Item.merges, hmerges]

/-- With distinct keys, a sum is one entry and the entries with other keys. -/
theorem sum_eq_add_others {α κ : Type} [DecidableEq κ] (key : α → κ) (w : α → Nat) {a : α} :
    ∀ {l : List α}, (l.map key).Nodup → a ∈ l →
      (l.map w).sum = w a + ((l.filter (key · ≠ key a)).map w).sum
  | [], _, ha => (nomatch ha)
  | b :: l, hnodup, ha => by
    rw [List.map_cons, List.nodup_cons] at hnodup
    rw [List.map_cons, List.sum_cons]
    by_cases hab : key b = key a
    · have hothers : l.filter (key · ≠ key a) = l := by
        apply List.filter_eq_self.mpr
        intro c hc
        apply decide_eq_true
        intro hca
        exact hnodup.1 (List.mem_map.mpr ⟨c, hc, hca.trans hab.symm⟩)
      have heq : a = b := by
        cases List.mem_cons.mp ha with
        | inl heq => exact heq
        | inr hmem => exact absurd (List.mem_map.mpr ⟨a, hmem, hab.symm⟩) hnodup.1
      rw [List.filter_cons_of_neg (by simp [hab]), hothers, heq]
    · have hmem : a ∈ l := by
        cases List.mem_cons.mp ha with
        | inl heq => exact absurd (congrArg key heq.symm) hab
        | inr hmem => exact hmem
      rw [List.filter_cons_of_pos (by simp [hab]), List.map_cons, List.sum_cons,
        sum_eq_add_others key w hnodup.2 hmem]
      omega

theorem foreign_eq (id : String) (turns : List (Turn V)) :
    foreign id turns = ((turns.filter (·.call.id ≠ id)).map fun turn =>
      (turn.items.map (Item.weight id)).sum).sum := by
  unfold foreign
  rw [held_filter]
  induction turns.filter (·.call.id ≠ id) with
  | nil => rfl
  | cons turn turns ih =>
    rw [List.flatMap_cons, List.map_append, List.sum_append, ih, List.map_cons, List.sum_cons]

end

/-- When every call is answered once, and when nothing is lost in the combination. -/
theorem turns_answered_iff {texts : Texts V} {messagesKey : String} {inputType : InputType}
    {turns : List (Turn V)} {outputs : List (Output V)}
    (hids : (turns.map (·.call.id)).Nodup)
    (houtputs : turns.mapM (Turn.output texts messagesKey inputType) = .ok outputs) :
    (Answered turns ((combineToolOutputs inputType outputs).flatMap Combined.items) ↔
      Answerable turns) ∧
    (Preserved (outputs.flatMap Output.flat)
        ((combineToolOutputs inputType outputs).flatMap Combined.items) ↔
      Mergeable (outputs.flatMap Output.flat)) := by
  refine ⟨?_, preserved_iff inputType outputs⟩
  have hall := forall₂_of_mapM houtputs
  rw [combined_items]
  apply forall₂_congr
  intro turn hturn
  apply forall₂_congr
  intro hcurrent hremoves
  obtain ⟨output, houtput⟩ := exists_of_forall₂ hall turn hturn
  obtain ⟨hone, hzero⟩ := Turn.held_items houtput hcurrent hremoves
  have hsum : held turn.call.id ((outputs.flatMap Output.flat).filter (!Item.merges ·) ++
      parentItems (outputs.flatMap Output.flat)) =
      held turn.call.id turn.items + foreign turn.call.id turns := by
    rw [held_append, held_parentItems, Nat.add_zero, held_filter, outputs_weight _ hall,
      sum_eq_add_others (·.call.id) _ hids hturn, Turn.weight_items _ hcurrent, foreign_eq]
  rw [hsum, ← hone, ← hzero]
  omega

/- ── What a node returns ───────────────────────────────────────────────────── -/

section

variable {E Cls : Type} {ex : Exceptions V E Cls} {texts : Texts V} {node : Node V E Cls}
  {inputType : InputType}

/-- A call that returns is answered by its tool or by an error message. -/
theorem executeTool_reply {run : Tool V E → ToolCall V → Except E (Response V)}
    {call : ToolCall V} {output : Output V}
    (h : executeTool ex texts node run inputType (requestOf node call) = .ok output) :
    ∃ reply, Turn.output texts node.messagesKey inputType ⟨call, reply⟩ = .ok output := by
  unfold executeTool at h
  split at h
  · exact (nomatch h)
  · rename_i answer hprepare
    rw [← Except.ok.inj h]
    unfold prepare at hprepare
    split at hprepare
    · split at hprepare
      · exact ⟨.error _, congrArg Except.ok (Sum.inl.inj (Except.ok.inj hprepare))⟩
      · exact (nomatch hprepare)
    · split at hprepare
      · exact (nomatch hprepare)
      · exact (nomatch hprepare)
  · rename_i tool injected _
    cases hattempt : attempt ex texts node run (requestOf node call).call inputType tool
        injected with
    | ok answer =>
      simp only [hattempt] at h
      rw [← Except.ok.inj h]
      unfold attempt at hattempt
      split at hattempt
      · exact (nomatch hattempt)
      · rename_i response _
        split at hattempt
        · exact (nomatch hattempt)
        · rename_i answer' hnormalize
          rw [← Except.ok.inj hattempt]
          exact ⟨.response response, hnormalize⟩
    | error e =>
      simp only [hattempt] at h
      unfold handleInner at h
      split at h
      · exact (nomatch h)
      · split at h
        · split at h
          · exact (nomatch h)
          · split at h
            · exact (nomatch h)
            · obtain ⟨content, _, hcontent⟩ := map_ok h
              exact ⟨.error content, congrArg Except.ok hcontent⟩
        · exact (nomatch h)

theorem results_turns {run : Tool V E → ToolCall V → Except E (Response V)}
    (calls : List (ToolCall V))
    (h : (calls.map fun call => executeTool ex texts node run inputType
      (requestOf node call)).filterMap error? = []) :
    ∃ turns : List (Turn V), turns.map (·.call) = calls ∧
      turns.mapM (Turn.output texts node.messagesKey inputType) =
        .ok ((calls.map fun call => executeTool ex texts node run inputType
          (requestOf node call)).filterMap ok?) := by
  induction calls with
  | nil => exact ⟨[], rfl, rfl⟩
  | cons call calls ih =>
    rw [List.map_cons] at h ⊢
    cases hcall : executeTool ex texts node run inputType (requestOf node call) with
    | error e =>
      rw [hcall] at h
      exact (nomatch h)
    | ok output =>
      rw [hcall, List.filterMap_cons_none rfl] at h
      obtain ⟨turns, hcalls, houtputs⟩ := ih h
      obtain ⟨reply, hreply⟩ := executeTool_reply hcall
      refine ⟨⟨call, reply⟩ :: turns, congrArg (call :: ·) hcalls, ?_⟩
      rw [List.mapM_cons, hreply, houtputs]
      rfl

/-- When the node returns, its calls are answered by replies that pass the validation,
    and what it returns is their combination. -/
theorem func_turns {calls : List (ToolCall V)} {combined : List (Combined V)}
    (h : func ex texts node none inputType calls = .ok combined) :
    ∃ (turns : List (Turn V)) (outputs : List (Output V)), turns.map (·.call) = calls ∧
      turns.mapM (Turn.output texts node.messagesKey inputType) = .ok outputs ∧
      combined = combineToolOutputs inputType outputs := by
  replace h : gather inputType (calls.map fun call =>
    executeTool ex texts node Tool.invoke inputType (requestOf node call)) _ = _ := h
  unfold gather at h
  split at h
  · exact (nomatch h)
  · rename_i hnone
    obtain ⟨turns, hcalls, houtputs⟩ := results_turns calls (List.head?_eq_none_iff.mp hnone)
    exact ⟨turns, _, hcalls, houtputs, (Except.ok.inj h).symm⟩

end

/- ── Batches that a node answers ───────────────────────────────────────────── -/

def plainTexts : Texts Unit := ⟨fun _ => "", fun _ => "", id, fun v => .other v⟩

def answerTo (id : String) : ToolMessage Unit := ⟨.text "done", none, id, "success"⟩

/-- A call answered by a message, and one answered by a command with its message. -/
def batch : List (Turn Unit) :=
  [⟨⟨"1", "search", ()⟩, .response (.message (answerTo "1"))⟩,
    ⟨⟨"2", "note", ()⟩, .response (.command ⟨none, .dict [.tool (answerTo "2")] (), none,
      .one (.node "agent")⟩)⟩]

theorem turns_answered_iff_batch :
    Answered batch ((combineToolOutputs .dict
        [.item (.message (answerTo "1")),
          .item (.command ⟨none, .dict [.tool { answerTo "2" with name := some "note" }] (), none,
            .one (.node "agent")⟩)]).flatMap Combined.items) ↔ Answerable batch :=
  (@turns_answered_iff _ plainTexts "messages" .dict batch _ (by decide) rfl).1

/-- A command that answers its call twice, and a command to the parent graph with an
    update and a send. -/
def lossy : List (Turn Unit) :=
  [⟨⟨"1", "search", ()⟩, .response (.command ⟨none,
      .dict [.tool (answerTo "1"), .tool (answerTo "1")] (), none, .tuple []⟩)⟩,
    ⟨⟨"2", "handoff", ()⟩, .response (.command ⟨some PARENT, .dict [.tool (answerTo "2")] (), none,
      .list [.send ⟨"expert", ()⟩]⟩)⟩]

/-- Both commands pass; the first call has two messages, and the update of the second
    command is lost. -/
theorem not_turns_answered :
    (lossy.map (·.call.id)).Nodup ∧
      ∃ outputs, lossy.mapM (Turn.output plainTexts "messages" .dict) = .ok outputs ∧
        ¬ Answered lossy ((combineToolOutputs .dict outputs).flatMap Combined.items) ∧
        ¬ Preserved (outputs.flatMap Output.flat)
          ((combineToolOutputs .dict outputs).flatMap Combined.items) := by
  refine ⟨by decide, _, rfl, ?_, ?_⟩
  · intro h
    exact absurd (h _ List.mem_cons_self rfl rfl) (by decide)
  · intro h
    exact absurd h.updates (by decide)

end LangGraph.ToolNode
