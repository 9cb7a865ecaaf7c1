import Mathlib.Order.Nat
import LangGraph.CalledTasks
import LangGraph.ErrorHandlers
import LangGraph.ExitWrites
import LangGraph.TaskPreparation
import LangGraph.Lib.Marker

/- The ids of the tasks of a superstep.

   Correspondence (source ↔ Lean):
     the parts that `prepare_single_task`,
     `prepare_push_task_functional`, `prepare_push_task_send` and
     `prepare_node_error_handler_task` hand to
     `_xxhash_str`                                  ↔ `StepContext.described`
     the bytes that it hashes                       ↔ `StepContext.hashed`
     `loop.tasks` after `accept_push` and
     `schedule_error_handler`                       ↔ `StepContext.loopTasks`
   The parts are joined without a separator. The first PUSH or PULL in a text ends
   the namespace, step and name, if no name has one of these words inside; what
   stands before it names the task, if no name has the separators `|` and `:`
   inside: `hashed_inj`. All four are among the reserved names, and nodes with a
   separator inside are refused. -/
namespace LangGraph

/-- A task of a superstep: of a triggered node, of a pending send, of a call that a
    task makes, or of the handler that a failed task gets. -/
inductive StepTask where
  | pull (name : String)
  | send (idx : Nat)
  | call (parent : StepTask) (func : String) (idx : Nat)
  | errorHandler (failed : StepTask) (node : String)
  deriving DecidableEq

/-- The task that a call or a handler belongs to. -/
def StepTask.parent? : StepTask → Option StepTask
  | .pull _ => none
  | .send _ => none
  | .call parent _ _ => some parent
  | .errorHandler failed _ => some failed

/-- The path of the prepared task. -/
def StepTask.path : StepTask → TaskPath
  | .pull name => [.str Const.PULL, .str name]
  | .send idx => [.str Const.PUSH, .int idx, .int 0]
  | .call parent _ idx => [.str Const.PUSH, .tuple parent.path, .int idx, .int 1]
  | .errorHandler failed _ => failed.path.take 3 ++ [.str "node_error_handler", .int 0]

structure StepContext (V : Type) [LinearOrder V] where
  ctx : TaskContext
  cp : Checkpoint V
  channels : OrdDict String Channel
  step : Int

namespace StepContext
variable {V : Type} [LinearOrder V] (S : StepContext V)

/-- `packet.node` -/
def sendNode (idx : Nat) : String :=
  match (pendingSends S.channels)[idx]? with
  | some (.send node _) => node
  | _ => ""

def name : StepTask → String
  | .pull name => name
  | .send idx => S.sendNode idx
  | .call _ func _ => func
  | .errorHandler _ node => node

/-- `tuple(sorted(proc.triggers))` -/
def sortedTriggers (name : String) : List String :=
  match S.ctx.processes.get? name with
  | some proc => SortBy.sortBy id proc.triggers
  | none => []

/-- `checkpoint_ns` and the parts of the id. -/
def describe (ns name tag : String) (parts : List String) : String × List String :=
  (ns, [ns, toString S.step, name, tag] ++ parts)

/-- `described t`: the `checkpoint_ns` of the task and the parts of its id. The parent
    namespace of a call and of a handler is the one in the config of their task. -/
def described : StepTask → String × List String
  | .pull name =>
    S.describe (S.ctx.checkpointNs name) name Const.PULL (S.sortedTriggers name)
  | .send idx =>
    S.describe (S.ctx.checkpointNs (S.sendNode idx)) (S.sendNode idx) Const.PUSH [toString idx]
  | .call parent func idx =>
    let parentNs := (described parent).1 ++ ":" ++ taskId S.ctx S.cp.id (described parent).2
    S.describe (parentNs ++ "|" ++ func) func Const.PUSH [taskPathStr parent.path, toString idx]
  | .errorHandler failed node =>
    let failedId := taskId S.ctx S.cp.id (described failed).2
    let parentNs := (described failed).1 ++ ":" ++ failedId
    S.describe (parentNs ++ "|" ++ node) node Const.PUSH ["node_error_handler", failedId]

def checkpointNs (t : StepTask) : String := (S.described t).1

/-- The text that is hashed after the bytes of the checkpoint id. -/
def hashed (t : StepTask) : String := String.join (S.described t).2

def taskIdOf (t : StepTask) : String := taskId S.ctx S.cp.id (S.described t).2

/-- `task_checkpoint_ns` -/
def taskCheckpointNs (t : StepTask) : String := S.checkpointNs t ++ ":" ++ S.taskIdOf t

/-- `loop.tasks` after the tasks have been entered one by one. -/
def loopTasks (tasks : List StepTask) : OrdDict String StepTask :=
  OrdDict.ofList (tasks.map fun t => (S.taskIdOf t, t))

/-! ## The shape of a hashed text -/

/-- What all the texts of the superstep begin with. -/
def common : List Char := if S.ctx.parentNs = "" then [] else S.ctx.parentNs.toList ++ ['|']

/-- What a `checkpoint_ns` has between that and the name of the task. -/
def scope : StepTask → List Char
  | .pull _ => []
  | .send _ => []
  | .call parent _ _ =>
    scope parent ++ (S.name parent).toList ++ ':' :: (S.taskIdOf parent).toList ++ ['|']
  | .errorHandler failed _ =>
    scope failed ++ (S.name failed).toList ++ ':' :: (S.taskIdOf failed).toList ++ ['|']

def tag : StepTask → String
  | .pull _ => Const.PULL
  | _ => Const.PUSH

/-- What follows the tag. -/
def parts : StepTask → List String
  | .pull name => S.sortedTriggers name
  | .send idx => [toString idx]
  | .call parent _ idx => [taskPathStr parent.path, toString idx]
  | .errorHandler failed _ => ["node_error_handler", S.taskIdOf failed]

def rest (t : StepTask) : List Char := (String.join (S.parts t)).toList

/-- What stands before the tag. -/
def head (t : StepTask) : List Char :=
  S.scope t ++ (S.name t).toList ++ ((toString S.step).toList ++ (S.name t).toList)

theorem toList_checkpointNs (t : StepTask) :
    (S.checkpointNs t).toList = S.common ++ (S.scope t ++ (S.name t).toList) := by
  have hprepared : ∀ name : String, (S.ctx.checkpointNs name).toList = S.common ++ name.toList := by
    intro name
    unfold TaskContext.checkpointNs common
    split <;> simp
  induction t with
  | pull name => exact hprepared name
  | send idx => exact hprepared (S.sendNode idx)
  | call parent func idx ih =>
    show (S.checkpointNs parent ++ ":" ++ S.taskIdOf parent ++ "|" ++ func).toList = _
    simp [ih, scope, name]
  | errorHandler failed node ih =>
    show (S.checkpointNs failed ++ ":" ++ S.taskIdOf failed ++ "|" ++ node).toList = _
    simp [ih, scope, name]

theorem described_eq (t : StepTask) :
    S.described t = S.describe (S.checkpointNs t) (S.name t) (tag t) (S.parts t) := by
  cases t <;> rfl

theorem toList_hashed (t : StepTask) :
    (S.hashed t).toList = S.common ++ (S.head t ++ ((tag t).toList ++ S.rest t)) := by
  have hjoin : S.hashed t = S.checkpointNs t ++ (toString S.step ++ (S.name t ++
      (tag t ++ String.join (S.parts t)))) := by
    rw [hashed, described_eq, describe]
    apply String.toList_injective
    simp
  rw [hjoin]
  simp only [String.toList_append, S.toList_checkpointNs t, head, rest, List.append_assoc]

/-! ## Cutting it -/

/-- A name with none of the reserved words PUSH, PULL and separators inside. -/
structure PlainName (name : String) : Prop where
  push : ¬ Const.PUSH.toList <:+: name.toList
  pull : ¬ Const.PULL.toList <:+: name.toList
  sep : '|' ∉ name.toList
  colon : ':' ∉ name.toList

instance (name : String) : Decidable (PlainName name) :=
  decidable_of_iff (¬ Const.PUSH.toList <:+: name.toList ∧ ¬ Const.PULL.toList <:+: name.toList ∧
      '|' ∉ name.toList ∧ ':' ∉ name.toList)
    ⟨fun h => ⟨h.1, h.2.1, h.2.2.1, h.2.2.2⟩, fun h => ⟨h.push, h.pull, h.sep, h.colon⟩⟩

/-- The ids are groups of hex digits, joined by hyphens. -/
def HexIds (ctx : TaskContext) : Prop :=
  ∀ checkpointId text, ∀ c ∈ (ctx.xxh3 checkpointId text).toList, isHexDigit c = true ∨ c = '-'

theorem isDigit_or_hyphen_of_mem_toString {n : Int} {c : Char} (h : c ∈ (toString n).toList) :
    c.isDigit = true ∨ c = '-' := by
  cases n with
  | ofNat n =>
    change c ∈ (toString n).toList at h
    rw [toList_toString_nat] at h
    exact Or.inl (isDigit_of_mem_zeroPad h)
  | negSucc n =>
    have hstr : (toString (Int.negSucc n)).toList = '-' :: (toString (n + 1)).toList := by
      show ("-" ++ toString (n + 1)).toList = _
      simp
    rw [hstr, toList_toString_nat] at h
    rcases List.mem_cons.mp h with rfl | h
    · exact Or.inr rfl
    · exact Or.inl (isDigit_of_mem_zeroPad h)

theorem toString_int_ne_nil (n : Int) : (toString n).toList ≠ [] := by
  cases n with
  | ofNat n =>
    show (toString n).toList ≠ []
    rw [toList_toString_nat]
    intro h
    have hlen := congrArg List.length h
    simp [zeroPad] at hlen
  | negSucc n =>
    show ("-" ++ toString (n + 1)).toList ≠ []
    simp

/-- The tags have no digit, no hyphen and no separator. -/
theorem not_mem_tag {c : Char} (hc : c.isDigit = true ∨ c = '-' ∨ c = ':' ∨ c = '|')
    {w : List Char} (hw : w = Const.PUSH.toList ∨ w = Const.PULL.toList) : c ∉ w := by
  have hall : ((Const.PUSH.toList ++ Const.PULL.toList).all fun c =>
      !(c.isDigit || c == '-' || c == ':' || c == '|')) = true := by decide
  intro hmem
  have hboth : c ∈ Const.PUSH.toList ++ Const.PULL.toList := by
    rcases hw with rfl | rfl
    · exact List.mem_append_left _ hmem
    · exact List.mem_append_right _ hmem
  have hno := List.all_eq_true.mp hall c hboth
  rcases hc with h | rfl | rfl | rfl
  · simp [h] at hno
  · cases hno
  · cases hno
  · cases hno

theorem rest_send (idx : Nat) : S.rest (.send idx) = zeroPad 0 idx := by
  rw [← toList_toString_nat]
  simp [rest, parts]

theorem rest_call (parent : StepTask) (func : String) (idx : Nat) :
    S.rest (.call parent func idx) = '~' :: ((joinParts parent.path).toList ++ zeroPad 0 idx) := by
  rw [← toList_toString_nat]
  simp [rest, parts, taskPathStr, partStr]

theorem rest_errorHandler (failed : StepTask) (node : String) :
    S.rest (.errorHandler failed node) =
      'n' :: ("ode_error_handler".toList ++ (S.taskIdOf failed).toList) := by
  simp [rest, parts]

theorem digit_of_rest_send {idx : Nat} {c : Char} (h : c ∈ S.rest (.send idx)) : c.isDigit = true := by
  rw [rest_send] at h
  exact isDigit_of_mem_zeroPad h

theorem tag_eq (t : StepTask) : tag t = Const.PUSH ∨ tag t = Const.PULL := by
  cases t with
  | pull name => exact Or.inr rfl
  | send idx => exact Or.inl rfl
  | call parent func idx => exact Or.inl rfl
  | errorHandler failed node => exact Or.inl rfl

theorem tag_toList (t : StepTask) :
    (tag t).toList = Const.PUSH.toList ∨ (tag t).toList = Const.PULL.toList :=
  (tag_eq t).imp (congrArg String.toList) (congrArg String.toList)

theorem length_tag (t u : StepTask) : (tag t).toList.length = (tag u).toList.length := by
  have h : ∀ t : StepTask, (tag t).toList.length = 13 := by
    intro t
    rcases tag_eq t with h | h <;> rw [h] <;> decide
  rw [h t, h u]

/-- A call and a handler come with the task that they belong to. -/
def Closed (tasks : List StepTask) : Prop := ∀ t ∈ tasks, ∀ p ∈ t.parent?, p ∈ tasks

instance (tasks : List StepTask) : Decidable (Closed tasks) :=
  inferInstanceAs (Decidable (∀ t ∈ tasks, ∀ p ∈ t.parent?, p ∈ tasks))

section Inj
variable {S} {tasks : List StepTask} (hhex : HexIds S.ctx) (hclosed : Closed tasks)
  (hnames : ∀ t ∈ tasks, PlainName (S.name t))
include hhex hclosed hnames

theorem not_infix_scope {w : List Char} (hw : w = Const.PUSH.toList ∨ w = Const.PULL.toList) :
    ∀ t ∈ tasks, ¬ w <:+: S.scope t ++ (S.name t).toList := by
  have hplain : ∀ t ∈ tasks, ¬ w <:+: (S.name t).toList := by
    intro t ht
    rcases hw with rfl | rfl
    · exact (hnames t ht).push
    · exact (hnames t ht).pull
  have hcut : ∀ c ∈ [':', '|'], c ∉ w := by
    intro c hc
    apply not_mem_tag _ hw
    rcases List.mem_cons.mp hc with rfl | hc
    · exact Or.inr (Or.inr (Or.inl rfl))
    · exact Or.inr (Or.inr (Or.inr (List.mem_singleton.mp hc)))
  have hstep : ∀ parent : StepTask, ¬ w <:+: S.scope parent ++ (S.name parent).toList →
      ∀ name : List Char, ¬ w <:+: name →
      ¬ w <:+: (S.scope parent ++ (S.name parent).toList ++ ':' :: (S.taskIdOf parent).toList ++ ['|']) ++
        name := by
    intro parent hparent name hname hin
    rw [List.append_assoc _ ['|'], List.append_assoc] at hin
    have hcolon := Marker.infix_append_sep [':'] (by simp) (by simp [hcut]) hin
    rcases hcolon with h | h
    · exact hparent h
    · rcases Marker.infix_append_sep ['|'] (by simp) (by simp [hcut]) h with h | h
      · -- an id has no underscore
        have hunder : '_' ∈ (S.taskIdOf parent).toList := by
          apply h.subset
          rcases hw with rfl | rfl <;> decide
        rcases hhex _ _ _ hunder with h | h <;> exact absurd h (by decide)
      · exact hname h
  intro t
  induction t with
  | pull name => exact hplain (.pull name)
  | send idx => exact hplain (.send idx)
  | call parent func idx ih =>
    intro ht
    exact hstep parent (ih (hclosed _ ht parent rfl)) func.toList (hplain _ ht)
  | errorHandler failed node ih =>
    intro ht
    exact hstep failed (ih (hclosed _ ht failed rfl)) node.toList (hplain _ ht)

/-- The tag is the first PUSH or PULL of a text. -/
theorem not_infix_head {w w' : List Char} (hw : w = Const.PUSH.toList ∨ w = Const.PULL.toList)
    (hw' : w' = Const.PUSH.toList ∨ w' = Const.PULL.toList) {t : StepTask} (ht : t ∈ tasks) :
    ¬ w <:+: S.head t ++ w'.dropLast := by
  intro hin
  have hlen : w.length = w'.length ∧ w ≠ [] ∧ Marker.NoOverlap w w' := by
    rcases hw with rfl | rfl <;> rcases hw' with rfl | rfl <;> decide
  have hhead := Marker.infix_append_dropLast hlen.1 hlen.2.1 hlen.2.2 hin
  have hstep : ∀ c ∈ (toString S.step).toList, c ∉ w := by
    intro c hc
    apply not_mem_tag _ hw
    rcases isDigit_or_hyphen_of_mem_toString hc with h | h
    · exact Or.inl h
    · exact Or.inr (Or.inl h)
  rcases Marker.infix_append_sep _ (toString_int_ne_nil S.step) hstep hhead with h | h
  · exact not_infix_scope hhex hclosed hnames hw t ht h
  · rcases hw with rfl | rfl
    · exact (hnames t ht).push h
    · exact (hnames t ht).pull h

theorem split_hashed {t u : StepTask} (ht : t ∈ tasks) (hu : u ∈ tasks) (h : S.hashed t = S.hashed u) :
    S.head t = S.head u ∧ tag t = tag u ∧ S.rest t = S.rest u := by
  have hlist := congrArg String.toList h
  rw [S.toList_hashed t, S.toList_hashed u] at hlist
  obtain ⟨hhead, htags, hrest⟩ := Marker.append_marker_inj (length_tag t u)
    (not_infix_head hhex hclosed hnames (tag_toList t) (tag_toList u) hu)
    (not_infix_head hhex hclosed hnames (tag_toList u) (tag_toList t) ht) (List.append_cancel_left hlist)
  exact ⟨hhead, String.toList_injective htags, hrest⟩

omit hclosed in
/-- The head of a call or a handler tells the id of the task that it belongs to, and its name. -/
theorem head_inj {t u p q : StepTask} (ht : t ∈ tasks) (hu : u ∈ tasks)
    (hscope : S.scope t = S.scope p ++ (S.name p).toList ++ ':' :: (S.taskIdOf p).toList ++ ['|'])
    (hscope' : S.scope u = S.scope q ++ (S.name q).toList ++ ':' :: (S.taskIdOf q).toList ++ ['|'])
    (h : S.head t = S.head u) : S.taskIdOf p = S.taskIdOf q ∧ S.name t = S.name u := by
  have hplain : ∀ t ∈ tasks, '|' ∉ (S.name t).toList ++ ((toString S.step).toList ++ (S.name t).toList) := by
    intro t ht hmem
    rcases List.mem_append.mp hmem with hmem | hmem
    · exact (hnames t ht).sep hmem
    · rcases List.mem_append.mp hmem with hmem | hmem
      · rcases isDigit_or_hyphen_of_mem_toString hmem with h | h <;> exact absurd h (by decide)
      · exact (hnames t ht).sep hmem
  have hid : ∀ p : StepTask, ':' ∉ (S.taskIdOf p).toList := by
    intro p hmem
    rcases hhex _ _ _ hmem with h | h <;> exact absurd h (by decide)
  have hhead : ∀ {t p : StepTask},
      S.scope t = S.scope p ++ (S.name p).toList ++ ':' :: (S.taskIdOf p).toList ++ ['|'] →
      S.head t = S.scope p ++ (S.name p).toList ++ ':' :: (S.taskIdOf p).toList ++
        '|' :: ((S.name t).toList ++ ((toString S.step).toList ++ (S.name t).toList)) := by
    intro t p hscope
    rw [head, hscope]
    simp only [List.append_assoc, List.cons_append, List.nil_append]
  rw [hhead hscope, hhead hscope'] at h
  obtain ⟨hns, hname⟩ := Marker.append_sep_inj (hplain t ht) (hplain u hu) h
  obtain ⟨-, hids⟩ := Marker.append_sep_inj (hid p) (hid q) hns
  exact ⟨String.toList_injective hids, String.toList_injective (Marker.append_twice_inj hname)⟩

/-- Different tasks of a superstep have different texts. -/
theorem hashed_inj (hinj : ∀ t ∈ tasks, ∀ u ∈ tasks, S.taskIdOf t = S.taskIdOf u → S.hashed t = S.hashed u) :
    ∀ t ∈ tasks, ∀ u ∈ tasks, S.hashed t = S.hashed u → t = u := by
  intro t
  induction t with
  | pull name =>
    intro ht u hu h
    obtain ⟨hhead, htag, -⟩ := split_hashed hhex hclosed hnames ht hu h
    cases u with
    | pull name' => exact congrArg StepTask.pull (String.toList_injective (Marker.append_twice_inj hhead))
    | _ => exact absurd htag (show Const.PULL ≠ Const.PUSH by decide)
  | send idx =>
    intro ht u hu h
    obtain ⟨-, htag, hrest⟩ := split_hashed hhex hclosed hnames ht hu h
    have hdigits : ∀ c ∈ S.rest u, c.isDigit = true := by
      rw [← hrest]
      exact fun c hc => S.digit_of_rest_send hc
    cases u with
    | pull name => exact absurd htag (show Const.PUSH ≠ Const.PULL by decide)
    | send idx' =>
      rw [rest_send, rest_send] at hrest
      rw [zeroPad_inj hrest]
    | call parent func idx' =>
      rw [rest_call] at hdigits
      exact absurd (hdigits '~' List.mem_cons_self) (by decide)
    | errorHandler failed node =>
      rw [rest_errorHandler] at hdigits
      exact absurd (hdigits 'n' List.mem_cons_self) (by decide)
  | call parent func idx ih =>
    intro ht u hu h
    obtain ⟨hhead, htag, hrest⟩ := split_hashed hhex hclosed hnames ht hu h
    cases u with
    | pull name => exact absurd htag (show Const.PUSH ≠ Const.PULL by decide)
    | send idx' =>
      have htilde : '~' ∈ S.rest (.send idx') := by
        rw [← hrest, rest_call]
        exact List.mem_cons_self
      exact absurd (S.digit_of_rest_send htilde) (by decide)
    | call parent' func' idx' =>
      obtain ⟨hids, hname⟩ := head_inj hhex hnames ht hu rfl rfl hhead
      have hp := hclosed _ ht parent rfl
      have hp' := hclosed _ hu parent' rfl
      obtain rfl : parent = parent' := ih hp parent' hp' (hinj _ hp _ hp' hids)
      obtain rfl : func = func' := hname
      rw [rest_call, rest_call] at hrest
      rw [zeroPad_inj (List.append_cancel_left (List.cons_inj_right _ |>.mp hrest))]
    | errorHandler failed node =>
      rw [rest_call, rest_errorHandler] at hrest
      exact absurd (List.cons_eq_cons.mp hrest).1 (by decide)
  | errorHandler failed node ih =>
    intro ht u hu h
    obtain ⟨hhead, htag, hrest⟩ := split_hashed hhex hclosed hnames ht hu h
    cases u with
    | pull name => exact absurd htag (show Const.PUSH ≠ Const.PULL by decide)
    | send idx' =>
      have hn : 'n' ∈ S.rest (.send idx') := by
        rw [← hrest, rest_errorHandler]
        exact List.mem_cons_self
      exact absurd (S.digit_of_rest_send hn) (by decide)
    | call parent func idx' =>
      rw [rest_call, rest_errorHandler] at hrest
      exact absurd (List.cons_eq_cons.mp hrest).1 (by decide)
    | errorHandler failed' node' =>
      obtain ⟨hids, hname⟩ := head_inj hhex hnames ht hu rfl rfl hhead
      have hp := hclosed _ ht failed rfl
      have hp' := hclosed _ hu failed' rfl
      obtain rfl : failed = failed' := ih hp failed' hp' (hinj _ hp _ hp' hids)
      obtain rfl : node = node' := hname
      rfl

end Inj

/-! ## The tasks of a superstep -/

/-- The id of a call, as its caller computes it. -/
theorem childId_eq (c : Caller) (parent : StepTask) (hhash : c.ctx.xxh3 = S.ctx.xxh3)
    (hns : c.ctx.parentNs = S.taskCheckpointNs parent) (hcp : c.checkpointId = S.cp.id)
    (hstep : c.step = S.step) (hpath : c.path = parent.path) (func : String) (idx : Nat) :
    c.childId idx func = S.taskIdOf (.call parent func idx) := by
  have hne : S.taskCheckpointNs parent ≠ "" := by
    intro h
    have hlist := congrArg String.toList h
    simp [taskCheckpointNs] at hlist
  have hchild : c.ctx.checkpointNs func = S.taskCheckpointNs parent ++ "|" ++ func := by
    rw [TaskContext.checkpointNs, hns, if_neg hne]
  rw [Caller.childId, hchild, hcp, hstep, hpath, taskId, hhash]
  rfl

/-- The id of the handler of a prepared task. -/
theorem errorHandlerTaskId_eq {failed : Task} {u : StepTask} (hname : failed.name = S.name u)
    (hid : failed.id = S.taskIdOf u) (hu : u.parent? = none) (node : String) :
    errorHandlerTaskId S.ctx S.cp.id S.step failed node = S.taskIdOf (.errorHandler u node) := by
  rw [errorHandlerTaskId, TaskContext.taskCheckpointNs, hname, hid]
  cases u with
  | pull name => rfl
  | send idx => rfl
  | call parent func idx => cases hu
  | errorHandler failed node => cases hu

variable [OrderBot V] (forExecution : Bool) (ttn : Option TriggerToNodes) (updated : Option (List String))

/-- `prepare_single_task`, for the tasks that `prepare_next_tasks` looks at. -/
def prepare : StepTask → Option Task
  | .send idx => preparePushTaskSend S.ctx S.cp S.channels S.step idx
  | .pull name => preparePullTask S.ctx S.cp S.channels S.step forExecution name
  | _ => none

def candidates : List StepTask :=
  (List.range (pendingSends S.channels).length).map .send ++
    (candidateNodes S.ctx S.cp ttn updated).map .pull

/-- The tasks that `prepare_next_tasks` makes. -/
def prepared : List StepTask :=
  (S.candidates ttn updated).filter fun t => (S.prepare forExecution t).isSome

def taskList : List Task := nextTaskList S.ctx S.cp S.channels S.step forExecution ttn updated

theorem taskList_eq : S.taskList forExecution ttn updated =
    (S.candidates ttn updated).filterMap (S.prepare forExecution) := by
  rw [taskList, nextTaskList, nextTaskPaths, candidates, List.filterMap_append, List.filterMap_append,
    List.filterMap_map, List.filterMap_map, List.filterMap_map, List.filterMap_map]
  rfl

variable {S forExecution ttn updated}

theorem prepare_eq_some {u : StepTask} {t : Task} (h : S.prepare forExecution u = some t) :
    t.id = S.taskIdOf u ∧ t.path = u.path := by
  cases u with
  | send idx =>
    obtain ⟨node, arg, proc, hpacket, -, -, rfl⟩ := preparePushTaskSend_eq_some_iff.mp h
    have hnode : S.sendNode idx = node := by rw [sendNode, hpacket]
    rw [taskIdOf, described, hnode]
    exact ⟨rfl, rfl⟩
  | pull name =>
    obtain ⟨proc, hproc, -, -, -, hpath, -⟩ := preparePullTask_eq_some h
    have htriggers : S.sortedTriggers name = SortBy.sortBy id proc.triggers := by rw [sortedTriggers, hproc]
    rw [taskIdOf, described, htriggers]
    exact ⟨(preparePullTask_id h).2.2 proc hproc, hpath⟩
  | call parent func idx => cases h
  | errorHandler failed node => cases h

theorem map_id_taskList :
    (S.taskList forExecution ttn updated).map (·.id) =
      (S.prepared forExecution ttn updated).map S.taskIdOf := by
  rw [taskList_eq, prepared]
  induction S.candidates ttn updated with
  | nil => rfl
  | cons u us ih =>
    cases hu : S.prepare forExecution u with
    | none => simp [hu, ih]
    | some t => simp [hu, ih, (prepare_eq_some hu).1]

theorem nodup_prepared : (S.prepared forExecution ttn updated).Nodup := by
  apply List.Nodup.filter
  have hnodes : (candidateNodes S.ctx S.cp ttn updated).Nodup := by
    unfold candidateNodes
    simp only
    split
    · exact (SortBy.perm_sortBy _ _).nodup_iff.mpr (List.nodup_dedup _)
    · split
      · exact List.nodup_nil
      · exact OrdDict.keys_nodup _
  apply List.Nodup.append
  · exact List.nodup_range.map fun i j h => StepTask.send.inj h
  · exact hnodes.map fun n m h => StepTask.pull.inj h
  · intro u hsend hpull
    obtain ⟨i, -, rfl⟩ := List.mem_map.mp hsend
    obtain ⟨n, -, h⟩ := List.mem_map.mp hpull
    cases h

theorem parent_of_prepare {u : StepTask} {t : Task} (h : S.prepare forExecution u = some t) :
    u.parent? = none := by
  cases u with
  | send idx => rfl
  | pull name => rfl
  | call parent func idx => cases h
  | errorHandler failed node => cases h

theorem parent_of_mem_prepared {u : StepTask} (h : u ∈ S.prepared forExecution ttn updated) :
    u.parent? = none := by
  obtain ⟨t, ht⟩ := Option.isSome_iff_exists.mp (List.mem_filter.mp h).2
  exact parent_of_prepare ht

/-- Of the tasks that `prepare_next_tasks` makes, the path tells which. -/
theorem path_inj {u u' : StepTask} (hu : u.parent? = none) (hu' : u'.parent? = none)
    (h : u.path = u'.path) : u = u' := by
  cases u with
  | send idx =>
    cases u' with
    | send idx' =>
      have hidx : (idx : Int) = idx' := by simpa [StepTask.path] using h
      rw [Int.ofNat_inj.mp hidx]
    | pull name => simp [StepTask.path] at h
    | call parent func idx' => cases hu'
    | errorHandler failed node => cases hu'
  | pull name =>
    cases u' with
    | send idx' => simp [StepTask.path] at h
    | pull name' => simpa [StepTask.path] using h
    | call parent func idx' => cases hu'
    | errorHandler failed node => cases hu'
  | call parent func idx => cases hu
  | errorHandler failed node => cases hu

variable (S forExecution ttn updated)

/-- No task is lost to an id. -/
theorem tasks_kept (pushed : List StepTask) (hnodup : pushed.Nodup)
    (hpushed : ∀ t ∈ pushed, t.parent? ≠ none)
    (hclosed : Closed (S.prepared forExecution ttn updated ++ pushed))
    (hnames : ∀ t ∈ S.prepared forExecution ttn updated ++ pushed, PlainName (S.name t))
    (hhex : HexIds S.ctx)
    (hinj : ∀ t ∈ S.prepared forExecution ttn updated ++ pushed,
      ∀ u ∈ S.prepared forExecution ttn updated ++ pushed,
        S.ctx.xxh3 S.cp.id (S.hashed t) = S.ctx.xxh3 S.cp.id (S.hashed u) → S.hashed t = S.hashed u) :
    ((S.prepared forExecution ttn updated ++ pushed).map S.hashed).Nodup ∧
      (S.loopTasks (S.prepared forExecution ttn updated ++ pushed)).entries =
        (S.prepared forExecution ttn updated ++ pushed).map (fun t => (S.taskIdOf t, t)) ∧
      (prepareNextTasks S.ctx S.cp S.channels S.step forExecution ttn updated).entries =
        (S.taskList forExecution ttn updated).map (fun t => (t.id, t)) ∧
      ∀ forExecution' ttn' updated', ∀ t ∈ S.taskList forExecution ttn updated,
        ∀ t' ∈ S.taskList forExecution' ttn' updated', t.path = t'.path → t.id = t'.id := by
  set tasks := S.prepared forExecution ttn updated ++ pushed with htasks
  have hhashed := hashed_inj hhex hclosed hnames hinj
  have htexts : tasks.Nodup := by
    apply List.Nodup.append nodup_prepared hnodup
    intro t hprep hpush
    exact hpushed t hpush (parent_of_mem_prepared hprep)
  have hids : (tasks.map S.taskIdOf).Nodup := by
    rw [List.nodup_map_iff_inj_on htexts]
    intro t ht u hu h
    exact hhashed t ht u hu (hinj t ht u hu h)
  have hlist : ((S.taskList forExecution ttn updated).map (·.id)).Nodup := by
    rw [map_id_taskList]
    have hsub : ((S.prepared forExecution ttn updated).map S.taskIdOf).Sublist (tasks.map S.taskIdOf) :=
      (List.sublist_append_left _ _).map _
    exact List.Nodup.sublist hsub hids
  refine ⟨?_, ?_, ?_, ?_⟩
  · rw [List.nodup_map_iff_inj_on htexts]
    exact fun t ht u hu => hhashed t ht u hu
  · apply OrdDict.entries_ofList_of_nodup
    rw [List.map_map]
    exact hids
  · apply OrdDict.entries_ofList_of_nodup
    rw [List.map_map]
    exact hlist
  · intro forExecution' ttn' updated' t ht t' ht' hpath
    rw [taskList_eq] at ht ht'
    obtain ⟨u, hu, hprep⟩ := List.mem_filterMap.mp ht
    obtain ⟨u', hu', hprep'⟩ := List.mem_filterMap.mp ht'
    obtain ⟨hid, hp⟩ := prepare_eq_some hprep
    obtain ⟨hid', hp'⟩ := prepare_eq_some hprep'
    have heq : u = u' := path_inj (parent_of_prepare hprep) (parent_of_prepare hprep') (hp ▸ hp' ▸ hpath)
    rw [hid, hid', heq]

/-! ## Two supersteps -/

/-- A hash of 38 digits. -/
def digitHash (checkpointId text : String) : String :=
  String.ofList (zeroPad 38 ((checkpointId ++ text).toList.foldl
    (fun h c => (h * 1114112 + c.toNat) % (2 ^ 126 - 137)) 0))

/-- A graph of nodes that read their triggers, at its second superstep; every trigger has a value
    that no node has seen, and there are pending sends. -/
def fresh (nodes : List (String × List String)) (sends : List PyVal) : StepContext Nat where
  ctx := {
    processes := OrdDict.ofList (nodes.map fun e => (e.1, ⟨.list e.2, e.2, none, true, none⟩))
    managed := ∅
    parentNs := ""
    xxh3 := digitHash }
  cp := {
    id := "1ef4f797"
    channelValues := ∅
    channelVersions := OrdDict.ofList ((nodes.flatMap Prod.snd).map fun c => (c, 2))
    versionsSeen := ∅
    updatedChannels := none }
  channels := (OrdDict.ofList ((nodes.flatMap Prod.snd).map fun c =>
      (c, .ephemeralValue ⟨c, true, some (.int 1)⟩))).set Const.TASKS
    (.topic ⟨Const.TASKS, false, sends⟩)
  step := 1

def callingStep : StepContext Nat :=
  fresh [("a", ["branch:to:a"]), ("a1", ["branch:to:a1"]), ("h", [])] [.send "a" .none, .send "a" .none]

def callingPushed : List StepTask :=
  [.call (.pull "a") "f" 10, .call (.pull "a1") "f" 0, .call (.call (.pull "a") "f" 10) "g" 0,
    .errorHandler (.send 1) "h"]

theorem hexIds_digitHash (nodes : List (String × List String)) (sends : List PyVal) :
    HexIds (fresh nodes sends).ctx := by
  intro checkpointId text c hc
  change c ∈ (String.ofList _).toList at hc
  rw [String.toList_ofList] at hc
  rw [isHexDigit, isDigit_of_mem_zeroPad hc, Bool.true_or]
  exact Or.inl rfl

/-- The digits of the hash of some characters. -/
def hashDigits (cs : List Char) : List Char :=
  zeroPad 38 (cs.foldl (fun h c => (h * 1114112 + c.toNat) % (2 ^ 126 - 137)) 0)

theorem toList_taskIdOf_calling (t : StepTask) : (callingStep.taskIdOf t).toList =
    hashDigits (callingStep.cp.id.toList ++ (callingStep.hashed t).toList) := by
  show (String.ofList _).toList = _
  rw [String.toList_ofList, String.toList_append]
  rfl

/-- The ids inside a hashed text are spelled out as digits before the hash is computed: the
    characters of a long text are slow to evaluate. -/
theorem nodup_taskIds_calling :
    (([StepTask.send 0, .send 1, .pull "a", .pull "a1"] ++ callingPushed).map fun t =>
      (callingStep.taskIdOf t).toList).Nodup := by
  simp only [callingPushed, List.cons_append, List.nil_append, List.map_cons, List.map_nil,
    toList_taskIdOf_calling, toList_hashed, head, scope]
  decide +kernel

theorem tasks_kept_calling :
    ((callingStep.prepared true none none ++ callingPushed).map callingStep.hashed).Nodup ∧
      (callingStep.loopTasks (callingStep.prepared true none none ++ callingPushed)).entries =
        (callingStep.prepared true none none ++ callingPushed).map
          (fun t => (callingStep.taskIdOf t, t)) := by
  have hprepared : callingStep.prepared true none none = [.send 0, .send 1, .pull "a", .pull "a1"] := by
    decide +kernel
  have hinj : ∀ t ∈ callingStep.prepared true none none ++ callingPushed,
      ∀ u ∈ callingStep.prepared true none none ++ callingPushed,
        callingStep.taskIdOf t = callingStep.taskIdOf u → callingStep.hashed t = callingStep.hashed u := by
    rw [hprepared]
    intro t ht u hu h
    rw [List.inj_on_of_nodup_map nodup_taskIds_calling ht hu (congrArg String.toList h)]
  have h := tasks_kept callingStep true none none callingPushed (by decide) (by decide)
    (by rw [hprepared]; decide) (by rw [hprepared]; decide +kernel) (hexIds_digitHash _ _) hinj
  exact ⟨h.1, h.2.1⟩

/-- A node whose name holds a PULL, and one triggered by a channel whose name holds the rest. -/
def hidingStep : StepContext Nat :=
  fresh [("a", ["x1a1a__pregel_pullx__pregel_pullz"]), ("a1a__pregel_pullx", ["z"])] []

/-- Both nodes are triggered and have one text, so that one task is lost. -/
theorem not_tasks_kept :
    hidingStep.prepared true none none = [.pull "a", .pull "a1a__pregel_pullx"] ∧
      hidingStep.hashed (.pull "a") = hidingStep.hashed (.pull "a1a__pregel_pullx") ∧
      (prepareNextTasks hidingStep.ctx hidingStep.cp hidingStep.channels
        hidingStep.step true none none).entries.length = 1 := by
  refine ⟨?_, ?_, ?_⟩ <;> decide +kernel

end StepContext

end LangGraph
