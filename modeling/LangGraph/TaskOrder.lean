import Mathlib.Data.List.Infix
import LangGraph.Algo

/- The order in which `apply_writes` folds the tasks of a superstep.

   `apply_writes` sorts the tasks by `task_path_str(t.path[:3])`, a string made
   of a tuple that mixes strings, ints and tuples. On the paths the runtime
   builds (`IsTaskPath`) that string determines the three components it was
   made of (`taskPathStr_take_inj`): an index is printed with at least ten
   digits but is not bounded by them, a node name may itself contain the
   separator, and a call's path nests the path of its caller. The sorted list,
   and with it everything `apply_writes` does, then depends on the set of tasks
   only (`applyWrites_perm`). -/
namespace LangGraph

/-- The paths of tasks: a node that an edge triggered, a pending send, a call
    made by the task at `parent`; `PregelTaskWrites` of the input have `()`. -/
inductive IsTaskPath : TaskPath → Prop
  | input : IsTaskPath []
  | pull (name : String) : IsTaskPath [.str Const.PULL, .str name]
  | send (idx : Nat) : IsTaskPath [.str Const.PUSH, .int idx, .int 0]
  | call {parent : TaskPath} (idx : Nat) (h : IsTaskPath parent) :
      IsTaskPath [.str Const.PUSH, .tuple parent, .int idx, .int 1]

/-! ## Zero-padded indices -/

theorem ofDigitChars_zeroPad (w n : Nat) : Nat.ofDigitChars 10 (zeroPad w n) 0 = n := by
  rw [zeroPad, Nat.ofDigitChars_append, Nat.ofDigitChars_replicate_zero, Nat.mul_zero,
    Nat.ofDigitChars_ten_toDigits]

theorem zeroPad_inj {w m n : Nat} (h : zeroPad w m = zeroPad w n) : m = n := by
  rw [← ofDigitChars_zeroPad w m, h, ofDigitChars_zeroPad]

theorem isDigit_of_mem_zeroPad {w n : Nat} {c : Char} (h : c ∈ zeroPad w n) :
    c.isDigit = true := by
  rcases List.mem_append.mp h with h | h
  · rw [(List.mem_replicate.mp h).2]
    decide
  · exact Nat.isDigit_of_mem_toDigits (by decide) (by decide) h

theorem zeroPad_ne_nil (w n : Nat) : zeroPad w n ≠ [] := by
  simp [zeroPad, Nat.toDigits_ne_nil]

/-! ## Reading a key back -/

/-- The last `", "` before a run of digits splits a string in one way. -/
theorem append_digits_inj {a a' d d' : List Char} (hd : ∀ c ∈ d, c.isDigit = true)
    (hd' : ∀ c ∈ d', c.isDigit = true) (h : a ++ ',' :: ' ' :: d = a' ++ ',' :: ' ' :: d') :
    a = a' ∧ d = d' := by
  have cut : ∀ {b e : List Char}, (∀ c ∈ e, c.isDigit = true) →
      (b ++ ',' :: ' ' :: e).reverse.takeWhile Char.isDigit = e.reverse := by
    intro b e he
    have hrev : (b ++ ',' :: ' ' :: e).reverse = e.reverse ++ ' ' :: ',' :: b.reverse := by simp
    rw [hrev, List.takeWhile_append_of_pos (by simpa using he)]
    simp
  have hdd : d = d' := by
    have hr := congrArg (fun l => l.reverse.takeWhile Char.isDigit) h
    simp only [cut hd, cut hd'] at hr
    exact List.reverse_injective hr
  subst hdd
  exact ⟨List.append_cancel_right h, rfl⟩

theorem format010d_natCast (n : Nat) : (format010d n).toList = zeroPad 10 n := by
  simp [format010d]

/-- The characters of the key of a path, for each form of path. -/
theorem key_pull (name : String) :
    (taskPathStr [.str Const.PULL, .str name]).toList =
      "~__pregel_pull, ".toList ++ name.toList := by
  simp [taskPathStr, partStr, joinParts, Const.PULL]

theorem key_send (i : Nat) :
    (taskPathStr [.str Const.PUSH, .int i, .int 0]).toList =
      ("~__pregel_push, ".toList ++ zeroPad 10 i) ++ ',' :: ' ' :: zeroPad 10 0 := by
  have h0 : (format010d 0).toList = zeroPad 10 0 := format010d_natCast 0
  simp [taskPathStr, partStr, joinParts, Const.PUSH, format010d_natCast, h0]

theorem key_call_take (p : TaskPath) (i : Nat) :
    (taskPathStr [.str Const.PUSH, .tuple p, .int i]).toList =
      ("~__pregel_push, ".toList ++ (taskPathStr p).toList) ++ ',' :: ' ' :: zeroPad 10 i := by
  simp [taskPathStr, partStr, joinParts, Const.PUSH, format010d_natCast]

theorem key_call (p : TaskPath) (i : Nat) :
    (taskPathStr [.str Const.PUSH, .tuple p, .int i, .int 1]).toList =
      (("~__pregel_push, ".toList ++ (taskPathStr p).toList) ++ ',' :: ' ' :: zeroPad 10 i) ++
        ',' :: ' ' :: zeroPad 10 1 := by
  have h1 : (format010d 1).toList = zeroPad 10 1 := format010d_natCast 1
  simp [taskPathStr, partStr, joinParts, Const.PUSH, format010d_natCast, h1]

/-- A call's key and a send's key part ways after the tag: a nested path opens
    with `~`, an index with a digit. -/
theorem nested_ne_index {p : TaskPath} {i : Nat} {a b : List Char} :
    "~__pregel_push, ".toList ++ (taskPathStr p).toList ++ a ≠
      "~__pregel_push, ".toList ++ zeroPad 10 i ++ b := by
  intro h
  rw [List.append_assoc, List.append_assoc] at h
  have h' := List.append_cancel_left h
  have hp : (taskPathStr p).toList = '~' :: (joinParts p).toList := by
    simp [taskPathStr, partStr]
  cases hz : zeroPad 10 i with
  | nil => exact zeroPad_ne_nil 10 i hz
  | cons c cs =>
    have hc : c.isDigit = true := isDigit_of_mem_zeroPad (by rw [hz]; exact List.mem_cons_self ..)
    rw [hp, hz, List.cons_append, List.cons_append] at h'
    have : '~' = c := (List.cons.inj h').1
    subst this
    simp at hc

theorem pull_ne_push {a b : List Char} :
    "~__pregel_pull, ".toList ++ a ≠ "~__pregel_push, ".toList ++ b := by
  intro h
  have := congrArg (fun l => l[12]?) h
  simp at this

theorem key_input : (taskPathStr []).toList = ['~'] := by
  simp [taskPathStr, partStr, joinParts]

/-- The full path of a task is determined by its printed form. -/
theorem taskPathStr_inj {p q : TaskPath} (hp : IsTaskPath p) (hq : IsTaskPath q)
    (h : (taskPathStr p).toList = (taskPathStr q).toList) : p = q := by
  have digits : ∀ n : Nat, ∀ c ∈ zeroPad 10 n, c.isDigit = true :=
    fun n c hc => isDigit_of_mem_zeroPad hc
  induction hp generalizing q with
  | input =>
    cases hq with
    | input => rfl
    | pull n => rw [key_input, key_pull] at h; simp at h
    | send j => rw [key_input, key_send] at h; simp at h
    | call j hq => rw [key_input, key_call] at h; simp at h
  | pull n =>
    rw [key_pull] at h
    cases hq with
    | input => rw [key_input] at h; simp at h
    | pull m =>
      rw [key_pull] at h
      rw [String.toList_inj.mp (List.append_cancel_left h)]
    | send j =>
      rw [key_send, List.append_assoc] at h
      exact absurd h pull_ne_push
    | call j hq =>
      rw [key_call, List.append_assoc, List.append_assoc] at h
      exact absurd h pull_ne_push
  | send i =>
    rw [key_send] at h
    cases hq with
    | input => rw [key_input] at h; simp at h
    | pull m =>
      rw [key_pull, List.append_assoc] at h
      exact absurd h.symm pull_ne_push
    | send j =>
      rw [key_send] at h
      have hij := List.append_cancel_left (append_digits_inj (digits _) (digits _) h).1
      rw [zeroPad_inj hij]
    | call j hq =>
      rw [key_call] at h
      have h01 := zeroPad_inj (append_digits_inj (digits _) (digits _) h).2
      cases h01
  | @call p i hp ih =>
    rw [key_call] at h
    cases hq with
    | input => rw [key_input] at h; simp at h
    | pull m =>
      rw [key_pull, List.append_assoc, List.append_assoc] at h
      exact absurd h.symm pull_ne_push
    | send j =>
      rw [key_send] at h
      have h01 := zeroPad_inj (append_digits_inj (digits _) (digits _) h).2
      cases h01
    | @call q j hq =>
      rw [key_call] at h
      obtain ⟨h₁, hij⟩ := append_digits_inj (digits _) (digits _)
        (append_digits_inj (digits _) (digits _) h).1
      rw [ih hq (List.append_cancel_left h₁), zeroPad_inj hij]

/-- The sort key determines the components it was made of. -/
theorem taskPathStr_take_inj {p q : TaskPath} (hp : IsTaskPath p) (hq : IsTaskPath q)
    (h : taskPathStr (p.take 3) = taskPathStr (q.take 3)) : p.take 3 = q.take 3 := by
  have digits : ∀ n : Nat, ∀ c ∈ zeroPad 10 n, c.isDigit = true :=
    fun n c hc => isDigit_of_mem_zeroPad hc
  have hl := congrArg String.toList h
  cases hp with
  | call i hp =>
    cases hq with
    | call j hq =>
      simp only [List.take] at hl ⊢
      rw [key_call_take, key_call_take] at hl
      obtain ⟨h₁, hij⟩ := append_digits_inj (digits _) (digits _) hl
      rw [taskPathStr_inj hp hq (List.append_cancel_left h₁), zeroPad_inj hij]
    | send j =>
      simp only [List.take] at hl
      rw [key_call_take, key_send] at hl
      exact absurd hl nested_ne_index
    | input =>
      simp only [List.take] at hl
      rw [key_call_take, key_input] at hl
      simp at hl
    | pull m =>
      simp only [List.take] at hl
      rw [key_call_take, key_pull, List.append_assoc] at hl
      exact absurd hl.symm pull_ne_push
  | send i =>
    cases hq with
    | call j hq =>
      simp only [List.take] at hl
      rw [key_call_take, key_send] at hl
      exact absurd hl.symm nested_ne_index
    | send j => exact taskPathStr_inj (.send i) (.send j) hl
    | input => exact taskPathStr_inj (.send i) .input hl
    | pull m => exact taskPathStr_inj (.send i) (.pull m) hl
  | input =>
    cases hq with
    | call j hq =>
      simp only [List.take] at hl
      rw [key_call_take, key_input] at hl
      simp at hl
    | send j => exact taskPathStr_inj .input (.send j) hl
    | input => rfl
    | pull m => exact taskPathStr_inj .input (.pull m) hl
  | pull n =>
    cases hq with
    | call j hq =>
      simp only [List.take] at hl
      rw [key_call_take, key_pull, List.append_assoc] at hl
      exact absurd hl pull_ne_push
    | send j => exact taskPathStr_inj (.pull n) (.send j) hl
    | input => exact taskPathStr_inj (.pull n) .input hl
    | pull m => exact taskPathStr_inj (.pull n) (.pull m) hl

/-! ## apply_writes and the order of its tasks -/

/-- Tasks told apart by the first three components of their paths are told
    apart by their sort keys. -/
theorem sortKey_inj {tasks : List TaskWrites} (hpath : ∀ t ∈ tasks, IsTaskPath t.path)
    (hdist : tasks.Pairwise fun a b => a.path.take 3 ≠ b.path.take 3) :
    ∀ a ∈ tasks, ∀ b ∈ tasks, a.sortKey = b.sortKey → a = b := by
  refine SortBy.inj_of_pairwise_ne (hdist.imp_of_mem ?_)
  intro a b ha hb hab hkey
  exact hab (taskPathStr_take_inj (hpath a ha) (hpath b hb) hkey)

/-- `apply_writes` does the same on every order of the tasks: the same channels,
    versions, `versions_seen` and updated channels, or the same exception after
    the same partial update. -/
theorem applyWrites_perm {V : Type} [LinearOrder V] (checkpoint : Checkpoint V)
    (channels : OrdDict String Channel) (getNextVersion : Option (GetNextVersion V))
    (triggerToNodes : TriggerToNodes) {tasks tasks' : List TaskWrites} (hperm : tasks.Perm tasks')
    (hpath : ∀ t ∈ tasks, IsTaskPath t.path)
    (hdist : tasks.Pairwise fun a b => a.path.take 3 ≠ b.path.take 3) :
    applyWrites checkpoint channels tasks getNextVersion triggerToNodes =
      applyWrites checkpoint channels tasks' getNextVersion triggerToNodes := by
  have hsort : SortBy.sortBy TaskWrites.sortKey tasks = SortBy.sortBy TaskWrites.sortKey tasks' :=
    SortBy.sortBy_eq_of_perm hperm (sortKey_inj hpath hdist)
  unfold applyWrites
  rw [hsort]

/-- Two tasks that write one `BinaryOperatorAggregate` whose operator appends. -/
def appendingTasks : List TaskWrites :=
  [⟨[.str Const.PUSH, .int 0, .int 0], "sent", [("log", .str "s")], [Const.PUSH]⟩,
    ⟨[.str Const.PULL, .str "a, b"], "a, b", [("log", .str "p")], ["branch:to:a, b"]⟩]

def appendingChannels : OrdDict String Channel :=
  OrdDict.ofList [("log", .binaryOperatorAggregate
    ⟨"log", fun l v => .ok (.tuple [l, v]), some .none, some .none⟩)]

/-- The swapped tasks are applied in the same order, although the operator does
    not commute. -/
theorem applyWrites_perm_appending :
    applyWrites (⟨"c", ∅, OrdDict.ofList [("log", 1)], ∅, none⟩ : Checkpoint ℕ)
        appendingChannels appendingTasks (some fun v => v.getD 0 + 1) ∅ =
      applyWrites ⟨"c", ∅, OrdDict.ofList [("log", 1)], ∅, none⟩
        appendingChannels appendingTasks.reverse (some fun v => v.getD 0 + 1) ∅ := by
  refine applyWrites_perm _ _ _ _ (List.reverse_perm _).symm ?_ ?_
  · intro t ht
    rcases List.mem_cons.mp ht with rfl | ht
    · exact .send 0
    · rw [List.mem_singleton.mp ht]
      exact .pull _
  · simp [appendingTasks]

end LangGraph
