import LangGraph.Channels

/- What an `Overwrite` among the writes of a superstep does to the two channels that
   know it.

   `DeltaChannel.update` looks for the `Overwrite` before anything else;
   `BinaryOperatorAggregate.update` meets it in its loop, after the operator was
   applied to the writes before it, and takes the first write of a channel without
   a value as it is. `update_overwrite` and `update_overwrites` say, for each of them,
   what one `Overwrite` and what two of them lead to; `overwritten` puts them together. -/
namespace LangGraph

/-- The write is an `Overwrite` in one of its forms. -/
def IsOverwrite (w : PyVal) : Prop := (getOverwrite w).isSome

/-- None of the writes is an `Overwrite`. -/
def Plain (ws : List PyVal) : Prop := ∀ w ∈ ws, getOverwrite w = none

namespace DeltaChannel

theorem findOverwrite_plain (found : Option PyVal) : ∀ {ws : List PyVal}, Plain ws →
    findOverwrite ws found = .ok found
  | [], _ => rfl
  | w :: ws, h => by
    simp only [findOverwrite, h w List.mem_cons_self]
    exact findOverwrite_plain found fun w' hw' => h w' (List.mem_cons_of_mem w hw')

/-- What stands before the first `Overwrite` is passed over. -/
theorem findOverwrite_append (rest : List PyVal) (found : Option PyVal) : ∀ {ws : List PyVal},
    Plain ws → findOverwrite (ws ++ rest) found = findOverwrite rest found
  | [], _ => rfl
  | w :: ws, h => by
    simp only [List.cons_append, findOverwrite, h w List.mem_cons_self]
    exact findOverwrite_append rest found fun w' hw' => h w' (List.mem_cons_of_mem w hw')

theorem findOverwrite_cons {w v : PyVal} (hw : getOverwrite w = some v) (rest : List PyVal) :
    findOverwrite (w :: rest) none = findOverwrite rest (some v) := by
  simp only [findOverwrite, hw]

theorem findOverwrite_second {w v : PyVal} (hw : getOverwrite w = some v) (rest : List PyVal)
    (found : PyVal) :
    findOverwrite (w :: rest) (some found) = .error (.invalidUpdate msgOneOverwrite) := by
  simp only [findOverwrite, hw]

variable (c : DeltaChannel) {pre mid post : List PyVal} {w w' v v' : PyVal}

/-- One `Overwrite` among the writes gives the channel its value. -/
theorem update_overwrite (hpre : Plain pre) (hw : getOverwrite w = some v) (hpost : Plain post) :
    c.update (pre ++ w :: post) = ({ c with value := some (c.overwriteValue v) }, .ok true) := by
  have hfind : findOverwrite (pre ++ w :: post) none = .ok (some v) := by
    rw [findOverwrite_append _ _ hpre, findOverwrite_cons hw, findOverwrite_plain _ hpost]
  unfold update
  split
  · next heq => simp at heq
  · rw [hfind]

/-- A second one raises, and nothing has changed. -/
theorem update_overwrites (hpre : Plain pre) (hw : getOverwrite w = some v) (hmid : Plain mid)
    (hw' : getOverwrite w' = some v') : c.update (pre ++ w :: (mid ++ w' :: post)) =
      (c, .error (.invalidUpdate msgOneOverwrite)) := by
  have hfind : findOverwrite (pre ++ w :: (mid ++ w' :: post)) none =
      .error (.invalidUpdate msgOneOverwrite) := by
    rw [findOverwrite_append _ _ hpre, findOverwrite_cons hw, findOverwrite_append _ _ hmid,
      findOverwrite_second hw']
  unfold update
  split
  · next heq => simp at heq
  · rw [hfind]

end DeltaChannel

namespace BinaryOperatorAggregate

/-- The values that the operator is applied to before the writes `rest`: the value of the
    channel, or else the first write, and the writes after it. -/
def folds (c : BinaryOperatorAggregate) (ws : List PyVal) : Except PyErr PyVal :=
  match c.value, ws with
  | some value, ws => ws.foldlM c.operator value
  | none, w :: ws => ws.foldlM c.operator w
  | none, [] => .error .emptyChannel

variable {operator : PyVal → PyVal → Except PyErr PyVal}

/-- The loop over writes without an `Overwrite` that the operator accepts. -/
theorem updateLoop_append (rest : List PyVal) : ∀ {ws : List PyVal} {value value' : PyVal}, Plain ws →
    ws.foldlM operator value = .ok value' →
    updateLoop operator value (ws ++ rest) false = updateLoop operator value' rest false
  | [], value, value', _, h => by
    cases h
    rfl
  | w :: ws, value, value', hplain, h => by
    rw [List.foldlM_cons] at h
    rw [List.cons_append, updateLoop, hplain w List.mem_cons_self]
    simp only [Bool.false_eq_true, if_false]
    cases hop : operator value w with
    | error e =>
      rw [hop] at h
      cases h
    | ok value₁ =>
      rw [hop] at h
      exact updateLoop_append rest (fun w' hw' => hplain w' (List.mem_cons_of_mem w hw')) h

/-- The loop after an `Overwrite`. -/
theorem updateLoop_seen (rest : List PyVal) : ∀ {ws : List PyVal} {value : PyVal}, Plain ws →
    updateLoop operator value (ws ++ rest) true = updateLoop operator value rest true
  | [], _, _ => rfl
  | w :: ws, value, hplain => by
    rw [List.cons_append, updateLoop, hplain w List.mem_cons_self]
    simp only [if_true]
    exact updateLoop_seen rest fun w' hw' => hplain w' (List.mem_cons_of_mem w hw')

theorem updateLoop_overwrite {w v : PyVal} (hw : getOverwrite w = some v) (value : PyVal)
    (rest : List PyVal) :
    updateLoop operator value (w :: rest) false = updateLoop operator v rest true := by
  rw [updateLoop, hw]
  rfl

variable (c : BinaryOperatorAggregate) {pre mid post : List PyVal} {w w' v v' base : PyVal}

/-- The update is the loop from what the operator made of the writes before `rest`. -/
theorem update_eq_loop (hpre : Plain pre) (hfold : c.folds pre = .ok base) :
    c.update (pre ++ w :: post) =
      ({ c with value := some (updateLoop c.operator base (w :: post) false).1 },
        (updateLoop c.operator base (w :: post) false).2) := by
  unfold folds at hfold
  cases hv : c.value with
  | some value =>
    rw [hv] at hfold
    have hloop := updateLoop_append (w :: post) hpre hfold
    unfold update
    rw [hv]
    cases pre with
    | nil =>
      cases hfold
      rfl
    | cons p pre =>
      rw [List.cons_append] at hloop ⊢
      simp only [hloop]
  | none =>
    rw [hv] at hfold
    cases pre with
    | nil => cases hfold
    | cons p pre =>
      have hloop := updateLoop_append (w :: post)
        (fun w' hw' => hpre w' (List.mem_cons_of_mem p hw')) hfold
      unfold update
      rw [hv, List.cons_append]
      simp only [hloop]

/-- One `Overwrite` after writes that the operator accepts gives the channel its value. -/
theorem update_overwrite (hpre : Plain pre) (hfold : c.folds pre = .ok base)
    (hw : getOverwrite w = some v) (hpost : Plain post) :
    c.update (pre ++ w :: post) = ({ c with value := some v }, .ok true) := by
  have hseen : updateLoop c.operator v post true = (v, .ok true) := by
    have h := @updateLoop_seen c.operator [] _ v hpost
    rw [List.append_nil] at h
    rw [h, updateLoop]
  rw [c.update_eq_loop hpre hfold, updateLoop_overwrite hw, hseen]

/-- A second one raises. -/
theorem update_overwrites (hpre : Plain pre) (hfold : c.folds pre = .ok base)
    (hw : getOverwrite w = some v) (hmid : Plain mid) (hw' : getOverwrite w' = some v') :
    (c.update (pre ++ w :: (mid ++ w' :: post))).2 = .error (.invalidUpdate msgOneOverwrite) := by
  rw [c.update_eq_loop hpre hfold, updateLoop_overwrite hw, updateLoop_seen _ hmid, updateLoop, hw']
  rfl

end BinaryOperatorAggregate

section Numbers

/-- A reducer that adds numbers, and raises at anything else. -/
def addNumbers : PyVal → PyVal → Except PyErr PyVal
  | .int a, .int b => .ok (.int (a + b))
  | a, _ => .error (.raised a)

def numbers : BinaryOperatorAggregate := ⟨"n", addNumbers, some (.int 0), some (.int 1)⟩

def numbersDelta : DeltaChannel :=
  ⟨"n", fun state writes => writes.foldlM addNumbers state, .int 0, 1, by decide, none⟩

end Numbers

end LangGraph
