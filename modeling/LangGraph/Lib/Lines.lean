import Mathlib.Data.List.Basic

/- The lines of a byte string, broken at a line feed, a carriage return, or the
   two together. The scan keeps the line in progress and whether the last byte was
   a carriage return, whose line feed is swallowed; it composes over appended
   strings, so it can be taken piece by piece. -/
namespace LangGraph.Lines

abbrev Bytes := List UInt8

def LF : UInt8 := 10
def CR : UInt8 := 13

/-- The finished lines, the line in progress, and whether the last byte was `CR`. -/
def scan (line : Bytes) (cr : Bool) : Bytes → List Bytes × Bytes × Bool
  | [] => ([], line, cr)
  | b :: rest =>
    if b = LF ∧ cr = true then scan line false rest
    else if b = LF ∨ b = CR then
      (line :: (scan [] (b = CR) rest).1, (scan [] (b = CR) rest).2)
    else scan (line ++ [b]) false rest

/-- The line in progress, unless it is empty. -/
def remainder (line : Bytes) : List Bytes := if line = [] then [] else [line]

/-- The lines, with the text before the first of them. -/
def prepend (p : Bytes) : List Bytes → List Bytes
  | [] => []
  | l :: ls => (p ++ l) :: ls

/-- The lines of the string; a break at its end ends no further line. -/
def splitlines (text : Bytes) : List Bytes :=
  (scan [] false text).1 ++ remainder (scan [] false text).2.1

example : splitlines [97, CR, LF, CR, 98, LF, LF, 99] = [[97], [], [98], [], [99]] := by decide

theorem scan_append (y : Bytes) : ∀ (line : Bytes) (cr : Bool) (t : Bytes),
    scan line cr (t ++ y) =
      ((scan line cr t).1 ++ (scan (scan line cr t).2.1 (scan line cr t).2.2 y).1,
        (scan (scan line cr t).2.1 (scan line cr t).2.2 y).2)
  | _, _, [] => by simp [scan]
  | line, cr, b :: t => by
    rw [List.cons_append]
    simp only [scan]
    split
    · exact scan_append y line false t
    · split
      · simp only [scan_append y [] (decide (b = CR)) t, List.cons_append]
      · exact scan_append y (line ++ [b]) false t

/-- Before a carriage return it does not matter what came last. -/
theorem scan_cr (line : Bytes) (cr : Bool) (y : Bytes) :
    scan line cr (CR :: y) = scan line false (CR :: y) := by
  have hne : ¬ CR = LF := by decide
  simp only [scan, hne, false_and, if_false]

/-- What is in progress before the string begins the first line. -/
theorem scan_of_line (p : Bytes) : ∀ (line t : Bytes),
    (scan (p ++ line) false t).2 =
        (if (scan line false t).1 = [] then p ++ (scan line false t).2.1
          else (scan line false t).2.1, (scan line false t).2.2) ∧
      (scan (p ++ line) false t).1 = prepend p (scan line false t).1
  | line, [] => by simp [scan, prepend]
  | line, b :: t => by
    simp only [scan, Bool.false_eq_true, and_false, if_false]
    split
    · simp [prepend]
    · rw [List.append_assoc]
      exact scan_of_line p (line ++ [b]) t

/-- The line in progress is empty exactly after a break. -/
theorem scan_line_eq_nil_iff {line : Bytes} {cr : Bool} {t : Bytes} {b : UInt8} :
    (scan line cr (t ++ [b])).2.1 = [] ↔
      b = LF ∧ (scan line cr t).2.2 = true ∧ (scan line cr t).2.1 = [] ∨
        ¬ (b = LF ∧ (scan line cr t).2.2 = true) ∧ (b = LF ∨ b = CR) := by
  rw [scan_append]
  simp only [scan]
  split
  · rename_i h
    simp [h]
  · split
    · rename_i h h'
      simp [h, h']
    · rename_i h h'
      apply iff_of_false
      · exact List.append_ne_nil_of_right_ne_nil _ (List.cons_ne_nil b [])
      · intro hor
        cases hor with
        | inl hb => exact h ⟨hb.1, hb.2.1⟩
        | inr hb => exact h' hb.2

/-- After a carriage return no line is in progress. -/
theorem scan_line_of_cr : ∀ {line : Bytes} {cr : Bool} {t : Bytes},
    (cr = true → line = []) → (scan line cr t).2.2 = true → (scan line cr t).2.1 = []
  | _, _, [], hline, h => hline h
  | line, cr, b :: t, hline, h => by
    simp only [scan] at h ⊢
    split at h
    · rename_i hb
      rw [if_pos hb]
      exact scan_line_of_cr (fun hf => nomatch hf) h
    · rename_i hb
      rw [if_neg hb]
      split at h
      · rename_i hb'
        rw [if_pos hb']
        exact scan_line_of_cr (fun _ => rfl) h
      · rename_i hb'
        rw [if_neg hb']
        exact scan_line_of_cr (fun hf => nomatch hf) h

theorem scan_eq_nil_iff {t : Bytes} {b : UInt8} :
    (scan [] false (t ++ [b])).2.1 = [] ↔ b = LF ∨ b = CR := by
  rw [scan_line_eq_nil_iff]
  constructor
  · intro h
    cases h with
    | inl h => exact .inl h.1
    | inr h => exact h.2
  · intro h
    by_cases hc : b = LF ∧ (scan [] false t).2.2 = true
    · exact .inl ⟨hc.1, hc.2, scan_line_of_cr (fun hf => nomatch hf) hc.2⟩
    · exact .inr ⟨hc, h⟩

/-- Only a string that ends with a carriage return leaves one behind. -/
theorem getLast?_of_scan_cr {line t : Bytes} (h : (scan line false t).2.2 = true) :
    t.getLast? = some CR := by
  by_cases ht : t = []
  · rw [ht] at h
    exact (nomatch h)
  · rw [← List.dropLast_append_getLast ht] at h ⊢
    rw [scan_append] at h
    simp only [scan] at h
    rw [List.getLast?_concat]
    split at h
    · exact (nomatch h)
    · split at h
      · exact congrArg some (of_decide_eq_true h)
      · exact (nomatch h)

/-- A string that finishes no line and leaves none in progress is empty. -/
theorem eq_nil_of_scan {t : Bytes} (hlines : (scan [] false t).1 = [])
    (hline : (scan [] false t).2.1 = []) : t = [] := by
  have hgrow : ∀ (line t : Bytes), (scan line false t).1 = [] →
      (scan line false t).2.1 = line ++ t := by
    intro line t
    induction t generalizing line with
    | nil => exact fun _ => (List.append_nil line).symm
    | cons b t ih =>
      intro h
      simp only [scan, Bool.false_eq_true, and_false, if_false] at h ⊢
      split at h
      · exact absurd h (List.cons_ne_nil _ _)
      · rename_i hb
        rw [if_neg hb, ih (line ++ [b]) h, List.append_assoc, List.singleton_append]
  rw [hgrow [] t hlines, List.nil_append] at hline
  exact hline

/-- No line holds a break. -/
theorem not_mem_scan : ∀ (line : Bytes) (cr : Bool) (t : Bytes), LF ∉ line →
    (∀ l ∈ (scan line cr t).1, LF ∉ l) ∧ LF ∉ (scan line cr t).2.1
  | _, _, [], hline => ⟨fun _ h => (List.not_mem_nil h).elim, hline⟩
  | line, cr, b :: t, hline => by
    simp only [scan]
    split
    · exact not_mem_scan _ _ t hline
    · split
      · have ih := not_mem_scan [] (decide (b = CR)) t List.not_mem_nil
        refine ⟨fun l hl => ?_, ih.2⟩
        cases List.mem_cons.mp hl with
        | inl h => exact h ▸ hline
        | inr h => exact ih.1 l h
      · rename_i hb
        apply not_mem_scan
        intro hmem
        cases List.mem_append.mp hmem with
        | inl h => exact hline h
        | inr h => exact hb (.inl (List.mem_singleton.mp h).symm)

theorem not_mem_splitlines {text l : Bytes} (h : l ∈ splitlines text) : LF ∉ l := by
  have hscan := not_mem_scan [] false text List.not_mem_nil
  cases List.mem_append.mp h with
  | inl h => exact hscan.1 l h
  | inr h =>
    unfold remainder at h
    split at h
    · exact (List.not_mem_nil h).elim
    · rw [List.mem_singleton.mp h]
      exact hscan.2

end LangGraph.Lines
