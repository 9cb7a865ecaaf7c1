import Mathlib.Data.List.Basic
import Mathlib.Data.String.Basic

/- Lists of labels kept as one text, with a separator between the labels.

   Reading the text back gives the labels exactly where there are some and none
   has the separator in it (`split_join_iff`). -/
namespace JoinedText
variable {sep : Char} {labels : List String}

def join (sep : Char) (labels : List String) : String := (String.singleton sep).intercalate labels

def split (sep : Char) (text : String) : List String := (text.toList.splitOn sep).map String.ofList

/-- The labels survive their text. -/
structure Plain (sep : Char) (labels : List String) : Prop where
  ne_nil : labels ≠ []
  no_sep : ∀ label ∈ labels, sep ∉ label.toList

instance (sep : Char) (labels : List String) : Decidable (Plain sep labels) :=
  decidable_of_iff (labels ≠ [] ∧ ∀ label ∈ labels, sep ∉ label.toList)
    ⟨fun h => ⟨h.1, h.2⟩, fun h => ⟨h.1, h.2⟩⟩

theorem toList_join (sep : Char) (labels : List String) :
    (join sep labels).toList = [sep].intercalate (labels.map String.toList) := by
  rw [join, String.toList_intercalate, String.toList_singleton]

theorem split_join (h : Plain sep labels) : split sep (join sep labels) = labels := by
  have hsep : ∀ l ∈ labels.map String.toList, sep ∉ l := by
    intro l hl
    obtain ⟨label, hlabel, rfl⟩ := List.mem_map.mp hl
    exact h.no_sep label hlabel
  have hne : labels.map String.toList ≠ [] := by simpa using h.ne_nil
  rw [split, toList_join, List.splitOn_intercalate sep hsep hne, List.map_map]
  simp [Function.comp_def]

/-- No part of a split list has the separator in it. -/
theorem not_of_mem_splitOnP {α : Type} {p : α → Bool} : ∀ {xs l : List α}, l ∈ xs.splitOnP p →
    ∀ x ∈ l, p x = false
  | [], l, hl, x, hx => by
    rw [List.splitOnP_nil, List.mem_singleton] at hl
    rw [hl] at hx
    cases hx
  | a :: xs, l, hl, x, hx => by
    rw [List.splitOnP_cons_eq_if_modifyHead] at hl
    split at hl
    · rcases List.mem_cons.mp hl with rfl | hl
      · cases hx
      · exact not_of_mem_splitOnP hl x hx
    · next ha =>
      cases hsplit : xs.splitOnP p with
      | nil => exact absurd hsplit (List.splitOnP_ne_nil p xs)
      | cons first rest =>
        rw [hsplit, List.modifyHead_cons] at hl
        rcases List.mem_cons.mp hl with rfl | hl
        · rcases List.mem_cons.mp hx with rfl | hx
          · exact Bool.eq_false_iff.mpr ha
          · exact not_of_mem_splitOnP (hsplit ▸ List.mem_cons_self) x hx
        · exact not_of_mem_splitOnP (hsplit ▸ List.mem_cons_of_mem first hl) x hx

theorem plain_split (sep : Char) (text : String) : Plain sep (split sep text) := by
  constructor
  · intro h
    exact List.splitOnP_ne_nil _ _ (List.map_eq_nil_iff.mp h)
  · intro label hlabel hmem
    obtain ⟨l, hl, rfl⟩ := List.mem_map.mp hlabel
    rw [String.toList_ofList] at hmem
    have hne := not_of_mem_splitOnP hl sep hmem
    simp at hne

theorem split_join_iff : split sep (join sep labels) = labels ↔ Plain sep labels :=
  ⟨fun h => h ▸ plain_split sep _, split_join⟩

theorem split_injective (sep : Char) : Function.Injective (split sep) := by
  intro s t h
  have hinj : Function.Injective String.ofList := fun _ _ h => String.ofList_injective h
  have hlists := List.map_injective_iff.mpr hinj h
  have hst := congrArg [sep].intercalate hlists
  rw [List.intercalate_splitOn, List.intercalate_splitOn] at hst
  exact String.toList_injective hst

end JoinedText
