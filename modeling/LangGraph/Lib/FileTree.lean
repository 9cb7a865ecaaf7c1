import LangGraph.Lib.SortBy

/- Directories and files, and the walk that picks some of them: at each entry it passes by,
   picks the entry with all that is below, or goes on inside.

   What is proved: `covered_iff` — the walk picks a file, or a directory around it, unless it
   passes by a directory around the file before it picks one.
   Names are distinct within a directory by construction. -/

inductive FileTree (ν : Type) where
  | file
  | dir (names : List ν) (nodup : names.Nodup) (child : ν → FileTree ν)

namespace FileTree

/-- What a walk does at an entry. -/
inductive Choice where
  | skip | take | enter
  deriving DecidableEq

variable {ν : Type}

def isDir : FileTree ν → Bool
  | .file => false
  | .dir .. => true

section
variable [DecidableEq ν]

/-- The tree holds a file under the path. -/
def hasFile : FileTree ν → List ν → Bool
  | .file, [] => true
  | .file, _ :: _ => false
  | .dir .., [] => false
  | .dir names _ child, n :: rest => n ∈ names && (child n).hasFile rest

theorem isDir_of_hasFile {t : FileTree ν} {p : List ν} (h : t.hasFile p = true) :
    t.isDir = !p.isEmpty := by
  cases t <;> cases p <;> first | rfl | cases h

end

/-- The entries that a walk picks, in the order of their names; `here` is where the tree is. -/
def select [LinearOrder ν] (choose : List ν → Bool → Choice) : FileTree ν → List ν → List (List ν)
  | .file, _ => []
  | .dir names _ child, here =>
    (SortBy.sortBy id names).flatMap fun n =>
      match choose (here ++ [n]) (child n).isDir with
      | .skip => []
      | .take => [here ++ [n]]
      | .enter => select choose (child n) (here ++ [n])

/-- The walk picks a file at the path, or a directory on the way. -/
def reached (choose : List ν → Bool → Choice) : List ν → List ν → Bool
  | _, [] => false
  | here, n :: rest =>
    match choose (here ++ [n]) (!rest.isEmpty) with
    | .skip => false
    | .take => true
    | .enter => reached choose (here ++ [n]) rest

section Walk

variable [LinearOrder ν] {choose : List ν → Bool → Choice}

theorem prefix_of_mem_select : ∀ {t : FileTree ν} {here s : List ν}, s ∈ select choose t here →
    here <+: s := by
  intro t
  induction t with
  | file =>
    intro here s h
    cases h
  | dir names nodup child ih =>
    intro here s h
    obtain ⟨n, -, h⟩ := List.mem_flatMap.mp h
    split at h
    · cases h
    · rw [List.mem_singleton.mp h]
      exact List.prefix_append here [n]
    · exact (List.prefix_append here [n]).trans (ih n h)

/-- An entry that is picked on the way to a path is picked at the path's next name. -/
theorem mem_select_iff {names : List ν} {nodup : names.Nodup} {child : ν → FileTree ν}
    {here : List ν} {n : ν} {rest : List ν} (hn : n ∈ names) :
    (∃ s ∈ select choose (.dir names nodup child) here, s <+: here ++ n :: rest) ↔
      match choose (here ++ [n]) (child n).isDir with
      | .skip => False
      | .take => True
      | .enter => ∃ s ∈ select choose (child n) (here ++ [n]), s <+: (here ++ [n]) ++ rest := by
  have happend : here ++ n :: rest = (here ++ [n]) ++ rest := by simp
  constructor
  · intro h
    obtain ⟨s, hs, hpath⟩ := h
    obtain ⟨m, -, hs⟩ := List.mem_flatMap.mp hs
    -- what is picked in another branch of the directory is not on the way
    have hbranch : here ++ [m] <+: s → m = n := by
      intro hm
      have := hm.trans hpath
      rw [List.prefix_append_right_inj] at this
      exact (List.cons_prefix_cons.mp this).1
    cases hchoice : choose (here ++ [m]) (child m).isDir with
    | skip =>
      rw [hchoice] at hs
      cases hs
    | take =>
      rw [hchoice] at hs
      have hm := hbranch (List.mem_singleton.mp hs ▸ List.prefix_rfl)
      subst hm
      rw [hchoice]
      trivial
    | enter =>
      rw [hchoice] at hs
      have hm := hbranch (prefix_of_mem_select hs)
      subst hm
      rw [hchoice]
      exact ⟨s, hs, happend ▸ hpath⟩
  · intro h
    have hmem : n ∈ SortBy.sortBy id names := SortBy.mem_sortBy.mpr hn
    cases hchoice : choose (here ++ [n]) (child n).isDir with
    | skip =>
      rw [hchoice] at h
      exact h.elim
    | take =>
      refine ⟨here ++ [n], List.mem_flatMap.mpr ⟨n, hmem, ?_⟩, happend ▸ List.prefix_append _ _⟩
      rw [hchoice]
      exact List.mem_singleton_self _
    | enter =>
      rw [hchoice] at h
      obtain ⟨s, hs, hpath⟩ := h
      refine ⟨s, List.mem_flatMap.mpr ⟨n, hmem, ?_⟩, happend ▸ hpath⟩
      rw [hchoice]
      exact hs

/-- The walk picks a file or a directory around it if it gets that far. -/
theorem mem_select_iff_reached : ∀ {p : List ν} {t : FileTree ν} {here : List ν},
    t.hasFile p = true →
      ((∃ s ∈ select choose t here, s <+: here ++ p) ↔ reached choose here p = true) := by
  intro p
  induction p with
  | nil =>
    intro t here h
    cases t with
    | file =>
      constructor
      · intro ⟨s, hs, _⟩
        cases hs
      · intro h
        cases h
    | dir => cases h
  | cons n rest ih =>
    intro t here h
    cases t with
    | file => cases h
    | dir names nodup child =>
      obtain ⟨hn, hrest⟩ := Bool.and_eq_true_iff.mp h
      rw [mem_select_iff (of_decide_eq_true hn), isDir_of_hasFile hrest, reached]
      cases choose (here ++ [n]) (!rest.isEmpty) with
      | skip => simp
      | take => simp
      | enter => exact ih hrest

end Walk

/-- A path above another one: some of its names, but not all. -/
def Above (q p : List ν) : Prop := q ≠ [] ∧ q <+: p ∧ q ≠ p

theorem Above.trans {q p r : List ν} (h : Above q p) (h' : Above p r) : Above q r := by
  refine ⟨h.1, h.2.1.trans h'.2.1, fun he => ?_⟩
  subst he
  exact h.2.2 (h.2.1.eq_of_length (le_antisymm h.2.1.length_le h'.2.1.length_le))

theorem above_cons {n : ν} {q p : List ν} (h : Above q p) : Above (n :: q) (n :: p) :=
  ⟨List.cons_ne_nil n q, List.cons_prefix_cons.mpr ⟨rfl, h.2.1⟩, fun he => h.2.2 (List.cons.inj he).2⟩

theorem above_cons_iff {n : ν} {q p : List ν} (hp : p ≠ []) :
    Above q (n :: p) ↔ q = [n] ∨ ∃ q', q = n :: q' ∧ Above q' p := by
  constructor
  · intro h
    obtain ⟨hne, hpath, hdiff⟩ := h
    cases q with
    | nil => exact absurd rfl hne
    | cons m q' =>
      obtain ⟨rfl, htail⟩ := List.cons_prefix_cons.mp hpath
      by_cases hq : q' = []
      · exact .inl (by rw [hq])
      · exact .inr ⟨q', rfl, hq, htail, fun he => hdiff (by rw [he])⟩
  · intro h
    cases h with
    | inl h =>
      subst h
      exact ⟨List.cons_ne_nil n [], List.cons_prefix_cons.mpr ⟨rfl, List.nil_prefix⟩,
        fun he => hp (List.cons.inj he).2.symm⟩
    | inr h =>
      obtain ⟨q', rfl, h⟩ := h
      exact above_cons h

theorem not_above_singleton {n : ν} {q : List ν} : ¬Above q [n] := by
  intro h
  obtain ⟨hne, hpath, hdiff⟩ := h
  have hpos := List.length_pos_of_ne_nil hne
  have hle := hpath.length_le
  exact hdiff (hpath.eq_of_length (by simp only [List.length_singleton] at *; omega))

/-- A file that is picked where it is met is reached if each directory above it that is passed
    by has one above it that is picked. -/
theorem reached_iff {choose : List ν → Bool → Choice} : ∀ {p here : List ν}, p ≠ [] →
    choose (here ++ p) false = .take →
      (reached choose here p = true ↔ ∀ q, Above q p → choose (here ++ q) true = .skip →
        ∃ q', Above q' q ∧ choose (here ++ q') true = .take) := by
  intro p
  induction p with
  | nil =>
    intro here hp
    exact absurd rfl hp
  | cons n rest ih =>
    intro here _ htake
    by_cases hrest : rest = []
    · subst hrest
      rw [reached, List.isEmpty_nil, Bool.not_true, htake]
      exact iff_of_true rfl fun q hq => absurd hq not_above_singleton
    · have hdir : (!rest.isEmpty) = true := by simpa using hrest
      rw [reached, hdir]
      cases hn : choose (here ++ [n]) true with
      | skip =>
        apply iff_of_false (by simp)
        intro h
        obtain ⟨q', hq', -⟩ := h [n] ((above_cons_iff hrest).mpr (.inl rfl)) hn
        exact not_above_singleton hq'
      | take =>
        apply iff_of_true rfl
        intro q hq hskip
        cases (above_cons_iff hrest).mp hq with
        | inl hq =>
          rw [hq, hn] at hskip
          cases hskip
        | inr hq =>
          obtain ⟨q', rfl, hq'⟩ := hq
          exact ⟨[n], (above_cons_iff hq'.1).mpr (.inl rfl), hn⟩
      | enter =>
        have htake' : choose ((here ++ [n]) ++ rest) false = .take := by
          rw [List.append_assoc]
          exact htake
        show reached choose (here ++ [n]) rest = true ↔ _
        rw [ih hrest htake']
        constructor
        · intro h q hq hskip
          cases (above_cons_iff hrest).mp hq with
          | inl hq =>
            rw [hq, hn] at hskip
            cases hskip
          | inr hq =>
            obtain ⟨q', rfl, hq'⟩ := hq
            obtain ⟨r, hr, hchoice⟩ := h q' hq' (by rw [List.append_assoc]; exact hskip)
            exact ⟨n :: r, above_cons hr, by rw [← hchoice, List.append_assoc]; rfl⟩
        · intro h q hq hskip
          obtain ⟨r, hr, hchoice⟩ := h (n :: q) (above_cons hq) (by rw [← hskip, List.append_assoc]; rfl)
          cases (above_cons_iff hq.1).mp hr with
          | inl hr =>
            rw [hr, hn] at hchoice
            cases hchoice
          | inr hr =>
            obtain ⟨r', rfl, hr'⟩ := hr
            exact ⟨r', hr', by rw [← hchoice, List.append_assoc]; rfl⟩

/-- The walk picks a file, or a directory around it, unless it passes by a directory around
    the file before it picks one. -/
theorem covered_iff [LinearOrder ν] {choose : List ν → Bool → Choice} {t : FileTree ν} {p : List ν}
    (h : t.hasFile p = true) (hp : p ≠ []) (htake : choose p false = .take) :
    (∃ s ∈ select choose t [], s <+: p) ↔ ∀ q, Above q p → choose q true = .skip →
      ∃ q', Above q' q ∧ choose q' true = .take := by
  have hselect : (∃ s ∈ select choose t [], s <+: [] ++ p) ↔ reached choose [] p = true :=
    mem_select_iff_reached h
  have hreached : reached choose [] p = true ↔ ∀ q, Above q p → choose ([] ++ q) true = .skip →
      ∃ q', Above q' q ∧ choose ([] ++ q') true = .take := reached_iff hp htake
  simp only [List.nil_append] at hselect hreached
  rw [hselect, hreached]

end FileTree
