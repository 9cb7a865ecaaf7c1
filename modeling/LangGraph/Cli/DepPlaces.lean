import LangGraph.Cli.DepAssembly

/- Where the directories of local dependencies are in the image, and where the import paths of
   a config say that files are.

   `placedApart_iff`: the places of two directories are the same exactly if the counter gives
   both the same name, or they are two src layouts with one base name.
   `holds_realPlace_iff`, `holds_confPlace_iff`: a rewritten path is the place of the file in
   the copy of a dependency around it, exactly unless it goes by a base name that the
   directory did not get, or by a path that was not resolved. -/
namespace LangGraph.Cli

open NumberedNames

/-- A directory and a place that it is copied to. -/
inductive PlaceAt (project : Project) (dirs : List Path) : Path → Path → Prop where
  | real {pre : List Path} {dir : Path} (h : LastListed (realDirs project dirs) pre dir) :
    PlaceAt project dirs dir (containerPath ["deps", nameAfter baseName pre dir])
  | faux {dir : Path} (h : dir ∈ fauxDirs project dirs) : PlaceAt project dirs dir (project.fauxPath dir)

section Assembled
variable {project : Project} {dirs : List Path} {st : Assembly}

theorem Assembled.mem_realKeys (h : Assembled project dirs st) {dir : Path} :
    dir ∈ st.localDeps.realPkgs.keys ↔ dir ∈ realDirs project dirs := by
  rw [h.realKeys, OrdDict.mem_addKeys]
  simp

theorem Assembled.mem_fauxKeys (h : Assembled project dirs st) {dir : Path} :
    dir ∈ st.localDeps.fauxPkgs.keys ↔ dir ∈ fauxDirs project dirs := by
  rw [h.fauxKeys, OrdDict.mem_addKeys]
  simp

theorem Assembled.get?_realPkgs (h : Assembled project dirs st) {pre : List Path} {dir : Path}
    (hpre : LastListed (realDirs project dirs) pre dir) :
    ∃ ref, st.localDeps.realPkgs.get? dir = some (ref, nameAfter baseName pre dir) := by
  obtain ⟨⟨ref, name⟩, hget⟩ := OrdDict.mem_keys_iff.mp (h.mem_realKeys.mpr hpre.mem)
  obtain ⟨pre', hpre', rfl⟩ := h.realName dir ref name hget
  rw [hpre.unique hpre']
  exact ⟨ref, hget⟩

theorem Assembled.get?_fauxPkgs (h : Assembled project dirs st) {dir : Path}
    (hdir : dir ∈ fauxDirs project dirs) :
    ∃ ref, st.localDeps.fauxPkgs.get? dir = some (ref, project.fauxPath dir) := by
  obtain ⟨⟨ref, path⟩, hget⟩ := OrdDict.mem_keys_iff.mp (h.mem_fauxKeys.mpr hdir)
  obtain rfl := h.fauxPath dir ref path hget
  exact ⟨ref, hget⟩

/-- The lines of the packages are the places of the directories. -/
theorem Assembled.exists_packageLine_iff (h : Assembled project dirs st) {dir place : Path} :
    (∃ line ∈ packageLines st.localDeps, line.dependency = dir ∧ line.dest = place) ↔
      PlaceAt project dirs dir place := by
  constructor
  · intro hline
    obtain ⟨line, hline, rfl, rfl⟩ := hline
    cases List.mem_append.mp hline with
    | inl hreal =>
      obtain ⟨⟨dir, ref, name⟩, hentry, rfl⟩ := List.mem_map.mp hreal
      obtain ⟨pre, hpre, rfl⟩ := h.realName dir ref name (OrdDict.get?_eq_some_iff.mpr hentry)
      exact .real hpre
    | inr hfaux =>
      obtain ⟨⟨dir, ref, path⟩, hentry, rfl⟩ := List.mem_map.mp hfaux
      have hget := OrdDict.get?_eq_some_iff.mpr hentry
      obtain rfl := h.fauxPath dir ref path hget
      exact .faux (h.mem_fauxKeys.mp (OrdDict.mem_keys_iff.mpr ⟨_, hget⟩))
  · intro hplace
    cases hplace with
    | @real pre _ hpre =>
      obtain ⟨ref, hget⟩ := h.get?_realPkgs hpre
      exact ⟨_, List.mem_append_left _ (List.mem_map_of_mem (OrdDict.get?_eq_some_iff.mp hget)), rfl, rfl⟩
    | faux hdir =>
      obtain ⟨ref, hget⟩ := h.get?_fauxPkgs hdir
      exact ⟨_, List.mem_append_right _ (List.mem_map_of_mem (OrdDict.get?_eq_some_iff.mp hget)), rfl, rfl⟩

end Assembled

/- ── Places ────────────────────────────────────────────────────────────────── -/

section Places
variable {project : Project} {dirs : List Path} {dir dir' : Path} {name name' : String}

/-- What a faux package is called below its outer directory. -/
def Project.innerName (project : Project) (dir : Path) : String :=
  if project.isFlat dir then baseName dir else "src"

theorem containerPath_name (name : String) :
    containerPath ["deps", name] = "deps" :: if name = "" then [] else [name] := by
  by_cases h : name = "" <;> simp [containerPath, h]

theorem outer_ne_empty (name : String) : "outer-" ++ name ≠ "" := by
  intro h
  have hlen := congrArg (fun s : String => s.toList.length) h
  simp [String.toList_append] at hlen

theorem fauxPath_eq (project : Project) (dir : Path) : project.fauxPath dir =
    "deps" :: ("outer-" ++ baseName dir) ::
      if project.innerName dir = "" then [] else [project.innerName dir] := by
  show containerPath ["deps", "outer-" ++ baseName dir, project.innerName dir] = _
  by_cases h : project.innerName dir = "" <;> simp [containerPath, h]

theorem optionalPart_inj : (if name = "" then [] else [name]) = (if name' = "" then [] else [name']) ↔
    name = name' := by
  by_cases h : name = "" <;> by_cases h' : name' = "" <;> simp [h, h', Ne.symm]

theorem containerPath_name_inj : containerPath ["deps", name] = containerPath ["deps", name'] ↔
    name = name' := by
  rw [containerPath_name, containerPath_name, List.cons_inj_right, optionalPart_inj]

theorem fauxPath_eq_iff : project.fauxPath dir = project.fauxPath dir' ↔
    baseName dir = baseName dir' ∧ project.innerName dir = project.innerName dir' := by
  rw [fauxPath_eq, fauxPath_eq, List.cons_inj_right, List.cons_eq_cons, optionalPart_inj,
    String.append_right_inj]

theorem innerName_eq_empty_iff :
    project.innerName dir = "" ↔ project.isFlat dir = true ∧ baseName dir = "" := by
  rw [Project.innerName]
  split
  · next hflat => simp [hflat]
  · next hsrc => simp [hsrc]

/-- Only a root directory that is a package itself is at a place of that length. -/
theorem containerPath_eq_fauxPath_iff : containerPath ["deps", name] = project.fauxPath dir ↔
    name = "outer-" ∧ project.isFlat dir = true ∧ baseName dir = "" := by
  rw [containerPath_name, fauxPath_eq, List.cons_inj_right, ← innerName_eq_empty_iff]
  constructor
  · intro h
    by_cases hname : name = ""
    · rw [if_pos hname] at h
      cases h
    · rw [if_neg hname] at h
      obtain ⟨hhead, htail⟩ := List.cons.inj h
      by_cases hinner : project.innerName dir = ""
      · rw [hhead, (innerName_eq_empty_iff.mp hinner).2]
        exact ⟨by decide, hinner⟩
      · rw [if_neg hinner] at htail
        cases htail
  · intro h
    rw [h.1, if_pos h.2, (innerName_eq_empty_iff.mp h.2).2]
    decide

/-- What the numbering and the layouts need to tell the directories apart. -/
structure NamesApart (project : Project) (dirs : List Path) : Prop where
  /-- No two real packages find a name in use as often, or one that a number makes. -/
  real : ∀ pre dir pre' dir', LastListed (realDirs project dirs) pre dir →
    LastListed (realDirs project dirs) pre' dir' → dir ≠ dir' → pre ++ [dir] <+: pre' →
    ¬Clash (given (pre.map baseName)) (baseName dir) (given (pre'.map baseName)) (baseName dir')
  /-- No two src layouts have one base name. -/
  src : ∀ dir ∈ fauxDirs project dirs, ∀ dir' ∈ fauxDirs project dirs, project.isFlat dir = false →
    project.isFlat dir' = false → dir ≠ dir' → baseName dir ≠ baseName dir'
  /-- If the root is a flat layout, no real package is named like the directory around it. -/
  root : ∀ dir ∈ fauxDirs project dirs, project.isFlat dir = true → baseName dir = "" →
    ∀ pre dir', LastListed (realDirs project dirs) pre dir' → baseName dir' = "outer-" →
      baseName dir' ∈ given (pre.map baseName)

theorem give_eq_outer_iff {used : List String} :
    give used name = "outer-" ↔ name ∉ used ∧ name = "outer-" := by
  rw [give_eq_iff]
  constructor
  · intro h
    cases h with
    | inl h => exact h
    | inr h =>
      -- a numbered name has an underscore
      have hmem := underscore_mem_numbered name (used.count name)
      rw [h.2] at hmem
      exact absurd hmem (by decide)
  · exact .inl

theorem placedApart_iff {st : Assembly} (h : Assembled project dirs st) :
    (∀ dir place dir' place', PlaceAt project dirs dir place → PlaceAt project dirs dir' place' →
        dir ≠ dir' → place ≠ place') ↔ NamesApart project dirs := by
  constructor
  · intro hapart
    refine ⟨names_apart_iff.mp fun pre dir pre' dir' hdir hdir' hne heq => ?_, ?_, ?_⟩
    · exact hapart _ _ _ _ (.real hdir) (.real hdir') hne (containerPath_name_inj.mpr heq)
    · intro dir hdir dir' hdir' hflat hflat' hne heq
      apply hapart _ _ _ _ (.faux hdir) (.faux hdir') hne
      exact fauxPath_eq_iff.mpr ⟨heq, by simp [Project.innerName, hflat, hflat']⟩
    · intro dir hdir hflat hbase pre dir' hdir' hbase'
      by_contra hfree
      have hne : dir' ≠ dir := by
        intro heq
        have hreal := (mem_realDirs.mp hdir'.mem).2
        rw [heq, (mem_fauxDirs.mp hdir).2] at hreal
        cases hreal
      apply hapart _ _ _ _ (.real hdir') (.faux hdir) hne
      exact containerPath_eq_fauxPath_iff.mpr ⟨give_eq_outer_iff.mpr ⟨hfree, hbase'⟩, hflat, hbase⟩
  · intro hapart
    have hmixed : ∀ pre dir dir', LastListed (realDirs project dirs) pre dir →
        dir' ∈ fauxDirs project dirs →
        containerPath ["deps", nameAfter baseName pre dir] ≠ project.fauxPath dir' := by
      intro pre dir dir' hdir hdir' heq
      obtain ⟨hname, hflat, hbase⟩ := containerPath_eq_fauxPath_iff.mp heq
      obtain ⟨hfree, hbase'⟩ := give_eq_outer_iff.mp hname
      exact hfree (hapart.root dir' hdir' hflat hbase pre dir hdir hbase')
    intro dir place dir' place' hplace hplace' hne heq
    cases hplace with
    | @real pre _ hdir =>
      cases hplace' with
      | @real pre' _ hdir' =>
        exact names_apart_iff.mpr hapart.real pre dir pre' dir' hdir hdir' hne
          (containerPath_name_inj.mp heq)
      | faux hdir' => exact hmixed pre dir dir' hdir hdir' heq
    | faux hdir =>
      cases hplace' with
      | @real pre' _ hdir' => exact hmixed pre' dir' dir hdir' hdir heq.symm
      | faux hdir' =>
        obtain ⟨hbase, hinner⟩ := fauxPath_eq_iff.mp heq
        rw [Project.innerName, Project.innerName] at hinner
        cases hflat : project.isFlat dir with
        | false =>
          cases hflat' : project.isFlat dir' with
          | false => exact hapart.src dir hdir dir' hdir' hflat hflat' hne hbase
          | true =>
            rw [hflat, hflat'] at hinner
            exact (h.flatReserved dir' hdir' hflat').2 hinner.symm
        | true =>
          cases hflat' : project.isFlat dir' with
          | false =>
            rw [hflat, hflat'] at hinner
            exact (h.flatReserved dir hdir hflat).2 hinner
          | true =>
            exact hne (List.inj_on_of_nodup_map h.flatApart (List.mem_filter.mpr ⟨hdir, hflat⟩)
              (List.mem_filter.mpr ⟨hdir', hflat'⟩) hbase)

end Places

/- ── Import paths ──────────────────────────────────────────────────────────── -/

/-- The place of the file in the copy of a dependency around it. -/
def HeldAt (project : Project) (dirs : List Path) (file place : Path) : Prop :=
  ∃ dir path, PlaceAt project dirs dir path ∧ dir <+: file ∧ place = path ++ file.drop dir.length

/-- Where the base name puts a directory. -/
def Project.ownPlace (project : Project) (dir : Path) : Path :=
  if project.isReal dir then containerPath ["deps", baseName dir] else project.fauxPath dir

/-- The base name of a real package is free when it is listed for the last time. -/
def KeepsName (project : Project) (dirs : List Path) (dir : Path) : Prop :=
  ∃ pre, LastListed (realDirs project dirs) pre dir ∧ baseName dir ∉ given (pre.map baseName)

/-- One directory is around the other, and by their base names it is around it in the image in
    the same way. -/
def Alike (project : Project) (dir dir' : Path) : Prop :=
  (∃ rest, dir' = dir ++ rest ∧ project.ownPlace dir' = project.ownPlace dir ++ rest) ∨
    (∃ rest, dir = dir' ++ rest ∧ project.ownPlace dir = project.ownPlace dir' ++ rest)

/-- The first real package around a file, if there is one, or else a directory that is alike,
    is where its base name puts it. -/
def RightlyNamed (project : Project) (dirs : List Path) (file : Path) : Prop :=
  ∀ dir, (realDirs project dirs).find? (fun path => path <+: file) = some dir →
    ∃ dir' ∈ dirs, dir' <+: file ∧ (project.isReal dir' = true → KeepsName project dirs dir') ∧
      Alike project dir dir'

theorem append_drop_eq_iff {α : Type} {d d' f p p' : List α} (h : d <+: f) (h' : d' <+: f) :
    p ++ f.drop d.length = p' ++ f.drop d'.length ↔
      (∃ rest, d' = d ++ rest ∧ p' = p ++ rest) ∨ (∃ rest, d = d' ++ rest ∧ p = p' ++ rest) := by
  obtain ⟨t, rfl⟩ := h
  obtain ⟨t', ht'⟩ := h'
  rw [List.drop_left, ← ht', List.drop_left]
  constructor
  · intro heq
    cases List.append_eq_append_iff.mp ht' with
    | inl hcase =>
      obtain ⟨rest, hd, ht⟩ := hcase
      rw [ht, ← List.append_assoc] at heq
      exact .inr ⟨rest, hd, (List.append_cancel_right (by simpa using heq))⟩
    | inr hcase =>
      obtain ⟨rest, hd, ht⟩ := hcase
      rw [ht, ← List.append_assoc] at heq
      exact .inl ⟨rest, hd, (List.append_cancel_right (by simpa using heq)).symm⟩
  · intro h
    cases h with
    | inl h =>
      obtain ⟨rest, rfl, rfl⟩ := h
      rw [List.append_assoc] at ht' ⊢
      rw [List.append_cancel_left ht']
    | inr h =>
      obtain ⟨rest, rfl, rfl⟩ := h
      rw [List.append_assoc] at ht' ⊢
      rw [List.append_cancel_left ht']

theorem baseName_concat (dir : Path) (name : String) : baseName (dir ++ [name]) = name := by
  rw [baseName, List.getLastD_concat]

section Imports
variable {project : Project} {dirs : List Path} {dir file : Path}

/-- A place with a number is not one that goes by a base name. -/
theorem numbered_not_alike {dir' : Path} {k : Nat} (hreal : project.isReal dir = true)
    (h : (∃ rest, dir' = dir ++ rest ∧
        containerPath ["deps", numbered (baseName dir') k] = project.ownPlace dir ++ rest) ∨
      (∃ rest, dir = dir' ++ rest ∧
        project.ownPlace dir = containerPath ["deps", numbered (baseName dir') k] ++ rest)) : False := by
  have hne : numbered (baseName dir') k ≠ "" := by
    intro heq
    have hmem := underscore_mem_numbered (baseName dir') k
    rw [heq] at hmem
    cases hmem
  rw [Project.ownPlace, if_pos hreal, containerPath_name, containerPath_name, if_neg hne] at h
  cases h with
  | inl h =>
    obtain ⟨rest, hdir, hplace⟩ := h
    by_cases hbase : baseName dir = ""
    · rw [if_pos hbase] at hplace
      have hrest : [numbered (baseName dir') k] = rest := (List.cons.inj hplace).2
      -- the directory is below the root, where its part is its base name
      have hname := congrArg baseName hdir
      rw [← hrest, baseName_concat] at hname
      exact numbered_ne _ _ hname.symm
    · rw [if_neg hbase] at hplace
      obtain ⟨hname, hrest⟩ := List.cons.inj (List.cons.inj hplace).2
      rw [← (show [] = rest from hrest), List.append_nil] at hdir
      rw [hdir] at hname
      exact numbered_ne _ _ hname
  | inr h =>
    obtain ⟨rest, hdir, hplace⟩ := h
    by_cases hbase : baseName dir = ""
    · rw [if_pos hbase] at hplace
      cases (List.cons.inj hplace).2
    · rw [if_neg hbase] at hplace
      obtain ⟨hname, hrest⟩ := List.cons.inj (List.cons.inj hplace).2
      rw [← (show [] = rest from hrest), List.append_nil] at hdir
      rw [hdir] at hname
      exact numbered_ne _ _ hname.symm

theorem nameAfter_eq (pre : List Path) (dir : Path) : (baseName dir ∉ given (pre.map baseName) ∧
      nameAfter baseName pre dir = baseName dir) ∨
    (∃ k, nameAfter baseName pre dir = numbered (baseName dir) k) := by
  by_cases hfree : baseName dir ∈ given (pre.map baseName)
  · exact .inr ⟨_, if_pos hfree⟩
  · exact .inl ⟨hfree, if_neg hfree⟩

/-- A path that goes by the base name of a real package. -/
theorem heldAt_realPlace_iff (hreal : project.isReal dir = true) (haround : dir <+: file) :
    HeldAt project dirs file (realPlace dir file) ↔
      ∃ dir' ∈ dirs, dir' <+: file ∧ (project.isReal dir' = true → KeepsName project dirs dir') ∧
        Alike project dir dir' := by
  have hown : realPlace dir file = project.ownPlace dir ++ file.drop dir.length := by
    rw [Project.ownPlace, if_pos hreal]
    rfl
  rw [hown]
  constructor
  · intro h
    obtain ⟨dir', path, hplace, haround', heq⟩ := h
    rw [append_drop_eq_iff haround haround'] at heq
    cases hplace with
    | @real pre _ hpre =>
      have hreal' := mem_realDirs.mp hpre.mem
      cases nameAfter_eq pre dir' with
      | inl hkept =>
        refine ⟨dir', hreal'.1, haround', fun _ => ⟨pre, hpre, hkept.1⟩, ?_⟩
        rw [hkept.2] at heq
        rwa [Alike, show project.ownPlace dir' = _ from if_pos hreal'.2]
      | inr hnumbered =>
        obtain ⟨k, hk⟩ := hnumbered
        rw [hk] at heq
        exact (numbered_not_alike hreal heq).elim
    | faux hdir' =>
      have hfaux := mem_fauxDirs.mp hdir'
      have hnot : ¬project.isReal dir' = true := by
        rw [hfaux.2]
        exact Bool.false_ne_true
      refine ⟨dir', hfaux.1, haround', fun h => absurd h hnot, ?_⟩
      rwa [Alike, show project.ownPlace dir' = _ from if_neg hnot]
  · intro h
    obtain ⟨dir', hdir', haround', hkeeps, halike⟩ := h
    refine ⟨dir', project.ownPlace dir', ?_, haround', (append_drop_eq_iff haround haround').mpr halike⟩
    cases hreal' : project.isReal dir' with
    | true =>
      obtain ⟨pre, hpre, hfree⟩ := hkeeps hreal'
      have hname : nameAfter baseName pre dir' = baseName dir' := if_neg hfree
      rw [Project.ownPlace, if_pos hreal', ← hname]
      exact .real hpre
    | false =>
      rw [Project.ownPlace, if_neg (by rw [hreal']; exact Bool.false_ne_true)]
      exact .faux (mem_fauxDirs.mpr ⟨hdir', hreal'⟩)

/-- A resolved path has no part that goes up. -/
theorem dots_not_mem_normalize (path : Path) : ".." ∉ normalize path := by
  rw [normalize]
  induction path using List.reverseRecOn with
  | nil => exact List.not_mem_nil
  | append_singleton path part ih =>
    rw [List.foldl_append, List.foldl_cons, List.foldl_nil]
    split
    · exact fun hmem => ih (List.dropLast_subset _ hmem)
    · next hpart =>
      intro hmem
      cases List.mem_append.mp hmem with
      | inl hmem => exact ih hmem
      | inr hmem => exact hpart (List.mem_singleton.mp hmem).symm

theorem normalize_eq_self {path : Path} (h : ".." ∉ path) : normalize path = path := by
  rw [normalize]
  induction path using List.reverseRecOn with
  | nil => rfl
  | append_singleton path part ih =>
    have hpart : part ≠ ".." := fun heq => h (by rw [heq]; exact List.mem_append_right _ List.mem_cons_self)
    rw [List.foldl_append, List.foldl_cons, List.foldl_nil, if_neg hpart,
      ih fun hmem => h (List.mem_append_left _ hmem)]

theorem dots_ne_give {used : List String} {name : String} (h : name ≠ "..") : give used name ≠ ".." := by
  intro heq
  cases give_eq_iff.mp heq with
  | inl hfree => exact h hfree.2
  | inr hnumbered =>
    have hmem := underscore_mem_numbered name (used.count name)
    rw [hnumbered.2] at hmem
    exact absurd hmem (by decide)

theorem baseName_ne_dots {dir : Path} (h : ".." ∉ dir) : baseName dir ≠ ".." := by
  intro heq
  cases List.eq_nil_or_concat dir with
  | inl hnil =>
    rw [hnil] at heq
    exact absurd heq (by decide)
  | inr hconcat =>
    obtain ⟨above, name, rfl⟩ := hconcat
    rw [List.concat_eq_append, baseName_concat] at heq
    exact h (by simp [heq])

/-- No place of a dependency goes up. -/
theorem dots_not_mem_place {path : Path} (h : PlaceAt project dirs dir path) (hdir : ".." ∉ dir) :
    ".." ∉ path := by
  have hbase := baseName_ne_dots hdir
  cases h with
  | @real pre _ hpre =>
    have hname : nameAfter baseName pre dir ≠ ".." := dots_ne_give hbase
    rw [containerPath_name]
    split
    · decide
    · intro hmem
      cases List.mem_cons.mp hmem with
      | inl hdeps => exact absurd hdeps (by decide)
      | inr hmem => exact hname (List.mem_singleton.mp hmem).symm
  | faux hmem =>
    rw [fauxPath_eq]
    have houter : ".." ≠ "outer-" ++ baseName dir := by
      intro heq
      have hhead := congrArg (fun s : String => s.toList.head?) heq
      simp [String.toList_append] at hhead
    have hinner : ".." ≠ project.innerName dir := by
      rw [Project.innerName]
      split
      · exact hbase.symm
      · decide
    intro hdots
    rw [List.mem_cons, List.mem_cons] at hdots
    rcases hdots with hdeps | heq | hrest
    · exact absurd hdeps (by decide)
    · exact houter heq
    · split at hrest
      · cases hrest
      · exact hinner (List.mem_singleton.mp hrest)

theorem dots_not_mem_localDirs {config : Config} (h : dir ∈ localDirs project config) : ".." ∉ dir := by
  obtain ⟨localDep, -, rfl⟩ := List.mem_map.mp h
  exact dots_not_mem_normalize _

theorem PlaceAt.mem {path : Path} (h : PlaceAt project dirs dir path) : dir ∈ dirs := by
  cases h with
  | real hpre => exact (mem_realDirs.mp hpre.mem).1
  | faux hdir => exact (mem_fauxDirs.mp hdir).1

/- ── What the rewriters find ───────────────────────────────────────────────── -/

variable {st : Assembly}

theorem Assembled.realAround_eq (h : Assembled project dirs st) (file : Path) :
    st.localDeps.realAround file = (realDirs project dirs).find? fun path => path <+: file := by
  rw [LocalDeps.realAround, h.realKeys, OrdDict.find?_addKeys, List.nil_append]

theorem Assembled.fauxAround_some (h : Assembled project dirs st) {path : Path}
    (haround : st.localDeps.fauxAround file = some (dir, path)) :
    dir ∈ fauxDirs project dirs ∧ dir <+: file ∧ path = project.fauxPath dir := by
  obtain ⟨⟨dir', ref, path'⟩, hfind, heq⟩ := Option.map_eq_some_iff.mp haround
  cases heq
  have hget := OrdDict.get?_eq_some_iff.mpr (List.mem_of_find?_eq_some hfind)
  exact ⟨h.mem_fauxKeys.mp (OrdDict.mem_keys_iff.mpr ⟨_, hget⟩),
    by simpa using List.find?_some hfind, h.fauxPath _ _ _ hget⟩

theorem Assembled.fauxAround_none (h : Assembled project dirs st)
    (haround : st.localDeps.fauxAround file = none) :
    ∀ dir ∈ fauxDirs project dirs, ¬dir <+: file := by
  intro dir hdir hbelow
  obtain ⟨ref, hget⟩ := h.get?_fauxPkgs hdir
  have hnone := Option.map_eq_none_iff.mp haround
  have hnot := List.find?_eq_none.mp hnone _ (OrdDict.get?_eq_some_iff.mp hget)
  exact hnot (by simpa using hbelow)

/-- A path below a faux package is always rewritten to its place. -/
theorem heldAt_fauxPlace (hdir : dir ∈ fauxDirs project dirs) (haround : dir <+: file) :
    HeldAt project dirs file (fauxPlace dir (project.fauxPath dir) file) :=
  ⟨dir, project.fauxPath dir, .faux hdir, haround, rfl⟩

theorem real_of_find? {dir : Path}
    (h : (realDirs project dirs).find? (fun path => path <+: file) = some dir) :
    project.isReal dir = true ∧ dir ∈ dirs ∧ dir <+: file :=
  have hmem := mem_realDirs.mp (List.mem_of_find?_eq_some h)
  ⟨hmem.2, hmem.1, by simpa using List.find?_some h⟩

theorem heldAt_realPlace_iff_rightlyNamed
    (h : (realDirs project dirs).find? (fun path => path <+: file) = some dir) :
    HeldAt project dirs file (realPlace dir file) ↔ RightlyNamed project dirs file := by
  obtain ⟨hreal, -, haround⟩ := real_of_find? h
  rw [heldAt_realPlace_iff hreal haround]
  constructor
  · intro hheld dir' hdir'
    rw [h] at hdir'
    cases hdir'
    exact hheld
  · exact fun hright => hright dir h

def Project.fileOf (project : Project) (importStr : String) : Path :=
  normalize (joinPath project.configDir (partition importStr).1)

/-- A path that is rewritten is the place of the file in the copy of a dependency around it. -/
def MovedRight (project : Project) (dirs : List Path) (importStr : String) (after : Import) : Prop :=
  ∀ place attr, after = .moved place attr → HeldAt project dirs (project.fileOf importStr) place

/-- Graphs and the HTTP app. -/
theorem movedRight_updateImport_iff (h : Assembled project dirs st) {option : PathOption}
    {importStr : String} {after : Import}
    (hok : updateImport option project st.localDeps importStr = .ok after) :
    MovedRight project dirs importStr after ↔
      (isFilePath (partition importStr).1 = true → RightlyNamed project dirs (project.fileOf importStr)) := by
  rw [updateImport] at hok
  dsimp only at hok
  split at hok
  · cases hok
  · cases hpath : isFilePath (partition importStr).1 with
    | false =>
      rw [hpath] at hok
      cases hok
      exact ⟨fun _ hfalse => (nomatch hfalse), fun _ place attr heq => (nomatch heq)⟩
    | true =>
      rw [hpath, show normalize (joinPath project.configDir (partition importStr).1) =
        project.fileOf importStr from rfl, h.realAround_eq] at hok
      simp only [Bool.not_true, Bool.false_eq_true, if_false] at hok
      split at hok
      · cases hok
      · split at hok
        · next dir hfind =>
          cases hok
          constructor
          · exact fun hmoved _ => (heldAt_realPlace_iff_rightlyNamed hfind).mp (hmoved _ _ rfl)
          · intro hright place attr heq
            cases heq
            exact (heldAt_realPlace_iff_rightlyNamed hfind).mpr (hright rfl)
        · next hnone =>
          have hright : RightlyNamed project dirs (project.fileOf importStr) := by
            intro dir hdir
            rw [hnone] at hdir
            cases hdir
          split at hok
          · next hfaux =>
            cases hok
            obtain ⟨hdir, haround, rfl⟩ := h.fauxAround_some hfaux
            refine ⟨fun _ _ => hright, fun _ place attr heq => ?_⟩
            cases heq
            exact heldAt_fauxPlace hdir haround
          · cases hok
      · cases hok

/-- The module path of a conf option starts with a dot, so it is not absolute. -/
theorem joinPath_dot {module : String} (h : startsWith '.' module = true) (dir : Path) :
    joinPath dir module = dir ++ partsOf module := by
  have hnot : startsWith '/' module = false := by
    rw [startsWith] at h ⊢
    rw [eq_of_beq h]
    decide
  rw [joinPath, hnot, if_neg Bool.false_ne_true]

/-- A rewritten path that was not resolved still goes up. -/
theorem not_heldAt_of_dots (hdirs : ∀ dir ∈ dirs, ".." ∉ dir) {path resolved : Path} (hdots : ".." ∈ file)
    (hdir : ".." ∉ dir) (haround : dir <+: file) (hresolved : ".." ∉ resolved) :
    ¬HeldAt project dirs resolved (path ++ file.drop dir.length) := by
  intro h
  obtain ⟨dir', path', hplace, -, heq⟩ := h
  obtain ⟨rest, rfl⟩ := haround
  rw [List.drop_left] at heq
  have hrest : ".." ∈ rest := (List.mem_append.mp hdots).resolve_left hdir
  have hmem : ".." ∈ path' ++ resolved.drop dir'.length := by
    rw [← heq]
    exact List.mem_append_right _ hrest
  cases List.mem_append.mp hmem with
  | inl hpath => exact dots_not_mem_place hplace (hdirs dir' hplace.mem) hpath
  | inr hdrop => exact hresolved (List.drop_subset _ _ hdrop)

/-- What auth, encryption and the checkpointer need of a path: it does not go up, and a faux
    package is around the file or the first real one is where its base name puts it. -/
def ConfRight (project : Project) (dirs : List Path) (pathStr : String) : Prop :=
  (partition pathStr).2.1 = true → startsWith '.' (partition pathStr).1 = true →
    ".." ∉ partsOf (partition pathStr).1 ∧
      ((∃ dir ∈ fauxDirs project dirs, dir <+: project.fileOf pathStr) ∨
        RightlyNamed project dirs (project.fileOf pathStr))

/-- The same, of the file as it is written. -/
theorem confRight_iff (dirs : List Path) {pathStr : String} (hsep : (partition pathStr).2.1 = true)
    (hdot : startsWith '.' (partition pathStr).1 = true)
    (hfile : project.configDir ++ partsOf (partition pathStr).1 = file) :
    project.fileOf pathStr = normalize file ∧ (ConfRight project dirs pathStr ↔ ".." ∉ file ∧
      ((∃ dir ∈ fauxDirs project dirs, dir <+: file) ∨ RightlyNamed project dirs file)) := by
  have hof : project.fileOf pathStr = normalize file := by
    rw [Project.fileOf, joinPath_dot hdot, hfile]
  have hdots : ".." ∈ file ↔ ".." ∈ partsOf (partition pathStr).1 := by
    rw [← hfile, List.mem_append]
    exact or_iff_right project.resolved
  refine ⟨hof, ?_⟩
  rw [ConfRight, hof, ← hdots]
  constructor
  · intro hright
    have hright := hright hsep hdot
    rwa [normalize_eq_self hright.1] at hright
  · intro hright _ _
    rwa [normalize_eq_self hright.1]

theorem movedRight_updateConfPath_iff (h : Assembled project dirs st) (hdirs : ∀ dir ∈ dirs, ".." ∉ dir)
    {option : PathOption} {pathStr : String} {after : Import}
    (hok : updateConfPath option project st.localDeps pathStr = .ok after) :
    MovedRight project dirs pathStr after ↔ ConfRight project dirs pathStr := by
  rw [updateConfPath] at hok
  dsimp only at hok
  by_cases hlocal : (partition pathStr).2.1 = true ∧ startsWith '.' (partition pathStr).1 = true
  · obtain ⟨hsep, hdot⟩ := hlocal
    rw [hsep, hdot, joinPath_dot hdot] at hok
    simp only [Bool.not_true, Bool.or_self, Bool.false_eq_true, if_false] at hok
    generalize hfile : project.configDir ++ partsOf (partition pathStr).1 = file at hok
    obtain ⟨hof, hconf⟩ := confRight_iff dirs hsep hdot hfile
    rw [hconf, MovedRight, hof]
    have hup : ∀ dir path, dir ∈ dirs → dir <+: file → ".." ∈ file →
        ¬HeldAt project dirs (normalize file) (path ++ file.drop dir.length) :=
      fun dir path hdir haround hmem =>
        not_heldAt_of_dots hdirs hmem (hdirs dir hdir) haround (dots_not_mem_normalize file)
    split at hok
    · cases hok
    · split at hok
      · next hfaux =>
        cases hok
        obtain ⟨hdir, haround, rfl⟩ := h.fauxAround_some hfaux
        constructor
        · intro hmoved
          refine ⟨fun hmem => ?_, .inl ⟨_, hdir, haround⟩⟩
          exact hup _ _ (mem_fauxDirs.mp hdir).1 haround hmem (hmoved _ _ rfl)
        · intro hright place attr heq
          cases heq
          rw [normalize_eq_self hright.1]
          exact heldAt_fauxPlace hdir haround
      · next hnone =>
        have hnone := h.fauxAround_none hnone
        rw [h.realAround_eq] at hok
        split at hok
        · next hfind =>
          cases hok
          obtain ⟨-, hdir, haround⟩ := real_of_find? hfind
          constructor
          · intro hmoved
            have hmem : ".." ∉ file := fun hmem => hup _ _ hdir haround hmem (hmoved _ _ rfl)
            have hheld := hmoved _ _ rfl
            rw [normalize_eq_self hmem] at hheld
            exact ⟨hmem, .inr ((heldAt_realPlace_iff_rightlyNamed hfind).mp hheld)⟩
          · intro hright place attr heq
            cases heq
            rw [normalize_eq_self hright.1]
            apply (heldAt_realPlace_iff_rightlyNamed hfind).mpr
            apply hright.2.resolve_left
            intro hfaux
            obtain ⟨dir, hdir, haround⟩ := hfaux
            exact hnone dir hdir haround
        · cases hok
    · cases hok
  · have hkept : after = .kept pathStr := by
      have hcond : (!(partition pathStr).2.1 || !startsWith '.' (partition pathStr).1) = true := by
        cases hsep : (partition pathStr).2.1 <;> cases hdot : startsWith '.' (partition pathStr).1
        · rfl
        · rfl
        · rfl
        · exact absurd ⟨hsep, hdot⟩ hlocal
      rw [if_pos hcond] at hok
      exact (Except.ok.inj hok).symm
    rw [hkept]
    exact ⟨fun _ hsep hdot => absurd ⟨hsep, hdot⟩ hlocal, fun _ place attr heq => (nomatch heq)⟩

end Imports

end LangGraph.Cli
