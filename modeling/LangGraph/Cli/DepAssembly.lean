import LangGraph.Cli.LocalDeps
import LangGraph.Lib.Fallible

/- What the local dependencies of a config are assembled to.

   `assembled_assembleLocalDeps`: the packages, their container names and directories, the
   requirements and the outside directories, all from the resolved directories in the order
   in which the config lists them. -/
namespace LangGraph.Cli

open NumberedNames

/- ── The dependencies of a config ──────────────────────────────────────────── -/

/-- What a directory lists. -/
def Project.listing (project : Project) (dir : Path) : List String :=
  match project.find [] dir with
  | some (.dir (some files)) => files
  | _ => []

def Project.isReal (project : Project) (dir : Path) : Bool := isRealPackage (project.listing dir)

def Project.isFlat (project : Project) (dir : Path) : Bool := isFlatLayout (project.listing dir)

def Project.hasRequirements (project : Project) (dir : Path) : Bool :=
  (project.listing dir).contains "requirements.txt"

def Project.resolveDep (project : Project) (localDep : String) : Path :=
  normalize (joinPath project.configDir localDep)

/-- The directories of local dependencies, as often as they are listed. -/
def localDirs (project : Project) (config : Config) : List Path :=
  (config.dependencies.filter (startsWith '.')).map project.resolveDep

def realDirs (project : Project) (dirs : List Path) : List Path := dirs.filter project.isReal

def fauxDirs (project : Project) (dirs : List Path) : List Path := dirs.filter fun dir => !project.isReal dir

def Project.fauxPath (project : Project) (dir : Path) : Path := Cli.fauxPath dir (project.listing dir)

section Lists
variable {project : Project} {dirs : List Path} {dir : Path}

theorem realDirs_concat (h : project.isReal dir = true) :
    realDirs project (dirs ++ [dir]) = realDirs project dirs ++ [dir] := by
  simp [realDirs, List.filter_append, h]

theorem realDirs_concat_faux (h : project.isReal dir = false) :
    realDirs project (dirs ++ [dir]) = realDirs project dirs := by
  simp [realDirs, List.filter_append, h]

theorem fauxDirs_concat (h : project.isReal dir = false) :
    fauxDirs project (dirs ++ [dir]) = fauxDirs project dirs ++ [dir] := by
  simp [fauxDirs, List.filter_append, h]

theorem fauxDirs_concat_real (h : project.isReal dir = true) :
    fauxDirs project (dirs ++ [dir]) = fauxDirs project dirs := by
  simp [fauxDirs, List.filter_append, h]

theorem mem_realDirs : dir ∈ realDirs project dirs ↔ dir ∈ dirs ∧ project.isReal dir = true :=
  List.mem_filter

theorem mem_fauxDirs : dir ∈ fauxDirs project dirs ↔ dir ∈ dirs ∧ project.isReal dir = false := by
  rw [fauxDirs, List.mem_filter, Bool.not_eq_true']

end Lists

/- ── One dependency ────────────────────────────────────────────────────────── -/

section Fields
variable (project : Project) (dir : Path) (st : Assembly)

@[simp] theorem reserved_addContext : (addContext project dir st).reserved = st.reserved := by
  rw [addContext]
  split <;> rfl

@[simp] theorem counter_addContext : (addContext project dir st).counter = st.counter := by
  rw [addContext]
  split <;> rfl

@[simp] theorem realPkgs_addContext :
    (addContext project dir st).localDeps.realPkgs = st.localDeps.realPkgs := by
  rw [addContext]
  split <;> rfl

@[simp] theorem fauxPkgs_addContext :
    (addContext project dir st).localDeps.fauxPkgs = st.localDeps.fauxPkgs := by
  rw [addContext]
  split <;> rfl

@[simp] theorem pipReqs_addContext :
    (addContext project dir st).localDeps.pipReqs = st.localDeps.pipReqs := by
  rw [addContext]
  split <;> rfl

theorem additionalContexts_addContext : (addContext project dir st).localDeps.additionalContexts =
    st.localDeps.additionalContexts ++ [dir].filter project.isOutside := by
  rw [addContext]
  split
  · next hout => rw [List.filter_cons_of_pos hout, List.filter_nil]
  · next hin => rw [List.filter_cons_of_neg hin, List.filter_nil, List.append_nil]

end Fields

theorem containerName_eq (counter : List String) (resolved : Path) :
    containerName counter resolved = give counter (baseName resolved) := by
  simp only [containerName, give, List.count_pos_iff]

section Step
variable {project : Project} {st st' : Assembly} {localDep : String}

/-- What adding a dependency does: nothing if it is not local, and else it adds a package. -/
theorem assembleDep_cases (h : assembleDep project st localDep = .ok st') :
    (startsWith '.' localDep = false ∧ st' = st) ∨
    (startsWith '.' localDep = true ∧ project.isReal (project.resolveDep localDep) = true ∧
      st' = addRealPackage localDep (project.resolveDep localDep)
        (addContext project (project.resolveDep localDep) st)) ∨
    (startsWith '.' localDep = true ∧ project.isReal (project.resolveDep localDep) = false ∧
      ∃ reserved, checkLayout project localDep (project.resolveDep localDep)
          (project.listing (project.resolveDep localDep)) st.reserved = .ok reserved ∧
        st' = addFauxPackage localDep (project.resolveDep localDep)
          (project.listing (project.resolveDep localDep)) reserved
          (addContext project (project.resolveDep localDep) st)) := by
  rw [assembleDep] at h
  cases hlocal : startsWith '.' localDep with
  | false =>
    rw [hlocal] at h
    cases h
    exact .inl ⟨rfl, rfl⟩
  | true =>
    rw [hlocal] at h
    simp only [Bool.not_true, Bool.false_eq_true, if_false] at h
    split at h
    · cases h
    · cases h
    · next files hfind =>
      have hfiles : project.listing (project.resolveDep localDep) = files := by
        rw [Project.listing, Project.resolveDep, hfind]
      cases hreal : isRealPackage files with
      | true =>
        rw [hreal, if_pos rfl] at h
        cases h
        exact .inr (.inl ⟨rfl, by rw [Project.isReal, hfiles, hreal], rfl⟩)
      | false =>
        rw [hreal, if_neg Bool.false_ne_true] at h
        refine .inr (.inr ⟨rfl, by rw [Project.isReal, hfiles, hreal], ?_⟩)
        rw [hfiles]
        rw [reserved_addContext] at h
        obtain ⟨reserved, hlayout, rfl⟩ := Fallible.map_ok h
        exact ⟨reserved, hlayout, rfl⟩
    · cases h

theorem checkReserved_ok {ref name : String} {reserved reserved' : List String}
    (h : checkReserved ref reserved name = .ok reserved') : name ∉ reserved ∧ reserved' = name :: reserved := by
  rw [checkReserved] at h
  split at h
  · cases h
  · next hfree =>
    cases h
    exact ⟨hfree, rfl⟩

/-- No name is taken back, and the one of a flat layout is new. -/
theorem checkLayout_ok {dir : Path} {files reserved reserved' : List String}
    (h : checkLayout project localDep dir files reserved = .ok reserved') :
    reserved ⊆ reserved' ∧
      (isFlatLayout files = true → baseName dir ∉ reserved ∧ baseName dir ∈ reserved') := by
  rw [checkLayout] at h
  cases hflat : isFlatLayout files with
  | true =>
    rw [hflat, if_pos rfl] at h
    split at h
    · cases h
    · obtain ⟨hfree, rfl⟩ := checkReserved_ok h
      exact ⟨List.subset_cons_self _ _, fun _ => ⟨hfree, List.mem_cons_self⟩⟩
  | false =>
    rw [hflat, if_neg Bool.false_ne_true] at h
    refine ⟨?_, fun hf => by cases hf⟩
    apply Fallible.foldlM_keeps (P := fun _ now => reserved ⊆ now) (List.Subset.refl _) ?_ h
    intro seen file now next hnow hstep
    split at hstep
    · rw [(checkReserved_ok hstep).2]
      exact List.subset_cons_of_subset _ hnow
    · cases hstep
      exact hnow

end Step

/- ── All of them ───────────────────────────────────────────────────────────── -/

/-- The state after these directories, in this order. -/
structure Assembled (project : Project) (dirs : List Path) (st : Assembly) : Prop where
  counter : st.counter = given ((realDirs project dirs).map baseName)
  realKeys : st.localDeps.realPkgs.keys = OrdDict.addKeys [] (realDirs project dirs)
  realName : ∀ dir ref name, st.localDeps.realPkgs.get? dir = some (ref, name) →
    ∃ pre, LastListed (realDirs project dirs) pre dir ∧ name = nameAfter baseName pre dir
  fauxKeys : st.localDeps.fauxPkgs.keys = OrdDict.addKeys [] (fauxDirs project dirs)
  fauxPath : ∀ dir ref path, st.localDeps.fauxPkgs.get? dir = some (ref, path) → path = project.fauxPath dir
  srcReserved : "src" ∈ st.reserved
  flatReserved : ∀ dir ∈ fauxDirs project dirs, project.isFlat dir = true →
    baseName dir ∈ st.reserved ∧ baseName dir ≠ "src"
  flatApart : (((fauxDirs project dirs).filter project.isFlat).map baseName).Nodup
  pipReqs : st.localDeps.pipReqs = ((fauxDirs project dirs).filter project.hasRequirements).map fun dir =>
    (dir ++ ["requirements.txt"], project.fauxPath dir ++ ["requirements.txt"])
  contexts : st.localDeps.additionalContexts = dirs.filter project.isOutside

section Run
variable {project : Project} {st st' : Assembly} {dirs : List Path} {dir : Path}

theorem assembled_start (project : Project) : Assembled project [] {} where
  counter := rfl
  realKeys := rfl
  realName := fun dir ref name h => by cases h
  fauxKeys := rfl
  fauxPath := fun dir ref path h => by cases h
  srcReserved := List.mem_cons_self
  flatReserved := fun dir hdir => by cases hdir
  flatApart := List.nodup_nil
  pipReqs := rfl
  contexts := rfl

theorem Assembled.addRealPackage (h : Assembled project dirs st) (hreal : project.isReal dir = true)
    (localDep : String) :
    Assembled project (dirs ++ [dir]) (addRealPackage localDep dir (addContext project dir st)) where
  counter := by
    show (addContext project dir st).counter ++ [containerName (addContext project dir st).counter dir] = _
    rw [realDirs_concat hreal, List.map_append, List.map_singleton, given_concat, containerName_eq,
      counter_addContext, h.counter]
  realKeys := by
    show ((addContext project dir st).localDeps.realPkgs.set dir _).keys = _
    rw [realDirs_concat hreal, OrdDict.addKeys_append, OrdDict.addKeys_singleton, OrdDict.keys_set,
      realPkgs_addContext, h.realKeys]
  realName := fun dir' ref name hget => by
    have hget : ((addContext project dir st).localDeps.realPkgs.set dir
        (localDep, containerName (addContext project dir st).counter dir)).get? dir' = some (ref, name) := hget
    rw [OrdDict.get?_set, realPkgs_addContext, counter_addContext, containerName_eq, h.counter] at hget
    rw [realDirs_concat hreal]
    by_cases hdir : dir' = dir
    · rw [if_pos hdir] at hget
      cases hget
      refine ⟨realDirs project dirs, lastListed_concat.mpr (.inl ⟨hdir, rfl⟩), ?_⟩
      rw [nameAfter, hdir]
    · rw [if_neg hdir] at hget
      obtain ⟨pre, hpre, hname⟩ := h.realName dir' ref name hget
      exact ⟨pre, lastListed_concat.mpr (.inr ⟨hdir, hpre⟩), hname⟩
  fauxKeys := by
    show (addContext project dir st).localDeps.fauxPkgs.keys = _
    rw [fauxPkgs_addContext, fauxDirs_concat_real hreal, h.fauxKeys]
  fauxPath := fun dir' ref path hget => by
    have hget : (addContext project dir st).localDeps.fauxPkgs.get? dir' = some (ref, path) := hget
    rw [fauxPkgs_addContext] at hget
    exact h.fauxPath dir' ref path hget
  srcReserved := by
    show "src" ∈ (addContext project dir st).reserved
    rw [reserved_addContext]
    exact h.srcReserved
  flatReserved := by
    show ∀ dir' ∈ _, _ → baseName dir' ∈ (addContext project dir st).reserved ∧ _
    rw [reserved_addContext, fauxDirs_concat_real hreal]
    exact h.flatReserved
  flatApart := by
    rw [fauxDirs_concat_real hreal]
    exact h.flatApart
  pipReqs := by
    show (addContext project dir st).localDeps.pipReqs = _
    rw [pipReqs_addContext, fauxDirs_concat_real hreal, h.pipReqs]
  contexts := by
    show (addContext project dir st).localDeps.additionalContexts = _
    rw [additionalContexts_addContext, List.filter_append, h.contexts]

theorem Assembled.addFauxPackage (h : Assembled project dirs st) (hfaux : project.isReal dir = false)
    {localDep : String} {reserved : List String}
    (hlayout : checkLayout project localDep dir (project.listing dir) st.reserved = .ok reserved) :
    Assembled project (dirs ++ [dir])
      (addFauxPackage localDep dir (project.listing dir) reserved (addContext project dir st)) where
  counter := by
    show (addContext project dir st).counter = _
    rw [counter_addContext, realDirs_concat_faux hfaux, h.counter]
  realKeys := by
    show (addContext project dir st).localDeps.realPkgs.keys = _
    rw [realPkgs_addContext, realDirs_concat_faux hfaux, h.realKeys]
  realName := fun dir' ref name hget => by
    have hget : (addContext project dir st).localDeps.realPkgs.get? dir' = some (ref, name) := hget
    rw [realPkgs_addContext] at hget
    rw [realDirs_concat_faux hfaux]
    exact h.realName dir' ref name hget
  fauxKeys := by
    show ((addContext project dir st).localDeps.fauxPkgs.set dir _).keys = _
    rw [fauxDirs_concat hfaux, OrdDict.addKeys_append, OrdDict.addKeys_singleton, OrdDict.keys_set,
      fauxPkgs_addContext, h.fauxKeys]
  fauxPath := fun dir' ref path hget => by
    have hget : ((addContext project dir st).localDeps.fauxPkgs.set dir
        (localDep, project.fauxPath dir)).get? dir' = some (ref, path) := hget
    rw [OrdDict.get?_set, fauxPkgs_addContext] at hget
    by_cases hdir : dir' = dir
    · rw [if_pos hdir] at hget
      cases hget
      rw [hdir]
    · rw [if_neg hdir] at hget
      exact h.fauxPath dir' ref path hget
  srcReserved := (checkLayout_ok hlayout).1 h.srcReserved
  flatReserved := by
    rw [fauxDirs_concat hfaux]
    intro dir' hdir' hflat
    obtain ⟨hsubset, hnew⟩ := checkLayout_ok hlayout
    cases List.mem_append.mp hdir' with
    | inl hold =>
      have hold := h.flatReserved dir' hold hflat
      exact ⟨hsubset hold.1, hold.2⟩
    | inr hdir =>
      cases List.mem_singleton.mp hdir
      have hnew := hnew hflat
      exact ⟨hnew.2, fun hsrc => hnew.1 (hsrc ▸ h.srcReserved)⟩
  flatApart := by
    rw [fauxDirs_concat hfaux, List.filter_append, List.map_append]
    cases hflat : project.isFlat dir with
    | false =>
      rw [List.filter_cons_of_neg (by rw [hflat]; exact Bool.false_ne_true), List.filter_nil, List.map_nil,
        List.append_nil]
      exact h.flatApart
    | true =>
      rw [List.filter_cons_of_pos hflat, List.filter_nil, List.map_singleton]
      apply List.nodup_append.mpr
      refine ⟨h.flatApart, List.nodup_singleton _, fun name hname name' hname' heq => ?_⟩
      obtain ⟨dir', hdir', rfl⟩ := List.mem_map.mp hname
      have hmem := List.mem_filter.mp hdir'
      rw [List.mem_singleton.mp hname'] at heq
      exact ((checkLayout_ok hlayout).2 hflat).1 (heq ▸ (h.flatReserved dir' hmem.1 hmem.2).1)
  pipReqs := by
    show (if "requirements.txt" ∈ project.listing dir then
        (addContext project dir st).localDeps.pipReqs ++ _ else (addContext project dir st).localDeps.pipReqs) = _
    rw [fauxDirs_concat hfaux, List.filter_append, List.map_append, pipReqs_addContext, h.pipReqs]
    have hiff : project.hasRequirements dir = true ↔ "requirements.txt" ∈ project.listing dir :=
      List.contains_iff_mem
    by_cases hreqs : "requirements.txt" ∈ project.listing dir
    · rw [if_pos hreqs, List.filter_cons_of_pos (hiff.mpr hreqs)]
      rfl
    · rw [if_neg hreqs, List.filter_cons_of_neg (fun hc => hreqs (hiff.mp hc)), List.filter_nil,
        List.map_nil, List.append_nil]
  contexts := by
    show (addContext project dir st).localDeps.additionalContexts = _
    rw [additionalContexts_addContext, List.filter_append, h.contexts]

/-- The directories that a list of dependencies names. -/
theorem localDirs_concat (deps : List String) (localDep : String) :
    ((deps ++ [localDep]).filter (startsWith '.')).map project.resolveDep =
      (deps.filter (startsWith '.')).map project.resolveDep ++
        if startsWith '.' localDep then [project.resolveDep localDep] else [] := by
  rw [List.filter_append, List.map_append]
  split
  · next hlocal => rw [List.filter_cons_of_pos hlocal, List.filter_nil, List.map_singleton]
  · next hlocal => rw [List.filter_cons_of_neg hlocal, List.filter_nil, List.map_nil]

theorem assembled_assembleLocalDeps {config : Config} {deps : LocalDeps}
    (h : assembleLocalDeps project config = .ok deps) :
    ∃ st, st.localDeps = deps ∧ Assembled project (localDirs project config) st := by
  obtain ⟨st, hrun, rfl⟩ := Fallible.map_ok h
  refine ⟨st, rfl, Fallible.foldlM_keeps
    (P := fun deps st => Assembled project ((deps.filter (startsWith '.')).map project.resolveDep) st)
    (assembled_start project) ?_ hrun⟩
  intro seen localDep st₁ st₂ hst hstep
  rw [localDirs_concat]
  rcases assembleDep_cases hstep with hskip | hreal | hfaux
  · rw [hskip.1, if_neg Bool.false_ne_true, List.append_nil, hskip.2]
    exact hst
  · rw [hreal.1, if_pos rfl, hreal.2.2]
    exact hst.addRealPackage hreal.2.1 localDep
  · obtain ⟨hlocal, hfaux, reserved, hlayout, rfl⟩ := hfaux
    rw [hlocal, if_pos rfl]
    exact hst.addFauxPackage hfaux hlayout

end Run

end LangGraph.Cli
