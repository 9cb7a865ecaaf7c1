import LangGraph.Cli.DepPlaces

/- The Dockerfile of local dependencies: what it copies from where.

   `prefers_iff`: each outside directory is registered under the name that its lines use exactly
   if no two of them prefer one name. `pythonConfigToDocker_right_iff`: every directory has its
   own place, every line copies from the context of its directory and every rewritten path
   is that of the file in the image, exactly under conditions on the base names and the nesting
   of the directories that a config lists. -/
namespace LangGraph.Cli

open NumberedNames

/- ── Contexts ──────────────────────────────────────────────────────────────── -/

/-- The registered contexts after these directories. -/
structure Registered (deps : LocalDeps) (paths : List Path) (ctxs : Contexts) : Prop where
  known : ∀ path ∈ paths, ∃ name, preferredName deps path = .ok name ∧ ∃ name', ctxs.names.get? path = some name'
  listed : ∀ path name, ctxs.names.get? path = some name → path ∈ paths
  both : ∀ path name, ctxs.names.get? path = some name ↔ ctxs.additionalContexts.get? name = some path
  used : ∀ name, name ∈ ctxs.used ↔ ∃ path, ctxs.names.get? path = some name
  preferred : (∀ path ∈ paths, ∀ path' ∈ paths, path ≠ path' →
      preferredName deps path ≠ preferredName deps path') →
    ∀ path ∈ paths, ∀ name, preferredName deps path = .ok name → ctxs.names.get? path = some name

section Register
variable {deps : LocalDeps} {paths : List Path} {ctxs : Contexts}

theorem registered_start (deps : LocalDeps) : Registered deps [] {} where
  known := fun path hpath => by cases hpath
  listed := fun path name h => by cases h
  both := fun path name => ⟨fun h => (nomatch h), fun h => (nomatch h)⟩
  used := fun name => ⟨fun h => (nomatch h), fun ⟨path, h⟩ => (nomatch h)⟩
  preferred := fun _ path hpath => by cases hpath

theorem Registered.again (h : Registered deps paths ctxs) {path : Path} (hpath : path ∈ paths) :
    Registered deps (paths ++ [path]) ctxs := by
  have hmem : ∀ path', path' ∈ paths ++ [path] ↔ path' ∈ paths := by
    intro path'
    rw [List.mem_append, List.mem_singleton]
    exact or_iff_left_of_imp fun heq => heq ▸ hpath
  exact {
    known := fun path' hpath' => h.known path' ((hmem path').mp hpath')
    listed := fun path' name hget => (hmem path').mpr (h.listed path' name hget)
    both := h.both
    used := h.used
    preferred := fun hapart path' hpath' => h.preferred
      (fun p hp p' hp' => hapart p ((hmem p).mpr hp) p' ((hmem p').mpr hp')) path' ((hmem path').mp hpath') }

/-- Who has a name prefers it, as long as every directory has the one that it prefers. -/
theorem Registered.prefers_of_used (h : Registered deps paths ctxs)
    (hapart : ∀ path ∈ paths, ∀ path' ∈ paths, path ≠ path' →
      preferredName deps path ≠ preferredName deps path') {name : String} (hused : name ∈ ctxs.used) :
    ∃ path ∈ paths, preferredName deps path = .ok name := by
  obtain ⟨path, hget⟩ := (h.used name).mp hused
  have hmem := h.listed path name hget
  obtain ⟨pref, hpref, -⟩ := h.known path hmem
  have hsame := h.preferred hapart path hmem pref hpref
  rw [hget] at hsame
  cases hsame
  exact ⟨path, hmem, hpref⟩

section New
variable {path : Path} {name fresh : String}

theorem Registered.known_new (h : Registered deps paths ctxs) (hname : preferredName deps path = .ok name) :
    ∀ path' ∈ paths ++ [path], ∃ name, preferredName deps path' = .ok name ∧
      ∃ name', (ctxs.names.set path fresh).get? path' = some name' := by
  intro path' hpath'
  rw [OrdDict.get?_set]
  cases List.mem_append.mp hpath' with
  | inl hold =>
    obtain ⟨pref, hpref, old, hget⟩ := h.known path' hold
    refine ⟨pref, hpref, ?_⟩
    split
    · exact ⟨fresh, rfl⟩
    · exact ⟨old, hget⟩
  | inr hnew =>
    rw [if_pos (List.mem_singleton.mp hnew), List.mem_singleton.mp hnew]
    exact ⟨name, hname, fresh, rfl⟩

theorem Registered.both_new (h : Registered deps paths ctxs)
    (hnew : ∀ name', ctxs.names.get? path ≠ some name') (hunused : ∀ path', ctxs.names.get? path' ≠ some fresh) :
    ∀ path' name', (ctxs.names.set path fresh).get? path' = some name' ↔
      (ctxs.additionalContexts.set fresh path).get? name' = some path' := by
  intro path' name'
  rw [OrdDict.get?_set, OrdDict.get?_set]
  by_cases hpath : path' = path <;> by_cases hname : name' = fresh
  · simp [hpath, hname]
  · rw [if_pos hpath, if_neg hname, ← h.both, hpath]
    exact ⟨fun heq => absurd (Option.some.inj heq).symm hname, fun hget => absurd hget (hnew name')⟩
  · rw [if_neg hpath, if_pos hname, hname]
    exact ⟨fun hget => absurd hget (hunused path'), fun heq => absurd (Option.some.inj heq).symm hpath⟩
  · rw [if_neg hpath, if_neg hname, h.both]

theorem Registered.used_new (h : Registered deps paths ctxs)
    (hnew : ∀ name', ctxs.names.get? path ≠ some name') :
    ∀ name', name' ∈ fresh :: ctxs.used ↔ ∃ path', (ctxs.names.set path fresh).get? path' = some name' := by
  intro name'
  rw [List.mem_cons, h.used]
  constructor
  · intro hused
    cases hused with
    | inl heq => exact ⟨path, by rw [heq, OrdDict.get?_set_self]⟩
    | inr hused =>
      obtain ⟨path', hget⟩ := hused
      refine ⟨path', ?_⟩
      rw [OrdDict.get?_set_of_ne, hget]
      intro heq
      exact hnew name' (heq ▸ hget)
  · intro hused
    obtain ⟨path', hget⟩ := hused
    rw [OrdDict.get?_set] at hget
    split at hget
    · exact .inl (Option.some.inj hget).symm
    · exact .inr ⟨path', hget⟩

theorem Registered.preferred_new (h : Registered deps paths ctxs)
    (hnew : ∀ name', ctxs.names.get? path ≠ some name') (hname : preferredName deps path = .ok name)
    (hapart : ∀ p ∈ paths ++ [path], ∀ p' ∈ paths ++ [path], p ≠ p' →
      preferredName deps p ≠ preferredName deps p') :
    ∀ path' ∈ paths ++ [path], ∀ name', preferredName deps path' = .ok name' →
      (ctxs.names.set path (firstFree ctxs.used name)).get? path' = some name' := by
  have hapart' : ∀ p ∈ paths, ∀ p' ∈ paths, p ≠ p' → preferredName deps p ≠ preferredName deps p' :=
    fun p hp p' hp' => hapart p (List.mem_append_left _ hp) p' (List.mem_append_left _ hp')
  intro path' hpath' name' hname'
  rw [OrdDict.get?_set]
  by_cases hpath : path' = path
  · rw [if_pos hpath]
    rw [hpath, hname] at hname'
    cases hname'
    rw [firstFree_eq]
    intro hused
    obtain ⟨other, hother, hpref⟩ := h.prefers_of_used hapart' hused
    apply hapart other (List.mem_append_left _ hother) path (List.mem_append_right _ List.mem_cons_self)
    · intro heq
      obtain ⟨-, -, old, hget⟩ := h.known other hother
      exact hnew old (heq ▸ hget)
    · rw [hpref, hname]
  · rw [if_neg hpath]
    exact h.preferred hapart' path'
      ((List.mem_append.mp hpath').resolve_right fun hp => hpath (List.mem_singleton.mp hp)) name' hname'

end New

theorem Registered.register (h : Registered deps paths ctxs) {path : Path} {name : String}
    (hname : preferredName deps path = .ok name) :
    Registered deps (paths ++ [path]) (register ctxs path name) := by
  rw [Cli.register]
  by_cases hseen : ctxs.names.contains path = true
  · rw [if_pos hseen]
    obtain ⟨old, hold⟩ := OrdDict.mem_keys_iff.mp (OrdDict.contains_iff.mp hseen)
    exact h.again (h.listed path old hold)
  · rw [if_neg hseen]
    have hnew : ∀ name', ctxs.names.get? path ≠ some name' := by
      intro name' hget
      exact hseen (OrdDict.contains_iff.mpr (OrdDict.mem_keys_iff.mpr ⟨name', hget⟩))
    have hunused : ∀ path', ctxs.names.get? path' ≠ some (firstFree ctxs.used name) := by
      intro path' hget
      exact firstFree_not_mem ctxs.used name ((h.used _).mpr ⟨path', hget⟩)
    exact {
      known := h.known_new hname
      listed := fun path' name' hget => by
        rw [OrdDict.get?_set] at hget
        by_cases hpath : path' = path
        · exact List.mem_append_right _ (List.mem_singleton.mpr hpath)
        · rw [if_neg hpath] at hget
          exact List.mem_append_left _ (h.listed path' name' hget)
      both := h.both_new hnew hunused
      used := h.used_new hnew
      preferred := h.preferred_new hnew hname }

theorem registered_registerContexts (h : registerContexts deps = .ok ctxs) :
    Registered deps deps.additionalContexts ctxs := by
  apply Fallible.foldlM_keeps (registered_start deps) ?_ h
  intro seen path ctxs₁ ctxs₂ hseen hstep
  obtain ⟨name, hname, rfl⟩ := Fallible.map_ok hstep
  exact hseen.register hname

/-- Every directory has the context that it prefers if no two prefer one. -/
theorem Registered.prefers_iff (h : Registered deps paths ctxs) :
    (∀ path ∈ paths, ∀ name, preferredName deps path = .ok name →
        ctxs.additionalContexts.get? name = some path) ↔
      ∀ path ∈ paths, ∀ path' ∈ paths, path ≠ path' → preferredName deps path ≠ preferredName deps path' := by
  constructor
  · intro hall path hpath path' hpath' hne heq
    obtain ⟨name, hname, -⟩ := h.known path hpath
    have hget := hall path hpath name hname
    rw [hall path' hpath' name (heq ▸ hname)] at hget
    exact hne (Option.some.inj hget).symm
  · intro hapart path hpath name hname
    exact (h.both path name).mp (h.preferred hapart path hpath name hname)

end Register

/- ── Lines ─────────────────────────────────────────────────────────────────── -/

/-- What the names of contexts need to be those that the lines use. -/
structure ContextsApart (project : Project) (dirs : List Path) : Prop where
  /-- No two outside faux packages have one base name. -/
  faux : ∀ dir ∈ fauxDirs project dirs, ∀ dir' ∈ fauxDirs project dirs, project.isOutside dir = true →
    project.isOutside dir' = true → dir ≠ dir' → baseName dir ≠ baseName dir'
  /-- No outside real package gets the name of an outer directory. -/
  mixed : ∀ pre dir, LastListed (realDirs project dirs) pre dir → project.isOutside dir = true →
    ∀ dir' ∈ fauxDirs project dirs, project.isOutside dir' = true →
      (baseName dir ∉ given (pre.map baseName) → baseName dir ≠ "outer-" ++ baseName dir') ∧
      (baseName dir ∈ given (pre.map baseName) →
        numbered (baseName dir) ((given (pre.map baseName)).count (baseName dir)) ≠
          "outer-" ++ baseName dir')
  /-- An outside faux package with requirements is called like its requirements file. -/
  requirements : ∀ dir ∈ fauxDirs project dirs, project.isOutside dir = true →
    project.hasRequirements dir = true → baseName dir = "requirements.txt"

section Lines
variable {project : Project} {dirs : List Path} {st : Assembly} {ctxs : Contexts}

theorem Assembled.preferredName_real (h : Assembled project dirs st) {pre : List Path} {dir : Path}
    (hpre : LastListed (realDirs project dirs) pre dir) :
    preferredName st.localDeps dir = .ok (nameAfter baseName pre dir) := by
  obtain ⟨ref, hget⟩ := h.get?_realPkgs hpre
  rw [preferredName, hget]

theorem Assembled.preferredName_faux (h : Assembled project dirs st) {dir : Path}
    (hdir : dir ∈ fauxDirs project dirs) :
    preferredName st.localDeps dir = .ok ("outer-" ++ baseName dir) := by
  have hnone : st.localDeps.realPkgs.get? dir = none := by
    apply OrdDict.get?_eq_none_iff.mpr
    intro hkey
    have hreal := (mem_realDirs.mp (h.mem_realKeys.mp hkey)).2
    rw [(mem_fauxDirs.mp hdir).2] at hreal
    cases hreal
  have hcontains : st.localDeps.fauxPkgs.contains dir = true :=
    OrdDict.contains_iff.mpr (h.mem_fauxKeys.mpr hdir)
  rw [preferredName, hnone]
  dsimp only
  rw [if_pos hcontains]

theorem real_or_faux (project : Project) {dir : Path} (hdir : dir ∈ dirs) :
    (∃ pre, LastListed (realDirs project dirs) pre dir) ∨ dir ∈ fauxDirs project dirs := by
  cases hreal : project.isReal dir with
  | true => exact .inl (exists_lastListed (mem_realDirs.mpr ⟨hdir, hreal⟩))
  | false => exact .inr (mem_fauxDirs.mpr ⟨hdir, hreal⟩)

theorem Assembled.mem_contexts (h : Assembled project dirs st) {dir : Path} :
    dir ∈ st.localDeps.additionalContexts ↔ dir ∈ dirs ∧ project.isOutside dir = true := by
  rw [h.contexts, List.mem_filter]

/-- A line of a package copies from the context that its directory prefers, if it is outside. -/
theorem Assembled.copyFrom_iff (h : Assembled project dirs st) {dir : Path} {context : String} :
    (∃ line ∈ packageLines st.localDeps, line.dependency = dir ∧ ∃ what, line.source = .copyFrom context what) ↔
      dir ∈ st.localDeps.additionalContexts ∧ preferredName st.localDeps dir = .ok context := by
  constructor
  · intro hline
    obtain ⟨line, hline, rfl, what, hsource⟩ := hline
    cases List.mem_append.mp hline with
    | inl hreal =>
      obtain ⟨⟨dir, ref, name⟩, hentry, rfl⟩ := List.mem_map.mp hreal
      simp only [realLine] at hsource ⊢
      split at hsource
      · next hout =>
        cases hsource
        refine ⟨hout, ?_⟩
        rw [preferredName, OrdDict.get?_eq_some_iff.mpr hentry]
      · cases hsource
    | inr hfaux =>
      obtain ⟨⟨dir, ref, path⟩, hentry, rfl⟩ := List.mem_map.mp hfaux
      simp only [fauxLine] at hsource ⊢
      split at hsource
      · next hout =>
        cases hsource
        have hkey := OrdDict.mem_keys_iff.mpr ⟨_, OrdDict.get?_eq_some_iff.mpr hentry⟩
        exact ⟨hout, h.preferredName_faux (h.mem_fauxKeys.mp hkey)⟩
      · cases hsource
  · intro hpref
    obtain ⟨hout, hname⟩ := hpref
    cases real_or_faux project (h.mem_contexts.mp hout).1 with
    | inl hreal =>
      obtain ⟨pre, hpre⟩ := hreal
      obtain ⟨ref, hget⟩ := h.get?_realPkgs hpre
      rw [h.preferredName_real hpre] at hname
      cases hname
      refine ⟨_, List.mem_append_left _ (List.mem_map_of_mem (OrdDict.get?_eq_some_iff.mp hget)), rfl, ".", ?_⟩
      exact if_pos hout
    | inr hfaux =>
      obtain ⟨ref, hget⟩ := h.get?_fauxPkgs hfaux
      rw [h.preferredName_faux hfaux] at hname
      cases hname
      refine ⟨_, List.mem_append_right _ (List.mem_map_of_mem (OrdDict.get?_eq_some_iff.mp hget)), rfl, ".", ?_⟩
      exact if_pos hout

/-- What a line copies from is the context that is registered for its directory. -/
def FromContext (contexts : OrdDict String Path) (line : CopyLine) : Prop :=
  ∀ context what, line.source = .copyFrom context what → contexts.get? context = some line.dependency

theorem Assembled.packages_fromContext_iff (h : Assembled project dirs st)
    (hreg : Registered st.localDeps st.localDeps.additionalContexts ctxs) :
    (∀ line ∈ packageLines st.localDeps, FromContext ctxs.additionalContexts line) ↔
      ∀ path ∈ st.localDeps.additionalContexts, ∀ path' ∈ st.localDeps.additionalContexts, path ≠ path' →
        preferredName st.localDeps path ≠ preferredName st.localDeps path' := by
  rw [← hreg.prefers_iff]
  constructor
  · intro hall path hpath name hname
    obtain ⟨line, hline, rfl, what, hsource⟩ := h.copyFrom_iff.mpr ⟨hpath, hname⟩
    exact hall line hline name what hsource
  · intro hall line hline context what hsource
    obtain ⟨hout, hname⟩ := h.copyFrom_iff.mp ⟨line, hline, rfl, what, hsource⟩
    exact hall line.dependency hout context hname

/-- The preferred names, where the places of the directories are different. -/
theorem Assembled.preferred_apart_iff (h : Assembled project dirs st) (hapart : NamesApart project dirs) :
    (∀ path ∈ st.localDeps.additionalContexts, ∀ path' ∈ st.localDeps.additionalContexts, path ≠ path' →
        preferredName st.localDeps path ≠ preferredName st.localDeps path') ↔
      (∀ dir ∈ fauxDirs project dirs, ∀ dir' ∈ fauxDirs project dirs, project.isOutside dir = true →
        project.isOutside dir' = true → dir ≠ dir' → baseName dir ≠ baseName dir') ∧
      (∀ pre dir, LastListed (realDirs project dirs) pre dir → project.isOutside dir = true →
        ∀ dir' ∈ fauxDirs project dirs, project.isOutside dir' = true →
          nameAfter baseName pre dir ≠ "outer-" ++ baseName dir') := by
  constructor
  · intro hall
    constructor
    · intro dir hdir dir' hdir' hout hout' hne heq
      apply hall dir (h.mem_contexts.mpr ⟨(mem_fauxDirs.mp hdir).1, hout⟩) dir'
        (h.mem_contexts.mpr ⟨(mem_fauxDirs.mp hdir').1, hout'⟩) hne
      rw [h.preferredName_faux hdir, h.preferredName_faux hdir', heq]
    · intro pre dir hpre hout dir' hdir' hout' heq
      have hreal := mem_realDirs.mp hpre.mem
      have hfaux := mem_fauxDirs.mp hdir'
      apply hall dir (h.mem_contexts.mpr ⟨hreal.1, hout⟩) dir' (h.mem_contexts.mpr ⟨hfaux.1, hout'⟩)
      · intro hsame
        rw [hsame, hfaux.2] at hreal
        cases hreal.2
      · rw [h.preferredName_real hpre, h.preferredName_faux hdir', heq]
  · intro hcond path hpath path' hpath' hne heq
    obtain ⟨hfauxs, hmixed⟩ := hcond
    obtain ⟨hmem, hout⟩ := h.mem_contexts.mp hpath
    obtain ⟨hmem', hout'⟩ := h.mem_contexts.mp hpath'
    cases real_or_faux project hmem with
    | inl hreal =>
      obtain ⟨pre, hpre⟩ := hreal
      rw [h.preferredName_real hpre] at heq
      cases real_or_faux project hmem' with
      | inl hreal' =>
        obtain ⟨pre', hpre'⟩ := hreal'
        rw [h.preferredName_real hpre'] at heq
        exact names_apart_iff.mpr hapart.real pre path pre' path' hpre hpre' hne (Except.ok.inj heq)
      | inr hfaux' =>
        rw [h.preferredName_faux hfaux'] at heq
        exact hmixed pre path hpre hout path' hfaux' hout' (Except.ok.inj heq)
    | inr hfaux =>
      rw [h.preferredName_faux hfaux] at heq
      cases real_or_faux project hmem' with
      | inl hreal' =>
        obtain ⟨pre', hpre'⟩ := hreal'
        rw [h.preferredName_real hpre'] at heq
        exact hmixed pre' path' hpre' hout' path hfaux hout (Except.ok.inj heq).symm
      | inr hfaux' =>
        rw [h.preferredName_faux hfaux'] at heq
        exact hfauxs path hfaux path' hfaux' hout hout' hne
          ((String.append_right_inj _).mp (Except.ok.inj heq))

theorem nameAfter_ne_iff {pre : List Path} {dir : Path} {name : String} :
    nameAfter baseName pre dir ≠ name ↔
      (baseName dir ∉ given (pre.map baseName) → baseName dir ≠ name) ∧
      (baseName dir ∈ given (pre.map baseName) →
        numbered (baseName dir) ((given (pre.map baseName)).count (baseName dir)) ≠ name) := by
  rw [nameAfter, ne_eq, give_eq_iff, not_or, not_and, not_and]

theorem Assembled.requirements_fromContext_iff (h : Assembled project dirs st) {lines : List CopyLine}
    (hlines : st.localDeps.pipReqs.mapM (requirementLine project st.localDeps) = .ok lines)
    (contexts : OrdDict String Path) :
    (∀ line ∈ lines, FromContext contexts line) ↔
      ∀ dir ∈ fauxDirs project dirs, project.isOutside dir = true → project.hasRequirements dir = true →
        contexts.get? "outer-requirements.txt" = some dir := by
  have hname : ∀ dir : Path, "outer-" ++ baseName (dir ++ ["requirements.txt"]) = "outer-requirements.txt" := by
    intro dir
    rw [baseName_concat]
    decide
  constructor
  · intro hall dir hdir hout hreqs
    have hreq : (dir ++ ["requirements.txt"], project.fauxPath dir ++ ["requirements.txt"]) ∈
        st.localDeps.pipReqs := by
      rw [h.pipReqs]
      exact List.mem_map.mpr ⟨dir, List.mem_filter.mpr ⟨hdir, hreqs⟩, rfl⟩
    have hmem : dir ∈ st.localDeps.additionalContexts := h.mem_contexts.mpr ⟨(mem_fauxDirs.mp hdir).1, hout⟩
    have hline := (Fallible.mem_of_mapM hlines).mpr ⟨_, hreq, by
      rw [requirementLine, List.dropLast_concat, if_pos hmem, hname]⟩
    exact hall _ hline _ _ rfl
  · intro hall line hline context what hsource
    obtain ⟨req, hreq, hline⟩ := (Fallible.mem_of_mapM hlines).mp hline
    rw [h.pipReqs] at hreq
    obtain ⟨dir, hdir, rfl⟩ := List.mem_map.mp hreq
    obtain ⟨hdir, hreqs⟩ := List.mem_filter.mp hdir
    rw [requirementLine, List.dropLast_concat, hname] at hline
    split at hline
    · next hmem =>
      cases hline
      cases hsource
      exact hall dir hdir (h.mem_contexts.mp hmem).2 hreqs
    · split at hline
      · cases hline
        cases hsource
      · cases hline

theorem Assembled.fromContext_iff (h : Assembled project dirs st) (hapart : NamesApart project dirs)
    (hreg : Registered st.localDeps st.localDeps.additionalContexts ctxs) {lines : List CopyLine}
    (hlines : st.localDeps.pipReqs.mapM (requirementLine project st.localDeps) = .ok lines) :
    (∀ line ∈ lines ++ packageLines st.localDeps, FromContext ctxs.additionalContexts line) ↔
      ContextsApart project dirs := by
  rw [List.forall_mem_append, h.requirements_fromContext_iff hlines]
  have hpackages := h.packages_fromContext_iff hreg
  have hpreferred := h.preferred_apart_iff hapart
  -- where the names are as preferred, the one of the requirements file is taken by its namesake
  have hnamed : (∀ line ∈ packageLines st.localDeps, FromContext ctxs.additionalContexts line) →
      ∀ dir ∈ fauxDirs project dirs, project.isOutside dir = true →
        (ctxs.additionalContexts.get? "outer-requirements.txt" = some dir ↔
          baseName dir = "requirements.txt") := by
    intro hall dir hdir hout
    have hmem : dir ∈ st.localDeps.additionalContexts := h.mem_contexts.mpr ⟨(mem_fauxDirs.mp hdir).1, hout⟩
    have hget := hreg.preferred (hpackages.mp hall) dir hmem _ (h.preferredName_faux hdir)
    rw [← hreg.both, hget, Option.some.injEq,
      show "outer-requirements.txt" = "outer-" ++ "requirements.txt" by decide, String.append_right_inj]
  constructor
  · intro hall
    obtain ⟨hfaux, hmixed⟩ := hpreferred.mp (hpackages.mp hall.2)
    refine ⟨hfaux, fun pre dir hpre hout dir' hdir' hout' => ?_, fun dir hdir hout hreqs => ?_⟩
    · exact nameAfter_ne_iff.mp (hmixed pre dir hpre hout dir' hdir' hout')
    · exact (hnamed hall.2 dir hdir hout).mp (hall.1 dir hdir hout hreqs)
  · intro hcond
    have hall := hpackages.mpr (hpreferred.mpr ⟨hcond.faux, fun pre dir hpre hout dir' hdir' hout' =>
      nameAfter_ne_iff.mpr (hcond.mixed pre dir hpre hout dir' hdir' hout')⟩)
    refine ⟨fun dir hdir hout hreqs => ?_, hall⟩
    exact (hnamed hall dir hdir hout).mpr (hcond.requirements dir hdir hout hreqs)

end Lines

/- ── The build ─────────────────────────────────────────────────────────────── -/

/-- Different directories are copied to different places. -/
def DockerBuild.PlacedApart (build : DockerBuild) : Prop :=
  ∀ line ∈ build.packages, ∀ line' ∈ build.packages, line.dependency ≠ line'.dependency →
    line.dest ≠ line'.dest

/-- Every line copies from the context of its directory. -/
def DockerBuild.ContextsMatch (build : DockerBuild) : Prop :=
  ∀ line ∈ build.requirements ++ build.packages, FromContext build.additionalContexts line

/-- The copy of a directory around the file has the file at this place. -/
def DockerBuild.Holds (build : DockerBuild) (file place : Path) : Prop :=
  ∃ line ∈ build.packages, line.dependency <+: file ∧
    place = line.dest ++ file.drop line.dependency.length

def DockerBuild.Moves (build : DockerBuild) (project : Project) (importStr : String) (after : Import) : Prop :=
  ∀ place attr, after = .moved place attr → build.Holds (project.fileOf importStr) place

/-- An option is left alone, or rewritten to where its file is. -/
def DockerBuild.MovesOption (build : DockerBuild) (project : Project) (before : Option String)
    (after : Option Import) : Prop :=
  ∀ importStr moved, before = some importStr → after = some moved → build.Moves project importStr moved

structure DockerBuild.PathsMoved (build : DockerBuild) (project : Project) (config : Config) : Prop where
  graphs : List.Forall₂ (fun before after => ∀ importStr, graphImportStr before = .ok importStr →
    build.Moves project importStr after.2) config.graphs build.graphs
  auth : build.MovesOption project config.auth build.auth
  encryption : build.MovesOption project config.encryption build.encryption
  checkpointer : build.MovesOption project config.checkpointer build.checkpointer
  httpApp : build.MovesOption project config.httpApp build.httpApp

/-- What a graph and the HTTP app need of a path. -/
def ImportRight (project : Project) (dirs : List Path) (importStr : String) : Prop :=
  isFilePath (partition importStr).1 = true → RightlyNamed project dirs (project.fileOf importStr)

structure PathsRight (project : Project) (config : Config) : Prop where
  graphs : ∀ graph ∈ config.graphs, ∀ importStr, graphImportStr graph = .ok importStr →
    ImportRight project (localDirs project config) importStr
  auth : ∀ pathStr, config.auth = some pathStr → ConfRight project (localDirs project config) pathStr
  encryption : ∀ pathStr, config.encryption = some pathStr →
    ConfRight project (localDirs project config) pathStr
  checkpointer : ∀ pathStr, config.checkpointer = some pathStr →
    ConfRight project (localDirs project config) pathStr
  httpApp : ∀ importStr, config.httpApp = some importStr →
    ImportRight project (localDirs project config) importStr

section Build
variable {project : Project} {config : Config} {dirs : List Path} {st : Assembly} {build : DockerBuild}

theorem Assembled.holds_iff (h : Assembled project dirs st)
    (hpackages : build.packages = packageLines st.localDeps) {file place : Path} :
    build.Holds file place ↔ HeldAt project dirs file place := by
  rw [DockerBuild.Holds, hpackages]
  constructor
  · intro hholds
    obtain ⟨line, hline, haround, rfl⟩ := hholds
    exact ⟨_, _, h.exists_packageLine_iff.mp ⟨line, hline, rfl, rfl⟩, haround, rfl⟩
  · intro hheld
    obtain ⟨dir, path, hplace, haround, rfl⟩ := hheld
    obtain ⟨line, hline, rfl, rfl⟩ := h.exists_packageLine_iff.mpr hplace
    exact ⟨line, hline, haround, rfl⟩

theorem Assembled.moves_iff (h : Assembled project dirs st)
    (hpackages : build.packages = packageLines st.localDeps) {importStr : String} {after : Import} :
    build.Moves project importStr after ↔ MovedRight project dirs importStr after := by
  simp only [DockerBuild.Moves, MovedRight, h.holds_iff hpackages]

theorem Assembled.placedApart_iff (h : Assembled project dirs st)
    (hpackages : build.packages = packageLines st.localDeps) :
    build.PlacedApart ↔ NamesApart project dirs := by
  rw [← Cli.placedApart_iff h, DockerBuild.PlacedApart, hpackages]
  constructor
  · intro hall dir place dir' place' hplace hplace' hne
    obtain ⟨line, hline, rfl, rfl⟩ := h.exists_packageLine_iff.mpr hplace
    obtain ⟨line', hline', rfl, rfl⟩ := h.exists_packageLine_iff.mpr hplace'
    exact hall line hline line' hline' hne
  · intro hall line hline line' hline' hne
    exact hall _ _ _ _ (h.exists_packageLine_iff.mp ⟨line, hline, rfl, rfl⟩)
      (h.exists_packageLine_iff.mp ⟨line', hline', rfl, rfl⟩) hne

theorem Assembled.movesOption_iff (h : Assembled project dirs st)
    (hpackages : build.packages = packageLines st.localDeps) {Right : String → Prop}
    {update : String → Except DockerError Import} (hempty : Right "")
    (hupdate : ∀ {importStr moved}, update importStr = .ok moved →
      (MovedRight project dirs importStr moved ↔ Right importStr))
    {before : Option String} {after : Option Import} (hok : updateOption update before = .ok after) :
    build.MovesOption project before after ↔ ∀ importStr, before = some importStr → Right importStr := by
  cases before with
  | none => exact ⟨fun _ importStr heq => (nomatch heq), fun _ importStr moved heq => (nomatch heq)⟩
  | some importStr =>
    have hgoal : ∀ moved, after = some moved → (build.Moves project importStr moved ↔ Right importStr) →
        (build.MovesOption project (some importStr) after ↔ ∀ s, some importStr = some s → Right s) := by
      intro moved hafter hmoves
      rw [DockerBuild.MovesOption, hafter]
      constructor
      · intro hall s heq
        cases heq
        exact hmoves.mp (hall _ _ rfl rfl)
      · intro hall s m heq heq'
        cases heq
        cases heq'
        exact hmoves.mpr (hall _ rfl)
    rw [updateOption] at hok
    split at hok
    · next hnone =>
      cases hok
      refine hgoal _ rfl ⟨fun _ => hnone ▸ hempty, fun _ place attr heq => (nomatch heq)⟩
    · obtain ⟨moved, hmoved, rfl⟩ := Fallible.map_ok hok
      exact hgoal moved rfl ((h.moves_iff hpackages).trans (hupdate hmoved))

theorem confRight_empty (project : Project) (dirs : List Path) : ConfRight project dirs "" := by
  intro hsep
  exact absurd hsep (by decide)

theorem importRight_empty (project : Project) (dirs : List Path) : ImportRight project dirs "" := by
  intro hpath
  exact absurd hpath (by decide)

/-- A build, with the state and the contexts that it was made from. -/
structure Built (project : Project) (config : Config) (build : DockerBuild) (st : Assembly)
    (ctxs : Contexts) : Prop where
  assembled : Assembled project (localDirs project config) st
  registered : Registered st.localDeps st.localDeps.additionalContexts ctxs
  packages : build.packages = packageLines st.localDeps
  contexts : build.additionalContexts = ctxs.additionalContexts
  requirements : st.localDeps.pipReqs.mapM (requirementLine project st.localDeps) = .ok build.requirements
  graphs : updateGraphPaths project config st.localDeps = .ok build.graphs
  auth : updateAuthPath project config st.localDeps = .ok build.auth
  encryption : updateEncryptionPath project config st.localDeps = .ok build.encryption
  checkpointer : updateCheckpointerPath project config st.localDeps = .ok build.checkpointer
  httpApp : updateHttpAppPath project config st.localDeps = .ok build.httpApp

theorem built_pythonConfigToDocker (h : pythonConfigToDocker project config = .ok build) :
    ∃ st ctxs, Built project config build st ctxs := by
  obtain ⟨deps, hdeps, h⟩ := Fallible.bind_ok h
  obtain ⟨graphs, hgraphs, h⟩ := Fallible.bind_ok h
  obtain ⟨auth, hauth, h⟩ := Fallible.bind_ok h
  obtain ⟨encryption, hencryption, h⟩ := Fallible.bind_ok h
  obtain ⟨checkpointer, hcheckpointer, h⟩ := Fallible.bind_ok h
  obtain ⟨httpApp, hhttpApp, h⟩ := Fallible.bind_ok h
  obtain ⟨requirements, hrequirements, h⟩ := Fallible.bind_ok h
  obtain ⟨ctxs, hctxs, h⟩ := Fallible.bind_ok h
  obtain ⟨st, rfl, hst⟩ := assembled_assembleLocalDeps hdeps
  cases h
  exact ⟨st, ctxs, hst, registered_registerContexts hctxs, rfl, rfl, hrequirements, hgraphs, hauth,
    hencryption, hcheckpointer, hhttpApp⟩

theorem Built.contextsMatch_iff {ctxs : Contexts} (h : Built project config build st ctxs)
    (hapart : NamesApart project (localDirs project config)) :
    build.ContextsMatch ↔ ContextsApart project (localDirs project config) := by
  rw [← h.assembled.fromContext_iff hapart h.registered h.requirements, DockerBuild.ContextsMatch,
    h.packages, h.contexts]

theorem Built.graphsMoved_iff {ctxs : Contexts} (h : Built project config build st ctxs) :
    List.Forall₂ (fun before after => ∀ importStr, graphImportStr before = .ok importStr →
        build.Moves project importStr after.2) config.graphs build.graphs ↔
      ∀ graph ∈ config.graphs, ∀ importStr, graphImportStr graph = .ok importStr →
        ImportRight project (localDirs project config) importStr := by
  apply Fallible.forall₂_iff (Fallible.forall₂_of_mapM h.graphs)
  intro graph after hok
  obtain ⟨importStr, himport, hok⟩ := Fallible.bind_ok hok
  obtain ⟨moved, hmoved, hok⟩ := Fallible.bind_ok hok
  cases hok
  have hiff := (h.assembled.moves_iff h.packages).trans (movedRight_updateImport_iff h.assembled hmoved)
  rw [himport]
  constructor
  · intro hall s heq
    cases heq
    exact hiff.mp (hall _ rfl)
  · intro hall s heq
    cases heq
    exact hiff.mpr (hall _ rfl)

theorem Built.pathsMoved_iff {ctxs : Contexts} (h : Built project config build st ctxs) :
    build.PathsMoved project config ↔ PathsRight project config := by
  have hconf : ∀ {option : PathOption} {before : Option String} {after : Option Import},
      updateOption (updateConfPath option project st.localDeps) before = .ok after →
      (build.MovesOption project before after ↔
        ∀ s, before = some s → ConfRight project (localDirs project config) s) :=
    fun hok => h.assembled.movesOption_iff h.packages (confRight_empty _ _)
      (movedRight_updateConfPath_iff h.assembled fun _ hdir => dots_not_mem_localDirs hdir) hok
  have hhttp := h.assembled.movesOption_iff h.packages (importRight_empty _ _)
    (movedRight_updateImport_iff h.assembled) h.httpApp
  constructor
  · intro hmoved
    exact ⟨h.graphsMoved_iff.mp hmoved.graphs, (hconf h.auth).mp hmoved.auth,
      (hconf h.encryption).mp hmoved.encryption, (hconf h.checkpointer).mp hmoved.checkpointer,
      hhttp.mp hmoved.httpApp⟩
  · intro hright
    exact ⟨h.graphsMoved_iff.mpr hright.graphs, (hconf h.auth).mpr hright.auth,
      (hconf h.encryption).mpr hright.encryption, (hconf h.checkpointer).mpr hright.checkpointer,
      hhttp.mpr hright.httpApp⟩

/-- Local dependencies have their own place in the image, exactly if the numbering, the layouts
    and the contexts tell their base names apart and no import path goes by a base name that
    its directory did not get. -/
theorem pythonConfigToDocker_right_iff (h : pythonConfigToDocker project config = .ok build) :
    (build.PlacedApart ∧ build.ContextsMatch ∧ build.PathsMoved project config) ↔
      (NamesApart project (localDirs project config) ∧ ContextsApart project (localDirs project config) ∧
        PathsRight project config) := by
  obtain ⟨st, ctxs, hbuilt⟩ := built_pythonConfigToDocker h
  have hplaced := hbuilt.assembled.placedApart_iff hbuilt.packages
  constructor
  · intro hall
    have hapart := hplaced.mp hall.1
    exact ⟨hapart, (hbuilt.contextsMatch_iff hapart).mp hall.2.1, hbuilt.pathsMoved_iff.mp hall.2.2⟩
  · intro hall
    exact ⟨hplaced.mpr hall.1, (hbuilt.contextsMatch_iff hall.1).mpr hall.2.1,
      hbuilt.pathsMoved_iff.mpr hall.2.2⟩

end Build

/- Three packages in directories of one name: the second and the third get the same number. -/

def threeTree : Path → Option Entry
  | [] => some (.dir (some ["w"]))
  | ["w"] => some (.dir (some ["a", "b", "c"]))
  | ["w", _] => some (.dir (some ["pkg"]))
  | ["w", _, "pkg"] => some (.dir (some ["pyproject.toml", "main.py"]))
  | _ => some .file

def threeProject : Project where
  configDir := ["w"]
  resolved := by decide
  entry := threeTree

def threeConfig : Config where
  dependencies := ["./a/pkg", "./b/pkg", "./c/pkg"]
  graphs := [("agent", .text "./a/pkg/main.py:graph")]

theorem three_build : ∃ build, pythonConfigToDocker threeProject threeConfig = .ok build ∧
    (⟨["w", "b", "pkg"], .add "./b/pkg", ["deps", "pkg_1"]⟩ : CopyLine) ∈ build.packages ∧
    (⟨["w", "c", "pkg"], .add "./c/pkg", ["deps", "pkg_1"]⟩ : CopyLine) ∈ build.packages :=
  ⟨_, rfl, by decide, by decide⟩

theorem pythonConfigToDocker_right_three : ∃ build,
    pythonConfigToDocker threeProject threeConfig = .ok build ∧
    ((build.PlacedApart ∧ build.ContextsMatch ∧ build.PathsMoved threeProject threeConfig) ↔
      (NamesApart threeProject (localDirs threeProject threeConfig) ∧
        ContextsApart threeProject (localDirs threeProject threeConfig) ∧
        PathsRight threeProject threeConfig)) := by
  obtain ⟨build, hbuild, -⟩ := three_build
  exact ⟨build, hbuild, pythonConfigToDocker_right_iff hbuild⟩

theorem pythonConfigToDocker_not_right : ¬∀ (project : Project) (config : Config) (build : DockerBuild),
    pythonConfigToDocker project config = .ok build →
      build.PlacedApart ∧ build.ContextsMatch ∧ build.PathsMoved project config := by
  intro hall
  obtain ⟨build, hbuild, hsecond, hthird⟩ := three_build
  exact (hall threeProject threeConfig build hbuild).1 _ hsecond _ hthird (by decide) rfl

end LangGraph.Cli
