import LangGraph.Lib.DepthFirst
import LangGraph.Lib.OrdDict

/- The packages of a uv workspace and what they depend on (uv_lock.py).

   Correspondence (source ↔ Lean):
     a parsed TOML value                        ↔ `Value`
     a resolved path                            ↔ `Path`, its parts
     `_normalize_package_name`                  ↔ `normalizePackageName`
     `_parse_dependency_name`                   ↔ `parseDependencyName`
     `_get_dependency_names`                    ↔ `getDependencyNames`
     `UvLockPackage`, its fields set after
       validation                               ↔ `UvLockPackage`, `Validated`
     the last loops of
       `_discover_uv_lock_workspace_packages`   ↔ `readPackages`, `indexPackages`
     `_get_uv_lock_package_enabled`             ↔ `getPackageEnabled`
     `_validate_uv_lock_source_entry`           ↔ `validateSourceEntry`
     `_get_uv_lock_source_entries`              ↔ `getSourceEntries`
     `_validate_uv_lock_package`                ↔ `validatePackage`
   `Host` is what the file system and `str.lower` do. An error carries what its
   message names. A pyproject.toml is named by the directory it is in. -/
namespace LangGraph.Cli

abbrev Path := List String

/-- A value of a TOML file; a number or a date is true or false in a condition. -/
inductive Value where
  | str (s : String)
  | bool (b : Bool)
  | scalar (truthy : Bool)
  | list (items : List Value)
  | dict (entries : List (String × Value))

/-- `bool(value)` -/
def Value.truthy : Value → Bool
  | .str s => s != ""
  | .bool b => b
  | .scalar t => t
  | .list items => !items.isEmpty
  | .dict entries => !entries.isEmpty

inductive UvLockError where
  | unparsableDependency (dependency : String) (pyproject : Path) (package : String)
  | dependenciesNotStrings (pyproject : Path)
  | noWorkspacePackage (source : String) (pyproject projectRoot : Path)
  | workspaceNotBuildable (source : String) (pyproject package : Path)
  | absolutePath (source : String) (pyproject : Path) (pathRef : String)
  | outsideProjectRoot (source : String) (pyproject resolved projectRoot : Path)
  | notWorkspacePackage (source : String) (pyproject resolved projectRoot : Path)
  | nameMismatch (source : String) (pyproject resolved : Path) (package : String)
  | pathNotBuildable (source : String) (pyproject : Path) (package : String) (packagePyproject : Path)
  | uvNotTable (pyproject : Path)
  | packageNotBoolean (pyproject : Path)
  | sourcesNotTable (pyproject : Path)
  | noPackageName (pyproject : Path)
  | duplicateName (pyproject pyproject' : Path) (package : String)
  | emptyPackage
  | noSuchPackage (package : String) (projectRoot : Path) (available : List String)
  | packageRequired (configRoot : Path) (available : List String)
  | emptyRoot
  | noUvLock (projectRoot : Path)
  | noPyproject (projectRoot : Path)
  | targetNotPackage (target : String) (pyproject : Path)
  | notInSubpath (path root : Path)
  deriving DecidableEq, Repr

/-- What the files of a workspace hold: the `[tool.uv.sources]` of the root, and for each
    directory of a package its name, its dependencies and its `[tool.uv]`. -/
structure Discovered where
  rawRootSourceEntries : Value
  packages : List (Path × Option Value × Value × Value)
  nodup : (packages.map Prod.fst).Nodup

/-- `Path.resolve` for a path given relative to a directory, whether a path exists, what is
    read below a root, and `str.lower`. -/
structure Host where
  resolve : Path → String → Path
  present : Path → Bool
  discover : Path → Discovered
  lower : String → String

/- ── Names ─────────────────────────────────────────────────────────────────── -/

/-- `re.sub(r"[-_.]+", "-", name)`; the flag is set inside of a run. -/
def dashRuns : Bool → List Char → List Char
  | _, [] => []
  | inRun, c :: cs =>
    if c = '-' ∨ c = '_' ∨ c = '.' then
      if inRun then dashRuns true cs else '-' :: dashRuns true cs
    else c :: dashRuns false cs

def normalizePackageName (host : Host) (name : String) : String :=
  host.lower (String.ofList (dashRuns false name.toList))

/-- `\s` -/
def isSpace (c : Char) : Bool :=
  let n := c.toNat
  (9 ≤ n ∧ n ≤ 13) ∨ (28 ≤ n ∧ n ≤ 32) ∨ n = 0x85 ∨ n = 0xa0 ∨ n = 0x1680 ∨
    (0x2000 ≤ n ∧ n ≤ 0x200a) ∨ n = 0x2028 ∨ n = 0x2029 ∨ n = 0x202f ∨ n = 0x205f ∨ n = 0x3000

def isNameChar (c : Char) : Bool := c.isAlphanum || c = '.' || c = '_' || c = '-'

def parseDependencyName (host : Host) (dependency packageName : String) (pyproject : Path) :
    Except UvLockError String :=
  match dependency.toList.dropWhile isSpace with
  | c :: cs =>
    if c.isAlphanum then .ok (normalizePackageName host (String.ofList (c :: cs.takeWhile isNameChar)))
    else .error (.unparsableDependency dependency pyproject packageName)
  | [] => .error (.unparsableDependency dependency pyproject packageName)

/-- The strings of a list, if it holds nothing else. -/
def strings : List Value → Option (List String)
  | [] => some []
  | .str s :: rest => (strings rest).map (s :: ·)
  | _ :: _ => none

def getDependencyNames (host : Host) (specs : Value) (packageName : String) (pyproject : Path) :
    Except UvLockError (List String) :=
  match specs with
  | .list items =>
    match strings items with
    | some specs => specs.mapM fun spec => parseDependencyName host spec packageName pyproject
    | none => .error (.dependenciesNotStrings pyproject)
  | _ => .error (.dependenciesNotStrings pyproject)

/- ── Packages ──────────────────────────────────────────────────────────────── -/

structure UvLockPackage where
  name : String
  normalizedName : String
  root : Path
  rawDependencySpecs : Value
  rawUvTool : Value

/-- What validation sets in a package. -/
structure Validated where
  packageEnabled : Bool := false
  dependencyNames : List String := []
  workspaceDependencies : List String := []
  deriving DecidableEq, Repr

structure UvLockWorkspace where
  rawRootSourceEntries : Value
  packagesByName : OrdDict String UvLockPackage
  packagesByRoot : OrdDict Path UvLockPackage

def readPackages (host : Host) : List (Path × Option Value × Value × Value) →
    Except UvLockError (List UvLockPackage)
  | [] => .ok []
  | (root, name, specs, uvTool) :: rest =>
    match name with
    | some (.str name) =>
      if name.toList.all isSpace then .error (.noPackageName root)
      else
        match readPackages host rest with
        | .error e => .error e
        | .ok packages => .ok (⟨name, normalizePackageName host name, root, specs, uvTool⟩ :: packages)
    | _ => .error (.noPackageName root)

/-- The packages under their names and under their roots. -/
def indexPackages : List UvLockPackage → OrdDict String UvLockPackage → OrdDict Path UvLockPackage →
    Except UvLockError (OrdDict String UvLockPackage × OrdDict Path UvLockPackage)
  | [], byName, byRoot => .ok (byName, byRoot)
  | package :: rest, byName, byRoot =>
    match byName.get? package.normalizedName with
    | some existing => .error (.duplicateName existing.root package.root package.name)
    | none =>
      indexPackages rest (byName.set package.normalizedName package) (byRoot.set package.root package)

def workspaceOf (host : Host) (found : Discovered) : Except UvLockError UvLockWorkspace :=
  match readPackages host found.packages with
  | .error e => .error e
  | .ok packages =>
    match indexPackages packages ∅ ∅ with
    | .error e => .error e
    | .ok (byName, byRoot) => .ok ⟨found.rawRootSourceEntries, byName, byRoot⟩

def getPackageEnabled (package : UvLockPackage) : Except UvLockError Bool :=
  match package.rawUvTool with
  | .dict entries =>
    match entries.lookup "package" with
    | none => .ok true
    | some (.bool b) => .ok b
    | some _ => .error (.packageNotBoolean package.root)
  | uvTool => if uvTool.truthy then .error (.uvNotTable package.root) else .ok true

/- ── Sources ───────────────────────────────────────────────────────────────── -/

structure UvLockSourceEntry where
  name : String
  value : Value
  declaredRoot : Path
  pyproject : Path

section
variable (host : Host) (projectRoot : Path) (workspace : UvLockWorkspace)

/-- `source_value.get("workspace") is True` -/
def validateWorkspace (source : String) (pyproject : Path) (entries : List (String × Value)) :
    Except UvLockError (List String) :=
  match entries.lookup "workspace" with
  | some (.bool true) =>
    match workspace.packagesByName.get? (normalizePackageName host source) with
    | none => .error (.noWorkspacePackage source pyproject projectRoot)
    | some package =>
      match getPackageEnabled package with
      | .error e => .error e
      | .ok false => .error (.workspaceNotBuildable source pyproject package.root)
      | .ok true => .ok [package.normalizedName]
  | _ => .ok []

/-- `isinstance(path_ref, str)` -/
def validatePath (source : String) (declaredRoot pyproject : Path) (entries : List (String × Value)) :
    Except UvLockError (List String) :=
  match entries.lookup "path" with
  | some (.str pathRef) =>
    if pathRef.toList.head? = some '/' then .error (.absolutePath source pyproject pathRef)
    else
      let resolved := host.resolve declaredRoot pathRef
      if ¬projectRoot <+: resolved then
        .error (.outsideProjectRoot source pyproject resolved projectRoot)
      else
        match workspace.packagesByRoot.get? resolved with
        | none => .error (.notWorkspacePackage source pyproject resolved projectRoot)
        | some package =>
          if package.normalizedName ≠ normalizePackageName host source then
            .error (.nameMismatch source pyproject resolved package.name)
          else
            match getPackageEnabled package with
            | .error e => .error e
            | .ok false => .error (.pathNotBuildable source pyproject package.name package.root)
            | .ok true => .ok [package.normalizedName]
  | _ => .ok []

mutual
/-- The packages of the workspace that a source names. -/
def validateSourceEntry (source : String) (declaredRoot pyproject : Path) :
    Value → Except UvLockError (List String)
  | .list items => validateItems source declaredRoot pyproject items
  | .dict entries =>
    match validateWorkspace host projectRoot workspace source pyproject entries with
    | .error e => .error e
    | .ok byWorkspace =>
      match validatePath host projectRoot workspace source declaredRoot pyproject entries with
      | .error e => .error e
      | .ok byPath =>
        match validateNested source declaredRoot pyproject entries with
        | .error e => .error e
        | .ok nested => .ok (byWorkspace ++ byPath ++ nested)
  | _ => .ok []

def validateItems (source : String) (declaredRoot pyproject : Path) :
    List Value → Except UvLockError (List String)
  | [] => .ok []
  | item :: rest =>
    match validateSourceEntry source declaredRoot pyproject item with
    | .error e => .error e
    | .ok names =>
      match validateItems source declaredRoot pyproject rest with
      | .error e => .error e
      | .ok names' => .ok (names ++ names')

/-- The entries other than `workspace` and `path`. -/
def validateNested (source : String) (declaredRoot pyproject : Path) :
    List (String × Value) → Except UvLockError (List String)
  | [] => .ok []
  | (key, value) :: rest =>
    if key = "workspace" ∨ key = "path" then validateNested source declaredRoot pyproject rest
    else
      match validateSourceEntry source declaredRoot pyproject value with
      | .error e => .error e
      | .ok names =>
        match validateNested source declaredRoot pyproject rest with
        | .error e => .error e
        | .ok names' => .ok (names ++ names')
end

/-- The sources of the root, with those of the package in their place. -/
def getSourceEntries (package : UvLockPackage) : Except UvLockError (List UvLockSourceEntry) :=
  match workspace.rawRootSourceEntries with
  | .dict rootEntries =>
    let packageSources : Value :=
      match package.rawUvTool with
      | .dict entries => (entries.lookup "sources").getD (.dict [])
      | _ => .dict []
    match packageSources with
    | .dict packageEntries =>
      let sources : OrdDict String UvLockSourceEntry :=
        OrdDict.ofList (rootEntries.map fun e => (e.1, ⟨e.1, e.2, projectRoot, projectRoot⟩))
      .ok (sources.setAll
        (packageEntries.map fun e => (e.1, ⟨e.1, e.2, package.root, package.root⟩))).values
    | _ => .error (.sourcesNotTable package.root)
  | _ => .error (.sourcesNotTable projectRoot)

/-- The names that the sources of the dependencies give, in turn. -/
def validateSources (dependencyNames : List String) :
    List UvLockSourceEntry → Except UvLockError (List String)
  | [] => .ok []
  | entry :: rest =>
    if normalizePackageName host entry.name ∉ dependencyNames then validateSources dependencyNames rest
    else
      match validateSourceEntry host projectRoot workspace entry.name entry.declaredRoot entry.pyproject
          entry.value with
      | .error e => .error e
      | .ok names =>
        match validateSources dependencyNames rest with
        | .error e => .error e
        | .ok names' => .ok (names ++ names')

def validatePackage (package : UvLockPackage) : Except UvLockError Validated :=
  match getDependencyNames host package.rawDependencySpecs package.name package.root with
  | .error e => .error e
  | .ok dependencyNames =>
    match getSourceEntries projectRoot workspace package with
    | .error e => .error e
    | .ok entries =>
      match validateSources host projectRoot workspace dependencyNames entries with
      | .error e => .error e
      | .ok workspaceDependencyNames =>
        match getPackageEnabled package with
        | .error e => .error e
        | .ok packageEnabled =>
          .ok ⟨packageEnabled, dependencyNames,
            dependencyNames.filter fun name => workspaceDependencyNames.contains name⟩

end

/- ── What is in a workspace ────────────────────────────────────────────────── -/

/-- The two dictionaries hold the same packages, each under its name and its root. -/
structure UvLockWorkspace.Indexed (workspace : UvLockWorkspace) : Prop where
  name : ∀ n package, workspace.packagesByName.get? n = some package → package.normalizedName = n
  root : ∀ r package, workspace.packagesByRoot.get? r = some package → package.root = r
  byName : ∀ r package, workspace.packagesByRoot.get? r = some package →
    workspace.packagesByName.get? package.normalizedName = some package
  byRoot : ∀ n package, workspace.packagesByName.get? n = some package →
    workspace.packagesByRoot.get? package.root = some package

theorem roots_readPackages {host : Host} : ∀ {found : List (Path × Option Value × Value × Value)}
    {packages : List UvLockPackage}, readPackages host found = .ok packages →
      packages.map UvLockPackage.root = found.map Prod.fst := by
  intro found
  induction found with
  | nil =>
    intro packages h
    cases h
    rfl
  | cons entry rest ih =>
    intro packages h
    obtain ⟨root, name, specs, uvTool⟩ := entry
    unfold readPackages at h
    split at h
    · split at h
      · cases h
      · split at h
        · cases h
        · next hrest =>
          cases h
          rw [List.map_cons, List.map_cons, ih hrest]
    · cases h

theorem indexed_indexPackages (sources : Value) : ∀ {packages : List UvLockPackage}
    {byName byName' : OrdDict String UvLockPackage} {byRoot byRoot' : OrdDict Path UvLockPackage},
    (UvLockWorkspace.mk sources byName byRoot).Indexed →
      (∀ package ∈ packages, package.root ∉ byRoot.keys) → (packages.map UvLockPackage.root).Nodup →
        indexPackages packages byName byRoot = .ok (byName', byRoot') →
          (UvLockWorkspace.mk sources byName' byRoot').Indexed := by
  intro packages
  induction packages with
  | nil =>
    intro byName byName' byRoot byRoot' hindexed _ _ h
    cases h
    exact hindexed
  | cons package rest ih =>
    intro byName byName' byRoot byRoot' hindexed hfresh hnodup h
    rw [indexPackages] at h
    split at h
    · cases h
    · next hname =>
      rw [List.map_cons, List.nodup_cons] at hnodup
      have hroot : byRoot.get? package.root = none :=
        OrdDict.get?_eq_none_iff.mpr (hfresh package List.mem_cons_self)
      refine ih ⟨?_, ?_, ?_, ?_⟩ ?_ hnodup.2 h
      · intro n p hp
        rw [OrdDict.get?_set] at hp
        split at hp
        · next hn =>
          cases hp
          exact hn.symm
        · exact hindexed.name n p hp
      · intro r p hp
        rw [OrdDict.get?_set] at hp
        split at hp
        · next hr =>
          cases hp
          exact hr.symm
        · exact hindexed.root r p hp
      · intro r p hp
        rw [OrdDict.get?_set] at hp ⊢
        split at hp
        · cases hp
          rw [if_pos rfl]
        · have hold : byName.get? p.normalizedName = some p := hindexed.byName r p hp
          rw [if_neg, hold]
          intro heq
          rw [heq, hname] at hold
          cases hold
      · intro n p hp
        rw [OrdDict.get?_set] at hp ⊢
        split at hp
        · cases hp
          rw [if_pos rfl]
        · have hold : byRoot.get? p.root = some p := hindexed.byRoot n p hp
          rw [if_neg, hold]
          intro heq
          rw [heq, hroot] at hold
          cases hold
      · intro p hp
        rw [OrdDict.mem_keys_set]
        intro hmem
        cases hmem with
        | inl heq => exact hnodup.1 (heq ▸ List.mem_map_of_mem hp)
        | inr hold => exact hfresh p (List.mem_cons_of_mem package hp) hold

theorem indexed_workspaceOf {host : Host} {found : Discovered} {workspace : UvLockWorkspace}
    (h : workspaceOf host found = .ok workspace) : workspace.Indexed := by
  rw [workspaceOf] at h
  split at h
  · cases h
  · next packages hread =>
    split at h
    · cases h
    · next byName byRoot hindex =>
      cases h
      have hempty : (UvLockWorkspace.mk found.rawRootSourceEntries ∅ ∅).Indexed := by
        refine ⟨?_, ?_, ?_, ?_⟩ <;> intro _ _ h <;> cases h
      apply indexed_indexPackages _ hempty _ _ hindex
      · intro package _ hmem
        cases hmem
      · rw [roots_readPackages hread]
        exact found.nodup

section
variable {host : Host} {projectRoot : Path} {workspace : UvLockWorkspace}

/-- The names that validation finds are names of packages. -/
def Known (workspace : UvLockWorkspace) (names : List String) : Prop :=
  ∀ name ∈ names, name ∈ workspace.packagesByName.keys

theorem Known.append {names names' : List String} (h : Known workspace names)
    (h' : Known workspace names') : Known workspace (names ++ names') := by
  intro name hname
  cases List.mem_append.mp hname with
  | inl hname => exact h name hname
  | inr hname => exact h' name hname

theorem known_nil : Known workspace [] := fun _ hname => by cases hname

theorem known_singleton {package : UvLockPackage}
    (h : workspace.packagesByName.get? package.normalizedName = some package) :
    Known workspace [package.normalizedName] := by
  intro name hname
  rw [List.mem_singleton.mp hname]
  exact OrdDict.mem_keys_iff.mpr ⟨package, h⟩

theorem known_validateWorkspace (hindexed : workspace.Indexed) {source : String} {pyproject : Path}
    {entries : List (String × Value)} {names : List String}
    (h : validateWorkspace host projectRoot workspace source pyproject entries = .ok names) :
    Known workspace names := by
  rw [validateWorkspace] at h
  split at h
  · split at h
    · cases h
    · next package hpackage =>
      split at h <;> cases h
      apply known_singleton
      rw [hindexed.name _ package hpackage, hpackage]
  · cases h
    exact known_nil

theorem known_validatePath (hindexed : workspace.Indexed) {source : String}
    {declaredRoot pyproject : Path} {entries : List (String × Value)} {names : List String}
    (h : validatePath host projectRoot workspace source declaredRoot pyproject entries = .ok names) :
    Known workspace names := by
  rw [validatePath] at h
  split at h
  · split at h
    · cases h
    · dsimp only at h
      split at h
      · cases h
      · split at h
        · cases h
        · next package hpackage =>
          split at h
          · cases h
          · split at h <;> cases h
            exact known_singleton (hindexed.byName _ package hpackage)
  · cases h
    exact known_nil

mutual
theorem known_validateSourceEntry (hindexed : workspace.Indexed) {source : String}
    {declaredRoot pyproject : Path} : ∀ (value : Value) {names : List String},
    validateSourceEntry host projectRoot workspace source declaredRoot pyproject value = .ok names →
      Known workspace names
  | .list items, names, h => by
    rw [validateSourceEntry] at h
    exact known_validateItems hindexed items h
  | .dict entries, names, h => by
    rw [validateSourceEntry] at h
    split at h
    · cases h
    · next hworkspace =>
      split at h
      · cases h
      · next hpath =>
        split at h
        · cases h
        · next hnested =>
          cases h
          exact ((known_validateWorkspace hindexed hworkspace).append
            (known_validatePath hindexed hpath)).append (known_validateNested hindexed entries hnested)
  | .str _, names, h => by
    rw [validateSourceEntry] at h
    · cases h
      exact known_nil
    all_goals (intro _ heq; cases heq)
  | .bool _, names, h => by
    rw [validateSourceEntry] at h
    · cases h
      exact known_nil
    all_goals (intro _ heq; cases heq)
  | .scalar _, names, h => by
    rw [validateSourceEntry] at h
    · cases h
      exact known_nil
    all_goals (intro _ heq; cases heq)

theorem known_validateItems (hindexed : workspace.Indexed) {source : String}
    {declaredRoot pyproject : Path} : ∀ (items : List Value) {names : List String},
    validateItems host projectRoot workspace source declaredRoot pyproject items = .ok names →
      Known workspace names
  | [], names, h => by
    rw [validateItems] at h
    cases h
    exact known_nil
  | item :: rest, names, h => by
    rw [validateItems] at h
    split at h
    · cases h
    · next hitem =>
      split at h
      · cases h
      · next hrest =>
        cases h
        exact (known_validateSourceEntry hindexed item hitem).append
          (known_validateItems hindexed rest hrest)

theorem known_validateNested (hindexed : workspace.Indexed) {source : String}
    {declaredRoot pyproject : Path} : ∀ (entries : List (String × Value)) {names : List String},
    validateNested host projectRoot workspace source declaredRoot pyproject entries = .ok names →
      Known workspace names
  | [], names, h => by
    rw [validateNested] at h
    cases h
    exact known_nil
  | (key, value) :: rest, names, h => by
    rw [validateNested] at h
    split at h
    · exact known_validateNested hindexed rest h
    · split at h
      · cases h
      · next hvalue =>
        split at h
        · cases h
        · next hrest =>
          cases h
          exact (known_validateSourceEntry hindexed value hvalue).append
            (known_validateNested hindexed rest hrest)
end

theorem known_validateSources (hindexed : workspace.Indexed) {dependencyNames : List String} :
    ∀ {entries : List UvLockSourceEntry} {names : List String},
      validateSources host projectRoot workspace dependencyNames entries = .ok names →
        Known workspace names := by
  intro entries
  induction entries with
  | nil =>
    intro names h
    cases h
    exact known_nil
  | cons entry rest ih =>
    intro names h
    rw [validateSources] at h
    split at h
    · exact ih h
    · split at h
      · cases h
      · next hentry =>
        split at h
        · cases h
        · next hrest =>
          cases h
          exact (known_validateSourceEntry hindexed entry.value hentry).append (ih hrest)

theorem known_validatePackage (hindexed : workspace.Indexed) {package : UvLockPackage}
    {fields : Validated} (h : validatePackage host projectRoot workspace package = .ok fields) :
    Known workspace fields.workspaceDependencies := by
  rw [validatePackage] at h
  split at h
  · cases h
  · split at h
    · cases h
    · split at h
      · cases h
      · next hsources =>
        split at h
        · cases h
        · cases h
          intro name hname
          have hmem := (List.mem_filter.mp hname).2
          exact known_validateSources hindexed hsources name (List.contains_iff_mem.mp hmem)

end
end LangGraph.Cli
