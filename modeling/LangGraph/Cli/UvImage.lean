import LangGraph.Cli.UvPlan
import LangGraph.Lib.FileTree
import LangGraph.Lib.JoinedText
import Mathlib.Data.List.DropRight
import Mathlib.Data.List.Infix

/- What of a uv workspace is copied to the image, and where import paths say that it is.

   Correspondence (source ↔ Lean), uv_lock.py and _ignore.py:
     `_is_always_excluded`                                  ↔ `isAlwaysExcluded`
     `_NegatedDockerignoreHints`, `requires_dir_walk`       ↔ `NegatedDockerignoreHints`, `requiresDirWalk`
     the loop of `_build_dockerignore_negation_hints`       ↔ `addNegation`
     the directory below `plan.project_root`, its
       `.dockerignore`, and `ignore_spec.match_file`        ↔ `BuildContext`
     `iter_entries` of `_uv_lock_package_copy_items`        ↔ `entryChoice`, `FileTree.select`
     `_uv_lock_package_copy_items`                          ↔ `packageCopyItems`
     the copy items of a plan                               ↔ `copyItems`
   A path in the context is the list of its parts below the project root.
   `resolved_copied_iff`: a file that an import path is rewritten for is in the image,
   exactly unless the walk passes by an ignored directory around it. -/
namespace LangGraph.Cli

open FileTree

/- ── Ignore rules ──────────────────────────────────────────────────────────── -/

/-- `_ALWAYS_EXCLUDE_NAMES` -/
def alwaysExcludeNames : List String :=
  ["__pycache__", ".git", ".venv", "venv", "node_modules", ".tox", ".mypy_cache"]

def isAlwaysExcluded (path : Path) (isDir : Bool) : Bool :=
  (if isDir then path else path.dropLast).any fun part => part ∈ alwaysExcludeNames

structure NegatedDockerignoreHints where
  exactDirs : List Path := []
  wildcardPrefixes : List Path := []
  recurseAll : Bool := false
  deriving DecidableEq

def NegatedDockerignoreHints.requiresDirWalk (hints : NegatedDockerignoreHints) (path : Path) : Bool :=
  hints.recurseAll || path ∈ hints.exactDirs ||
    hints.wildcardPrefixes.any fun known => path <+: known || known <+: path

/-- `str.strip` -/
def strip (s : List Char) : List Char := (s.dropWhile isSpace).rdropWhile isSpace

/-- `while pattern.startswith("./")` -/
def dropDotSlash : List Char → List Char
  | '.' :: '/' :: rest => dropDotSlash rest
  | pattern => pattern

/-- The parts of the pattern of a line that starts with an exclamation mark. -/
def negationParts (rawLine : String) : Option Path :=
  match strip rawLine.toList with
  | '!' :: pattern =>
    let pattern := (dropDotSlash (pattern.dropWhile (· == '/'))).rdropWhile (· == '/')
    some (((pattern.splitOn '/').map String.ofList).filter fun part => part != "" && part != ".")
  | _ => none

/-- `_GLOB_CHARS` -/
def hasGlob (part : String) : Bool := part.toList.any fun c => c ∈ ['*', '?', '[']

/-- The body of the loop over the lines of the file. -/
def addNegation (hints : NegatedDockerignoreHints) (rawLine : String) : NegatedDockerignoreHints :=
  match negationParts rawLine with
  | none => hints
  | some parts =>
    if parts = [] then { hints with recurseAll := true }
    else if parts.any hasGlob then
      let literalParts := parts.takeWhile fun part => !hasGlob part
      if literalParts = [] then { hints with recurseAll := true }
      else { hints with wildcardPrefixes := hints.wildcardPrefixes ++ [literalParts] }
    else
      -- `exact_dirs`: each directory above the last part
      { hints with exactDirs := hints.exactDirs ++ parts.dropLast.inits.tail }

def buildDockerignoreNegationHints (dockerignore : Option (List String)) : NegatedDockerignoreHints :=
  (dockerignore.getD []).foldl addNegation {}

/-- What is below the project root, the lines of its `.dockerignore` if it has one, and what
    the ignore rules say of a path that is written out, with a slash after a directory. -/
structure BuildContext where
  tree : FileTree String
  isDir : tree.isDir = true
  dockerignore : Option (List String)
  matchFile : String → Bool

def BuildContext.ignored (ctx : BuildContext) (path : Path) (isDir : Bool) : Bool :=
  ctx.matchFile (JoinedText.join '/' path ++ if isDir then "/" else "")

/-- The rules take the file out of the build context. -/
def BuildContext.excludes (ctx : BuildContext) (file : Path) : Bool :=
  isAlwaysExcluded file false || ctx.ignored file false

/- ── Copy items ────────────────────────────────────────────────────────────── -/

/-- `workspace_member_roots` -/
def UvLockPlan.memberRoots (plan : UvLockPlan) : List Path :=
  plan.allWorkspaceRoots.filter fun root => root ≠ plan.projectRoot

/-- `is_workspace_parent`, for a directory. -/
def UvLockPlan.isWorkspaceParent (plan : UvLockPlan) (path : Path) : Bool :=
  plan.memberRoots.any fun root => plan.projectRoot ++ path <+: root && plan.projectRoot ++ path ≠ root

/-- What `iter_entries` does with a child. -/
def entryChoice (ctx : BuildContext) (plan : UvLockPlan) (path : Path) (isDir : Bool) : Choice :=
  if plan.projectRoot ++ path ∈ plan.memberRoots then .skip
  else if isAlwaysExcluded path isDir then .skip
  else if isDir && plan.isWorkspaceParent path then .enter
  else if isDir && ctx.ignored path isDir &&
      (buildDockerignoreNegationHints ctx.dockerignore).requiresDirWalk path then .enter
  else if ctx.ignored path isDir then .skip
  else .take

inductive CopyError where
  | notInSubpath (path root : Path)
  | memberExcluded (package : String) (relativeRoot : Path)
  | noContainerRoot (root : Path)
  deriving DecidableEq

def containerRootOf (plan : UvLockPlan) (root : Path) : Except CopyError Path :=
  match plan.containerRoots.get? root with
  | some containerRoot => .ok containerRoot
  | none => .error (.noContainerRoot root)

def packageCopyItems (ctx : BuildContext) (plan : UvLockPlan) (package : UvLockPackage) :
    Except CopyError (List (Path × Path)) :=
  if package.root ≠ plan.projectRoot then
    if ¬plan.projectRoot <+: package.root then .error (.notInSubpath package.root plan.projectRoot)
    else
      let relativeRoot := package.root.drop plan.projectRoot.length
      if isAlwaysExcluded relativeRoot true || ctx.ignored relativeRoot true then
        .error (.memberExcluded package.name relativeRoot)
      else (containerRootOf plan package.root).map fun containerRoot => [(relativeRoot, containerRoot)]
  else
    (containerRootOf plan package.root).map fun rootContainer =>
      (select (entryChoice ctx plan) ctx.tree []).map fun path => (path, rootContainer ++ path)

/-- The loop of the Dockerfile over the packages of a plan. -/
def copyItemsOf (ctx : BuildContext) (plan : UvLockPlan) :
    List UvLockPackage → Except CopyError (List (Path × Path))
  | [] => .ok []
  | package :: rest =>
    match packageCopyItems ctx plan package with
    | .error e => .error e
    | .ok items =>
      match copyItemsOf ctx plan rest with
      | .error e => .error e
      | .ok more => .ok (items ++ more)

def copyItems (ctx : BuildContext) (plan : UvLockPlan) : Except CopyError (List (Path × Path)) :=
  copyItemsOf ctx plan plan.installOrder

/- ── Where the packages of a plan go ───────────────────────────────────────── -/

theorem containerRootsOf_ok {projectRoot : Path} : ∀ {packages : List UvLockPackage}
    {roots : List (Path × Path)}, containerRootsOf projectRoot packages = .ok roots →
      roots = packages.map (fun p => (p.root, containerWorkspaceRoot ++ p.root.drop projectRoot.length)) ∧
        ∀ p ∈ packages, projectRoot <+: p.root := by
  intro packages
  induction packages with
  | nil =>
    intro roots h
    cases h
    exact ⟨rfl, fun p hp => by cases hp⟩
  | cons package rest ih =>
    intro roots h
    rw [containerRootsOf, containerRootForPackage] at h
    by_cases hroot : projectRoot <+: package.root
    · rw [if_pos hroot] at h
      dsimp only at h
      split at h
      · cases h
      · next hrest =>
        cases h
        obtain ⟨rfl, hall⟩ := ih hrest
        exact ⟨rfl, List.forall_mem_cons.mpr ⟨hroot, hall⟩⟩
    · rw [if_neg hroot] at h
      cases h

section Plan
variable {host : Host} {workspace : UvLockWorkspace} {plan : UvLockPlan}

theorem PlanOf.within (h : PlanOf host workspace plan) :
    ∀ p ∈ plan.installOrder, plan.projectRoot <+: p.root := by
  obtain ⟨roots, hroots, -⟩ := h.roots
  exact (containerRootsOf_ok hroots).2

/-- A directory has a container root if it is that of an installed package. -/
theorem PlanOf.get?_containerRoots (h : PlanOf host workspace plan) {root container : Path} :
    plan.containerRoots.get? root = some container ↔
      (∃ p ∈ plan.installOrder, p.root = root) ∧
        container = containerWorkspaceRoot ++ root.drop plan.projectRoot.length := by
  obtain ⟨roots, hroots, hdict⟩ := h.roots
  obtain ⟨rfl, -⟩ := containerRootsOf_ok hroots
  rw [hdict, OrdDict.get?_ofList_eq_some_iff]
  · constructor
    · intro hmem
      obtain ⟨p, hp, he⟩ := List.mem_map.mp hmem
      cases he
      exact ⟨⟨p, hp, rfl⟩, rfl⟩
    · intro hmem
      obtain ⟨⟨p, hp, rfl⟩, rfl⟩ := hmem
      exact List.mem_map.mpr ⟨p, hp, rfl⟩
  · -- the container root of a package is decided by the package's root
    intro e he e' he' hroot
    obtain ⟨p, -, rfl⟩ := List.mem_map.mp he
    obtain ⟨p', -, rfl⟩ := List.mem_map.mp he'
    have hroot : p.root = p'.root := hroot
    rw [hroot]

theorem PlanOf.contains_iff (h : PlanOf host workspace plan) {root : Path} :
    plan.containerRoots.contains root = true ↔ ∃ p ∈ plan.installOrder, p.root = root := by
  rw [OrdDict.contains_iff, OrdDict.mem_keys_iff]
  constructor
  · intro ⟨container, hget⟩
    exact (h.get?_containerRoots.mp hget).1
  · intro hp
    exact ⟨_, h.get?_containerRoots.mpr ⟨hp, rfl⟩⟩

/-- An installed package is one of the workspace. -/
theorem PlanOf.installed_mem (h : PlanOf host workspace plan) :
    ∀ p ∈ plan.installOrder, p.root ∈ plan.allWorkspaceRoots := by
  obtain ⟨t, hsound, hinstall, -⟩ := h.order
  intro p hp
  rw [h.members]
  exact List.mem_map_of_mem (OrdDict.mem_values_iff.mpr ⟨_, hsound.installed p (hinstall ▸ hp)⟩)

/- ── Resolution ────────────────────────────────────────────────────────────── -/

theorem resolveIn_some {hostPath c : Path} : ∀ {roots : List (Path × Path)},
    resolveIn hostPath plan roots = some c → ∃ e ∈ roots, e.1 <+: hostPath ∧
      pathInUnrelatedMember hostPath e.1 plan = false ∧ c = e.2 ++ hostPath.drop e.1.length := by
  intro roots
  induction roots with
  | nil =>
    intro h
    cases h
  | cons e rest ih =>
    intro h
    obtain ⟨packageRoot, containerRoot⟩ := e
    rw [resolveIn] at h
    by_cases hroot : packageRoot <+: hostPath
    · rw [if_pos hroot] at h
      by_cases hmember : pathInUnrelatedMember hostPath packageRoot plan = true
      · rw [if_pos hmember] at h
        obtain ⟨e, he, hrest⟩ := ih h
        exact ⟨e, List.mem_cons_of_mem _ he, hrest⟩
      · rw [if_neg hmember] at h
        cases h
        exact ⟨_, List.mem_cons_self, hroot, Bool.eq_false_iff.mpr hmember, rfl⟩
    · rw [if_neg hroot] at h
      obtain ⟨e, he, hrest⟩ := ih h
      exact ⟨e, List.mem_cons_of_mem _ he, hrest⟩

/-- A path that resolves is in an installed package with no other member between, and goes to
    its place below the root of the workspace in the image. -/
theorem PlanOf.resolve_some (h : PlanOf host workspace plan) {hostPath c : Path}
    (hc : resolveContainerPath hostPath plan = some c) : ∃ file, hostPath = plan.projectRoot ++ file ∧
      c = containerWorkspaceRoot ++ file ∧ ∃ p ∈ plan.installOrder, p.root <+: hostPath ∧
        pathInUnrelatedMember hostPath p.root plan = false := by
  obtain ⟨e, he, hwithin, hmember, rfl⟩ := resolveIn_some hc
  have hget := OrdDict.get?_eq_some_iff.mpr (SortBy.mem_sortBy.mp he)
  obtain ⟨⟨p, hp, hroot⟩, hcontainer⟩ := h.get?_containerRoots.mp hget
  rw [← hroot] at hwithin hmember
  obtain ⟨between, hbetween⟩ := h.within p hp
  obtain ⟨rest, hrest⟩ := hwithin
  refine ⟨between ++ rest, by rw [← hrest, ← hbetween, List.append_assoc], ?_, p, hp, ⟨rest, hrest⟩, hmember⟩
  rw [hcontainer, ← hroot, ← hrest, ← hbetween, List.drop_left, List.append_assoc]
  congr 2
  rw [List.drop_left]

/-- Nothing in a member that is not installed resolves. -/
theorem PlanOf.resolve_none (h : PlanOf host workspace plan) {hostPath member : Path}
    (hmember : member ∈ plan.allWorkspaceRoots) (hcontains : plan.containerRoots.contains member = false)
    (hin : member <+: hostPath)
    (hdeepest : ∀ root ∈ plan.allWorkspaceRoots, root <+: hostPath → root <+: member) :
    resolveContainerPath hostPath plan = none := by
  cases hc : resolveContainerPath hostPath plan with
  | none => rfl
  | some c =>
    obtain ⟨file, -, -, p, hp, hwithin, hunrelated⟩ := h.resolve_some hc
    have hroot := hdeepest p.root (h.installed_mem p hp) hwithin
    have hne : ¬member <+: p.root := by
      intro hback
      have heq := hback.eq_of_length (le_antisymm hback.length_le hroot.length_le)
      rw [heq, Bool.eq_false_iff] at hcontains
      exact hcontains (h.contains_iff.mpr ⟨p, hp, rfl⟩)
    have hany : pathInUnrelatedMember hostPath p.root plan = true := by
      rw [pathInUnrelatedMember, List.any_eq_true]
      exact ⟨member, hmember, by simp [hne, hin, hcontains]⟩
    rw [hany] at hunrelated
    cases hunrelated

/- ── What is copied ────────────────────────────────────────────────────────── -/

theorem mem_copyItemsOf {ctx : BuildContext} : ∀ {packages : List UvLockPackage}
    {items : List (Path × Path)}, copyItemsOf ctx plan packages = .ok items →
      (∀ p ∈ packages, ∃ part, packageCopyItems ctx plan p = .ok part ∧ part ⊆ items) ∧
        ∀ item ∈ items, ∃ p ∈ packages, ∃ part, packageCopyItems ctx plan p = .ok part ∧ item ∈ part := by
  intro packages
  induction packages with
  | nil =>
    intro items h
    cases h
    exact ⟨fun p hp => (nomatch hp), fun item hitem => (nomatch hitem)⟩
  | cons package rest ih =>
    intro items h
    rw [copyItemsOf] at h
    split at h
    · cases h
    · next part hpart =>
      split at h
      · cases h
      · next more hmore =>
        cases h
        obtain ⟨hall, hfrom⟩ := ih hmore
        constructor
        · intro p hp
          cases List.mem_cons.mp hp with
          | inl hp =>
            subst hp
            exact ⟨part, hpart, List.subset_append_left part more⟩
          | inr hp =>
            obtain ⟨part', hpart', hsub⟩ := hall p hp
            exact ⟨part', hpart', List.subset_append_of_subset_right part hsub⟩
        · intro item hitem
          cases List.mem_append.mp hitem with
          | inl hitem => exact ⟨package, List.mem_cons_self, part, hpart, hitem⟩
          | inr hitem =>
            obtain ⟨p, hp, hrest⟩ := hfrom item hitem
            exact ⟨p, List.mem_cons_of_mem package hp, hrest⟩

/-- A package is copied whole, or by the walk if it is at the root of the project. -/
theorem PlanOf.packageCopyItems_ok (h : PlanOf host workspace plan) {ctx : BuildContext}
    {p : UvLockPackage} (hp : p ∈ plan.installOrder) {part : List (Path × Path)}
    (hpart : packageCopyItems ctx plan p = .ok part) :
    part = (if p.root = plan.projectRoot then select (entryChoice ctx plan) ctx.tree []
      else [p.root.drop plan.projectRoot.length]).map fun path => (path, containerWorkspaceRoot ++ path) := by
  have hget := h.get?_containerRoots.mpr ⟨⟨p, hp, rfl⟩, rfl⟩
  rw [packageCopyItems, containerRootOf, hget] at hpart
  by_cases hroot : p.root = plan.projectRoot
  · rw [if_neg (not_not_intro hroot)] at hpart
    cases hpart
    rw [if_pos hroot, hroot, List.drop_length, List.append_nil]
  · rw [if_pos hroot, if_neg (not_not_intro (h.within p hp))] at hpart
    dsimp only at hpart
    split at hpart
    · cases hpart
    · cases hpart
      rw [if_neg hroot]
      rfl

/-- What is copied, and to where: the roots of the members, and what the walk picks if the
    package at the root of the project is installed. -/
theorem PlanOf.mem_copyItems (h : PlanOf host workspace plan) {ctx : BuildContext}
    {items : List (Path × Path)} (hitems : copyItems ctx plan = .ok items) {source destination : Path} :
    (source, destination) ∈ items ↔ destination = containerWorkspaceRoot ++ source ∧
      ∃ p ∈ plan.installOrder, if p.root = plan.projectRoot then
          source ∈ select (entryChoice ctx plan) ctx.tree []
        else source = p.root.drop plan.projectRoot.length := by
  obtain ⟨hall, hfrom⟩ := mem_copyItemsOf hitems
  have hpart : ∀ p ∈ plan.installOrder, ∀ part, packageCopyItems ctx plan p = .ok part →
      ((source, destination) ∈ part ↔ destination = containerWorkspaceRoot ++ source ∧
        if p.root = plan.projectRoot then source ∈ select (entryChoice ctx plan) ctx.tree []
        else source = p.root.drop plan.projectRoot.length) := by
    intro p hp part hpart
    have hsource : (if p.root = plan.projectRoot then source ∈ select (entryChoice ctx plan) ctx.tree []
        else source = p.root.drop plan.projectRoot.length) ↔
        source ∈ (if p.root = plan.projectRoot then select (entryChoice ctx plan) ctx.tree []
          else [p.root.drop plan.projectRoot.length]) := by
      split
      · exact Iff.rfl
      · exact List.mem_singleton.symm
    rw [h.packageCopyItems_ok hp hpart, List.mem_map, hsource]
    constructor
    · intro ⟨path, hpath, he⟩
      cases he
      exact ⟨rfl, hpath⟩
    · intro ⟨hdestination, hpath⟩
      exact ⟨source, hpath, by rw [hdestination]⟩
  constructor
  · intro hitem
    obtain ⟨p, hp, part, hok, hmem⟩ := hfrom _ hitem
    obtain ⟨hdestination, hsource⟩ := (hpart p hp part hok).mp hmem
    exact ⟨hdestination, p, hp, hsource⟩
  · intro ⟨hdestination, p, hp, hsource⟩
    obtain ⟨part, hok, hsub⟩ := hall p hp
    exact hsub ((hpart p hp part hok).mpr ⟨hdestination, hsource⟩)

/-- The file belongs to the package at the root of the project, not to one in a directory. -/
def UvLockPlan.OfRootPackage (plan : UvLockPlan) (file : Path) : Prop :=
  ∀ p ∈ plan.installOrder, p.root <+: plan.projectRoot ++ file → p.root = plan.projectRoot

/-- The walk passes by the directory: it is ignored, has no member below it, and the hints do
    not ask for it. -/
def PassedBy (ctx : BuildContext) (plan : UvLockPlan) (dir : Path) : Prop :=
  ctx.ignored dir true = true ∧ plan.isWorkspaceParent dir = false ∧
    (buildDockerignoreNegationHints ctx.dockerignore).requiresDirWalk dir = false

/-- The directory is copied with all that is in it. -/
def CopiedWhole (ctx : BuildContext) (plan : UvLockPlan) (dir : Path) : Prop :=
  ctx.ignored dir true = false ∧ plan.isWorkspaceParent dir = false

/-- No member is met on the way to a file of the root package. -/
theorem PlanOf.not_mem_memberRoots (h : PlanOf host workspace plan) {file : Path}
    (hroot : plan.OfRootPackage file) {p : UvLockPackage} (hp : p ∈ plan.installOrder)
    (hwithin : p.root <+: plan.projectRoot ++ file)
    (hunrelated : pathInUnrelatedMember (plan.projectRoot ++ file) p.root plan = false) {path : Path}
    (hpath : path <+: file) : plan.projectRoot ++ path ∉ plan.memberRoots := by
  intro hmem
  obtain ⟨hmem, hne⟩ := List.mem_filter.mp hmem
  have hin : plan.projectRoot ++ path <+: plan.projectRoot ++ file :=
    (List.prefix_append_right_inj _).mpr hpath
  have hnot : plan.containerRoots.contains (plan.projectRoot ++ path) = false := by
    rw [Bool.eq_false_iff]
    intro hcontains
    obtain ⟨q, hq, hqroot⟩ := h.contains_iff.mp hcontains
    have := hroot q hq (hqroot ▸ hin)
    rw [hqroot] at this
    exact of_decide_eq_true hne this
  have hback : ¬plan.projectRoot ++ path <+: p.root := by
    rw [hroot p hp hwithin]
    intro hback
    exact of_decide_eq_true hne
      (hback.eq_of_length (le_antisymm hback.length_le (List.prefix_append _ _).length_le))
  have hany : pathInUnrelatedMember (plan.projectRoot ++ file) p.root plan = true := by
    rw [pathInUnrelatedMember, List.any_eq_true]
    exact ⟨_, hmem, by simp only [hback, hin, hnot]; rfl⟩
  rw [hany] at hunrelated
  cases hunrelated

theorem isAlwaysExcluded_above {file dir : Path} (h : isAlwaysExcluded file false = false)
    (hdir : Above dir file) : isAlwaysExcluded dir true = false := by
  obtain ⟨-, hwithin, hne⟩ := hdir
  obtain ⟨rest, rfl⟩ := hwithin
  have hrest : rest ≠ [] := fun hnil => hne (by rw [hnil, List.append_nil])
  have hsub : dir <+: (dir ++ rest).dropLast := by
    rw [List.dropLast_append_of_ne_nil hrest]
    exact List.prefix_append dir _
  simp only [isAlwaysExcluded, if_true, Bool.false_eq_true, if_false, List.any_eq_false] at h ⊢
  exact fun part hpart => h part (hsub.subset hpart)

/-- What the walk does on the way to a file of the root package. -/
theorem PlanOf.entryChoice_above (h : PlanOf host workspace plan) {ctx : BuildContext} {file : Path}
    (hroot : plan.OfRootPackage file) {p : UvLockPackage} (hp : p ∈ plan.installOrder)
    (hwithin : p.root <+: plan.projectRoot ++ file)
    (hunrelated : pathInUnrelatedMember (plan.projectRoot ++ file) p.root plan = false)
    (hexcluded : ctx.excludes file = false) :
    entryChoice ctx plan file false = .take ∧ ∀ dir, Above dir file →
      (entryChoice ctx plan dir true = .skip ↔ PassedBy ctx plan dir) ∧
      (entryChoice ctx plan dir true = .take ↔ CopiedWhole ctx plan dir) := by
  obtain ⟨halways, hignored⟩ := Bool.or_eq_false_iff.mp hexcluded
  have hmember : ∀ {path}, path <+: file → plan.projectRoot ++ path ∉ plan.memberRoots :=
    h.not_mem_memberRoots hroot hp hwithin hunrelated
  constructor
  · simp [entryChoice, hmember List.prefix_rfl, halways, hignored]
  · intro dir hdir
    simp only [entryChoice, if_neg (hmember hdir.2.1), isAlwaysExcluded_above halways hdir,
      Bool.false_eq_true, if_false, Bool.true_and]
    unfold PassedBy CopiedWhole
    cases plan.isWorkspaceParent dir <;> cases ctx.ignored dir true <;>
      cases (buildDockerignoreNegationHints ctx.dockerignore).requiresDirWalk dir <;> simp

/-- A file that resolves, that is there and that the ignore rules leave in is copied to where
    it resolves, by itself or with a directory around it; exactly unless it belongs to the root
    package and the walk passes by an ignored directory around it, with none copied whole
    before. No file of a member that is not installed resolves. -/
theorem resolved_copied_iff {configRoot : Path} {source : UvSource}
    (h : planUvLockWorkspace host configRoot source = .ok plan) (ctx : BuildContext)
    {items : List (Path × Path)} (hitems : copyItems ctx plan = .ok items) :
    (∀ hostPath c, resolveContainerPath hostPath plan = some c →
      ∃ file, hostPath = plan.projectRoot ++ file ∧
        (ctx.tree.hasFile file = true → ctx.excludes file = false →
          ((∃ item ∈ items, ∃ rest, file = item.1 ++ rest ∧ c = item.2 ++ rest) ↔
            (plan.OfRootPackage file → ∀ dir, Above dir file → PassedBy ctx plan dir →
              ∃ dir', Above dir' dir ∧ CopiedWhole ctx plan dir')))) ∧
    ∀ hostPath, ∀ member ∈ plan.allWorkspaceRoots, plan.containerRoots.contains member = false →
      member <+: hostPath → (∀ root ∈ plan.allWorkspaceRoots, root <+: hostPath → root <+: member) →
        resolveContainerPath hostPath plan = none := by
  obtain ⟨workspace, -, hplan⟩ := planOf_planUvLockWorkspace h
  refine ⟨fun hostPath c hc => ?_, fun hostPath member hmember hout hin hdeepest =>
    hplan.resolve_none hmember hout hin hdeepest⟩
  obtain ⟨file, rfl, rfl, p, hp, hwithin, hunrelated⟩ := hplan.resolve_some hc
  refine ⟨file, rfl, fun hfile hexcluded => ?_⟩
  -- an item's destination is always the item's own place below the workspace's root
  have hcovered : (∃ item ∈ items, ∃ rest, file = item.1 ++ rest ∧
      containerWorkspaceRoot ++ file = item.2 ++ rest) ↔
        ∃ q ∈ plan.installOrder, if q.root = plan.projectRoot then
            ∃ s ∈ select (entryChoice ctx plan) ctx.tree [], s <+: file
          else q.root <+: plan.projectRoot ++ file := by
    constructor
    · intro ⟨item, hitem, rest, hfile, hc⟩
      obtain ⟨-, q, hq, hsource⟩ := (hplan.mem_copyItems hitems).mp hitem
      refine ⟨q, hq, ?_⟩
      split at hsource
      · next hroot =>
        rw [if_pos hroot]
        exact ⟨item.1, hsource, rest, hfile.symm⟩
      · next hroot =>
        rw [if_neg hroot, hfile, hsource]
        obtain ⟨below, hbelow⟩ := hplan.within q hq
        rw [← hbelow, List.drop_left, ← List.append_assoc]
        exact List.prefix_append _ rest
    · intro ⟨q, hq, hin⟩
      by_cases hroot : q.root = plan.projectRoot
      · rw [if_pos hroot] at hin
        obtain ⟨s, hs, rest, hrest⟩ := hin
        exact ⟨(s, _), (hplan.mem_copyItems hitems).mpr ⟨rfl, q, hq, by rw [if_pos hroot]; exact hs⟩,
          rest, hrest.symm, by rw [List.append_assoc, hrest]⟩
      · rw [if_neg hroot] at hin
        obtain ⟨below, hbelow⟩ := hplan.within q hq
        rw [← hbelow, List.prefix_append_right_inj] at hin
        obtain ⟨rest, hrest⟩ := hin
        refine ⟨(below, _), (hplan.mem_copyItems hitems).mpr ⟨rfl, q, hq, ?_⟩, rest, hrest.symm,
          by rw [List.append_assoc, hrest]⟩
        rw [if_neg hroot, ← hbelow, List.drop_left]
  rw [hcovered]
  by_cases hroot : plan.OfRootPackage file
  · have hne : file ≠ [] := by
      intro hnil
      have hdir := isDir_of_hasFile hfile
      rw [ctx.isDir, hnil] at hdir
      cases hdir
    obtain ⟨htake, habove⟩ := hplan.entryChoice_above hroot hp hwithin hunrelated hexcluded
    have hwalk : (∃ q ∈ plan.installOrder, if q.root = plan.projectRoot then
          ∃ s ∈ select (entryChoice ctx plan) ctx.tree [], s <+: file
        else q.root <+: plan.projectRoot ++ file) ↔
          ∃ s ∈ select (entryChoice ctx plan) ctx.tree [], s <+: file := by
      constructor
      · intro ⟨q, hq, hin⟩
        split at hin
        · exact hin
        · next hother => exact absurd (hroot q hq hin) hother
      · intro hin
        exact ⟨p, hp, by rw [if_pos (hroot p hp hwithin)]; exact hin⟩
    rw [hwalk, covered_iff hfile hne htake]
    constructor
    · intro hall _ dir hdir hpassed
      obtain ⟨dir', hdir', hchoice⟩ := hall dir hdir ((habove dir hdir).1.mpr hpassed)
      exact ⟨dir', hdir', (habove dir' (hdir'.trans hdir)).2.mp hchoice⟩
    · intro hall dir hdir hskip
      obtain ⟨dir', hdir', hwhole⟩ := hall hroot dir hdir ((habove dir hdir).1.mp hskip)
      exact ⟨dir', hdir', (habove dir' (hdir'.trans hdir)).2.mpr hwhole⟩
  · apply iff_of_true
    · simp only [UvLockPlan.OfRootPackage, not_forall] at hroot
      obtain ⟨q, hq, hin, hother⟩ := hroot
      exact ⟨q, hq, by rw [if_neg hother]; exact hin⟩
    · intro hroot'
      exact absurd hroot' hroot

end Plan

/- ── A file that is not ignored, in a directory that is ────────────────────── -/

def assetsHost : Host where
  resolve base _ := base
  present _ := true
  discover _ := ⟨.dict [], [(["w"], some (.str "app"), .list [], .dict [])], by decide⟩
  lower s := String.ofList (s.toList.map Char.toLower)

/-- The directory `my assets` is ignored and a file in it is not, with the space escaped: the
    patterns match, but the hints name another directory. -/
def assetsContext : BuildContext where
  tree := .dir ["my assets", "main.py"] (by decide) fun n =>
    if n = "my assets" then .dir ["keep.txt"] (by decide) fun _ => .file else .file
  isDir := rfl
  dockerignore := some ["my assets/", "!my\\ assets/keep.txt"]
  matchFile path := path == "my assets/"

theorem assets_plan : ∃ plan items, planUvLockWorkspace assetsHost ["w"] ⟨none, none⟩ = .ok plan ∧
    copyItems assetsContext plan = .ok items ∧ items = [(["main.py"], ["deps", "workspace", "main.py"])] ∧
      plan.projectRoot = ["w"] ∧
        resolveContainerPath ["w", "my assets", "keep.txt"] plan =
          some ["deps", "workspace", "my assets", "keep.txt"] ∧
        resolveContainerPath ["w", "main.py"] plan = some ["deps", "workspace", "main.py"] := by
  have h : ((planUvLockWorkspace assetsHost ["w"] ⟨none, none⟩).toOption.map fun plan =>
      ((copyItems assetsContext plan).toOption, plan.projectRoot,
        resolveContainerPath ["w", "my assets", "keep.txt"] plan,
        resolveContainerPath ["w", "main.py"] plan)) =
      some (some [(["main.py"], ["deps", "workspace", "main.py"])], ["w"],
        some ["deps", "workspace", "my assets", "keep.txt"], some ["deps", "workspace", "main.py"]) := by
    rfl
  cases hplan : planUvLockWorkspace assetsHost ["w"] ⟨none, none⟩ with
  | error e =>
    rw [hplan] at h
    cases h
  | ok plan =>
    rw [hplan] at h
    have h := Option.some.inj h
    simp only [Prod.mk.injEq] at h
    obtain ⟨hitems, hroot, hkeep, hmain⟩ := h
    cases hcopy : copyItems assetsContext plan with
    | error e =>
      rw [hcopy] at hitems
      cases hitems
    | ok items =>
      rw [hcopy] at hitems
      exact ⟨plan, items, rfl, hcopy, Option.some.inj hitems, hroot, hkeep, hmain⟩

/-- The file at the top is copied by itself. -/
theorem resolved_copied_assets : ∃ plan items,
    planUvLockWorkspace assetsHost ["w"] ⟨none, none⟩ = .ok plan ∧
      copyItems assetsContext plan = .ok items ∧
        ∃ item ∈ items, ∃ rest, ["main.py"] = item.1 ++ rest ∧
          ["deps", "workspace", "main.py"] = item.2 ++ rest := by
  obtain ⟨plan, items, hplan, hitems, -, hroot, -, hmain⟩ := assets_plan
  obtain ⟨file, hfile, hiff⟩ := (resolved_copied_iff hplan assetsContext hitems).1 _ _ hmain
  rw [hroot] at hfile
  cases hfile
  refine ⟨plan, items, hplan, hitems, (hiff rfl rfl).mpr fun _ dir hdir => ?_⟩
  exact absurd hdir not_above_singleton

/-- The other file resolves and is not ignored, and is not in the image. -/
theorem resolved_not_copied :
    ¬∀ (host : Host) (configRoot : Path) (source : UvSource) (plan : UvLockPlan) (ctx : BuildContext)
      (items : List (Path × Path)), planUvLockWorkspace host configRoot source = .ok plan →
        copyItems ctx plan = .ok items → ∀ file c, ctx.tree.hasFile file = true →
          ctx.excludes file = false →
            resolveContainerPath (plan.projectRoot ++ file) plan = some c →
              ∃ item ∈ items, ∃ rest, file = item.1 ++ rest ∧ c = item.2 ++ rest := by
  intro h
  obtain ⟨plan, items, hplan, hcopy, hitems, hroot, hkeep, -⟩ := assets_plan
  obtain ⟨item, hitem, rest, hfile, -⟩ := h assetsHost ["w"] ⟨none, none⟩ plan assetsContext items hplan
    hcopy ["my assets", "keep.txt"] _ rfl rfl (by rw [hroot]; exact hkeep)
  rw [hitems, List.mem_singleton] at hitem
  rw [hitem] at hfile
  exact absurd (List.cons.inj hfile).1 (by decide)

end LangGraph.Cli
