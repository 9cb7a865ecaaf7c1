import LangGraph.Cli.UvWorkspace
import LangGraph.Lib.SortBy
import Mathlib.Data.String.Basic

/- The plan for a uv workspace: the packages of the image and where they go.

   Correspondence (source ↔ Lean):
     `_container_root_for_uv_lock_package`      ↔ `containerRootForPackage`
     `UvLockPlan`                               ↔ `UvLockPlan`
     `_path_in_unrelated_member`                ↔ `pathInUnrelatedMember`
     `_resolve_uv_lock_container_path`          ↔ `resolveContainerPath`
     `_infer_uv_lock_target_package`            ↔ `inferTargetPackage`
     `visit` of `_plan_uv_lock_workspace`       ↔ `visitPackage`
     `_plan_uv_lock_workspace`                  ↔ `planUvLockWorkspace`
   A package is shared by all that name it; the fields that validation sets in it are
   in `Traversal.validated`, under its name. The traversal is a depth-first search
   (`search_visitPackage`) that one step for each package is enough for
   (`planUvLockWorkspace_ne_outOfFuel`). `installOrder_closed`: what it installs, and
   in which order. -/
namespace LangGraph.Cli

open DepthFirst

/-- `/deps/workspace` -/
def containerWorkspaceRoot : Path := ["deps", "workspace"]

def containerRootForPackage (projectRoot packageRoot : Path) : Except UvLockError Path :=
  if projectRoot <+: packageRoot then
    .ok (containerWorkspaceRoot ++ packageRoot.drop projectRoot.length)
  else .error (.notInSubpath packageRoot projectRoot)

structure UvLockPlan where
  projectRoot : Path
  target : UvLockPackage
  installOrder : List UvLockPackage
  containerRoots : OrdDict Path Path
  workingDir : Path
  allWorkspaceRoots : List Path

/-- The path is inside of a member that is not in the closure and not around the root. -/
def pathInUnrelatedMember (hostPath matchedRoot : Path) (plan : UvLockPlan) : Bool :=
  plan.allWorkspaceRoots.any fun wsRoot =>
    ¬wsRoot <+: matchedRoot && wsRoot <+: hostPath && !plan.containerRoots.contains wsRoot

/-- The first of the roots around the path that no other member comes between. -/
def resolveIn (hostPath : Path) (plan : UvLockPlan) : List (Path × Path) → Option Path
  | [] => none
  | (packageRoot, containerRoot) :: rest =>
    if packageRoot <+: hostPath then
      if pathInUnrelatedMember hostPath packageRoot plan then resolveIn hostPath plan rest
      else some (containerRoot ++ hostPath.drop packageRoot.length)
    else resolveIn hostPath plan rest

def resolveContainerPath (hostPath : Path) (plan : UvLockPlan) : Option Path :=
  resolveIn hostPath plan
    (SortBy.sortBy (fun e => OrderDual.toDual e.1.length) plan.containerRoots.entries)

/-- `config["source"]` -/
structure UvSource where
  root : Option Value
  package : Option Value

def inferTargetPackage (host : Host) (configRoot projectRoot : Path) (package : Option Value)
    (workspace : UvLockWorkspace) : Except UvLockError UvLockPackage :=
  let available := SortBy.sortBy id (workspace.packagesByName.values.map UvLockPackage.name)
  match package with
  | some (.str packageName) =>
    if packageName.toList.all isSpace then .error .emptyPackage
    else
      match workspace.packagesByName.get? (normalizePackageName host packageName) with
      | some target => .ok target
      | none => .error (.noSuchPackage packageName projectRoot available)
  | some _ => .error .emptyPackage
  | none =>
    let containing := SortBy.sortBy (fun p => OrderDual.toDual p.root.length)
      ((workspace.packagesByRoot.entries.filter fun e => e.1 <+: configRoot).map Prod.snd)
    let inferred := containing.head?.filter fun target => target.root ≠ projectRoot ∨
      workspace.packagesByName.entries.length = 1 ∨ configRoot = projectRoot
    match inferred, workspace.packagesByName.values with
    | some target, _ => .ok target
    | none, [target] => .ok target
    | none, _ => .error (.packageRequired configRoot available)

/- ── The traversal ─────────────────────────────────────────────────────────── -/

structure Traversal where
  visited : List String
  validated : OrdDict String Validated
  installOrder : List UvLockPackage

section
variable (host : Host) (projectRoot : Path) (workspace : UvLockWorkspace)

/-- The loop over `package.workspace_dependencies`. -/
def visitDependencies
    (visit : UvLockPackage → Traversal → Except (Stop UvLockError) Traversal) :
    List String → Traversal → Except (Stop UvLockError) Traversal
  | [], t => .ok t
  | name :: rest, t =>
    match workspace.packagesByName.get? name with
    | none => visitDependencies visit rest t
    | some dependency =>
      match visit dependency t with
      | .error e => .error e
      | .ok t' => visitDependencies visit rest t'

/-- `if package.normalized_name not in validated` -/
def validateOnce (package : UvLockPackage) (validated : OrdDict String Validated) :
    Except UvLockError (OrdDict String Validated) :=
  if validated.contains package.normalizedName then .ok validated
  else
    match validatePackage host projectRoot workspace package with
    | .error e => .error e
    | .ok fields => .ok (validated.set package.normalizedName fields)

def visitPackage : Nat → UvLockPackage → Traversal → Except (Stop UvLockError) Traversal
  | 0, _, _ => .error .outOfFuel
  | fuel + 1, package, t =>
    if package.normalizedName ∈ t.visited then .ok t
    else
      match validateOnce host projectRoot workspace package t.validated with
      | .error e => .error (.raised e)
      | .ok validated =>
        let dependencies := (validated.getD package.normalizedName {}).workspaceDependencies
        match visitDependencies workspace (visitPackage fuel) dependencies
            ⟨package.normalizedName :: t.visited, validated, t.installOrder⟩ with
        | .error e => .error e
        | .ok t' => .ok { t' with installOrder := t'.installOrder ++ [package] }

/-- `container_roots` -/
def containerRootsOf : List UvLockPackage → Except UvLockError (List (Path × Path))
  | [] => .ok []
  | package :: rest =>
    match containerRootForPackage projectRoot package.root with
    | .error e => .error e
    | .ok containerRoot =>
      match containerRootsOf rest with
      | .error e => .error e
      | .ok roots => .ok ((package.root, containerRoot) :: roots)

/-- The part of `_plan_uv_lock_workspace` after the target is known. -/
def planFor (configRoot : Path) (target : UvLockPackage) : Except (Stop UvLockError) UvLockPlan :=
  match validatePackage host projectRoot workspace target with
  | .error e => .error (.raised e)
  | .ok fields =>
    if fields.packageEnabled = false then
      .error (.raised (.targetNotPackage target.name target.root))
    else
      match visitPackage host projectRoot workspace (workspace.packagesByName.entries.length + 1) target
          ⟨[], OrdDict.ofList [(target.normalizedName, fields)], []⟩ with
      | .error e => .error e
      | .ok t =>
        match containerRootsOf projectRoot t.installOrder with
        | .error e => .error (.raised e)
        | .ok roots =>
          let plan : UvLockPlan :=
            { projectRoot, target, installOrder := t.installOrder
              containerRoots := OrdDict.ofList roots
              workingDir := containerWorkspaceRoot ++ target.root.drop projectRoot.length
              allWorkspaceRoots := workspace.packagesByName.values.map UvLockPackage.root }
          .ok { plan with workingDir := (resolveContainerPath configRoot plan).getD plan.workingDir }

end

def planUvLockWorkspace (host : Host) (configRoot : Path) (source : UvSource) :
    Except (Stop UvLockError) UvLockPlan :=
  match source.root.getD (.str ".") with
  | .str root =>
    if root.toList.all isSpace then .error (.raised .emptyRoot)
    else
      let projectRoot := host.resolve configRoot root
      if ¬host.present (projectRoot ++ ["uv.lock"]) then .error (.raised (.noUvLock projectRoot))
      else if ¬host.present (projectRoot ++ ["pyproject.toml"]) then
        .error (.raised (.noPyproject projectRoot))
      else
        match workspaceOf host (host.discover projectRoot) with
        | .error e => .error (.raised e)
        | .ok workspace =>
          match inferTargetPackage host configRoot projectRoot source.package workspace with
          | .error e => .error (.raised e)
          | .ok target => planFor host projectRoot workspace configRoot target
  | _ => .error (.raised .emptyRoot)

/- ── The traversal is a depth-first search ─────────────────────────────────── -/

section
variable (host : Host) (projectRoot : Path) (workspace : UvLockWorkspace)

/-- The package `p` has `q` in its `workspace_dependencies`. -/
def DependsOn (p q : String) : Prop :=
  ∃ package fields, workspace.packagesByName.get? p = some package ∧
    validatePackage host projectRoot workspace package = .ok fields ∧ q ∈ fields.workspaceDependencies

def dependenciesOf (p : String) : Except UvLockError (List String) :=
  match workspace.packagesByName.get? p with
  | none => .ok []
  | some package =>
    match validatePackage host projectRoot workspace package with
    | .error e => .error e
    | .ok fields => .ok fields.workspaceDependencies

theorem edge_dependenciesOf :
    Edge (dependenciesOf host projectRoot workspace) = DependsOn host projectRoot workspace := by
  funext p q
  apply propext
  constructor
  · intro h
    obtain ⟨bs, hbs, hq⟩ := h
    rw [dependenciesOf] at hbs
    split at hbs
    · cases hbs
      cases hq
    · next package hpackage =>
      split at hbs
      · cases hbs
      · next fields hfields =>
        cases hbs
        exact ⟨package, fields, hpackage, hfields, hq⟩
  · intro h
    obtain ⟨package, fields, hpackage, hfields, hq⟩ := h
    refine ⟨fields.workspaceDependencies, ?_, hq⟩
    simp only [dependenciesOf, hpackage, hfields]

variable {host projectRoot workspace}

theorem dependenciesOf_eq {package : UvLockPackage}
    (h : workspace.packagesByName.get? package.normalizedName = some package) :
    dependenciesOf host projectRoot workspace package.normalizedName =
      (validatePackage host projectRoot workspace package).map Validated.workspaceDependencies := by
  simp only [dependenciesOf, h]
  cases validatePackage host projectRoot workspace package <;> rfl

def Traversal.search (t : Traversal) : Search String :=
  ⟨t.visited, t.installOrder.map UvLockPackage.normalizedName⟩

variable (host projectRoot workspace)

/-- What is recorded of a package is what its validation gives. -/
structure Traversal.Sound (t : Traversal) : Prop where
  validated : ∀ n fields, t.validated.get? n = some fields → ∃ package,
    workspace.packagesByName.get? n = some package ∧
      validatePackage host projectRoot workspace package = .ok fields
  installed : ∀ package ∈ t.installOrder,
    workspace.packagesByName.get? package.normalizedName = some package

variable {host projectRoot workspace}

/-- Validation comes to the same whether it was done before or not. -/
theorem Traversal.Sound.validateOnce {t : Traversal} (h : t.Sound host projectRoot workspace)
    {package : UvLockPackage}
    (hp : workspace.packagesByName.get? package.normalizedName = some package) :
    (match validateOnce host projectRoot workspace package t.validated with
      | .error e => validatePackage host projectRoot workspace package = .error e
      | .ok validated => (∃ fields, validatePackage host projectRoot workspace package = .ok fields ∧
          validated.getD package.normalizedName {} = fields) ∧
            Traversal.Sound host projectRoot workspace { t with validated }) := by
  unfold Cli.validateOnce
  by_cases hcontains : t.validated.contains package.normalizedName
  · rw [if_pos hcontains]
    obtain ⟨fields, hfields⟩ := Option.isSome_iff_exists.mp hcontains
    obtain ⟨package', hp', hvalid⟩ := h.validated _ fields hfields
    cases hp.symm.trans hp'
    exact ⟨⟨fields, hvalid, by rw [OrdDict.getD, hfields]; rfl⟩, h⟩
  · rw [if_neg hcontains]
    cases hvalid : validatePackage host projectRoot workspace package with
    | error e => rfl
    | ok fields =>
      refine ⟨⟨fields, rfl, by rw [OrdDict.getD, OrdDict.get?_set_self]; rfl⟩, ?_, h.installed⟩
      intro n fields' hget
      have hget : (t.validated.set package.normalizedName fields).get? n = some fields' := hget
      rw [OrdDict.get?_set] at hget
      split at hget
      · next hn =>
        cases hget
        exact ⟨package, hn ▸ hp, hvalid⟩
      · exact h.validated n fields' hget

/-- The loop over the dependencies does what the search does on their names. -/
theorem search_visitDependencies {visit : UvLockPackage → Traversal → Except (Stop UvLockError) Traversal}
    {visit' : String → Search String → Except (Stop UvLockError) (Search String)}
    (hvisit : ∀ package t, workspace.packagesByName.get? package.normalizedName = some package →
      t.Sound host projectRoot workspace →
        visit' package.normalizedName t.search = (visit package t).map Traversal.search ∧
          ∀ t', visit package t = .ok t' → t'.Sound host projectRoot workspace)
    (hindexed : workspace.Indexed) : ∀ (names : List String) (t : Traversal), Known workspace names →
      t.Sound host projectRoot workspace →
        visitEach visit' names t.search =
            (visitDependencies workspace visit names t).map Traversal.search ∧
          ∀ t', visitDependencies workspace visit names t = .ok t' →
            t'.Sound host projectRoot workspace := by
  intro names
  induction names with
  | nil =>
    intro t _ ht
    refine ⟨rfl, fun t' h => ?_⟩
    cases h
    exact ht
  | cons name rest ih =>
    intro t hknown ht
    obtain ⟨package, hpackage⟩ := OrdDict.mem_keys_iff.mp (hknown name List.mem_cons_self)
    have hname := hindexed.name name package hpackage
    have hrest : Known workspace rest := fun n hn => hknown n (List.mem_cons_of_mem name hn)
    subst hname
    obtain ⟨heq, hsound⟩ := hvisit package t hpackage ht
    simp only [visitEach, visitDependencies, hpackage, heq]
    cases hv : visit package t with
    | error e => exact ⟨rfl, fun t' h => by cases h⟩
    | ok t₁ => exact ih t₁ hrest (hsound t₁ hv)

/-- A traversal is a depth-first search along the dependencies. -/
theorem search_visitPackage (hindexed : workspace.Indexed) : ∀ (fuel : Nat) (package : UvLockPackage)
    (t : Traversal), workspace.packagesByName.get? package.normalizedName = some package →
      t.Sound host projectRoot workspace →
        visit (dependenciesOf host projectRoot workspace) fuel package.normalizedName t.search =
            (visitPackage host projectRoot workspace fuel package t).map Traversal.search ∧
          ∀ t', visitPackage host projectRoot workspace fuel package t = .ok t' →
            t'.Sound host projectRoot workspace := by
  intro fuel
  induction fuel with
  | zero =>
    intro package t _ _
    exact ⟨rfl, fun t' h => by cases h⟩
  | succ fuel ih =>
    intro package t hp ht
    rw [visit, visitPackage, show t.search.visited = t.visited from rfl]
    by_cases hv : package.normalizedName ∈ t.visited
    · rw [if_pos hv, if_pos hv]
      refine ⟨rfl, fun t' h => ?_⟩
      cases h
      exact ht
    · rw [if_neg hv, if_neg hv, dependenciesOf_eq hp]
      have hvalid := ht.validateOnce hp
      cases honce : validateOnce host projectRoot workspace package t.validated with
      | error e =>
        rw [honce] at hvalid
        rw [hvalid]
        exact ⟨rfl, fun t' h => by cases h⟩
      | ok validated =>
        rw [honce] at hvalid
        obtain ⟨⟨fields, hfields, hget⟩, hsound⟩ := hvalid
        have hentered : Traversal.Sound host projectRoot workspace
            ⟨package.normalizedName :: t.visited, validated, t.installOrder⟩ :=
          ⟨hsound.validated, hsound.installed⟩
        obtain ⟨heq, hnext⟩ := search_visitDependencies ih hindexed fields.workspaceDependencies _
          (known_validatePackage hindexed hfields) hentered
        rw [hfields]
        simp only [Except.map, hget]
        rw [show (⟨package.normalizedName :: t.visited, t.search.order⟩ : Search String) =
          Traversal.search ⟨package.normalizedName :: t.visited, validated, t.installOrder⟩ from rfl, heq]
        cases hdeps : visitDependencies workspace (visitPackage host projectRoot workspace fuel)
            fields.workspaceDependencies
            ⟨package.normalizedName :: t.visited, validated, t.installOrder⟩ with
        | error e => exact ⟨rfl, fun t' h => by cases h⟩
        | ok t₁ =>
          refine ⟨?_, fun t' h => ?_⟩
          · simp only [Except.map, Traversal.search, List.map_append, List.map_cons, List.map_nil]
          · cases h
            refine ⟨(hnext t₁ hdeps).validated, fun p hmem => ?_⟩
            cases List.mem_append.mp hmem with
            | inl hold => exact (hnext t₁ hdeps).installed p hold
            | inr hnew => exact List.mem_singleton.mp hnew ▸ hp

/-- One step for each package is enough. -/
theorem visitPackage_ne_outOfFuel (hindexed : workspace.Indexed) {package : UvLockPackage}
    {t : Traversal} (hp : workspace.packagesByName.get? package.normalizedName = some package)
    (ht : t.Sound host projectRoot workspace) :
    visitPackage host projectRoot workspace (workspace.packagesByName.entries.length + 1) package t ≠
      .error .outOfFuel := by
  intro h
  have hsearch := (search_visitPackage hindexed (workspace.packagesByName.entries.length + 1) package t
    hp ht).1
  rw [h] at hsearch
  refine visit_ne_outOfFuel workspace.packagesByName.keys ?_ _ _ _ ?_ ?_ hsearch
  · intro p _ q hpq
    rw [edge_dependenciesOf] at hpq
    obtain ⟨package', fields, -, hfields, hq⟩ := hpq
    exact known_validatePackage hindexed hfields q hq
  · exact OrdDict.mem_keys_iff.mpr ⟨package, hp⟩
  · have hle : unvisited workspace.packagesByName.keys t.search.visited ≤
        workspace.packagesByName.keys.length := List.countP_le_length
    have hlen : workspace.packagesByName.keys.length = workspace.packagesByName.entries.length :=
      List.length_map _
    omega

/- ── The plan ──────────────────────────────────────────────────────────────── -/

/-- The target is a package of the workspace. -/
theorem mem_of_inferTargetPackage (hindexed : workspace.Indexed) {configRoot : Path}
    {name : Option Value} {target : UvLockPackage}
    (h : inferTargetPackage host configRoot projectRoot name workspace = .ok target) :
    workspace.packagesByName.get? target.normalizedName = some target := by
  have hvalue : ∀ p ∈ workspace.packagesByName.values,
      workspace.packagesByName.get? p.normalizedName = some p := by
    intro p hp
    obtain ⟨n, hn⟩ := OrdDict.mem_values_iff.mp hp
    rw [hindexed.name n p hn, hn]
  unfold inferTargetPackage at h
  split at h
  · split at h
    · cases h
    · split at h
      · next p hp =>
        cases h
        rw [hindexed.name _ _ hp, hp]
      · cases h
  · cases h
  · dsimp only at h
    split at h
    · next p hp =>
      cases h
      have hmem := List.mem_of_mem_head? (Option.filter_eq_some_iff.mp hp).1
      obtain ⟨e, he, rfl⟩ := List.mem_map.mp (SortBy.mem_sortBy.mp hmem)
      have hget : workspace.packagesByRoot.get? e.1 = some e.2 :=
        OrdDict.get?_eq_some_iff.mpr (List.mem_filter.mp he).1
      exact hindexed.byName e.1 e.2 hget
    · next hvalues =>
      cases h
      exact hvalue target (hvalues ▸ List.mem_singleton_self target)
    · cases h

/-- What a plan is made of. -/
structure PlanOf (host : Host) (workspace : UvLockWorkspace) (plan : UvLockPlan) : Prop where
  found : workspaceOf host (host.discover plan.projectRoot) = .ok workspace
  target : workspace.packagesByName.get? plan.target.normalizedName = some plan.target
  order : ∃ t : Traversal, t.Sound host plan.projectRoot workspace ∧ t.installOrder = plan.installOrder ∧
    visit (dependenciesOf host plan.projectRoot workspace) (workspace.packagesByName.entries.length + 1)
      plan.target.normalizedName ⟨[], []⟩ = .ok t.search
  roots : ∃ roots, containerRootsOf plan.projectRoot plan.installOrder = .ok roots ∧
    plan.containerRoots = OrdDict.ofList roots
  members : plan.allWorkspaceRoots = workspace.packagesByName.values.map UvLockPackage.root

/-- The traversal starts with the target validated. -/
theorem sound_start {target : UvLockPackage} {fields : Validated}
    (htarget : workspace.packagesByName.get? target.normalizedName = some target)
    (hfields : validatePackage host projectRoot workspace target = .ok fields) :
    Traversal.Sound host projectRoot workspace
      ⟨[], OrdDict.ofList [(target.normalizedName, fields)], []⟩ := by
  refine ⟨fun n fields' h => ?_, fun p hp => by cases hp⟩
  obtain ⟨hn, hf⟩ := Prod.ext_iff.mp (List.mem_singleton.mp (OrdDict.mem_of_get?_ofList h))
  have hn : n = target.normalizedName := hn
  have hf : fields' = fields := hf
  rw [hn, hf]
  exact ⟨target, htarget, hfields⟩

theorem planOf_planFor (hindexed : workspace.Indexed)
    (hworkspace : workspaceOf host (host.discover projectRoot) = .ok workspace) {configRoot : Path}
    {target : UvLockPackage} (htarget : workspace.packagesByName.get? target.normalizedName = some target)
    {plan : UvLockPlan} (h : planFor host projectRoot workspace configRoot target = .ok plan) :
    plan.projectRoot = projectRoot ∧ plan.target = target ∧ PlanOf host workspace plan := by
  rw [planFor] at h
  split at h
  · cases h
  · next fields hfields =>
    split at h
    · cases h
    · split at h
      · cases h
      · next t ht =>
        split at h
        · cases h
        · next roots hroots =>
          cases h
          obtain ⟨heq, hsound⟩ := search_visitPackage hindexed
            (workspace.packagesByName.entries.length + 1) target _ htarget (sound_start htarget hfields)
          rw [ht] at heq
          exact ⟨rfl, rfl, hworkspace, htarget, ⟨t, hsound t ht, rfl, heq⟩, ⟨roots, hroots, rfl⟩, rfl⟩

/-- A run that ends with a plan read a workspace and planned for a package of it. -/
theorem planOf_planUvLockWorkspace {configRoot : Path} {source : UvSource} {plan : UvLockPlan}
    (h : planUvLockWorkspace host configRoot source = .ok plan) :
    ∃ workspace, workspace.Indexed ∧ PlanOf host workspace plan := by
  rw [planUvLockWorkspace] at h
  split at h
  · split at h
    · cases h
    · dsimp only at h
      split at h
      · cases h
      · split at h
        · cases h
        · split at h
          · cases h
          · next workspace hworkspace =>
            split at h
            · cases h
            · next target htarget =>
              have hindexed := indexed_workspaceOf hworkspace
              have hmem := mem_of_inferTargetPackage hindexed htarget
              exact ⟨workspace, hindexed, (planOf_planFor hindexed hworkspace hmem h).2.2⟩
  · cases h

theorem planUvLockWorkspace_ne_outOfFuel (configRoot : Path) (source : UvSource) :
    planUvLockWorkspace host configRoot source ≠ .error .outOfFuel := by
  intro h
  rw [planUvLockWorkspace] at h
  split at h
  · split at h
    · cases h
    · dsimp only at h
      split at h
      · cases h
      · split at h
        · cases h
        · split at h
          · cases h
          · next workspace hworkspace =>
            split at h
            · cases h
            · next target htarget =>
              have hindexed := indexed_workspaceOf hworkspace
              have hmem := mem_of_inferTargetPackage hindexed htarget
              rw [planFor] at h
              split at h
              · cases h
              · next fields hfields =>
                split at h
                · cases h
                · split at h
                  · next e he =>
                    cases h
                    exact visitPackage_ne_outOfFuel hindexed hmem (sound_start hmem hfields) he
                  · split at h <;> cases h
  · cases h

/-- The packages that a plan installs: those that the target reaches, each once and the
    target last. A package comes after all that it depends on, also by way of others, if
    none of the packages on the way depends on it in turn. -/
theorem installOrder_closed {configRoot : Path} {source : UvSource} {plan : UvLockPlan}
    (h : planUvLockWorkspace host configRoot source = .ok plan) :
    ∃ workspace, workspaceOf host (host.discover plan.projectRoot) = .ok workspace ∧
      let dependsOn := DependsOn host plan.projectRoot workspace
      let order := plan.installOrder.map UvLockPackage.normalizedName
      (∀ package ∈ plan.installOrder,
        workspace.packagesByName.get? package.normalizedName = some package) ∧
      (∀ n, n ∈ order ↔ Relation.ReflTransGen dependsOn plan.target.normalizedName n) ∧
      order.Nodup ∧
      plan.installOrder.getLast? = some plan.target ∧
      ∀ p ∈ order, ∀ q,
        Relation.TransGen (fun a b => dependsOn a b ∧ ¬Relation.ReflTransGen dependsOn b p) p q →
          [q, p].Sublist order := by
  obtain ⟨workspace, hindexed, hplan⟩ := planOf_planUvLockWorkspace h
  obtain ⟨t, hsound, hinstall, hvisit⟩ := hplan.order
  have horder : t.search.order = plan.installOrder.map UvLockPackage.normalizedName := by
    rw [← hinstall]
    rfl
  have hedge := edge_dependenciesOf host plan.projectRoot workspace
  refine ⟨workspace, hplan.found, ?_, ?_, ?_, ?_, ?_⟩
  · rw [← hinstall]
    exact hsound.installed
  · intro n
    rw [← hedge, ← horder]
    exact mem_order_iff hvisit n
  · rw [← horder]
    exact nodup_order hvisit
  · have hlast := getLast?_order hvisit
    rw [horder, List.getLast?_map, Option.map_eq_some_iff] at hlast
    obtain ⟨package, hpackage, hname⟩ := hlast
    have hget := hsound.installed package (hinstall ▸ List.mem_of_getLast? hpackage)
    rw [hname, hplan.target] at hget
    cases hget
    exact hpackage
  · intro p hp q hq
    rw [← horder] at hp ⊢
    apply before_of_away hvisit hp
    rw [← hedge] at hq
    exact hq

end

/-! Two packages that depend on each other, and one that the first depends on as well. -/

def cyclicPackages : Discovered where
  rawRootSourceEntries := .dict [("a", .dict [("workspace", .bool true)]),
    ("b", .dict [("workspace", .bool true)]), ("q", .dict [("workspace", .bool true)])]
  packages := [
    (["w", "a"], some (.str "a"), .list [.str "b", .str "q"], .dict []),
    (["w", "b"], some (.str "b"), .list [.str "a"], .dict []),
    (["w", "q"], some (.str "q"), .list [], .dict [])]
  nodup := by decide

def cyclicHost : Host where
  resolve base _ := base
  present _ := true
  discover _ := cyclicPackages
  lower s := String.ofList (s.toList.map Char.toLower)

def cyclicSource : UvSource := ⟨none, some (.str "a")⟩

theorem cyclic_plan : ∃ plan, planUvLockWorkspace cyclicHost ["w"] cyclicSource = .ok plan ∧
    plan.projectRoot = ["w"] ∧ plan.installOrder.map UvLockPackage.normalizedName = ["b", "q", "a"] := by
  have h : ((planUvLockWorkspace cyclicHost ["w"] cyclicSource).toOption.map fun plan =>
      (plan.projectRoot, plan.installOrder.map UvLockPackage.normalizedName)) =
        some (["w"], ["b", "q", "a"]) := by
    decide
  cases hplan : planUvLockWorkspace cyclicHost ["w"] cyclicSource with
  | error e =>
    rw [hplan] at h
    cases h
  | ok plan =>
    rw [hplan] at h
    obtain ⟨hroot, horder⟩ := Prod.ext_iff.mp (Option.some.inj h)
    exact ⟨plan, rfl, hroot, horder⟩

theorem installOrder_closed_cyclic :
    ∃ plan, planUvLockWorkspace cyclicHost ["w"] cyclicSource = .ok plan ∧
      (plan.installOrder.map UvLockPackage.normalizedName).Nodup ∧
        plan.installOrder.getLast? = some plan.target := by
  obtain ⟨plan, hplan, -, -⟩ := cyclic_plan
  obtain ⟨workspace, -, -, -, hnodup, hlast, -⟩ := installOrder_closed hplan
  exact ⟨plan, hplan, hnodup, hlast⟩

theorem cyclic_dependencies {workspace : UvLockWorkspace}
    (h : workspaceOf cyclicHost cyclicPackages = .ok workspace) :
    dependenciesOf cyclicHost ["w"] workspace "a" = .ok ["b", "q"] ∧
      dependenciesOf cyclicHost ["w"] workspace "b" = .ok ["a"] ∧
        dependenciesOf cyclicHost ["w"] workspace "q" = .ok [] := by
  have hall : ((workspaceOf cyclicHost cyclicPackages).toOption.map fun workspace =>
      ["a", "b", "q"].map fun n => (dependenciesOf cyclicHost ["w"] workspace n).toOption) =
        some [some ["b", "q"], some ["a"], some []] := by
    decide
  rw [h] at hall
  have hall := Option.some.inj hall
  simp only [List.map_cons, List.map_nil, List.cons.injEq, and_true] at hall
  refine ⟨?_, ?_, ?_⟩
  · cases ha : dependenciesOf cyclicHost ["w"] workspace "a" <;> simp_all [Except.toOption]
  · cases hb : dependenciesOf cyclicHost ["w"] workspace "b" <;> simp_all [Except.toOption]
  · cases hq : dependenciesOf cyclicHost ["w"] workspace "q" <;> simp_all [Except.toOption]

/-- By way of the first, the second depends on the third, and is installed before it. -/
theorem installOrder_transitive_fails :
    ¬∀ (host : Host) (configRoot : Path) (source : UvSource) (plan : UvLockPlan)
      (workspace : UvLockWorkspace), planUvLockWorkspace host configRoot source = .ok plan →
        workspaceOf host (host.discover plan.projectRoot) = .ok workspace →
          ∀ p ∈ plan.installOrder.map UvLockPackage.normalizedName, ∀ q,
            Relation.TransGen (DependsOn host plan.projectRoot workspace) p q →
              ¬Relation.TransGen (DependsOn host plan.projectRoot workspace) q p →
                [q, p].Sublist (plan.installOrder.map UvLockPackage.normalizedName) := by
  intro h
  obtain ⟨plan, hplan, hroot, horder⟩ := cyclic_plan
  obtain ⟨workspace, -, hplanned⟩ := planOf_planUvLockWorkspace hplan
  have h := h cyclicHost ["w"] cyclicSource plan workspace hplan hplanned.found "b"
  obtain ⟨ha, hb, hq⟩ := cyclic_dependencies hplanned.found
  rw [hroot, horder, ← edge_dependenciesOf] at h
  have hback : ¬Relation.TransGen (Edge (dependenciesOf cyclicHost ["w"] workspace)) "q" "b" := by
    intro hpath
    obtain ⟨c, hstep, -⟩ := Relation.TransGen.head'_iff.mp hpath
    obtain ⟨bs, hbs, hc⟩ := hstep
    cases hq.symm.trans hbs
    cases hc
  have hbefore := h (by simp) "q"
    (Relation.TransGen.tail (.single ⟨["a"], hb, by simp⟩) ⟨["b", "q"], ha, by simp⟩) hback
  exact absurd hbefore (by decide)

end LangGraph.Cli
