import LangGraph.Cli.UvWorkspace
import LangGraph.Lib.JoinedText
import LangGraph.Lib.NumberedNames

/- Local dependencies of a config and the Dockerfile that copies them (config.py).

   Correspondence (source ↔ Lean):
     `pathlib.Path`, resolved or not                   ↔ `Path`, its parts
     a path in the image, `/deps/{a}/{b}`              ↔ `containerPath`, its parts
     `Path.resolve`, `Path.name`                       ↔ `normalize`, `baseName`
     `Path.exists`, `is_dir`, `is_file`, `os.listdir`  ↔ `Project.find`
     `LocalDeps`                                       ↔ `LocalDeps`
     `reserved`, `counter` of `_assemble_local_deps`   ↔ fields of `Assembly`
     the loop body of `_assemble_local_deps`           ↔ `assembleDep`
     `_update_graph_paths`, `_update_http_app_path`    ↔ `updateGraphPaths`, `updateHttpAppPath`
     `_update_auth_path`, `_update_encryption_path`,
       `_update_checkpointer_path`                     ↔ `updateAuthPath`, `updateEncryptionPath`,
                                                          `updateCheckpointerPath`
     `pip_reqs_str`, `local_pkgs_str`, `faux_pkgs_str` ↔ `requirementLine`, `packageLines`
     `register_additional_context`                     ↔ `register`
     `python_config_to_docker`                         ↔ `pythonConfigToDocker`
   The tree has no symbolic links. A `Counter` is the list of what it counted. An error
   carries what its message names. -/
namespace LangGraph.Cli

open NumberedNames

/- ── Paths ─────────────────────────────────────────────────────────────────── -/

/-- `name.startswith(c)` -/
def startsWith (c : Char) (s : String) : Bool := s.toList.head? == some c

/-- `s.partition(":")` -/
def partition (s : String) : String × Bool × String :=
  (String.ofList (s.toList.takeWhile (· ≠ ':')), s.toList.contains ':',
    String.ofList (s.toList.dropWhile (· ≠ ':')).tail)

/-- The parts that `pathlib` finds in a text. -/
def partsOf (s : String) : Path :=
  (JoinedText.split '/' s).filter fun part => part ≠ "" && part ≠ "."

/-- `dir / s` -/
def joinPath (dir : Path) (s : String) : Path := if startsWith '/' s then partsOf s else dir ++ partsOf s

def normalize (path : Path) : Path :=
  path.foldl (fun here part => if part = ".." then here.dropLast else here ++ [part]) []

def baseName (path : Path) : String := path.getLastD ""

/-- The path with these parts between slashes, where an empty part is none. -/
def containerPath (parts : List String) : Path := parts.filter (· ≠ "")

/-- A directory, with what it lists unless that is not permitted, or something else. -/
inductive Entry where
  | dir (listing : Option (List String))
  | file
  | other
  deriving DecidableEq

/-- The resolved directory of a config file, and what is at a resolved path. -/
structure Project where
  configDir : Path
  resolved : ".." ∉ configDir
  entry : Path → Option Entry

/-- What is at the end of a path: only a directory has something below or above it. -/
def Project.find (project : Project) : Path → Path → Option Entry
  | here, [] => project.entry here
  | here, part :: rest =>
    match project.entry here with
    | some (.dir _) => project.find (if part = ".." then here.dropLast else here ++ [part]) rest
    | _ => none

/- ── Config ────────────────────────────────────────────────────────────────── -/

/-- A graph of a config: an import string, a table with its `path`, or something else. -/
inductive GraphData where
  | text (importStr : String)
  | table (path : Option String)
  | other
  deriving DecidableEq

structure Config where
  dependencies : List String
  graphs : List (String × GraphData)
  auth : Option String := none
  encryption : Option String := none
  checkpointer : Option String := none
  httpApp : Option String := none
  deriving DecidableEq

inductive PathOption where
  | graph
  | auth
  | encryption
  | checkpointer
  | httpApp
  deriving DecidableEq

inductive DockerError where
  | depNotFound (resolved : Path)
  | depNotDirectory (resolved : Path)
  | notPermitted (dir : Path)
  | hyphen (name : String)
  | reserved (name ref : String)
  | graphWithoutPath (graph : String)
  | graphNotText (graph : String)
  | importFormat (importStr : String)
  | fileNotFound (option : PathOption) (file : Path) (importStr : String)
  | notFile (option : PathOption) (file : Path)
  | notCovered (option : PathOption) (file : Path) (importStr : String)
  | notBelow (path dir : Path)
  | unknownContext (path : Path)
  deriving DecidableEq

/- ── Assembling ────────────────────────────────────────────────────────────── -/

structure LocalDeps where
  pipReqs : List (Path × Path) := []
  realPkgs : OrdDict Path (String × String) := .empty
  fauxPkgs : OrdDict Path (String × Path) := .empty
  workingDir : Option Path := none
  additionalContexts : List Path := []

def reservedNames : List String :=
  ["src", "langgraph-api", "langgraph_api", "langgraph", "langchain-core", "langchain_core", "pydantic",
    "orjson", "fastapi", "uvicorn", "psycopg", "httpx", "langsmith"]

structure Assembly where
  reserved : List String := reservedNames
  counter : List String := []
  localDeps : LocalDeps := {}

def checkReserved (ref : String) (reserved : List String) (name : String) :
    Except DockerError (List String) :=
  if name ∈ reserved then .error (.reserved name ref) else .ok (name :: reserved)

/-- The child of a src layout is a directory with a Python file, not hidden and no cache. -/
def isPythonDir (project : Project) (resolved : Path) (file : String) : Bool :=
  match project.find [] (resolved ++ [file]) with
  | some (.dir (some subfiles)) =>
    file ≠ "__pycache__" && !startsWith '.' file && subfiles.any fun subfile => ".py".toList <:+ subfile.toList
  | _ => false

/-- `container_name` of a real package. -/
def containerName (counter : List String) (resolved : Path) : String :=
  if 0 < counter.count (baseName resolved) then
    numbered (baseName resolved) (counter.count (baseName resolved))
  else baseName resolved

def addRealPackage (localDep : String) (resolved : Path) (st : Assembly) : Assembly :=
  let name := containerName st.counter resolved
  { st with
    counter := st.counter ++ [name]
    localDeps := { st.localDeps with
      realPkgs := st.localDeps.realPkgs.set resolved (localDep, name)
      workingDir := if localDep = "." then some (containerPath ["deps", name]) else st.localDeps.workingDir } }

def isFlatLayout (files : List String) : Bool := files.contains "__init__.py"

/-- `container_path` of a faux package. -/
def fauxPath (resolved : Path) (files : List String) : Path :=
  containerPath ["deps", "outer-" ++ baseName resolved,
    if isFlatLayout files then baseName resolved else "src"]

/-- The names that a faux package takes. -/
def checkLayout (project : Project) (localDep : String) (resolved : Path) (files reserved : List String) :
    Except DockerError (List String) :=
  if isFlatLayout files then
    if '-' ∈ (baseName resolved).toList then .error (.hyphen (baseName resolved))
    else checkReserved localDep reserved (baseName resolved)
  else
    files.foldlM (fun reserved file =>
      if isPythonDir project resolved file then checkReserved localDep reserved file else .ok reserved) reserved

def addFauxPackage (localDep : String) (resolved : Path) (files reserved : List String) (st : Assembly) :
    Assembly :=
  let path := fauxPath resolved files
  { st with
    reserved := reserved
    localDeps := { st.localDeps with
      fauxPkgs := st.localDeps.fauxPkgs.set resolved (localDep, path)
      workingDir := if localDep = "." then some path else st.localDeps.workingDir
      pipReqs :=
        if "requirements.txt" ∈ files then
          st.localDeps.pipReqs ++ [(resolved ++ ["requirements.txt"], path ++ ["requirements.txt"])]
        else st.localDeps.pipReqs } }

/-- A directory that is not the one of the config file and not below it. -/
def Project.isOutside (project : Project) (resolved : Path) : Bool := !decide (project.configDir <+: resolved)

def addContext (project : Project) (resolved : Path) (st : Assembly) : Assembly :=
  if project.isOutside resolved then
    { st with localDeps := { st.localDeps with
        additionalContexts := st.localDeps.additionalContexts ++ [resolved] } }
  else st

def isRealPackage (files : List String) : Bool :=
  files.contains "pyproject.toml" || files.contains "setup.py"

def assembleDep (project : Project) (st : Assembly) (localDep : String) : Except DockerError Assembly :=
  if !startsWith '.' localDep then .ok st
  else
    let resolved := normalize (joinPath project.configDir localDep)
    match project.find [] resolved with
    | none => .error (.depNotFound resolved)
    | some (.dir none) => .error (.notPermitted resolved)
    | some (.dir (some files)) =>
      let st := addContext project resolved st
      if isRealPackage files then .ok (addRealPackage localDep resolved st)
      else
        (checkLayout project localDep resolved files st.reserved).map fun reserved =>
          addFauxPackage localDep resolved files reserved st
    | some _ => .error (.depNotDirectory resolved)

def assembleLocalDeps (project : Project) (config : Config) : Except DockerError LocalDeps :=
  (config.dependencies.foldlM (assembleDep project) {}).map Assembly.localDeps

/- ── Import paths ──────────────────────────────────────────────────────────── -/

/-- What an import string becomes: the same, or a place in the image and the attribute. -/
inductive Import where
  | kept (importStr : String)
  | moved (place : Path) (attr : String)
  deriving DecidableEq

/-- The first real package around a file. -/
def LocalDeps.realAround (deps : LocalDeps) (file : Path) : Option Path :=
  deps.realPkgs.keys.find? fun path => path <+: file

/-- The first faux package around a file, and where it is in the image. -/
def LocalDeps.fauxAround (deps : LocalDeps) (file : Path) : Option (Path × Path) :=
  (deps.fauxPkgs.entries.find? fun entry => entry.1 <+: file).map fun entry => (entry.1, entry.2.2)

/-- `/deps/{path.name}/{file.relative_to(path)}` -/
def realPlace (path file : Path) : Path := containerPath ["deps", baseName path] ++ file.drop path.length

/-- `{destpath}/{file.relative_to(path)}` -/
def fauxPlace (path destpath file : Path) : Path := destpath ++ file.drop path.length

/-- The file that an import string names, if it names one and not a module. -/
def isFilePath (module : String) : Bool := module.toList.contains '/' || module.toList.contains '\\'

def updateImport (option : PathOption) (project : Project) (deps : LocalDeps) (importStr : String) :
    Except DockerError Import :=
  let (module, _, attr) := partition importStr
  if module = "" ∨ attr = "" then .error (.importFormat importStr)
  else if !isFilePath module then .ok (.kept importStr)
  else
    let file := normalize (joinPath project.configDir module)
    match project.find [] file with
    | none => .error (.fileNotFound option file importStr)
    | some .file =>
      match deps.realAround file with
      | some path => .ok (.moved (realPlace path file) attr)
      | none =>
        match deps.fauxAround file with
        | some (path, destpath) => .ok (.moved (fauxPlace path destpath file) attr)
        | none => .error (.notCovered option file importStr)
    | some _ => .error (.notFile option file)

def graphImportStr : String × GraphData → Except DockerError String
  | (_, .text importStr) => .ok importStr
  | (_, .table (some path)) => .ok path
  | (graph, .table none) => .error (.graphWithoutPath graph)
  | (graph, .other) => .error (.graphNotText graph)

def updateGraphPaths (project : Project) (config : Config) (deps : LocalDeps) :
    Except DockerError (List (String × Import)) :=
  config.graphs.mapM fun graph => do
    let importStr ← graphImportStr graph
    let moved ← updateImport .graph project deps importStr
    return (graph.1, moved)

/-- The module path is not resolved, and faux packages come first. -/
def updateConfPath (option : PathOption) (project : Project) (deps : LocalDeps) (pathStr : String) :
    Except DockerError Import :=
  let (module, sep, attr) := partition pathStr
  if !sep || !startsWith '.' module then .ok (.kept pathStr)
  else
    let file := joinPath project.configDir module
    match project.find [] file with
    | none => .error (.fileNotFound option file pathStr)
    | some .file =>
      match deps.fauxAround file with
      | some (path, destpath) => .ok (.moved (fauxPlace path destpath file) attr)
      | none =>
        match deps.realAround file with
        | some path => .ok (.moved (realPlace path file) attr)
        | none => .error (.notCovered option file pathStr)
    | some _ => .error (.notFile option file)

/-- An option that is not set, or empty, is left alone. -/
def updateOption (update : String → Except DockerError Import) :
    Option String → Except DockerError (Option Import)
  | none => .ok none
  | some pathStr => if pathStr = "" then .ok (some (.kept pathStr)) else (update pathStr).map some

def updateAuthPath (project : Project) (config : Config) (deps : LocalDeps) :
    Except DockerError (Option Import) :=
  updateOption (updateConfPath .auth project deps) config.auth

def updateEncryptionPath (project : Project) (config : Config) (deps : LocalDeps) :
    Except DockerError (Option Import) :=
  updateOption (updateConfPath .encryption project deps) config.encryption

def updateCheckpointerPath (project : Project) (config : Config) (deps : LocalDeps) :
    Except DockerError (Option Import) :=
  updateOption (updateConfPath .checkpointer project deps) config.checkpointer

def updateHttpAppPath (project : Project) (config : Config) (deps : LocalDeps) :
    Except DockerError (Option Import) :=
  updateOption (updateImport .httpApp project deps) config.httpApp

/- ── Dockerfile ────────────────────────────────────────────────────────────── -/

/-- `COPY --from={context} {what}`, or `ADD {what}`. -/
inductive Source where
  | copyFrom (context what : String)
  | add (what : String)
  deriving DecidableEq

/-- A line that copies, and the directory of the dependency that it is written for. -/
structure CopyLine where
  dependency : Path
  source : Source
  dest : Path
  deriving DecidableEq

/-- The line of a requirements file and where it goes. -/
def requirementLine (project : Project) (deps : LocalDeps) : Path × Path → Except DockerError CopyLine
  | (reqpath, destpath) =>
    if reqpath.dropLast ∈ deps.additionalContexts then
      .ok ⟨reqpath.dropLast, .copyFrom ("outer-" ++ baseName reqpath) "requirements.txt", destpath⟩
    else if project.configDir <+: reqpath then
      .ok ⟨reqpath.dropLast, .add (JoinedText.join '/' (reqpath.drop project.configDir.length)), destpath⟩
    else .error (.notBelow reqpath project.configDir)

def fauxLine (deps : LocalDeps) : Path × String × Path → CopyLine
  | (fullpath, relpath, destpath) =>
    ⟨fullpath, if fullpath ∈ deps.additionalContexts then .copyFrom ("outer-" ++ baseName fullpath) "."
      else .add relpath, destpath⟩

def realLine (deps : LocalDeps) : Path × String × String → CopyLine
  | (fullpath, relpath, name) =>
    ⟨fullpath, if fullpath ∈ deps.additionalContexts then .copyFrom name "." else .add relpath,
      containerPath ["deps", name]⟩

def packageLines (deps : LocalDeps) : List CopyLine :=
  deps.realPkgs.entries.map (realLine deps) ++ deps.fauxPkgs.entries.map (fauxLine deps)

structure Contexts where
  additionalContexts : OrdDict String Path := .empty
  names : OrdDict Path String := .empty
  used : List String := []

def register (ctxs : Contexts) (path : Path) (preferredName : String) : Contexts :=
  if ctxs.names.contains path then ctxs
  else
    let name := firstFree ctxs.used preferredName
    { additionalContexts := ctxs.additionalContexts.set name path
      names := ctxs.names.set path name
      used := name :: ctxs.used }

def preferredName (deps : LocalDeps) (path : Path) : Except DockerError String :=
  match deps.realPkgs.get? path with
  | some (_, name) => .ok name
  | none =>
    if deps.fauxPkgs.contains path then .ok ("outer-" ++ baseName path)
    else .error (.unknownContext path)

def registerContexts (deps : LocalDeps) : Except DockerError Contexts :=
  deps.additionalContexts.foldlM (fun ctxs path => (preferredName deps path).map (register ctxs path)) {}

/-- What the Dockerfile copies, the build contexts that it needs, and the updated config. -/
structure DockerBuild where
  requirements : List CopyLine
  packages : List CopyLine
  additionalContexts : OrdDict String Path
  workingDir : Option Path
  graphs : List (String × Import)
  auth : Option Import
  encryption : Option Import
  checkpointer : Option Import
  httpApp : Option Import

def pythonConfigToDocker (project : Project) (config : Config) : Except DockerError DockerBuild := do
  let deps ← assembleLocalDeps project config
  let graphs ← updateGraphPaths project config deps
  let auth ← updateAuthPath project config deps
  let encryption ← updateEncryptionPath project config deps
  let checkpointer ← updateCheckpointerPath project config deps
  let httpApp ← updateHttpAppPath project config deps
  let requirements ← deps.pipReqs.mapM (requirementLine project deps)
  let ctxs ← registerContexts deps
  return {
    requirements
    packages := packageLines deps
    additionalContexts := ctxs.additionalContexts
    workingDir := deps.workingDir
    graphs
    auth
    encryption
    checkpointer
    httpApp }

end LangGraph.Cli
