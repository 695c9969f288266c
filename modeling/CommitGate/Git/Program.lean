import CommitGate.Git.Layout

/-!
# The git program

The part of git that prepares a repository: `init` makes a git directory, `config` reads and changes
its settings. Each call ends with an exit code. An argument is a text whose characters are octets.
-/

namespace CommitGate.Git

/-- The exit code of a call, and the host after it. -/
abbrev Outcome := Nat × Host

/-- The exit code of calls that cannot go on. -/
def fatal : Nat := 128

/-! ## Making a repository -/

/-- The files of a new git directory. -/
def initialFiles (bare template : Bool) : List (String × String) :=
  [("HEAD", "ref: refs/heads/master\n"),
    ("config", "[core]\n\trepositoryformatversion = 0\n\tfilemode = true\n\tbare = "
      ++ toString bare ++ "\n" ++ if bare then "" else "\tlogallrefupdates = true\n")]
  ++ if template then
    [("description", "Unnamed repository; edit this file 'description' to name the repository.\n"),
      ("info/exclude", "# Lines that start with '#' are comments.\n")]
    else []

/-- The directories of a new git directory. -/
def initialDirectories (template : Bool) : List String :=
  ["objects/info", "objects/pack", "refs/heads", "refs/tags"]
    ++ if template then ["hooks", "info"] else []

/-- Makes the git directory at a path; files that exist are left alone. -/
def makeGitDirectory (h : Host) (p : Path) (bare template : Bool) : Host :=
  let h := (initialDirectories template).foldl (fun h d => (h.makePath (p.child d)).2) h
  (initialFiles bare template).foldl (fun h f =>
    if h.pathExists (p.child f.1) then h
    else ((h.writeFile (p.child f.1) (Text.encode f.2.toList)).toOption).getD h) h

/-- The options of `init`. -/
structure InitOptions where
  bare : Bool := false
  template : Bool := true
  directory : Option String := none

/-- Reads the arguments of `init`. -/
def initOptions? (o : InitOptions) : List String → Option InitOptions
  | [] => some o
  | a :: r =>
    if a = "--bare" then initOptions? { o with bare := true } r
    else if a = "--quiet" ∨ a = "-q" then initOptions? o r
    else if "--template=".toList.isPrefixOf a.toList then
      initOptions? { o with template := a.length ≠ 11 } r
    else if a.toList.head? = some '-' ∨ o.directory.isSome then none
    else initOptions? { o with directory := some a } r

/-- Makes a repository. -/
def initialise (h : Host) (args : List String) : Outcome :=
  match initOptions? {} args with
  | none => (129, h)
  | some o =>
    let top : Path := ⟨.ofWide (o.directory.getD ".")⟩
    let gitDirectory := if o.bare then top else top.child ".git"
    match h.makePath top with
    | (.error _, h) => (fatal, h)
    | (.ok (), h) => (0, makeGitDirectory h gitDirectory o.bare o.template)

/-! ## Settings -/

/-- Changes the settings of a git directory; a change that cannot be made has an exit code. -/
def change (h : Host) (place : List RawText) (f : List Line → Except Nat (List Line)) : Outcome :=
  let file := commonDirectory h place ++ [("config" : RawText)]
  let old := (fileText? h file).getD []
  match f (readConfig old) with
  | .error code => (code, h)
  | .ok ls =>
    match h.writeFile (Host.absolute file) (Text.narrow (writeConfig ls)) with
    | .ok h => (0, h)
    | .error _ => (4, h)

/-- The name of a setting as it is spelled. -/
def spelledName (key : String) : List Char :=
  ((Text.splitOn ['.'] key.toList).getLast?).getD []

/-- Changes or asks for a setting in a git directory. -/
def configure (h : Host) (place : List RawText) : List String → Outcome
  | ["--get", key] =>
    match Key.ofText? key with
    | none => (2, h)
    | some k => (if (setting? h place k).isSome then 0 else 1, h)
  | ["--unset", key] =>
    match Key.ofText? key with
    | none => (2, h)
    | some k => change h place fun ls =>
      if (getAll ls k).length = 1 then .ok (replaceKey k none [] ls) else .error 5
  | ["--unset-all", key] =>
    match Key.ofText? key with
    | none => (2, h)
    | some k => change h place fun ls =>
      if getAll ls k = [] then .error 5 else .ok (replaceKey k none [] ls)
  | ["--add", key, value] =>
    match Key.ofText? key with
    | none => (2, h)
    | some k => change h place fun ls =>
      let line := Line.ofRaw (writeSetting (spelledName key) value.toList)
      .ok ((insertInSection k.sectionName line false ls).getD
        (ls ++ [Line.ofRaw (writeHeader k.sectionName), line]))
  | [key, value] =>
    match Key.ofText? key with
    | none => (2, h)
    | some k => change h place fun ls =>
      (set? ls k (spelledName key) value.toList).elim (.error 5) .ok
  | [key] =>
    match Key.ofText? key with
    | none => (2, h)
    | some k => (if (setting? h place k).isSome then 0 else 1, h)
  | _ => (129, h)

/-- Changes or asks for a setting in the repository of the working directory. -/
def config (h : Host) (args : List String) : Outcome :=
  let args := args.filter (· ≠ "--local")
  match (discover h h.directory).gitDirectory? with
  | some place => configure h place args
  | none => (if args.head? = some "--get" then 1 else fatal, h)

/-- Runs git in the working directory. -/
def run (h : Host) : List String → Outcome
  | "init" :: args => initialise h args
  | "config" :: args => config h args
  | "rev-parse" :: _ => (if (discover h h.directory).workTree?.isSome then 0 else fatal, h)
  | [] => (1, h)
  | "status" :: _ => (if (discover h h.directory).workTree?.isSome then 0 else fatal, h)
  | _ => (1, h)

end CommitGate.Git
