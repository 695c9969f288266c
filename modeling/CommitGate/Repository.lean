import CommitGate.Failure
import CommitGate.Git.Layout

/-!
# Repositories

A repository is the top of a work tree with its git directory, as git prints them for a directory
inside: two lines of text. Hooks stand in the directory that `core.hooksPath` names, or else in
`hooks` inside the git directory.
-/

namespace CommitGate

/-- The top of a work tree, and its git directory (`GitRepo`). -/
structure Repository where
  root : Path
  gitDirectory : Path
deriving DecidableEq, Repr

/-- A path as seen from a directory (`absolute_under`). -/
def Path.under (root : Path) (s : String) : Path :=
  root.join ⟨s⟩

namespace Host

/-- The command that asks git for a repository. -/
def discoverCommand : String := "git rev-parse --show-toplevel --git-dir"

/-- The repository that a directory belongs to (`discover_from`). What git prints is read as text,
and its first two lines are the paths. -/
def repository (h : Host) (directory : Path) : Except Failure Repository :=
  match h.startIn directory with
  | .error e => .error (.spawn discoverCommand [e.text])
  | .ok inside =>
    if (h.findProgram? "git").isNone then .error (.spawn discoverCommand [Fault.notFound.text])
    else
      match Git.tellRepository? inside with
      | none => .error .notGitRepo
      | some printed =>
        match Text.lines (String.ofList (Text.decodeLossy printed)) with
        | root :: gitDirectory :: _ => .ok ⟨⟨root⟩, Path.under ⟨root⟩ gitDirectory⟩
        | _ => .error .notGitRepo

/-- The setting that names the directory for hooks. -/
def hooksKey : Git.Key := ⟨"core".toList, "hookspath".toList⟩

/-- The directory for hooks that is configured, when git can be asked and there is one: what git
prints, read as text and without the blanks around it. -/
def configuredHooks? (h : Host) (r : Repository) : Option String := do
  let inside ← (h.startIn r.root).toOption
  let _ ← h.findProgram? "git"
  let printed ← Git.tellSetting? inside hooksKey
  let path := Text.trimmed (Text.decodeLossy printed)
  if path = [] then none else some (String.ofList path)

/-- The directory of the hooks of a repository (`hooks_dir`). -/
def hooksDirectory (h : Host) (r : Repository) : Path :=
  match h.configuredHooks? r with
  | some s => r.root.under s
  | none => r.gitDirectory.child "hooks"

/-- The path of a hook (`hook_path`). -/
def hookPath (h : Host) (r : Repository) (name : RawText) : Path :=
  (h.hooksDirectory r).child name

end Host

end CommitGate
