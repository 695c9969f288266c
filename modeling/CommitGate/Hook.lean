import CommitGate.Repository
import CommitGate.Rule

/-!
# The hook

The hook is a script that git runs before a commit. A marker in its text tells a script of this
program from any other. A foreign script is left alone, or moved to a backup when that is forced.
Nothing moves when the backup is another name of the same file; the script is then written over it.

Results:

* `marker_stands_in_script`: the script is recognised by its marker.
-/

namespace CommitGate

namespace Hook

/-- The name of the hook. -/
def name : RawText := "pre-commit"

/-- The name that a foreign hook is moved to. -/
def backupName : RawText := "pre-commit.bak"

/-- Stands in every script of this program (`HOOK_MARKER`). -/
def marker : String := "# precommit-gate hook"

/-- The lines of the script. -/
def scriptLines : List String := [
  "#!/bin/sh",
  "# precommit-gate hook - installed by \x60pcg install\x60",
  "",
  "# Skip if PCG_SKIP is set",
  "if [ \"$PCG_SKIP\" = \"1\" ]; then",
  "    exit 0",
  "fi",
  "",
  "exec pcg run"]

/-- The script (`HOOK_SCRIPT`). -/
def script : String :=
  String.join (scriptLines.map (· ++ "\n"))

/-- The octets of the script. -/
def scriptOctets : Text.Octets :=
  Text.encode script.toList

theorem marker_stands_in_script : stands marker script = true := by
  decide +kernel

end Hook

/-- How an installation ends (`HookInstall`). -/
inductive Installation where
  /-- The hook is there already. -/
  | already (path : Path)
  /-- The hook was written; a foreign one went to the backup. -/
  | installed (path : Path) (backup : Option Path)
deriving DecidableEq, Repr

/-- How a removal ends (`HookRemoval`). -/
inductive Removal where
  /-- There is nothing to remove. -/
  | absent (path : Path)
  /-- The hook is none of this program. -/
  | foreign (path : Path)
  /-- The hook was removed; a backup is still there. -/
  | removed (path : Path) (backup : Option Path)
deriving DecidableEq, Repr

namespace Host

/-- The script at a path has the marker (`is_our_hook`). -/
def isOwnHook (h : Host) (p : Path) : Except Failure Bool :=
  match h.readText p with
  | .ok s => .ok (stands Hook.marker s)
  | .error e => .error (.ofFault "read existing hook" e)

/-- Makes a file executable (`make_executable`). -/
def makeExecutable (h : Host) (p : Path) : Except Failure Unit × Host :=
  match h.entry p with
  | .error e => (.error (.ofFault "get hook metadata" e), h)
  | .ok _ =>
    match h.setMode p Entry.scriptMode with
    | .error e => (.error (.ofFault "set hook perms" e), h)
    | .ok made => (.ok (), made)

/-- Writes the script and makes it executable. -/
def writeHook (h : Host) (p : Path) (backup : Option Path) : Except Failure Installation × Host :=
  match h.writeFile p Hook.scriptOctets with
  | .error e => (.error (.ofFault "write hook" e), h)
  | .ok written =>
    match written.makeExecutable p with
    | (.error f, left) => (.error f, left)
    | (.ok (), made) => (.ok (.installed p backup), made)

/-- Installs the hook in a directory that exists. -/
def installIn (h : Host) (hooks : Path) (force : Bool) : Except Failure Installation × Host :=
  let hook := hooks.child Hook.name
  if h.pathExists hook then
    match h.isOwnHook hook with
    | .error f => (.error f, h)
    | .ok true => (.ok (.already hook), h)
    | .ok false =>
      if !force then (.error (.hookExists hook), h)
      else
        let backup := hooks.child Hook.backupName
        match h.rename hook backup with
        | .error e => (.error (.ofFault "backup hook" e), h)
        | .ok moved => moved.writeHook hook (some backup)
  else h.writeHook hook none

/-- Installs the hook in a directory, which is made if it does not exist (`install_hook`). -/
def installHook (h : Host) (hooks : Path) (force : Bool) : Except Failure Installation × Host :=
  match h.makePath hooks with
  | (.error e, h) => (.error (.ofFault "create hooks dir" e), h)
  | (.ok (), h) => h.installIn hooks force

/-- Removes the hook from a directory (`uninstall_hook`). -/
def uninstallHook (h : Host) (hooks : Path) : Except Failure Removal × Host :=
  let hook := hooks.child Hook.name
  if !h.pathExists hook then (.ok (.absent hook), h)
  else
    match h.isOwnHook hook with
    | .error f => (.error f, h)
    | .ok false => (.ok (.foreign hook), h)
    | .ok true =>
      match h.removeFile hook with
      | .error e => (.error (.ofFault "remove hook" e), h)
      | .ok left =>
        let backup := hooks.child Hook.backupName
        (.ok (.removed hook (if left.pathExists backup then some backup else none)), left)

end Host

end CommitGate
