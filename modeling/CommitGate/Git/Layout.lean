import CommitGate.Git.ConfigFile
import CommitGate.Host

/-!
# The layout of git repositories

A git directory holds the state of a repository. It stands in a work tree under the name `.git`, or
a file of that name points to it, or it is a bare repository of its own. A linked work tree has a
git directory that names the common one. The repository of a directory is looked for there and in
the directories above, up to a ceiling.
-/

namespace CommitGate.Git

open Text (Octets)

/-- The text of the file at a place, links followed. -/
def fileText? (h : Host) (place : List RawText) : Option (List Char) :=
  (h.readFile (Host.absolute place)).toOption.map Text.wide

/-- The text without the line ends at its end. -/
def chomp (s : List Char) : List Char :=
  (s.reverse.dropWhile fun c => c = '\n' ∨ c = '\r').reverse

/-- There is a directory at the place, links followed. -/
def isDirectoryAt (h : Host) (place : List RawText) : Bool :=
  h.isDirectory (Host.absolute place)

/-- The place of a path that is written at a place. -/
def placeOf? (h : Host) (place : List RawText) (path : List Char) : Option (List RawText) :=
  ({ h with directory := place }.canonical ⟨⟨Text.narrow path⟩⟩).toOption

/-- The text says what is checked out: a name of a reference, or the name of a commit. -/
def isHead (s : List Char) : Bool :=
  match s with
  | 'r' :: 'e' :: 'f' :: ':' :: r => "refs/".toList.isPrefixOf (r.dropWhile isBlank)
  | _ => 40 ≤ (s.takeWhile fun c => c.isDigit || ('a' ≤ c && c ≤ 'f')).length

/-- There is a valid `HEAD` in the directory. -/
def hasHead (h : Host) (place : List RawText) : Bool :=
  match h.tree.get? (place ++ [("HEAD" : RawText)]) with
  | some (.link _ target) => "refs/".toList.isPrefixOf (Text.wide target.octets)
  | _ => (fileText? h (place ++ [("HEAD" : RawText)])).any isHead

/-- The common git directory of a git directory: itself, unless it belongs to a linked work tree. -/
def commonDirectory (h : Host) (place : List RawText) : List RawText :=
  match fileText? h (place ++ [("commondir" : RawText)]) with
  | some s => (placeOf? h place (chomp s)).getD place
  | none => place

/-- The directory is a git directory. -/
def isGitDirectory (h : Host) (place : List RawText) : Bool :=
  hasHead h place && isDirectoryAt h (commonDirectory h place ++ [("objects" : RawText)])
    && isDirectoryAt h (commonDirectory h place ++ [("refs" : RawText)])

/-- The lines of the configuration file of a git directory; a missing file has none. -/
def configLines (h : Host) (gitDirectory : List RawText) : List Line :=
  ((fileText? h (commonDirectory h gitDirectory ++ [("config" : RawText)])).map readConfig).getD []

/-- The setting of a git directory. -/
def setting? (h : Host) (gitDirectory : List RawText) (k : Key) : Option (List Char) :=
  get? (configLines h gitDirectory) k

/-- The git directory is configured as a bare repository. -/
def isBare (h : Host) (gitDirectory : List RawText) : Bool :=
  match setting? h gitDirectory ⟨"core".toList, "bare".toList⟩ with
  | some v => ["true", "yes", "on", "1"].contains (String.ofList (folded v))
  | none => false

/-- What is found when the repository of a directory is looked for. -/
inductive Discovery where
  /-- There is none. -/
  | none
  /-- Something that should lead to a git directory does not. -/
  | broken
  /-- A bare repository, or the inside of a git directory. -/
  | bare (gitDirectory : List RawText)
  /-- A work tree with its git directory. -/
  | work (workTree gitDirectory : List RawText)
deriving DecidableEq, Repr

namespace Discovery

/-- The git directory that was found. -/
def gitDirectory? : Discovery → Option (List RawText)
  | .bare g | .work _ g => some g
  | _ => Option.none

/-- The work tree that was found. -/
def workTree? : Discovery → Option (List RawText)
  | .work w _ => some w
  | _ => Option.none

end Discovery

/-- The git directory that a `.git` file in a directory points to. -/
def pointedDirectory? (h : Host) (place : List RawText) (s : List Char) : Option (List RawText) :=
  if "gitdir: ".toList.isPrefixOf s then
    (placeOf? h place (chomp (s.drop 8))).filter (isGitDirectory h)
  else Option.none

/-- The repository at a directory itself; nothing when there is none. -/
def discoverAt? (h : Host) (place : List RawText) : Option Discovery :=
  let found := fun g =>
    if !(configLines h g).all Line.isSound then Discovery.broken
    else if isBare h g then .bare g
    else .work place g
  let inner := place ++ [(".git" : RawText)]
  match h.entry (Host.absolute inner) with
  | .ok (.file _ content _) =>
    some ((pointedDirectory? h place (Text.wide content)).elim .broken found)
  | _ =>
    if isGitDirectory h inner then some (found inner)
    else if isGitDirectory h place then some (.bare place)
    else Option.none

/-- The places above which nothing is looked for. -/
def ceilings (h : Host) : List (List RawText) :=
  match h.value? "GIT_CEILING_DIRECTORIES" with
  | Option.none => []
  | some s =>
    (Text.splitOn [Host.colon] s.octets).filterMap fun p => (h.canonical ⟨⟨p⟩⟩).toOption

/-- The place and those above it, at most `n` of them. -/
def placesUp : Nat → List RawText → List (List RawText)
  | 0, _ => []
  | n + 1, place => place :: placesUp n place.dropLast

/-- Looks for the repository of a place. Directories at a ceiling or above it are left out, the
starting place apart. -/
def discover (h : Host) (place : List RawText) : Discovery :=
  let lowest := ((ceilings h).filter fun c => c.isPrefixOf place ∧ c.length < place.length).foldl
    (fun n c => max n (c.length + 1)) 0
  ((placesUp (place.length + 1 - lowest) place).findSome? (discoverAt? h)).getD .none

/-! ## What git tells -/

/-- The octet at the end of a line. -/
def newline : UInt8 := 0x0A

/-- How the git directory of a work tree is told: by its name at the top of that work tree, and
elsewhere by its place. -/
def toldGitDirectory (h : Host) (top git : List RawText) : Path :=
  if git = top ++ [(".git" : RawText)] ∧ h.directory = top then ⟨".git"⟩
  else Host.absolute ((h.canonical (Host.absolute git)).toOption.getD git)

/-- The output of `rev-parse --show-toplevel --git-dir` in the working directory, which fails
outside of a work tree. Each path stands on a line as it is, whatever its octets are. -/
def tellRepository? (h : Host) : Option Octets :=
  match discover h h.directory with
  | .work top git =>
    some ((Host.absolute top).spelling.octets ++ newline ::
      (toldGitDirectory h top git).spelling.octets ++ [newline])
  | _ => Option.none

/-- The output of `config --get` in the working directory, which fails without such a setting. -/
def tellSetting? (h : Host) (k : Key) : Option Octets := do
  let git ← (discover h h.directory).gitDirectory?
  let value ← setting? h git k
  some (Text.narrow value ++ [newline])

end CommitGate.Git
