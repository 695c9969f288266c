/-!
# Faults of the operating system

What a file operation or the start of a process can fail with, and how each fault is worded. A fault
is a cause of a failure, never a failure of its own.

Results:

* `text_injective`: different faults have different texts.
-/

namespace CommitGate

/-- A fault reported by the operating system, or by the layer that hands a path or a file over. -/
inductive Fault where
  | notFound
  | exists
  | notDirectory
  | isDirectory
  | notEmpty
  | tooManyLinks
  | invalidArgument
  | busy
  | permission
  /-- A path with a NUL character. -/
  | nulInPath
  /-- A command or directory with a NUL character. -/
  | nulInCommand
  /-- A file that was to be text is not UTF-8. -/
  | notUtf8
deriving DecidableEq, Repr

/-- The wording of a fault. -/
def Fault.text : Fault → String
  | .notFound => "No such file or directory (os error 2)"
  | .exists => "File exists (os error 17)"
  | .notDirectory => "Not a directory (os error 20)"
  | .isDirectory => "Is a directory (os error 21)"
  | .notEmpty => "Directory not empty (os error 39)"
  | .tooManyLinks => "Too many levels of symbolic links (os error 40)"
  | .invalidArgument => "Invalid argument (os error 22)"
  | .busy => "Device or resource busy (os error 16)"
  | .permission => "Permission denied (os error 13)"
  | .nulInPath => "file name contained an unexpected NUL byte"
  | .nulInCommand => "nul byte found in provided data"
  | .notUtf8 => "stream did not contain valid UTF-8"

theorem Fault.text_injective {a b : Fault} (h : a.text = b.text) : a = b := by
  revert h; cases a <;> cases b <;> decide

end CommitGate
