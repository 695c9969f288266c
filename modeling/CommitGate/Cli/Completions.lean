import CommitGate.Cli.Option

/-!
# Completions

A script for each shell that offers the commands of the program and the long options.
-/

namespace CommitGate.Cli

/-- The long options of the program and of all its commands. -/
def Opt.spellings : List String :=
  (Opt.globals ++ CommandName.all.flatMap CommandName.options).eraseDups.map fun o => "--" ++ o.long

/-- The words that a completion offers. -/
def offeredWords : List String :=
  CommandName.all.map CommandName.name ++ Opt.spellings

namespace CompletionShell

/-- The lines of the script for a shell. -/
def scriptLines (s : CompletionShell) : List String :=
  let words := " ".intercalate offeredWords
  match s with
  | .bash => ["complete -W \"" ++ words ++ "\" pcg"]
  | .elvish => ["set edit:completion:arg-completer[pcg] = \x7b|@args| put " ++ words ++ " \x7d"]
  | .fish => offeredWords.map fun w => "complete -c pcg -f -a \"" ++ w ++ "\""
  | .powershell => [
    "Register-ArgumentCompleter -Native -CommandName pcg -ScriptBlock \x7b",
    "  param($wordToComplete)",
    "  '" ++ words ++ "'.Split(' ') | Where-Object \x7b $_ -like \"$wordToComplete*\" \x7d",
    "\x7d"]
  | .zsh => ["#compdef pcg", "compadd -- " ++ words]

/-- The script for a shell (`completions`). -/
def script (s : CompletionShell) : String :=
  String.join (s.scriptLines.map (· ++ "\n"))

end CompletionShell

end CommitGate.Cli
