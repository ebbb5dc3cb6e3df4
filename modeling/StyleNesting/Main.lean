/-
  StyleNesting/Main.lean
  ======================
  **The command line program**: collects the files that its arguments name, runs
  the command on them, and writes what the command has changed.
-/
import StyleNesting.Command.Run

namespace StyleNesting.Program

/-- The paths that an argument may name: the argument itself, and what stands
    after an equals sign or right after the letter of an option. -/
def namedPaths (arg : Text) : List Text :=
  [arg, (arg.dropWhile (· != '=')).drop 1, arg.drop 2]

/-- The paths on the way to a path, and the path itself. -/
def onTheWay (path : Text) : List Text :=
  (List.range (path.length + 1)).filterMap fun n =>
    if n = path.length || (path.drop n).head? == some '/' then some (path.take n) else none

/-- The content of a file, if it can be read. -/
def readStored? (path : String) : IO (Option Stored) :=
  try
    return some (Stored.ofBytes (← IO.FS.readBinFile path))
  catch _ => return none

/-- Whether a path leads to a folder. -/
def isFolderPath (path : String) : IO Bool :=
  try
    (← IO.FS.realPath path).isDir
  catch _ => return false

/-- The files and folders in reach of the paths. -/
def collect (paths : List Text) : IO Directory := do
  let mut files := []
  let mut folders := []
  for t in paths do
    let path := String.ofList t
    if ← isFolderPath path then
      folders := folders ++ [Place.ofPath t]
    else if let some content ← readStored? path then
      files := files ++ [(Place.ofPath t, content)]
  return ⟨files, folders⟩

/-- The whole standard input. -/
def readInput : IO Stored := do
  return Stored.ofBytes (← (← IO.getStdin).readBinToEnd)

/-- Write the files that differ from what they were. -/
def writeChanges (before after : Directory) : IO Unit := do
  for (place, content) in after.files do
    if before.fileAt? place != some content then
      if let .text t := content then
        IO.FS.writeFile (String.ofList place.path) (String.ofList t)

/-- What the program says when a command broke off. -/
def breakdownText : Breakdown → String
  | .undecodable => "the input is not UTF-8 text"
  | .longInteger error => error.message
  | .nullInPath => PathError.hasNull.message
  | .wideIndent => "the indent is too wide"
  | .outOfMemory => "the indent is too wide"

end StyleNesting.Program

open StyleNesting StyleNesting.Program

/-- Run the command that the arguments name. -/
def main (args : List String) : IO UInt32 := do
  let texts := args.map String.toList
  let paths := ((texts.flatMap namedPaths).flatMap onTheWay).filter (!·.isEmpty)
  let directory ← collect paths.eraseDups
  let stdin ← if readsStdin texts then readInput else pure (.text [])
  let outcome := runCommand ⟨stdin, directory⟩ texts
  writeChanges directory outcome.directory
  IO.print (String.ofList outcome.stdout)
  IO.eprint outcome.stderr
  if let some b := outcome.breakdown then IO.eprintln ("Error: " ++ breakdownText b)
  return outcome.exitCode.toUInt32
