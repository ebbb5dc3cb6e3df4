/-
  StyleNesting/Command/Run.lean
  =============================
  **The commands.**  `nest` compacts a stylesheet, `format` only prints it
  again.  A command reads its configuration first and its input after it, and
  has a stylesheet to print before it turns to its output.  What happens there
  is partly up to the platform: when the output is opened, and so emptied, and
  whether there is room for the text.
-/
import StyleNesting.Command.Arguments
import StyleNesting.Options.File
import StyleNesting.Sheet.Printer
import StyleNesting.Source.Parser

namespace StyleNesting

/-! ### How commands end -/

/-- Why a command broke off with no error message of its own. -/
inductive Breakdown where
  /-- The input or the configuration is not text. -/
  | undecodable
  | longInteger (error : Text.LongInteger)
  /-- A path holds the character that ends all paths. -/
  | nullInPath
  /-- The indent is wider than a text can be long. -/
  | wideIndent
  /-- There is no room for the text. -/
  | outOfMemory
deriving DecidableEq, Repr

/-- How a command ended. -/
structure Outcome where
  exitCode : Nat
  stdout : Text := []
  stderr : String := ""
  directory : Directory
  breakdown : Option Breakdown := none

/-- Why a command is not started. -/
inductive StartError where
  /-- The command line is wrong. -/
  | usage
  | breakdown (b : Breakdown)
deriving DecidableEq, Repr

/-- What an input that cannot be opened means for the command. -/
def StartError.ofPath : PathError → StartError
  | .hasNull => .breakdown .nullInPath
  | _ => .usage

/-- Where a command writes its result. -/
inductive Sink where
  | stdout
  | file (place : Place)
deriving DecidableEq, Repr

namespace Sink

/-- What is printed of a text. -/
def printed (s : Sink) (t : Text) : Text :=
  match s with
  | .stdout => t
  | .file _ => []

/-- The files after a text was written; nothing else is left of the file it was written to. -/
def files (s : Sink) (d : Directory) (t : Text) : Directory :=
  match s with
  | .stdout => d
  | .file p => d.put p t

end Sink

/-- When an output is opened, which leaves it empty. -/
inductive Opening where
  /-- When a text is written to it. -/
  | atFirstWrite
  /-- Ahead of that, when the text is still to be made. -/
  | ahead
deriving DecidableEq, Repr

/-- What commands depend on and do not decide. -/
structure Platform where
  opening : Opening
  /-- Whether there is room for a stylesheet printed with an indent of some width. -/
  hasRoom : Nat → Node → Bool

/-- Why a stylesheet cannot be printed with an indent of some width.  On every platform
    texts have fewer than 2 ^ 63 characters. -/
def Platform.breakdown? (p : Platform) (width : Nat) (n : Node) : Option Breakdown :=
  if Nat.pow 2 63 ≤ width then some .wideIndent
  else if p.hasRoom width n then none
  else some .outOfMemory

/-- What a command is run on. -/
structure Environment where
  stdin : Stored
  directory : Directory

namespace Environment

/-- The command line was wrong. -/
def usageError (e : Environment) : Outcome :=
  { exitCode := 2
    stderr := "Usage: cssnest [OPTIONS] COMMAND [ARGS]...\n"
    directory := e.directory }

/-- The command failed with a message. -/
def failed (e : Environment) (message : String) : Outcome :=
  { exitCode := 1, stderr := message, directory := e.directory }

/-- The command broke off after it had logged something. -/
def brokeOff (e : Environment) (log : String) (b : Breakdown) : Outcome :=
  { exitCode := 1, stderr := log, directory := e.directory, breakdown := some b }

/-- The command was not started. -/
def notStarted (e : Environment) : StartError → Outcome
  | .usage => e.usageError
  | .breakdown b => e.brokeOff "" b

/-- The command had nothing to do but to print something. -/
def printed (e : Environment) (t : String) : Outcome :=
  { exitCode := 0, stdout := t.toList, directory := e.directory }

/-- The input that an argument names. -/
def input (e : Environment) (path : Text) : Except PathError Stored :=
  if path == ['-'] then .ok e.stdin else e.directory.read path

/-- The output that an option names. -/
def openOutput (e : Environment) (path : Text) : Except PathError Sink :=
  if path == ['-'] then .ok .stdout else (e.directory.openForWriting path).map .file

/-- Open the output of a command and write its result, unless there is none. -/
def writeOut (e : Environment) (path : Text) (log : String) (result : Except Breakdown Text) :
    Outcome :=
  match e.openOutput path with
  | .error .hasNull => e.brokeOff log .nullInPath
  | .error reason =>
    e.failed (log ++ "Error: Could not open file " ++ Text.quotedString path ++ ": " ++
      reason.message ++ "\n")
  | .ok sink =>
    match result with
    | .ok t =>
      { exitCode := 0
        stdout := sink.printed t
        stderr := log
        directory := sink.files e.directory t }
    | .error b => { e.brokeOff log b with directory := sink.files e.directory [] }

/-- Deliver the result of a command.  An output that is opened at the first write is not opened
    if there is nothing to write. -/
def deliver (e : Environment) (opening : Opening) (path : Text) (log : String)
    (result : Except Breakdown Text) : Outcome :=
  match opening, result with
  | .atFirstWrite, .error b => e.brokeOff log b
  | _, _ => e.writeOut path log result

end Environment

/-! ### What commands are told -/

/-- The width of the indent, if it is one. -/
def Arguments.indent? (a : Arguments) : Option Nat :=
  match a.value? .indent with
  | none => some 2
  | some t =>
    match Text.integer? t with
    | some (.ofNat n) => some n
    | _ => none

/-- Check the value of an option. -/
def checkSwitch (e : Environment) (a : Arguments) : Switch → Except StartError Unit
  | .indent => if a.indent?.isSome then .ok () else .error .usage
  | .config =>
    match (a.value? .config).map e.directory.read with
    | some (.error err) => .error (.ofPath err)
    | _ => .ok ()
  | _ => .ok ()

/-- Check the values of options, in the order in which they were given. -/
def checkSwitches (e : Environment) (a : Arguments) : List Switch → Except StartError Unit
  | [] => .ok ()
  | s :: ss =>
    match checkSwitch e a s with
    | .ok _ => checkSwitches e a ss
    | .error err => .error err

/-- What both commands are told. -/
structure Job where
  input : Stored
  output : Text
  indent : Nat

/-- The job that a command line describes.  Options are checked first, then the
    input is opened, and there must not be a second one. -/
def Job.of (e : Environment) (a : Arguments) : Except StartError Job :=
  match checkSwitches e a (a.switches.map (·.1)) with
  | .error err => .error err
  | .ok _ =>
    match e.input (a.positional.head?.getD ['-']) with
    | .error err => .error (.ofPath err)
    | .ok input =>
      if 1 < a.positional.length then .error .usage
      else .ok ⟨input, (a.value? .output).getD ['-'], a.indent?.getD 2⟩

/-! ### The work -/

/-- What a run logged, as lines of text. -/
def logText (verbose : Bool) (p : Progress) : String :=
  if verbose then String.join (p.events.map Event.line) else ""

/-- Read the input of a job and go on with the stylesheet. -/
def Job.withSheet (j : Job) (e : Environment) (continueWith : Node → Outcome) : Outcome :=
  match j.input with
  | .bytes _ => e.brokeOff "" .undecodable
  | .text t =>
    match Source.parse (Text.unifyLineEnds t) with
    | .error err => e.failed ("Parse error: " ++ err.message ++ "\n")
    | .ok n => continueWith n

/-- One step of the indent.  It is empty if no line of the stylesheet is indented. -/
def Job.indentStep (j : Job) (n : Node) : Text :=
  if n.nodes.all (·.nodes.isEmpty) then [] else List.replicate j.indent ' '

/-- The text of a stylesheet, if it can be printed. -/
def Job.text (j : Job) (p : Platform) (n : Node) : Except Breakdown Text :=
  match p.breakdown? j.indent n with
  | some b => .error b
  | none => .ok (n.print (j.indentStep n))

/-- Print a stylesheet and write it to the output. -/
def Job.finish (j : Job) (p : Platform) (e : Environment) (log : String) (n : Node) : Outcome :=
  e.deliver p.opening j.output log (j.text p n)

/-- Print a stylesheet again. -/
def Job.format (j : Job) (p : Platform) (e : Environment) : Outcome :=
  j.withSheet e (j.finish p e "")

/-- The options of a command line: its toggles on top of its configuration. -/
def commandOptions (e : Environment) (a : Arguments) : Except ConfigFileError Options := do
  let base ← match a.value? .config with
    | none => pure {}
    | some path => Options.ofFile e.directory path
  pure (base.merge a.overrides)

/-- The end of a command that has no options. -/
def Environment.withoutOptions (e : Environment) : ConfigFileError → Outcome
  | .undecodable => e.brokeOff "" .undecodable
  | .nullInPath => e.brokeOff "" .nullInPath
  | .config (.longInteger err) => e.brokeOff "" (.longInteger err)
  | .config err => e.failed ("Error: " ++ err.message ++ "\n")

/-- Compact a stylesheet. -/
def Job.nest (j : Job) (p : Platform) (e : Environment) (a : Arguments) (verbose : Bool) :
    Outcome :=
  match commandOptions e a with
  | .error err => e.withoutOptions err
  | .ok options =>
    j.withSheet e fun n =>
      let (n', progress) := applyTransforms options Factory.clone [] n
      let log := logText verbose progress
      match progress.failure with
      | some (.refused r) => e.failed (log ++ "Error: " ++ r.message ++ "\n")
      | some _ => e.failed log
      | none => j.finish p e log n'

/-! ### Command lines -/

def helpText (command : String) : String := "Usage: cssnest " ++ command ++ "\n"

def versionText : String := "cssnest, version 0.1.0\n"

/-- The commands. -/
inductive Command where
  | nest
  | format
deriving DecidableEq, Repr

namespace Command

def name : Command → String
  | .nest => "nest"
  | .format => "format"

def ofName? (name : Text) : Option Command :=
  [nest, format].find? fun c => name == c.name.toList

/-- The options of a command. -/
def spec : Command → CommandSpec
  | .nest => .nest
  | .format => .format

/-- Do the job of a command. -/
def work (c : Command) (j : Job) (p : Platform) (e : Environment) (a : Arguments)
    (verbose : Bool) : Outcome :=
  match c with
  | .nest => j.nest p e a verbose
  | .format => j.format p e

/-- Run a command with the arguments after its name. -/
def run (c : Command) (p : Platform) (e : Environment) (verbose : Bool) (args : List Text) :
    Outcome :=
  match takeApart c.spec args with
  | none => e.usageError
  | some a =>
    if a.has .help then e.printed (helpText (c.name ++ " [OPTIONS] [SOURCE]"))
    else
      match Job.of e a with
      | .ok j => c.work j p e a verbose
      | .error err => e.notStarted err

end Command

/-- What is printed if the options before the command ask for the version or for help. -/
def Arguments.information? (a : Arguments) : Option String :=
  match a.switches.find? fun s => s.1 == .version || s.1 == .help with
  | some (.version, _) => some versionText
  | some _ => some (helpText "[OPTIONS] COMMAND [ARGS]...")
  | none => none

/-- The end of a command line that names no command.  What was meant as a command
    may be an option that asks for the version or for help. -/
def Environment.noCommand (e : Environment) (args : List Text) : Outcome :=
  match (takeApart .group args).bind Arguments.information? with
  | some t => e.printed t
  | none => e.usageError

/-- Run the command that a command line names. -/
def Platform.runCommand (p : Platform) (e : Environment) (args : List Text) : Outcome :=
  match takeApart .group args with
  | none => e.usageError
  | some a =>
    match a.information? with
    | some t => e.printed t
    | none =>
      match a.positional with
      | [] => e.usageError
      | name :: rest =>
        match Command.ofName? name with
        | some c => c.run p e (a.has .verbose) rest
        | none => e.noCommand (name :: rest)

/-- The platform of the program: outputs are opened ahead, and there is room for every text. -/
def Platform.usual : Platform := ⟨.ahead, fun _ _ => true⟩

/-- Run the command that a command line names, as the program does. -/
def runCommand (e : Environment) (args : List Text) : Outcome := Platform.usual.runCommand e args

/-- Whether a command line makes its command read the standard input. -/
def readsStdin (args : List Text) : Bool :=
  match takeApart .group args with
  | some ⟨_, _ :: rest⟩ =>
    match takeApart .nest rest with
    | some a => !a.has .help && (a.positional == [] || a.positional == [['-']])
    | none => false
  | _ => false

end StyleNesting
