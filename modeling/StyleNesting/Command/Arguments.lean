/-
  StyleNesting/Command/Arguments.lean
  ===================================
  **Command lines.**  Options start with one hyphen and a letter, or with two
  hyphens and a word.  Letters can be written together; the value of an option
  is the rest of its argument or the next argument, whatever that looks like.
  After two hyphens alone, nothing is an option any more.
-/
import StyleNesting.Options.Mapping

namespace StyleNesting

/-- The options that the commands know. -/
inductive Switch where
  | verbose
  | version
  | help
  | output
  | config
  | indent
  | toggle (name : OptionName) (on : Bool)
deriving DecidableEq, Repr

/-- Whether an option takes a value. -/
def Switch.takesValue : Switch → Bool
  | .output => true
  | .config => true
  | .indent => true
  | _ => false

/-- The options of a command. -/
structure CommandSpec where
  /-- The options by their words, with the two hyphens. -/
  words : List (String × Switch)
  /-- The options by their letters. -/
  letters : List (Char × Switch)
  /-- Whether options may stand after the first argument that is none. -/
  interspersed : Bool

namespace CommandSpec

def word? (c : CommandSpec) (w : Text) : Option Switch :=
  (c.words.find? fun e => e.1.toList == w).map (·.2)

def letter? (c : CommandSpec) (l : Char) : Option Switch :=
  (c.letters.find? fun e => e.1 == l).map (·.2)

/-- The two spellings of every toggle. -/
def toggles : List (String × Switch) :=
  OptionName.all.flatMap fun n =>
    [("--" ++ n.hyphenated, .toggle n true), ("--no-" ++ n.hyphenated, .toggle n false)]

/-- What may stand before the name of a command. -/
def group : CommandSpec :=
  ⟨[("--version", .version), ("--verbose", .verbose), ("--help", .help)], [('v', .verbose)], false⟩

def nest : CommandSpec :=
  ⟨[("--output", .output), ("--config", .config), ("--indent", .indent), ("--help", .help)] ++
    toggles, [('o', .output)], true⟩

def format : CommandSpec :=
  ⟨[("--output", .output), ("--indent", .indent), ("--help", .help)], [('o', .output)], true⟩

end CommandSpec

/-- A command line taken apart. -/
structure Arguments where
  /-- The options in order, with their values. -/
  switches : List (Switch × Text) := []
  /-- The arguments that are no options. -/
  positional : List Text := []

namespace Arguments

def addSwitches (a : Arguments) (ss : List (Switch × Text)) : Arguments :=
  { a with switches := ss ++ a.switches }

def addPositional (a : Arguments) (t : Text) : Arguments :=
  { a with positional := t :: a.positional }

/-- The value of the last occurrence of an option. -/
def value? (a : Arguments) (s : Switch) : Option Text :=
  ((a.switches.filter fun e => e.1 == s).getLast?).map (·.2)

def has (a : Arguments) (s : Switch) : Bool := a.switches.any fun e => e.1 == s

/-- What the toggles say, in order. -/
def overrides (a : Arguments) : Overrides :=
  a.switches.filterMap fun e =>
    match e.1 with
    | .toggle n on => some (n, on)
    | _ => none

end Arguments

/-- Options that are written together by their letters: those that are complete,
    and the last one if its value is still to come. -/
def letterGroup (c : CommandSpec) : Text → Option (List (Switch × Text) × Option Switch)
  | [] => some ([], none)
  | l :: rest => do
    let s ← c.letter? l
    if s.takesValue then
      if rest.isEmpty then some ([], some s) else some ([(s, rest)], none)
    else
      let (more, pending) ← letterGroup c rest
      some ((s, []) :: more, pending)

/-- The option that an argument with two hyphens stands for, and its value if it
    is attached by an equals sign. -/
def wordOption (c : CommandSpec) (arg : Text) : Option (List (Switch × Text) × Option Switch) := do
  let name := arg.takeWhile (· != '=')
  let s ← c.word? name
  match arg.dropWhile (· != '=') with
  | [] => if s.takesValue then some ([], some s) else some ([(s, [])], none)
  | _ :: v => if s.takesValue then some ([(s, v)], none) else none

/-- What one argument of a command line is. -/
inductive ArgumentKind where
  /-- Two hyphens alone: nothing after them is an option. -/
  | stop
  /-- Options, the last of which may still need a value. -/
  | switches (found : List (Switch × Text)) (pending : Option Switch)
  | plain
  | invalid
deriving DecidableEq, Repr

/-- The options that an argument stands for, if they are valid. -/
def ArgumentKind.ofOptions : Option (List (Switch × Text) × Option Switch) → ArgumentKind
  | some (found, pending) => .switches found pending
  | none => .invalid

/-- Tell what an argument is.  A hyphen alone is a plain argument. -/
def classify (c : CommandSpec) (arg : Text) : ArgumentKind :=
  match arg with
  | ['-', '-'] => .stop
  | '-' :: '-' :: _ => .ofOptions (wordOption c arg)
  | '-' :: l :: ls => .ofOptions (letterGroup c (l :: ls))
  | _ => .plain

/-- Take a command line apart.  There is no result if an option is unknown, has
    no value where it needs one, or has a value where it takes none. -/
def takeApart (c : CommandSpec) : List Text → Option Arguments
  | [] => some {}
  | arg :: rest =>
    match classify c arg with
    | .stop => some { positional := rest }
    | .invalid => none
    | .plain =>
      if c.interspersed then (takeApart c rest).map (·.addPositional arg)
      else some { positional := arg :: rest }
    | .switches found none => (takeApart c rest).map (·.addSwitches found)
    | .switches found (some s) =>
      match rest with
      | [] => none
      | v :: rest' => (takeApart c rest').map (·.addSwitches (found ++ [(s, v)]))

end StyleNesting
