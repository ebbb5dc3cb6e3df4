/-
  StyleNesting/Options/Mapping.lean
  =================================
  **Options from settings.**  Each option can be spelled in three ways; its
  value is a boolean.  The first entry that is not an option, or not a boolean,
  is the error that is told, if its value can be spelled.
-/
import StyleNesting.Pass.Pipeline
import StyleNesting.Setting.Literal

namespace StyleNesting

/-- The options by name. -/
inductive OptionName where
  | nestDescendants
  | collapseSiblings
  | factorDeclarations
  | nestPseudos
deriving DecidableEq, Repr

namespace OptionName

def all : List OptionName := [nestDescendants, collapseSiblings, factorDeclarations, nestPseudos]

/-- The spelling with underscores. -/
def underscored : OptionName → String
  | .nestDescendants => "nest_descendants"
  | .collapseSiblings => "collapse_nested_siblings"
  | .factorDeclarations => "factor_common_properties"
  | .nestPseudos => "nest_pseudos"

/-- The spelling with hyphens. -/
def hyphenated : OptionName → String
  | .nestDescendants => "nest-descendants"
  | .collapseSiblings => "collapse-nested-siblings"
  | .factorDeclarations => "factor-common-properties"
  | .nestPseudos => "nest-pseudos"

/-- The spelling with capitals. -/
def camelCased : OptionName → String
  | .nestDescendants => "nestDescendants"
  | .collapseSiblings => "collapseNestedSiblings"
  | .factorDeclarations => "factorCommonProps"
  | .nestPseudos => "nestPseudos"

/-- The option that a key names, in any of its spellings. -/
def ofKey? (key : Text) : Option OptionName :=
  all.find? fun n =>
    key == n.underscored.toList || key == n.hyphenated.toList || key == n.camelCased.toList

/-- The option with the given underscored spelling. -/
def ofUnderscored? (key : Text) : Option OptionName :=
  all.find? fun n => key == n.underscored.toList

end OptionName

/-- Give one option a value. -/
def Options.set (o : Options) (name : OptionName) (b : Bool) : Options :=
  match name with
  | .nestDescendants => { o with nestDescendants := b }
  | .collapseSiblings => { o with collapseSiblings := b }
  | .factorDeclarations => { o with factorDeclarations := b }
  | .nestPseudos => { o with nestPseudos := b }

/-- Why a configuration gives no options. -/
inductive ConfigError where
  | unknownOption (key : Text)
  | notBoolean (key : Text) (value : Value)
  /-- The file cannot be read, or is not TOML. -/
  | unreadable (path : Text)
  | notTable (path : Text)
  /-- An integer is too long to be read or to be told. -/
  | longInteger (error : Text.LongInteger)
deriving Repr

def ConfigError.message : ConfigError → String
  | .unknownOption key => "Unknown option: " ++ Text.quotedString key
  | .notBoolean key value =>
    "Option " ++ Text.quotedString key ++ " must be a boolean, got " ++ value.literal
  | .unreadable path => "Cannot read config " ++ Text.quotedString path
  | .notTable path => "[cssnest] in " ++ Text.quotedString path ++ " must be a table"
  | .longInteger error => error.message

/-- The options after one entry of a configuration. -/
def Options.addEntry (o : Options) (key : Text) (v : Value) : Except ConfigError Options :=
  match OptionName.ofKey? key with
  | none => .error (.unknownOption key)
  | some name =>
    match v with
    | .bool b => .ok (o.set name b)
    | _ => .error (if v.isSpellable then .notBoolean key v else .longInteger .spelled)

/-- The options after all entries of a configuration. -/
def Options.addEntries : Options → Table → Except ConfigError Options
  | o, [] => .ok o
  | o, (k, v) :: rest =>
    match o.addEntry k v with
    | .ok o' => o'.addEntries rest
    | .error e => .error e

/-- The options that a configuration gives; what it does not name is on. -/
def Options.ofTable (entries : Table) : Except ConfigError Options := Options.addEntries {} entries

/-- Options that replace others; what is not named stays as it is. -/
abbrev Overrides := List (OptionName × Bool)

/-- Apply overrides, in order. -/
def Options.merge (o : Options) (overrides : Overrides) : Options :=
  overrides.foldl (fun o e => o.set e.1 e.2) o

/-- Why a name is not that of an override. -/
inductive OverrideError where
  | unknown (name : Text)
  /-- The name stands for the options that are overridden. -/
  | taken
deriving DecidableEq, Repr

/-- The name that stands for the options themselves, and so for none of them. -/
def OptionName.taken : String := "self"

def OverrideError.message : OverrideError → String
  | .unknown name =>
    "NestOptions.__init__() got an unexpected keyword argument '" ++ String.ofList name ++ "'"
  | .taken => "NestOptions.merged() got multiple values for argument '" ++ OptionName.taken ++ "'"

/-- The overrides that named values give.  A null overrides nothing, whatever its name. -/
def Overrides.ofEntries : Table → Except OverrideError Overrides
  | [] => .ok []
  | (_, .null) :: rest => Overrides.ofEntries rest
  | (k, v) :: rest =>
    match OptionName.ofUnderscored? k with
    | none => .error (.unknown k)
    | some name =>
      match v, Overrides.ofEntries rest with
      | _, .error e => .error e
      | .bool b, .ok os => .ok ((name, b) :: os)
      | _, .ok os => .ok os

/-- The overrides that named values give, if none of them has the name that is taken. -/
def Overrides.ofTable (entries : Table) : Except OverrideError Overrides :=
  if entries.any fun e => e.1 == OptionName.taken.toList then .error .taken
  else Overrides.ofEntries entries

end StyleNesting
