/-
  StyleNesting/Options/File.lean
  ==============================
  **Options from a TOML file**: the entries of its table of options, or all of its
  entries if it has no such table.
-/
import StyleNesting.Directory.Basic
import StyleNesting.Options.Mapping
import StyleNesting.Toml.Reader

namespace StyleNesting

/-- Why a configuration file gives no options. -/
inductive ConfigFileError where
  /-- The file is not text. -/
  | undecodable
  /-- The path holds the character that ends all paths. -/
  | nullInPath
  | config (error : ConfigError)

/-- The name of the table that holds the options. -/
def optionsTable : Text := ['c', 's', 's', 'n', 'e', 's', 't']

/-- The options of a document. -/
def Options.ofDocument (path : Text) (entries : Table) : Except ConfigError Options :=
  match Table.find? entries optionsTable with
  | none => Options.ofTable entries
  | some (.table inner) => Options.ofTable inner
  | some _ => .error (.notTable path)

/-- The options that a text gives. -/
def Options.ofText (path : Text) (t : Text) : Except ConfigError Options :=
  match Toml.read (Text.unifyLineEnds t) with
  | .error .invalid => .error (.unreadable path)
  | .error (.longInteger digits) => .error (.longInteger (.read digits))
  | .ok entries => Options.ofDocument path entries

/-- The options that the file at a path gives.  Slashes and dots that stay in place
    do not count, even after the name of the file. -/
def Options.ofFile (d : Directory) (path : Text) : Except ConfigFileError Options :=
  match d.read (Path.tidy path) with
  | .error .hasNull => .error .nullInPath
  | .error _ => .error (.config (.unreadable path))
  | .ok (.bytes _) => .error .undecodable
  | .ok (.text t) => (Options.ofText path t).mapError .config

end StyleNesting
