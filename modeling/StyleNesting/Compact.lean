/-
  StyleNesting/Compact.lean
  =========================
  **From text to text**: read a stylesheet, compact it by the enabled passes, and
  print it.  The text is read before the options are looked at.
-/
import StyleNesting.Options.Mapping
import StyleNesting.Sheet.Printer
import StyleNesting.Source.Parser

namespace StyleNesting

/-- Why a stylesheet could not be compacted. -/
inductive CompactError where
  | parse (error : Source.ParseError)
  | config (error : ConfigError)
  | failed (failure : Failure)

/-- Read a stylesheet, compact it by the options that the settings give, and
    print it with the given indentation. -/
def compact (settings : Table) (indent source : Text) : Except CompactError Text :=
  match Source.parse source with
  | .error e => .error (.parse e)
  | .ok n =>
    match Options.ofTable settings with
    | .error e => .error (.config e)
    | .ok o =>
      let (n', p) := nest o Factory.clone n
      match p.failure with
      | some f => .error (.failed f)
      | none => .ok (n'.print indent)

end StyleNesting
