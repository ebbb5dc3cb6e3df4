/-
  StyleNesting/Selector/Parts.lean
  ================================
  **Selector lists**: the parts of a list, the compounds of a part, the normal
  form of a list, and the sorted, duplicate-free join of parts.

      parts   ".a, .b:is(p, q)"      = [".a", ".b:is(p, q)"]
      joined  [".b", ".a", ".b"]     = ".a, .b"
-/
import StyleNesting.Selector.Scan

namespace StyleNesting.Selector

open StyleNesting

/-- The parts of a selector list: cut at the top-level commas, trimmed, and
    without the empty ones. -/
def parts (t : Text) : List Text :=
  ((cut (· == ',') Scan.start t).map Text.trim).filter (!·.isEmpty)

/-- The compounds of a part: cut at the top-level blanks, without the empty ones. -/
def compounds (t : Text) : List Text :=
  (cut Text.isBlank Scan.start t).filter (!·.isEmpty)

/-- The normal form of a selector list: one space between compounds, a comma
    and a space between parts. -/
def normalize (t : Text) : Text :=
  Text.join Text.commaSpace ((parts t).map fun p => Text.join [' '] (compounds p))

/-- The first occurrence of every text. -/
def distinct (ts : List Text) : List Text := ts.eraseDups

/-- The distinct texts in order, joined into one selector list. -/
def joined (ts : List Text) : Text :=
  Text.join Text.commaSpace (Text.sortBy Text.le (distinct ts))

end StyleNesting.Selector
