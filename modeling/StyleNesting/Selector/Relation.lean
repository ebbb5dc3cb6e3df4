/-
  StyleNesting/Selector/Relation.lean
  ===================================
  **How selector parts relate**: whether one part is another part with a pseudo
  class or element attached, and how a part with several compounds is taken
  apart into what it descends from and its last compound.

      isPseudoOf       "a" "a:hover"   = true
      splitDescendant? ".nav ul li"    = some (".nav ul", "li")

  Both are checks on the text; nothing here reads escapes or attributes.
-/
import StyleNesting.Selector.Parts
import StyleNesting.Text.Word

namespace StyleNesting.Selector

open StyleNesting

/-- What is left of `t` after the text `base`, if `t` starts with it. -/
def after? : Text → Text → Option Text
  | [], t => some t
  | _ :: _, [] => none
  | b :: base, c :: t => if b == c then after? base t else none

/-- Whether a pseudo name may start with `c`. -/
def startsName (c : Char) : Bool := Text.isAsciiLetter c || c == '-' || c == '_'

/-- Whether a text is one or two colons followed by the start of a name. -/
def isPseudoSuffix : Text → Bool
  | ':' :: ':' :: c :: _ => startsName c
  | ':' :: c :: _ => startsName c
  | _ => false

/-- Whether `candidate` is the non-empty `base` with a pseudo suffix attached. -/
def isPseudoOf (base candidate : Text) : Bool :=
  !base.isEmpty &&
    match after? base candidate with
    | some suffix => isPseudoSuffix suffix
    | none => false

/-- The characters of explicit combinators. -/
def isCombinator (c : Char) : Bool := c == '>' || c == '+' || c == '~' || c == '|'

/-- Whether a compound starts or ends with an explicit combinator. -/
def touchesCombinator (t : Text) : Bool :=
  t.head?.any isCombinator || t.getLast?.any isCombinator

/-- Take a part apart at its last descendant blank: the compounds before it,
    and the last one.  There is nothing to take apart in a single compound, and
    a part with an explicit combinator is left alone. -/
def splitDescendant? (part : Text) : Option (Text × Text) :=
  let cs := compounds (Text.trim part)
  match cs.getLast? with
  | none => none
  | some last =>
    if cs.length < 2 || cs.any touchesCombinator then none
    else some (Text.join [' '] cs.dropLast, last)

end StyleNesting.Selector
