/-
  StyleNesting/Text/Basic.lean
  ============================
  **Text as a list of code points**: white space, trimming, splitting off a
  leading or trailing run, joining with a separator, and the order of texts by
  code point.  Everything in the library that reads or writes style text works
  on this type; `String` appears only in messages and at the edges.
-/
namespace StyleNesting

/-- A text is a list of code points. -/
abbrev Text := List Char

namespace Text

/-! ### White space -/

/-- White space: the ASCII blanks and control separators, and the space, line
    and paragraph separators beyond ASCII.  The zero-width space and the byte
    order mark are not among them. -/
def isBlank (c : Char) : Bool :=
  let n := c.toNat
  (9 ≤ n && n ≤ 13) || (28 ≤ n && n ≤ 32) || n == 0x85 || n == 0xA0 || n == 0x1680 ||
    (0x2000 ≤ n && n ≤ 0x200A) || n == 0x2028 || n == 0x2029 || n == 0x202F ||
    n == 0x205F || n == 0x3000

/-- Drop the blanks at the start. -/
def trimStart (t : Text) : Text := t.dropWhile isBlank

/-- Drop the blanks at the end. -/
def trimEnd : Text → Text
  | [] => []
  | c :: t =>
    match trimEnd t with
    | [] => if isBlank c then [] else [c]
    | d :: u => c :: d :: u

/-- Drop the blanks at both ends. -/
def trim (t : Text) : Text := trimEnd (trimStart t)

/-! ### Joining -/

/-- Write the texts one after another with `sep` between neighbours. -/
def join (sep : Text) : List Text → Text
  | [] => []
  | [t] => t
  | t :: u :: rest => t ++ sep ++ join sep (u :: rest)

/-- The separator between the parts of a selector list. -/
def commaSpace : Text := [',', ' ']

/-- `n` copies of `t`, one after another. -/
def times (t : Text) : Nat → Text
  | 0 => []
  | n + 1 => t ++ times t n

/-! ### Order by code point -/

/-- `a` comes before `b` or is equal to it, comparing code points from the left. -/
def le : Text → Text → Bool
  | [], _ => true
  | _ :: _, [] => false
  | c :: t, d :: u => c.toNat < d.toNat || (c.toNat == d.toNat && le t u)

/-- Put `x` in front of the first element that is not below it. -/
def insertBy {α : Type} (below : α → α → Bool) (x : α) : List α → List α
  | [] => [x]
  | y :: ys => if below x y then x :: y :: ys else y :: insertBy below x ys

/-- Stable insertion sort. -/
def sortBy {α : Type} (below : α → α → Bool) : List α → List α
  | [] => []
  | x :: xs => insertBy below x (sortBy below xs)

/-! ### Line ends -/

/-- Every line end becomes a single line feed. -/
def unifyLineEnds : Text → Text
  | [] => []
  | '\r' :: '\n' :: t => '\n' :: unifyLineEnds t
  | c :: t => (if c = '\r' then '\n' else c) :: unifyLineEnds t

end Text

end StyleNesting
