/-
  StyleNesting/Source/Comment.lean
  ================================
  **Comments are blanked, not removed**: every character of a comment but its
  line feeds becomes a space, so that all that follows keeps its line and
  column.  A comment mark inside a closed string is part of the string; a quote
  that is never closed, or a comment that never ends, is ordinary text.
-/
import StyleNesting.Selector.Scan

namespace StyleNesting.Source

open StyleNesting

/-- Whether a string that was opened with the quote `q` is closed in the text
    that follows.  A backslash takes the next character with it. -/
def closes (q : Char) : Text → Bool
  | [] => false
  | '\\' :: [] => false
  | '\\' :: _ :: t => closes q t
  | c :: t => c == q || closes q t

/-- Whether the comment mark that ends a comment occurs in a text. -/
def hasCommentEnd : Text → Bool
  | [] => false
  | '*' :: '/' :: _ => true
  | _ :: t => hasCommentEnd t

/-- Where in a stylesheet a character stands. -/
inductive Region where
  | plain
  | quoted (quote : Char)
  | comment
deriving DecidableEq, Repr

/-- Blank the comments of a text that starts in the given region. -/
def blankFrom : Region → Text → Text
  | _, [] => []
  | .plain, '/' :: '*' :: t =>
    if hasCommentEnd t then ' ' :: ' ' :: blankFrom .comment t
    else '/' :: '*' :: blankFrom .plain t
  | .plain, c :: t =>
    c :: blankFrom (if Selector.isQuote c && closes c t then .quoted c else .plain) t
  | .quoted q, '\\' :: c :: t => '\\' :: c :: blankFrom (.quoted q) t
  | .quoted q, c :: t => c :: blankFrom (if c == q then .plain else .quoted q) t
  | .comment, '*' :: '/' :: t => ' ' :: ' ' :: blankFrom .plain t
  | .comment, c :: t => (if c == '\n' then '\n' else ' ') :: blankFrom .comment t

/-- Blank the comments of a stylesheet. -/
def blankComments (t : Text) : Text := blankFrom .plain t

end StyleNesting.Source
