import StyleNesting.Compact
import StyleNesting.Main
import StyleNesting.Session.Label
import StyleNesting.Proofs.Conservation
import StyleNesting.Proofs.Factories
import StyleNesting.Proofs.Grammar
import StyleNesting.Proofs.Declarations
import StyleNesting.Proofs.Spacing
import StyleNesting.Proofs.Comments
import StyleNesting.Proofs.NormalForm
import StyleNesting.Proofs.Legible
import StyleNesting.Proofs.RoundTrip
import StyleNesting.Proofs.Idiom
import StyleNesting.Proofs.PlainText
import StyleNesting.Proofs.TextAndTree
import StyleNesting.Proofs.Edits
import StyleNesting.Proofs.Skeleton
import StyleNesting.Proofs.Termination
import StyleNesting.Proofs.TrailingComment
import StyleNesting.Proofs.Extensions
import StyleNesting.Proofs.Unshared
import StyleNesting.Proofs.Exactness
import StyleNesting.Proofs.Arrangement
import StyleNesting.Proofs.SiblingOrder
import StyleNesting.Proofs.Likeness
import StyleNesting.Proofs.Grouping
import StyleNesting.Proofs.Diversity
import StyleNesting.Proofs.Descent
import StyleNesting.Proofs.Depth
import StyleNesting.Proofs.Sharing
import StyleNesting.Proofs.Factored
import StyleNesting.Proofs.Parents
import StyleNesting.Proofs.Hollow
import StyleNesting.Proofs.Lookahead
import StyleNesting.Proofs.Positions
import StyleNesting.Proofs.ViablePrefix
import StyleNesting.Proofs.Commands
import StyleNesting.Proofs.Blanking
import StyleNesting.Proofs.Normal
import StyleNesting.Proofs.Rereading
import StyleNesting.Proofs.Terminals
