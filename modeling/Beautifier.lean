import Beautifier.Options.Placement
import Beautifier.Transform.Session
import Beautifier.Tool.Run
import Beautifier.Main
import Beautifier.Proofs.Layout.Conservation
import Beautifier.Proofs.Insertion.Weave
import Beautifier.Proofs.Layout.LastOnLine
import Beautifier.Proofs.Layout.Fusion
import Beautifier.Proofs.Transform.Answer
import Beautifier.Proofs.Insertion.Else
import Beautifier.Proofs.Layout.Fixpoint
import Beautifier.Proofs.Options.Joined
import Beautifier.Proofs.Layout.Conditionals
import Beautifier.Proofs.Tool.Circles
import Beautifier.Proofs.Tool.Settled
import Beautifier.Proofs.Token.Cover
import Beautifier.Proofs.Layout.Frame
import Beautifier.Proofs.Layout.LineStarts
import Beautifier.Proofs.Safety.Checked
import Beautifier.Proofs.Safety.Within
import Beautifier.Proofs.Safety.CheckedPlan
import Beautifier.Proofs.Safety.CheckedFormat
import Beautifier.Proofs.Layout.LookBack
import Beautifier.Proofs.Layout.Rooted
import Beautifier.Proofs.Layout.MovedPlan
import Beautifier.Proofs.Layout.OtherBranch
import Beautifier.Proofs.Options.Meaning
import Beautifier.Proofs.Options.Aliases
import Beautifier.Proofs.Transform.Agreement
import Beautifier.Proofs.Layout.Places
import Beautifier.Proofs.Layout.LineEndings
import Beautifier.Proofs.Layout.AlignedBraces
import Beautifier.Proofs.Layout.KeptBlocks
import Beautifier.Proofs.Nesting.Nested
import Beautifier.Proofs.Layout.CommentLines
import Beautifier.Proofs.Layout.TrailingBlanks
import Beautifier.Proofs.Layout.EmptyLines
import Beautifier.Proofs.Layout.Alignment
import Beautifier.Proofs.Layout.KeptSpacing
import Beautifier.Proofs.Layout.PaddedOperators
import Beautifier.Proofs.Token.LineBreaks
import Beautifier.Proofs.Nesting.LoopLines
import Beautifier.Proofs.Path.FileNames
import Beautifier.Proofs.Rules.Selection
import Beautifier.Proofs.Tool.Comments
import Beautifier.Proofs.Tool.Conflict
import Beautifier.Proofs.Tool.DryRun
import Beautifier.Proofs.Transform.Undecodable
import Beautifier.Proofs.Layout.Brackets
