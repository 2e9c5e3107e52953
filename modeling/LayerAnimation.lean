import LayerAnimation.Scalar
import LayerAnimation.Geometry
import LayerAnimation.Value
import LayerAnimation.Attribute
import LayerAnimation.Decimal.Numeral
import LayerAnimation.Decimal.Nearest
import LayerAnimation.Decimal.Shortest
import LayerAnimation.Decimal.Layout
import LayerAnimation.Decimal.Literal
import LayerAnimation.Problem
import LayerAnimation.Easing
import LayerAnimation.Animation
import LayerAnimation.Options
import LayerAnimation.Intent
import LayerAnimation.Layer
import LayerAnimation.Stage.Basic
import LayerAnimation.Stage.Motion
import LayerAnimation.Stage.Load
import LayerAnimation.Stage.Clock
import LayerAnimation.Script
import LayerAnimation.Json.Basic
import LayerAnimation.Json.Document
import LayerAnimation.Format.Reader
import LayerAnimation.Format.Basic
import LayerAnimation.Format.Value
import LayerAnimation.Format.Animation
import LayerAnimation.Format.Script
import LayerAnimation.Session.Command
import LayerAnimation.Session.Run
import LayerAnimation.CommandLine
import LayerAnimation.Main
import LayerAnimation.Proofs.Cells
import LayerAnimation.Proofs.Rounds
import LayerAnimation.Proofs.Transitions
import LayerAnimation.Proofs.Operations
import LayerAnimation.Proofs.Double.Arithmetic
import LayerAnimation.Proofs.Double.Addition
import LayerAnimation.Proofs.Double.Clock
import LayerAnimation.Proofs.Frames
import LayerAnimation.Proofs.LastAttached
import LayerAnimation.Proofs.CommitOrder
import LayerAnimation.Proofs.Queue
import LayerAnimation.Proofs.Advances
import LayerAnimation.Proofs.Course
import LayerAnimation.Proofs.Sessions
import LayerAnimation.Proofs.StartOrder
import LayerAnimation.Proofs.Visibility
import LayerAnimation.Proofs.TimeLimit
import LayerAnimation.Proofs.Deferral
import LayerAnimation.Proofs.Mirrors
import LayerAnimation.Proofs.Isolation
import LayerAnimation.Proofs.Sampling
import LayerAnimation.Proofs.Double.Sums
import LayerAnimation.Proofs.Punctuality
import LayerAnimation.Proofs.Exact
import LayerAnimation.Proofs.Finiteness
import LayerAnimation.Proofs.Continuity
import LayerAnimation.Proofs.Decimal.Nearest
import LayerAnimation.Proofs.Decimal.Digits
import LayerAnimation.Proofs.Decimal.ReadBack
import LayerAnimation.Proofs.Json.Numbers
import LayerAnimation.Proofs.Json.Pretty
import LayerAnimation.Proofs.Format.Readers
import LayerAnimation.Proofs.Format.Faithful
import LayerAnimation.Proofs.RoundTrip
import LayerAnimation.Proofs.Termination
import LayerAnimation.Proofs.Refusals
import LayerAnimation.Proofs.Following
import LayerAnimation.Proofs.Kinds
import LayerAnimation.Proofs.Commits
import LayerAnimation.Proofs.Attachments
import LayerAnimation.Proofs.Double.Zeros
import LayerAnimation.Proofs.Retargeting
import LayerAnimation.Proofs.SameMoment
import LayerAnimation.Proofs.Division
import LayerAnimation.Proofs.Grouping
import LayerAnimation.Proofs.Easing.Cubic
import LayerAnimation.Proofs.Easing.Iterates
import LayerAnimation.Proofs.Easing.Solver
import LayerAnimation.Proofs.Overshoot
import LayerAnimation.Proofs.Twins
import LayerAnimation.Proofs.SessionTwins
import LayerAnimation.Proofs.LoneTracks
import LayerAnimation.Proofs.Json.Compact
import LayerAnimation.Proofs.Json.Edits
import LayerAnimation.Proofs.Format.Orders
import LayerAnimation.Proofs.Format.Lenient
import LayerAnimation.Proofs.Omissions
import LayerAnimation.Proofs.Easing.Monotonicity
import LayerAnimation.Proofs.Double.Differences
import LayerAnimation.Proofs.Endings
import LayerAnimation.Proofs.Validation
import LayerAnimation.Proofs.Repairs
import LayerAnimation.Proofs.Double.Quotients
import LayerAnimation.Proofs.FrameLoop
import LayerAnimation.Proofs.Transforms
import LayerAnimation.Proofs.Loops
