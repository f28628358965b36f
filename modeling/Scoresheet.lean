import Scoresheet.Main
import Scoresheet.Session.Perform
import Scoresheet.Proofs.Board.Material
import Scoresheet.Proofs.Board.Unmoved
import Scoresheet.Proofs.Session.Placing
import Scoresheet.Proofs.Session.Replaying
import Scoresheet.Proofs.Session.Unreadable
import Scoresheet.Proofs.Board.BothSides
import Scoresheet.Proofs.Token.Quoting
import Scoresheet.Proofs.Session.Accounting
import Scoresheet.Proofs.Session.TurnOrder
import Scoresheet.Proofs.Session.StepEvents
import Scoresheet.Proofs.Session.Truncation
import Scoresheet.Proofs.Text.Lines
import Scoresheet.Proofs.Token.Framing
import Scoresheet.Proofs.Session.FileText
import Scoresheet.Proofs.Session.Grouping
import Scoresheet.Proofs.Session.Rounds
import Scoresheet.Proofs.Session.Termination
import Scoresheet.Proofs.Board.MovementRule
import Scoresheet.Proofs.Board.Sliding
import Scoresheet.Proofs.Session.CutShort
import Scoresheet.Proofs.Command.Closing
import Scoresheet.Proofs.Command.Batch
import Scoresheet.Proofs.Board.Stepping
import Scoresheet.Proofs.Board.CastlingRule
import Scoresheet.Proofs.Token.Grammar
import Scoresheet.Proofs.Token.Canonical
import Scoresheet.Proofs.Session.AlwaysRead
import Scoresheet.Proofs.Board.SquarePairs
import Scoresheet.Proofs.Board.TakingBack
import Scoresheet.Proofs.Text.Encoding
import Scoresheet.Proofs.Text.Numbers
import Scoresheet.Proofs.Session.Asking
import Scoresheet.Proofs.Token.FirstWrong
import Scoresheet.Proofs.Token.PlacementRefusals
import Scoresheet.Proofs.Board.DiagramReading
import Scoresheet.Proofs.Session.SettingUp
import Scoresheet.Proofs.Machine.Moving
