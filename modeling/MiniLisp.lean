import MiniLisp.Diagnostic
import MiniLisp.Environment.Listing
import MiniLisp.Proofs.Evaluation.DepthLimit
import MiniLisp.Proofs.Evaluation.ErrorLocation
import MiniLisp.Proofs.Evaluation.FreshBindings
import MiniLisp.Proofs.Evaluation.LetApplication
import MiniLisp.Proofs.Evaluation.Levels
import MiniLisp.Proofs.Evaluation.ListBuilding
import MiniLisp.Proofs.Evaluation.LiteralHeads
import MiniLisp.Proofs.Evaluation.Operands
import MiniLisp.Proofs.PrintedProcedures
import MiniLisp.Proofs.Reader.RoundTrip
import MiniLisp.Proofs.Reader.Tiling
import MiniLisp.Proofs.Session.PrintedSymbols
import MiniLisp.Proofs.Session.Safety
import MiniLisp.Proofs.Session.Streaming
import MiniLisp.Proofs.Session.SymbolIdentity
import MiniLisp.Proofs.Session.Termination
import MiniLisp.Proofs.Reader.Filler
import MiniLisp.Proofs.Equality
import MiniLisp.Proofs.Reader.ErrorSpans
import MiniLisp.Proofs.Session.Diagnostics
import MiniLisp.Proofs.SurvivingWrites
import MiniLisp.Proofs.Registry
