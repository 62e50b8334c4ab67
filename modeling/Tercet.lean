import Tercet.Main
import Tercet.Proofs.Token.Lossless
import Tercet.Proofs.Check.Frames
import Tercet.Proofs.Check.Names
import Tercet.Proofs.Code.Scoping
import Tercet.Proofs.Code.Initialization
import Tercet.Proofs.Reading.RoundTrip
import Tercet.Proofs.Reading.Soundness
import Tercet.Proofs.Check.Usage
import Tercet.Proofs.Symbol.Unlined
import Tercet.Proofs.Check.Unlined
import Tercet.Proofs.Relayout
import Tercet.Proofs.Check.Lines
import Tercet.Proofs.Reading.Lines
import Tercet.Proofs.Locations
import Tercet.Proofs.Symbol.Rows
import Tercet.Proofs.Reading.Recovery
import Tercet.Proofs.Reading.Halting
import Tercet.Proofs.Check.Lifecycles
import Tercet.Proofs.Check.Atomicity
import Tercet.Proofs.Check.Redeclaration
import Tercet.Proofs.Reading.Refusals
import Tercet.Proofs.Check.Applications
import Tercet.Proofs.Code.Calls
import Tercet.Proofs.Token.Precedence
import Tercet.Proofs.Token.Shown
import Tercet.Proofs.VoidVariables
import Tercet.Proofs.Code.Legibility
import Tercet.Proofs.Check.Census
