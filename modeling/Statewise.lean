import Statewise.Interpreter
import Statewise.Json.Position
import Statewise.Main
import Statewise.Model.Restrict
import Statewise.Proofs.Agreement
import Statewise.Proofs.Domain
import Statewise.Proofs.Following
import Statewise.Proofs.Hints
import Statewise.Proofs.Reporting
import Statewise.Proofs.Within
import Statewise.Proofs.Narrowing
import Statewise.Proofs.Extraction
import Statewise.Proofs.Keeping
import Statewise.Proofs.Stacks
import Statewise.Proofs.Cycles
import Statewise.Proofs.Sizes
import Statewise.Proofs.Typing
import Statewise.Proofs.Generated
import Statewise.Proofs.Asking
import Statewise.Proofs.Submodel
import Statewise.Proofs.Restriction
import Statewise.Proofs.RealStates
import Statewise.Proofs.Selecting
import Statewise.Proofs.RoundTrip
import Statewise.Proofs.Defaults
import Statewise.Proofs.Registering
import Statewise.Proofs.Settings
import Statewise.Proofs.Exactness
import Statewise.Proofs.Storing
import Statewise.Proofs.Mirroring
import Statewise.Proofs.Minimising
import Statewise.Proofs.Naming
import Statewise.Proofs.Uniform
import Statewise.Proofs.Composing
import Statewise.Proofs.LastHint
import Statewise.Proofs.Inlining
import Statewise.Proofs.Induced
import Statewise.Proofs.Loading
import Statewise.Proofs.Aborting
import Statewise.Proofs.Readback
import Statewise.Proofs.Overflow
import Statewise.Proofs.Entries
import Statewise.Proofs.Summing
import Statewise.Proofs.Positions
import Statewise.Proofs.Tables
