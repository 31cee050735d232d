import Parley.Proofs.Endings
import Parley.Proofs.Frames
import Parley.Proofs.NormalForm
import Parley.Proofs.Peers
import Parley.Proofs.Registrations
import Parley.Proofs.Sessions
import Parley.Proofs.Soundness
import Parley.Script.Records
import Parley.Script.Session
import Parley.Stored
import Parley.Proofs.Serving
import Parley.Proofs.Moments
import Parley.Proofs.Refusals
import Parley.Proofs.Histories
import Parley.Proofs.Allocation
import Parley.Proofs.Answers
import Parley.Proofs.AllOrNothing
import Parley.Proofs.InPlace
import Parley.Proofs.EnumNumbers
import Parley.Proofs.Requests
import Parley.Proofs.Parameters
import Parley.Proofs.CastingCells
import Parley.Proofs.NativeData
import Parley.Proofs.LoginMapping
import Parley.Proofs.Compilation
import Parley.Proofs.Expansions
import Parley.Proofs.CountCheck
import Parley.Proofs.Untouched
import Parley.Proofs.Loading
import Parley.Proofs.FailedCasts
import Parley.Proofs.Primitives
import Parley.Proofs.Cursors
import Parley.Proofs.EnumTables
import Parley.Proofs.TypedWrites
