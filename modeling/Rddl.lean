import Rddl.Session
import Rddl.Main
import Rddl.Proofs.Domain.Classification
import Rddl.Proofs.Domain.Ordering
import Rddl.Proofs.Grammar.Document
import Rddl.Proofs.Precedence
import Rddl.Proofs.Recovery
import Rddl.Proofs.RoundTrip
import Rddl.Proofs.Model.Dependencies
import Rddl.Proofs.Domain.Levels
import Rddl.Proofs.Session
import Rddl.Proofs.Datum.Keys
import Rddl.Proofs.Model.Builds
import Rddl.Proofs.Model.Grounding
import Rddl.Proofs.Declarations
import Rddl.Proofs.Lines
import Rddl.Proofs.Printing
import Rddl.Proofs.Model.Soundness
import Rddl.Proofs.Domain.Preconditions
import Rddl.Proofs.Domain.Comparisons
import Rddl.Proofs.Syntax.Walk
import Rddl.Proofs.Domain.Building
import Rddl.Proofs.Domain.Bounds
import Rddl.Proofs.Domain.Variables
import Rddl.Proofs.Model.Failures
import Rddl.Proofs.Model.Coverage
import Rddl.Proofs.Report
import Rddl.Proofs.Syntax.Categories
import Rddl.Proofs.Model.Names
import Rddl.Proofs.Model.EmptyObjects
import Rddl.Proofs.Datum.Grouping
import Rddl.Proofs.Scan.Munch
import Rddl.Proofs.Scan.Separators
import Rddl.Proofs.Scan.Illegal
import Rddl.Proofs.Otherwise
