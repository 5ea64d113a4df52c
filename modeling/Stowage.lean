import Stowage.Conversion.Basic
import Stowage.Workload.Loading
import Stowage.Workload.Writing
import Stowage.Manifest.Rendering
import Stowage.Proofs.PathSegments
import Stowage.Proofs.Placing
import Stowage.Proofs.Anchoring
import Stowage.Proofs.Nesting
import Stowage.Proofs.Emission
import Stowage.Proofs.Declarations
import Stowage.Proofs.Ownership
import Stowage.Proofs.Overlap
import Stowage.Proofs.Realisable
import Stowage.Proofs.Wiring
import Stowage.Proofs.Closure
import Stowage.Proofs.Placeholders
import Stowage.Proofs.VolumeSources
import Stowage.Proofs.Sextets
import Stowage.Proofs.Quads
import Stowage.Proofs.Sharing
import Stowage.Proofs.Outermost
import Stowage.Proofs.Gathering
import Stowage.Proofs.Reordering
import Stowage.Proofs.OrderIndependence
import Stowage.Proofs.Readings
import Stowage.Proofs.Compatible
import Stowage.Proofs.Conflicts
import Stowage.Proofs.Faults
import Stowage.Proofs.Independence
import Stowage.Proofs.DeclaredOutputs
import Stowage.Proofs.Overlay
import Stowage.Proofs.Claims
import Stowage.Proofs.Lexing
import Stowage.Proofs.Parsing
import Stowage.Proofs.RoundTrip
import Stowage.Proofs.Identity
import Stowage.Proofs.MountOrder
import Stowage.Proofs.Tracing
import Stowage.Proofs.Verbatim
import Stowage.Proofs.Permissions
import Stowage.Proofs.Literals
import Stowage.Proofs.Reachability
import Stowage.Proofs.ResolutionModes
import Stowage.Proofs.Containment
import Stowage.Proofs.Amounts
import Stowage.Proofs.FileModes
import Stowage.Proofs.BinaryFiles
