import VersionBoard.Config.Text
import VersionBoard.Workload
import VersionBoard.Proofs.Pinning
import VersionBoard.Proofs.Violations
import VersionBoard.Proofs.Isolation
import VersionBoard.Proofs.Faults
import VersionBoard.Proofs.Stamp
import VersionBoard.Proofs.NewBoards
import VersionBoard.Proofs.Retries
import VersionBoard.Proofs.Accesses
import VersionBoard.Proofs.Interleavings
import VersionBoard.Proofs.Extent
import VersionBoard.Proofs.Changes
import VersionBoard.Proofs.Waiting
import VersionBoard.Proofs.Pending
import VersionBoard.Proofs.Growth
import VersionBoard.Proofs.CatchingUp
import VersionBoard.Proofs.Listings
import VersionBoard.Proofs.Signatures
import VersionBoard.Proofs.Lagging
import VersionBoard.Proofs.Addresses
import VersionBoard.Proofs.Assignments
