import ClearSign.Proofs.Json.Correspondence
import ClearSign.Proofs.Json.Loop
import ClearSign.Proofs.Json.NestedLookup
import ClearSign.Proofs.Json.Preorder
import ClearSign.Proofs.Json.Truncation
import ClearSign.Proofs.Memory.BoundedList
import ClearSign.Proofs.Review.Disclosure
import ClearSign.Proofs.Review.Exactness
import ClearSign.Proofs.Review.Interference
import ClearSign.Proofs.Review.Pagination
import ClearSign.Proofs.Review.Pieces
import ClearSign.Proofs.Review.Scoping
import ClearSign.Proofs.Review.Terminator
import ClearSign.Proofs.Review.Terms
import ClearSign.Proofs.Review.Unambiguous
import ClearSign.Proofs.Review.Validated
import ClearSign.Proofs.Session.Answering
import ClearSign.Proofs.Session.Approval
import ClearSign.Proofs.Session.Confirmation
import ClearSign.Proofs.Session.Forgetting
import ClearSign.Proofs.Session.Reassembly
import ClearSign.Proofs.Session.Rollback
import ClearSign.Proofs.Transfer.Hashing
import ClearSign.Proofs.Transfer.Presentation
import ClearSign.Proofs.VersionFile.Layout
