import CategorizedIndex.Computation
import CategorizedIndex.Criterion
import CategorizedIndex.Json.Codec
import CategorizedIndex.Navigator.Selection
import CategorizedIndex.Number.Read
import CategorizedIndex.Proofs.Addressing
import CategorizedIndex.Proofs.DeclaredOrder
import CategorizedIndex.Proofs.Deselection
import CategorizedIndex.Proofs.Failures
import CategorizedIndex.Proofs.FanOut
import CategorizedIndex.Proofs.History
import CategorizedIndex.Proofs.Identity
import CategorizedIndex.Proofs.IndexCheck
import CategorizedIndex.Proofs.Integrity
import CategorizedIndex.Proofs.KeptVersions
import CategorizedIndex.Proofs.KindCheck
import CategorizedIndex.Proofs.LookAhead
import CategorizedIndex.Proofs.Navigator
import CategorizedIndex.Proofs.Paging
import CategorizedIndex.Proofs.Placements
import CategorizedIndex.Proofs.PositionText
import CategorizedIndex.Proofs.Positions
import CategorizedIndex.Proofs.Pruning
import CategorizedIndex.Proofs.Ranges
import CategorizedIndex.Proofs.Refusals
import CategorizedIndex.Proofs.Repetition
import CategorizedIndex.Proofs.ScopedIdText
import CategorizedIndex.Proofs.Seeking
import CategorizedIndex.Proofs.Shape
import CategorizedIndex.Proofs.Stepping
import CategorizedIndex.Proofs.StoredChange
import CategorizedIndex.Proofs.StoredConfig
import CategorizedIndex.Proofs.TotalOrder
import CategorizedIndex.Proofs.UpwardSelection
import CategorizedIndex.Proofs.Visibility
import CategorizedIndex.Proofs.Withdrawal
import CategorizedIndex.Registry.Request
