import PlacementRules.Main
import PlacementRules.Proofs.Faults
import PlacementRules.Proofs.Loading
import PlacementRules.Proofs.Pruning
import PlacementRules.Proofs.Refusal
import PlacementRules.Proofs.RoundTrip
import PlacementRules.Proofs.Storage
import PlacementRules.Proofs.Improvement
import PlacementRules.Proofs.Monotone
import PlacementRules.Proofs.Limits
import PlacementRules.Proofs.Spine
import PlacementRules.Proofs.Collapse
import PlacementRules.Proofs.Explanation
import PlacementRules.Proofs.Unambiguous
import PlacementRules.Proofs.CheckOrder
import PlacementRules.Proofs.DocumentOrder
import PlacementRules.Proofs.ExitCodes
import PlacementRules.Proofs.Locality
import PlacementRules.Proofs.Parentheses
import PlacementRules.Proofs.Beginnings
import PlacementRules.Proofs.FailurePlaces
import PlacementRules.Proofs.Expressible
import PlacementRules.Proofs.Reporting
import PlacementRules.Proofs.SequenceVerdict
import PlacementRules.Proofs.Nesting
import PlacementRules.Proofs.NameReading
import PlacementRules.Proofs.FailureText
