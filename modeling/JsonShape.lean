import JsonShape.Bundle
import JsonShape.Message
import JsonShape.Proofs.Addresses
import JsonShape.Proofs.Budgets
import JsonShape.Proofs.Containment
import JsonShape.Proofs.Discovery
import JsonShape.Proofs.FingerprintText
import JsonShape.Proofs.Finiteness
import JsonShape.Proofs.FirstIssue
import JsonShape.Proofs.History
import JsonShape.Proofs.LiteralEquality
import JsonShape.Proofs.LoaderAgreement
import JsonShape.Proofs.Monotonicity
import JsonShape.Proofs.Naming
import JsonShape.Proofs.Readability
import JsonShape.Proofs.Reordering
import JsonShape.Proofs.Representation
import JsonShape.Proofs.Reprojection
import JsonShape.Proofs.RoundTrip
import JsonShape.Proofs.Tags
import JsonShape.Proofs.Transparency
import JsonShape.Proofs.Unresolved
import JsonShape.Schema.Encode
