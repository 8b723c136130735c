import FairShare.Event
import FairShare.Main
import FairShare.Proofs.Matching.Conservation
import FairShare.Proofs.Matching.Precedence
import FairShare.Proofs.Matching.Shortage
import FairShare.Proofs.Tier.Fairness
import FairShare.Proofs.Tier.Preference
import FairShare.Proofs.Matching.Preference
import FairShare.Proofs.Matching.Listing
import FairShare.Proofs.Matching.Totals
import FairShare.Proofs.Tier.Checked
import FairShare.Proofs.Matching.Checked
import FairShare.Proofs.Tier.Exhaustion
import FairShare.Proofs.Tier.Termination
import FairShare.Proofs.Tier.Unitwise
import FairShare.Proofs.Tier.Cursor
import FairShare.Proofs.Matching.Validation
import FairShare.Proofs.Outcome.Encoding
import FairShare.Proofs.Tier.Independence
import FairShare.Proofs.Volume.Reading
import FairShare.Proofs.Plan.Pruning
import FairShare.Proofs.Matching.Settled
import FairShare.Proofs.Matching.Bystanders
import FairShare.Proofs.Outcome.Reading
import FairShare.Proofs.Request.Reading
import FairShare.Proofs.Json.Form
import FairShare.Proofs.Request.Structure
import FairShare.Proofs.Tier.Seniority
import FairShare.Proofs.Binary64.Shortest
import FairShare.Proofs.Decimal.Spelling
import FairShare.Proofs.Json.Literals
import FairShare.Proofs.Volume.Written
import FairShare.Proofs.Json.Forms
import FairShare.Proofs.Volume.Numbers
import FairShare.Proofs.Tier.Fallback
import FairShare.Proofs.Tier.Demand
import FairShare.Proofs.Tier.Star
import FairShare.Proofs.Volume.Refusal
import FairShare.Proofs.Volume.Classes
import FairShare.Proofs.Volume.Digits
import FairShare.Proofs.Volume.Evenness
import FairShare.Proofs.Ledger.History
