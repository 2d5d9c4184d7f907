import RankOne.Proofs.Filling
import RankOne.Proofs.Membership.Layout
import RankOne.Proofs.Membership.Verdict
import RankOne.Proofs.PublicPart
import RankOne.Proofs.Range.Guard
import RankOne.Proofs.Range.Styles
import RankOne.Proofs.Range.Verdict
import RankOne.Proofs.Range.Width
import RankOne.Proofs.Refusal
import RankOne.Proofs.Scalar.Canonical
import RankOne.Proofs.Session.AppendOnly
import RankOne.Proofs.Session.Attempts
import RankOne.Proofs.Session.Composition
import RankOne.Proofs.Session.Interleaving
import RankOne.Proofs.Session.Layout
import RankOne.Proofs.Shape.Coefficients
import RankOne.Proofs.Submission
import RankOne.Proofs.Unpacking.Digits
import RankOne.Proofs.Unpacking.Spelling
import RankOne.Proofs.Violation
