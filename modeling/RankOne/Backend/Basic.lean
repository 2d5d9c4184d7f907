import RankOne.SelfCheck

/-!
# Proving backends

The narrow surface of a proving system, and the submission of a checked system to it. A system
whose witness violates its own shape is never submitted: the backend is not called at all.
-/

namespace RankOne

/-- A proving system, whose operations run in `m`. -/
structure Backend (m : Type → Type) where
  Commitment : Type
  Key : Type
  Proof : Type
  accept : System → m (Except Fault Shape)
  setup : Shape → m (Commitment × Key)
  prove : Shape → Key → (witness inputs : List Bytes) → (label : Bytes) → m Proof
  verify : Proof → Commitment → (inputs : List Bytes) → (label : Bytes) → Key →
    m (Except Fault Bool)

/-- A proof with everything that its verification needs. -/
structure Submission {m : Type → Type} (b : Backend m) where
  commitment : b.Commitment
  key : b.Key
  proof : b.Proof
  label : Bytes

namespace Backend

variable {m : Type → Type} [Monad m] (b : Backend m)

/-- Has a satisfied system proved under a label. -/
def submit (C : CheckedSystem) (label : Bytes) : m (Except Fault (Submission b)) :=
  if C.satisfied then do
    let (commitment, key) ← b.setup C.accepted
    let proof ← b.prove C.accepted key C.system.witness C.system.inputs label
    return .ok ⟨commitment, key, proof, label⟩
  else return .error .violatedWitness

/-- Verifies a submission for given inputs. -/
def check (p : Submission b) (inputs : List Bytes) : m (Except Fault Bool) :=
  b.verify p.proof p.commitment inputs p.label p.key

end Backend

end RankOne
