import RankOne.Membership
import RankOne.Range.Basic

/-!
# Steps of a session

Everything that can be done to a session, as data: a list of steps is a whole history. A step
that fails leaves the session in the state that it had reached, and the history goes on from
there.
-/

namespace RankOne

inductive Step where
  | index (x : String)
  | value (x : String)
  | gate (g : Gate Value)
  | assign (x : String) (v : Value)
  | publish (x : String) (v : Value)
  | imposeBits (u : Unpacking) (x : String)
  | fillBits (u : Unpacking) (x : String) (v : Value)
  | imposeRange (o : Range.Options) (a b x : String)
  | fillRange (o : Range.Options) (x : String) (a b v : Value)
  | imposeMember (secret : String) (elements : List String)
  | fillMember (secret : String) (v : Value) (elements : List Value)
  | close

/-- What a step that succeeds gives back. -/
inductive Reply where
  | nothing
  | index (i : Nat)
  | row (k : Nat)
  | scalar (a : Scalar)
  | name (x : String)
  | names (xs : List String)
  | bits (bs : List Bool)
  | system (S : System)

namespace Step

def run : Step → Build Reply
  | index x => Reply.index <$> Session.index x
  | value x => Reply.scalar <$> Session.value x
  | gate g => Reply.row <$> Session.gate g
  | assign x v => (fun _ => .nothing) <$> Session.assign x v
  | publish x v => (fun _ => .nothing) <$> Session.publish x v
  | imposeBits u x => Reply.names <$> u.impose x
  | fillBits u x v => Reply.bits <$> u.fill x v
  | imposeRange o a b x => Reply.name <$> Range.impose o a b x
  | fillRange o x a b v => (fun _ => .nothing) <$> Range.fill o x a b v
  | imposeMember s es => Reply.name <$> Membership.impose s es
  | fillMember s v es => (fun _ => .nothing) <$> Membership.fill s v es
  | close => Reply.system <$> Session.close

/-- The session after a step, whether the step succeeds or fails. -/
def after (t : Step) (s : Session) : Session :=
  match t.run s with
  | .ok _ s' => s'
  | .error _ s' => s'

end Step

end RankOne
