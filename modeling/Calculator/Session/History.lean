import Calculator.Session

/-!
The sessions that can come about: a new session, and whatever requests of any kind and in any order
make of it, whether they succeed or fail. A session is a value, so that a copy of one is that session
and goes on by itself from there.
-/
namespace Calculator.Session

inductive Request where
  | setInput (input : String)
  | scan
  | parse
  | execute
  | run
  | copy
deriving DecidableEq, Repr

def perform (s : Session) : Request → Session
  | .setInput input => s.setInput input
  | .scan => s.scan.2
  | .parse => s.parse.2
  | .execute => s.execute.2
  | .run => s.run.2
  | .copy => s

inductive Reachable : Session → Prop
  | new (input : String) : Reachable (.new input)
  | default : Reachable default
  | perform {s : Session} (r : Request) : Reachable s → Reachable (s.perform r)

end Calculator.Session
