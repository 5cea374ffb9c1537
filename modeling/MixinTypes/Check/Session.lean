import MixinTypes.Check.Walk

/-!
# Sessions with programs

A session is a list of requests that are served one after another, all with the same inquiry: interfaces,
tests, the overloads of calls, and programs to check. What a program asks goes to that inquiry too, so a
question left in progress would be there for everything that follows.
-/

namespace MixinTypes

/-- A request with all that is handed over to it. -/
inductive Request where
  | interface (scope : Option Path) (name : Nominal)
  | test (src dest : Ty)
  | callee (receiver : Ty) (method : String)
  /-- Check a program whose calls without a receiver go to a value of type `host`. -/
  | check (host : Ty) (program : Node)

/-- What a request is answered with. -/
inductive Reply where
  | interface (result : Except LinkError Interface)
  | verdict (holds : Bool)
  | callee (overload : Option Overload)
  | checked (types : Table Nat Ty) (faults : List Fault)

namespace World

/-- The oracle that asks an inquiry, with the questions that are in progress there. -/
def inquirer (w : World) : Oracle (Inquiry w) where
  assignable := w.test
  callee t method s := ((w.callee t method s.memo).1, s.learn (w.callee t method s.memo).2)

/-- The reply to a request, and the inquiry afterwards. -/
def serve (w : World) (s : Inquiry w) : Request → Reply × Inquiry w
  | .interface scope n =>
    let got := w.interfaceOf scope n s.memo
    (.interface got.1, s.learn got.2)
  | .test src dest =>
    let got := w.test src dest s
    (.verdict got.1, got.2)
  | .callee receiver method =>
    let got := w.inquirer.callee receiver method s
    (.callee got.1, got.2)
  | .check host program =>
    let c := w.inquirer.check host program s
    (.checked c.types c.faults, c.oracle)

/-- The replies to requests that are served one after another. -/
def repliesFrom (w : World) (s : Inquiry w) : List Request → List Reply
  | [] => []
  | r :: rs => (w.serve s r).1 :: w.repliesFrom (w.serve s r).2 rs

/-- The replies of a new session. -/
def replies (w : World) (requests : List Request) : List Reply :=
  w.repliesFrom (.start (.empty w)) requests

/-- The reply to a request in a session of its own. -/
def replyAlone (w : World) (r : Request) : Reply := (w.serve (.start (.empty w)) r).1

end World

end MixinTypes
