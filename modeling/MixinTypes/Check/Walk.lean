import MixinTypes.Assignable.Search
import MixinTypes.Assignable.Selection
import MixinTypes.Call.Matching
import MixinTypes.Check.Fault

/-!
# Checking a program

The checker walks a tree once, gives every evaluated node a type and collects faults in the order in
which they are found. A variable has the type of its first assignment. What is not known is `any`.

The checker asks an oracle whether types are assignable and which overload a call takes. Asking may
change the state of the oracle.
-/

namespace MixinTypes

/-- What the checker needs to know about types. -/
structure Oracle (σ : Type) where
  assignable : Ty → Ty → σ → Bool × σ
  callee : Ty → String → σ → Option Overload × σ

/-- The oracle that asks the interfaces of a world. -/
def World.oracle (w : World) : Oracle (Memo w) := ⟨w.assignable, w.callee⟩

/-- The faults in the shape of a call: arguments and keywords that are missing or left over. -/
def Formals.shapeFaults (f : Formals) (site : Site) (args : List Node) : List Fault :=
  (f.missing args).map (⟨site, .missingArgument ·⟩)
    ++ (f.extra args).map (⟨site, .extraArgument ·⟩)
    ++ (f.missingKeywords args).map (⟨site, .missingKeyword ·⟩)
    ++ (f.extraKeywords args).map (⟨site, .extraKeyword ·⟩)

/-- The faults that a call has whatever the types of its arguments. -/
def callFaults (callee : Option Overload) (receiver : Ty) (method : String) (site : Site)
    (args : List Node) : List Fault :=
  match callee with
  | none => [⟨site, .noMethod receiver method⟩]
  | some o => o.formals.shapeFaults site args

/-- What the checker has found out so far. -/
structure Checking (σ : Type) where
  oracle : σ
  locals : Table String Ty
  types : Table Nat Ty
  faults : List Fault

namespace Checking

variable {σ : Type}

/-- Nothing found out yet. -/
def start (oracle : σ) : Checking σ := ⟨oracle, .empty, .empty, []⟩

/-- The type noted for a node. -/
def typeOf? (c : Checking σ) (n : Node) : Option Ty := c.types.get? n.id

/-- Note the type of a node. -/
def record (site : Site) (t : Ty) (c : Checking σ) : Ty × Checking σ :=
  (t, { c with types := c.types.insert site.id t })

def report (c : Checking σ) (faults : List Fault) : Checking σ :=
  { c with faults := c.faults ++ faults }

/-- Ask whether `src` is assignable to `dest`, and report a fault if it is not. -/
def expect (o : Oracle σ) (src dest : Ty) (fault : Fault) (c : Checking σ) : Checking σ :=
  let r := o.assignable src dest c.oracle
  { c with oracle := r.2, faults := if r.1 then c.faults else c.faults ++ [fault] }

/-- Assign a value of type `t` to a variable; the type of the variable. -/
def assign (o : Oracle σ) (site : Site) (name : String) (t : Ty) (c : Checking σ) :
    Ty × Checking σ :=
  match c.locals.get? name with
  | none => (t, { c with locals := c.locals.insert name t })
  | some target => (target, c.expect o t target ⟨site, .incompatibleAssignment target t⟩)

/-- Compare the types of arguments with those of the parameters they fill. -/
def checkPairs (o : Oracle σ) (c : Checking σ) (pairs : List (Ty × Node)) : Checking σ :=
  pairs.foldl (fun c p =>
    let actual := (c.typeOf? p.2).getD .any
    c.expect o actual p.1 ⟨p.2.site, .invalidArgument p.1 actual⟩) c

/-- Find the overload that a call takes and report the faults that the call has whatever the types
of its arguments. -/
def openCall (o : Oracle σ) (site : Site) (receiver : Ty) (method : String) (args : List Node)
    (c : Checking σ) : Option Overload × Checking σ :=
  let r := o.callee receiver method c.oracle
  (r.1, { c with oracle := r.2 }.report (callFaults r.1 receiver method site args))

/-- Compare the arguments of a call, now that they have types, with the overload that it takes; the
type of the call. -/
def closeCall (o : Oracle σ) (callee : Option Overload) (args : List Node) (c : Checking σ) :
    Ty × Checking σ :=
  match callee with
  | none => (.any, c)
  | some overload => (overload.returns, c.checkPairs o (overload.formals.pairs args))

end Checking

namespace Oracle

variable {σ : Type}

mutual

/-- Check a node and give it a type. Calls without a receiver go to a value of type `host`. -/
def walk (o : Oracle σ) (host : Ty) : Node → Checking σ → Ty × Checking σ
  | .seq site body, c =>
    let r := walkSeq o host .any body c
    r.2.record site r.1
  | .assign site name value, c =>
    let r := walk o host value c
    let r := r.2.assign o site name r.1
    r.2.record site r.1
  | .read site name, c => c.record site ((c.locals.get? name).getD .any)
  | .lit site _, c => c.record site .any
  | .call site none method args, c =>
    let opened := c.openCall o site host method args
    let c := (walkSeq o host .any args opened.2).2
    let r := c.closeCall o opened.1 args
    r.2.record site r.1
  | .call site (some receiver) method args, c =>
    let r := walk o host receiver c
    let opened := r.2.openCall o site r.1 method args
    let c := (walkSeq o host .any args opened.2).2
    let r := c.closeCall o opened.1 args
    r.2.record site r.1
  | .hash site elements, c => (walkSeq o host .any elements c).2.record site .any
  | .pair site _ value, c => (walk o host value c).2.record site .any
  | .unsupported site _ _, c => c.record site .any

/-- Check nodes one after another; the type of the last one, or `last` when there is none. -/
def walkSeq (o : Oracle σ) (host : Ty) (last : Ty) : List Node → Checking σ → Ty × Checking σ
  | [], c => (last, c)
  | n :: ns, c =>
    let r := walk o host n c
    walkSeq o host r.1 ns r.2

end

/-- Check a program from nothing. -/
def check (o : Oracle σ) (host : Ty) (n : Node) (oracle : σ) : Checking σ :=
  (o.walk host n (.start oracle)).2

end Oracle

end MixinTypes
