import IpfsCache.Lib.Reach
import IpfsCache.Lib.Timer
import IpfsCache.Text

/-! Republisher. Everything runs on one thread: a call of publish from outside or from
inside a callback, the completion of a backend publish, the handlers of the timer. The
handler of a completion is cut where it has called a callback, which may publish again. -/
namespace IpfsCache

abbrev Cid := StdString

def publishDuration : Nat := 600

/-- A node of the list `_callbacks`: its identity, and the publish call its function came with
(none: the function is empty). -/
structure Waiter where
  node : Nat
  call : Option Nat
  deriving DecidableEq

/-- A call of Backend::publish, with what its completion handler has captured: `id` and
`last_i`. Then its number, and how many publish calls there had been when it started. -/
structure Flight where
  id : Cid
  duration : Nat
  last : Nat
  number : Nat
  calls : Nat
  deriving DecidableEq

structure Invoked where
  call : Nat
  flight : Nat
  status : Status
  deriving DecidableEq

structure Handling where
  flight : Flight
  status : Status
  isLast : Bool
  deriving DecidableEq

structure Republisher where
  isPublishing : Bool
  toPublish : Cid
  callbacks : List Waiter
  timer : Timer
  nodes : Nat
  flights : List Flight
  handling : Option Handling
  calls : List (Cid × Bool)
  started : List Flight
  completed : List (Nat × Status)
  invoked : List Invoked
  deriving DecidableEq

namespace Republisher

def fresh : Republisher := ⟨false,⟨[]⟩,[],.fresh,0,[],none,[],[],[],[]⟩

def pushBack (call : Option Nat) (r : Republisher) : Republisher :=
  { r with callbacks := r.callbacks ++ [⟨r.nodes,call⟩], nodes := r.nodes + 1 }

def startPublishing (r : Republisher) : Republisher :=
  match r.callbacks.getLast? with
  | none => { r with isPublishing := false, timer := (r.timer.expiresFromNow (publishDuration / 2)).asyncWait }
  | some last =>
    let flight : Flight := ⟨r.toPublish,publishDuration,last.node,r.started.length,r.calls.length⟩
    { r with
      isPublishing := true, timer := r.timer.cancel, flights := r.flights ++ [flight],
      started := r.started ++ [flight] }

def enqueue (cid : Cid) (present : Bool) (r : Republisher) : Republisher :=
  { r with toPublish := cid, calls := r.calls ++ [(cid,present)] }.pushBack
    (if present then some r.calls.length else none)

def publish (cid : Cid) (present : Bool) (r : Republisher) : Republisher :=
  if r.isPublishing then r.enqueue cid present else (r.enqueue cid present).startPublishing

def answer (flight : Flight) (status : Status) (r : Republisher) : Option Republisher :=
  match r.callbacks with
  | [] => none
  | front :: rest =>
    some { r with
      callbacks := rest, handling := some ⟨flight,status,front.node = flight.last⟩,
      invoked := r.invoked ++ (front.call.map fun call => ⟨call,flight.number,status⟩).toList }

def timeout (success : Bool) (r : Republisher) : Republisher :=
  if !success || r.isPublishing then r else (r.pushBack none).startPublishing

end Republisher

inductive Happening where
  | publish (cid : Cid) (present : Bool)
  | complete (i : Nat) (status : Status)
  | go
  | expire
  | timeout (i : Nat)

namespace Republisher

def step (r : Republisher) : Happening → Option Republisher
  | .publish cid present => some (r.publish cid present)
  | .expire => some { r with timer := r.timer.expire }
  | .go =>
    match r.handling with
    | none => none
    | some h =>
      if h.isLast then some { r with handling := none }.startPublishing else r.answer h.flight h.status
  | .complete i status =>
    match r.handling,r.flights[i]? with
    | none,some flight =>
      { r with
        flights := r.flights.eraseIdx i,
        completed := r.completed ++ [(flight.number,status)] }.answer flight status
    | _,_ => none
  | .timeout i =>
    match r.handling,r.timer.ready[i]? with
    | none,some (_,success) => some ({ r with timer := r.timer.deliver i }.timeout success)
    | _,_ => none

def Step (r : Republisher) (e : Happening) (r' : Republisher) : Prop := r.step e = some r'

def Reached (r : Republisher) : Prop := Reach (· = fresh) Step r

end Republisher
end IpfsCache
