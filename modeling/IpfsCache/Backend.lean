import IpfsCache.Lib.Reach
import IpfsCache.Text
import Mathlib.Data.List.Nodup

/-! Backend and the handles of its operations. Three parties take turns: Go, which calls
Handle::call when an operation is done; the io_service, which runs what was posted to it;
the owner, who starts operations and destroys the Backend. Handle::call and the destructor
hold the same mutex, so each is one step. Payloads are of any type. -/
namespace IpfsCache

def ipfsError (err : Nat) : Status := if err = 0 then .ok () else .error (.storage err)

structure Handle (α : Type) where
  cb : Bool
  args : Status × α

/-- What waits in the io_service: the lambda of Handle::call, which reads its handle when it
runs, or that of Handle::cancel, which owns what it needs. -/
inductive Posted (α : Type) where
  | dispatched (op : Nat)
  | cancelled (op : Nat) (args : Status × α)

namespace Posted
variable {α : Type}

def op : Posted α → Nat
  | dispatched op => op
  | cancelled op _ => op

def caught : Posted α → Option Nat
  | dispatched op => some op
  | cancelled .. => none

end Posted

structure Completed (α : Type) where
  op : Nat
  args : Status × α
  late : Bool

structure Backend (α : Type) where
  wasDestroyed : Bool
  linked : List Nat
  handles : List (Option (Handle α))   -- of the operations in the order of their start; none: deleted
  posted : List (Posted α)
  calls : List (Nat × Nat × α)
  caught : List Nat
  invoked : List (Completed α)

namespace Backend
variable {α : Type}

def fresh : Backend α := ⟨false,[],[],[],[],[],[]⟩

def start [Inhabited α] (b : Backend α) : Backend α :=
  { b with
    linked := b.linked ++ [b.handles.length], handles := b.handles ++ [some ⟨true,.ok (),default⟩] }

def call (op err : Nat) (data : α) (b : Backend α) : Option (Backend α) :=
  match b.handles[op]? with
  | some (some h) =>
    let b := { b with calls := b.calls ++ [(op,err,data)] }
    if h.cb then
      let ec := if b.wasDestroyed then .error .operationAborted else ipfsError err
      some { b with
        linked := b.linked.erase op, handles := b.handles.set op (some { h with args := (ec,data) }),
        posted := b.posted ++ [.dispatched op] }
    else some { b with handles := b.handles.set op none }
  | _ => none

def cancel (b : Backend α) (op : Nat) : Backend α :=
  match b.handles[op]? with
  | some (some h) =>
    { b with
      handles := b.handles.set op (some { h with cb := false }),
      posted := b.posted ++ [.cancelled op (.error .operationAborted,h.args.2)] }
  | _ => b

def closing (b : Backend α) : Backend α :=
  { b with wasDestroyed := true, caught := b.posted.filterMap Posted.caught }

def destroy (b : Backend α) : Backend α := { b.linked.foldl cancel b.closing with linked := [] }

def run (b : Backend α) : Posted α → Option (Backend α)
  | .cancelled op args => some { b with invoked := b.invoked ++ [⟨op,args,b.wasDestroyed⟩] }
  | .dispatched op =>
    match b.handles[op]? with
    | some (some h) =>
      let b := { b with handles := b.handles.set op none }
      some (if b.wasDestroyed then b else { b with invoked := b.invoked ++ [⟨op,h.args,b.wasDestroyed⟩] })
    | _ => none

end Backend

inductive BackendEvent (α : Type) where
  | start
  | call (op err : Nat) (data : α)
  | run (i : Nat)
  | destroy

namespace Backend
variable {α : Type}

def step [Inhabited α] (b : Backend α) : BackendEvent α → Option (Backend α)
  | .start => if b.wasDestroyed then none else some b.start
  | .call op err data => if op ∈ b.calls.map Prod.fst then none else b.call op err data
  | .run i =>
    match b.posted[i]? with
    | none => none
    | some p => { b with posted := b.posted.eraseIdx i }.run p
  | .destroy => if b.wasDestroyed then none else some b.destroy

def Step [Inhabited α] (b : Backend α) (a : BackendEvent α) (b' : Backend α) : Prop := b.step a = some b'

def Reached [Inhabited α] (b : Backend α) : Prop := Reach (· = fresh) Step b

end Backend
end IpfsCache
