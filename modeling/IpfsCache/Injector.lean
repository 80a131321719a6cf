import IpfsCache.Content
import IpfsCache.Lib.Reach

/-! The Injector while it is alive. Everything runs on one thread: a call of insert_content
from outside or from inside an on_insert, the completion of a Backend::add, a coroutine
that comes back from InjectorDb::update. The latter two end with a call of on_insert. -/
namespace IpfsCache

structure InsertEntry (Ptime : Type) where
  key : Key
  value : Value
  ts : Ptime
  onInsert : Nat

structure DbUpdate where
  key : Key
  value : Value
  ipfsId : Hash
  onInsert : Nat
  deriving DecidableEq

structure OnInsert where
  call : Nat
  status : Status
  ipfsId : Hash
  deriving DecidableEq

def concurrency : UInt32 := 8

structure Injector (Ptime : Type) where
  insertQueue : List (InsertEntry Ptime)
  jobCount : UInt32
  adding : List (InsertEntry Ptime)
  updating : List DbUpdate
  handling : Bool
  calls : List (InsertEntry Ptime)
  started : List (InsertEntry Ptime)
  added : List (Nat × Status)
  updated : List (Nat × Option Status)    -- none: left by an exception
  invoked : List OnInsert

namespace Injector
variable {Ptime : Type}

def fresh : Injector Ptime := ⟨[],0,[],[],false,[],[],[],[],[]⟩

def insertContentFromQueue (inj : Injector Ptime) : Injector Ptime :=
  match inj.insertQueue with
  | [] => inj
  | e :: rest =>
    { inj with
      jobCount := inj.jobCount + 1, insertQueue := rest, adding := inj.adding ++ [e], started := inj.started ++ [e] }

def push (key : Key) (value : Value) (ts : Ptime) (inj : Injector Ptime) : Injector Ptime :=
  let e := ⟨key,value,ts,inj.calls.length⟩
  { inj with insertQueue := inj.insertQueue ++ [e], calls := inj.calls ++ [e] }

def insertContent (key : Key) (value : Value) (ts : Ptime) (inj : Injector Ptime) : Injector Ptime :=
  let inj := inj.push key value ts
  if inj.jobCount ≥ concurrency then inj else inj.insertContentFromQueue

def invoke (x : OnInsert) (inj : Injector Ptime) : Injector Ptime :=
  { inj with handling := true, invoked := inj.invoked ++ [x] }

def take (i : Nat) (e : InsertEntry Ptime) (eca : Status) (inj : Injector Ptime) : Injector Ptime :=
  { inj with
    adding := inj.adding.eraseIdx i, added := inj.added ++ [(e.onInsert,eca)],
    jobCount := inj.jobCount - 1 }.insertContentFromQueue

def spawn (u : DbUpdate) (inj : Injector Ptime) : Injector Ptime := { inj with updating := inj.updating ++ [u] }

def back (i : Nat) (u : DbUpdate) (ec : Option Status) (inj : Injector Ptime) : Injector Ptime :=
  { inj with updating := inj.updating.eraseIdx i, updated := inj.updated ++ [(u.onInsert,ec)] }

end Injector

inductive InjectorEvent (Ptime : Type) where
  | insertContent (key : Key) (value : Value) (ts : Ptime)
  | added (i : Nat) (eca : Status) (ipfsId : Hash)
  | updated (i : Nat) (ec : Option Status)
  | go

namespace Injector
variable {Ptime : Type}

def step (lib : JsonLib) (dt : DateTime Ptime) (inj : Injector Ptime) :
    InjectorEvent Ptime → Option (Injector Ptime)
  | .insertContent key value ts => some (inj.insertContent key value ts)
  | .go => if inj.handling then some { inj with handling := false } else none
  | .added i eca ipfsId =>
    match inj.handling,inj.adding[i]? with
    | false,some e =>
      let inj := inj.take i e eca
      match eca with
      | .error ec => some (inj.invoke ⟨e.onInsert,.error ec,ipfsId⟩)
      | .ok () => some (inj.spawn ⟨e.key,writeEntry lib dt ipfsId e.ts,ipfsId,e.onInsert⟩)
    | _,_ => none
  | .updated i ec =>
    match inj.handling,inj.updating[i]? with
    | false,some u =>
      let inj := inj.back i u ec
      match ec with
      | none => some inj
      | some ec => some (inj.invoke ⟨u.onInsert,ec,u.ipfsId⟩)
    | _,_ => none

def Step (lib : JsonLib) (dt : DateTime Ptime) (inj : Injector Ptime) (e : InjectorEvent Ptime)
    (inj' : Injector Ptime) : Prop := inj.step lib dt e = some inj'

def Reached (lib : JsonLib) (dt : DateTime Ptime) (inj : Injector Ptime) : Prop :=
  Reach (· = fresh) (Step lib dt) inj

end Injector
end IpfsCache
