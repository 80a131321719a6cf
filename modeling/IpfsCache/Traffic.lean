import IpfsCache.Reader
import IpfsCache.Lib.Reach

/-! The BTree of a client in full traffic: any number of finds under way, each in the root
object it began to read, roots loaded at any time, blocks that come in any order or fail,
and the destruction of the BTree while finds wait. -/
namespace IpfsCache

structure Fetch where
  lookup : Lookup
  object : Nat
  path : List NodeId
  hash : Hash

structure Reply where
  lookup : Lookup
  result : Except ErrorCode Value
  deriving DecidableEq

structure Traffic where
  objects : List Root
  loaded : List Hash
  current : Option Nat
  destroyed : Bool
  begun : List Lookup
  fetching : List Fetch
  served : List Reply

inductive TrafficEvent where
  | find (key : Key)
  | load (hash : Hash)
  | block (i : Nat) (data : Except ErrorCode Value)
  | destroy

namespace Traffic

def fresh : Traffic := ⟨[],[],none,false,[],[],[]⟩

def goesOn (s : Traffic) (lookup : Lookup) (object : Nat) : FindStep → Traffic
  | .done result => { s with served := s.served ++ [⟨lookup,result⟩] }
  | .cat path hash => { s with fetching := s.fetching ++ [⟨lookup,object,path,hash⟩] }

def put (object : Nat) (root : Option Root) (s : Traffic) : Traffic :=
  match root with
  | none => s
  | some r => { s with objects := s.objects.set object r }

def find (key : Key) (s : Traffic) : Traffic :=
  match s.current with
  | none => { s with begun := s.begun ++ [⟨key,none⟩], served := s.served ++ [⟨⟨key,none⟩,.error .notFound⟩] }
  | some object =>
    let lookup : Lookup := ⟨key,s.objects[object]?.map Root.hash⟩
    let out := BTree.find key ⟨s.objects[object]?,[],false⟩
    ({ s with begun := s.begun ++ [lookup] }.put object out.1.root).goesOn lookup object out.2

def left (s : Traffic) : List Root :=
  match s.current,s.current.bind fun object => s.objects[object]? with
  | some object,some old => s.objects.set object { old with hash := noHash }
  | _,_ => s.objects

def load (hash : Hash) (s : Traffic) : Traffic :=
  if (s.current.bind fun object => s.objects[object]?).map Root.hash = some hash then s
  else { s with objects := s.left ++ [⟨none,hash⟩], loaded := s.loaded ++ [hash], current := some s.left.length }

def aborted (data : Except ErrorCode Value) : Except ErrorCode Value :=
  match data with
  | .error ec => .error ec
  | .ok _ => .error .operationAborted

def block (cfg : Config) (data : Except ErrorCode Value) (f : Fetch) (s : Traffic) : Traffic :=
  if s.destroyed then { s with served := s.served ++ [⟨f.lookup,aborted data⟩] }
  else
    let out := BTree.resume cfg f.lookup.key data f.path ⟨s.objects[f.object]?,[],false⟩
    (s.put f.object out.1.root).goesOn f.lookup f.object out.2

def step (cfg : Config) (s : Traffic) : TrafficEvent → Option Traffic
  | .find key => if s.destroyed then none else some (s.find key)
  | .load hash => if s.destroyed then none else some (s.load hash)
  | .block i data => s.fetching[i]?.map fun f => { s with fetching := s.fetching.eraseIdx i }.block cfg data f
  | .destroy => if s.destroyed then none else some { s with destroyed := true, current := none }

def Served (content : Hash → Option Value) (s : Traffic) : TrafficEvent → Prop
  | .block i data => ∀ f text, s.fetching[i]? = some f → data = .ok text → content f.hash = some text
  | _ => True

def Step (cfg : Config) (content : Hash → Option Value) (s : Traffic) (e : TrafficEvent) (s' : Traffic) : Prop :=
  s.Served content e ∧ s.step cfg e = some s'

def Reached (cfg : Config) (content : Hash → Option Value) (s : Traffic) : Prop :=
  Reach (· = fresh) (Step cfg content) s

end Traffic

end IpfsCache
