import IpfsCache.BTree

/-! A BTree as a client uses it: nothing is inserted and there is no remove_op. Finds come
one after another, and root hashes are loaded at any time. BTree::find holds a copy of the
pointer `_root`, so that the object it has begun to read stays when load replaces it. -/
namespace IpfsCache

structure Lookup where
  key : Key
  began : Option Hash
  deriving DecidableEq

/-- A find that waits for a block, its `asked`th. copied: the root object that only its copy
points to since load has moved `_root` away; none: `_root` still points to the same one. -/
structure Reading where
  lookup : Lookup
  asked : Nat
  path : List NodeId
  hash : Hash
  copied : Option Root

structure Served where
  lookup : Lookup
  asked : Nat
  result : Except ErrorCode Value
  deriving DecidableEq

structure Reader (World : Type) where
  tree : BTree
  world : World
  begun : List Lookup
  reading : Option Reading
  served : List Served

inductive ReadEvent (World : Type) where
  | find (key : Key)
  | load (hash : Hash)
  | block (data : Except ErrorCode Value) (world : World)
  | elsewhere (world : World)

def Reading.keep (root : Option Root) (r : Reading) : Reading :=
  match r.copied with
  | some _ => r
  | none => { r with copied := root.map fun old => { old with hash := noHash } }

namespace Reader
variable {World : Type}

def fresh (world : World) : Reader World := ⟨.fresh,world,[],none,[]⟩

def goesOn (s : Reader World) (lookup : Lookup) (asked : Nat) (copied : Option Root) : FindStep → Reader World
  | .done result => { s with reading := none, served := s.served ++ [⟨lookup,asked,result⟩] }
  | .cat path hash => { s with reading := some ⟨lookup,asked + 1,path,hash,copied⟩ }

def find (key : Key) (s : Reader World) : Reader World :=
  let lookup : Lookup := ⟨key,s.tree.root.map Root.hash⟩
  let out := s.tree.find key
  { s with tree := out.1, begun := s.begun ++ [lookup] }.goesOn lookup 0 none out.2

def load (cfg : Config) (S : Storage World) (hash : Hash) (s : Reader World) : Reader World :=
  if s.tree.root.map Root.hash = some hash then s
  else
    let out := BTree.load cfg S hash s.tree s.world
    { s with tree := out.1, world := out.2, reading := s.reading.map (Reading.keep s.tree.root) }

def block (cfg : Config) (data : Except ErrorCode Value) (r : Reading) (s : Reader World) : Reader World :=
  match r.copied with
  | none =>
    let out := s.tree.resume cfg r.lookup.key data r.path
    { s with tree := out.1 }.goesOn r.lookup r.asked none out.2
  | some root =>
    let out := BTree.resume cfg r.lookup.key data r.path ⟨some root,[],false⟩
    s.goesOn r.lookup r.asked out.1.root out.2

def step (cfg : Config) (S : Storage World) (s : Reader World) : ReadEvent World → Option (Reader World)
  | .find key => if s.reading.isSome then none else some (s.find key)
  | .load hash => some (s.load cfg S hash)
  | .block data world => s.reading.map fun r => { s with world := world }.block cfg data r
  | .elsewhere world => some { s with world := world }

theorem goesOnWorld (s : Reader World) (lookup : Lookup) (asked : Nat) (copied : Option Root) (out : FindStep) :
    (s.goesOn lookup asked copied out).world = s.world := by
  cases out <;> rfl

theorem blockWorld (cfg : Config) (data : Except ErrorCode Value) (r : Reading) (s : Reader World) :
    (s.block cfg data r).world = s.world := by
  rw [block]
  split <;> exact goesOnWorld _ _ _ _ _

end Reader
end IpfsCache
