import IpfsCache.Overlap

/-! load while an insert waits for a storage operation. Both work on the member `_root`:
load makes it point to another object, and the insert, unlike find, holds no copy of the
pointer to the one it has begun to work on. -/
namespace IpfsCache

structure Replacing where
  removing : Hash
  target : Hash
  old : Nat

inductive Fault where
  | freed         -- goes on in a node of a root that nobody holds any more
  | noNode        -- follows a missing `_root` or `_root->node`
  | foreignHash   -- writes the hash of the old tree into the root that load has installed
  deriving DecidableEq

/-- turn counts the changes of `_root` by load; home is the turn in which the insert that is
past the guard read `_root` last. -/
structure Loading (World : Type) where
  map : System World
  turn : Nat
  home : Nat
  loads : List Replacing
  faults : List Fault

inductive LoadEvent (World : Type) where
  | insert (key : Key) (value : Value)
  | resume (frame : Nat) (by_ : Resumption) (world : World)
  | load (hash : Hash)
  | removed (load : Nat) (world : World)

def Frame.inTree : Frame → Bool
  | .inserting .. | .storing .. => true
  | _ => false

namespace Loading
variable {World : Type}

def fresh (world : World) : Loading World := ⟨.fresh world,0,0,[],[]⟩

def fails (faults : List Fault) (s : Loading World) : Loading World := { s with faults := s.faults ++ faults }

/-- The insert goes on in a tree that is no longer the one behind `_root`. The nodes are there
as long as a load holds their root. Behind Node::insert follows `_root->node`, and behind
Node::store `_root->hash` is written; no root that load makes has a node, and nobody makes one
for it, as there is one insert at a time and no find. A store that fails ends the insert. -/
def stray (i : Nat) (frame : Frame) (by_ : Resumption) (world : World) (s : Loading World) : Option (Loading World) :=
  match frame,by_ with
  | .inserting _ ps after buf,.removed =>
    if s.loads.any fun l => l.old == s.home then
      match ps with
      | [] => some (s.fails [.noNode])
      | q :: ps =>
        some { s with map := { s.map with world := world, frames := s.map.frames.set i (.inserting q ps after buf) } }
    else some (s.fails [.freed])
  | .storing _ next,.added reply =>
    match reply,next reply with
    | .ok _,.done (_,.stored _) => some (s.fails [.foreignHash,.noNode])
    | .error _,.done out =>
      some { s with
        map := s.map.after i frame world
          (.ends { s.map.tree with isInserting := false } (BTree.afterStore noHash out).2) }
    | _,_ => some (s.fails [.freed])
  | _,_ => none

def install (target : Hash) (s : Loading World) : Loading World :=
  { s with map := { s.map with tree := { s.map.tree with root := some ⟨none,target⟩ } }, turn := s.turn + 1 }

def load (cfg : Config) (hash : Hash) (s : Loading World) : Loading World :=
  if s.map.tree.root.map Root.hash = some hash then s
  else
    let s := { s with map := { s.map with tree := { s.map.tree with insertBuffer := [] } } }
    match s.map.tree.root with
    | none => s.install hash
    | some r =>
      match Node.tryRemove cfg r.hash ⟨[]⟩ none with
      | [] => s.install hash
      | p :: _ =>
        { s with
          map := { s.map with tree := { s.map.tree with root := none } },
          turn := s.turn + 1, loads := s.loads ++ [⟨p.hash,hash,s.turn⟩] }

def resume (cfg : Config) (i : Nat) (by_ : Resumption) (world : World) (s : Loading World) : Option (Loading World) :=
  match s.map.frames[i]? with
  | none => none
  | some frame =>
    if frame.inTree ∧ s.home ≠ s.turn then s.stray i frame by_ world
    else (s.map.step cfg (.resume i by_ world)).map fun map => { s with map := map, home := s.turn }

def step (cfg : Config) (s : Loading World) (e : LoadEvent World) : Option (Loading World) :=
  if s.faults = [] then
    match e with
    | .insert key value => (s.map.step cfg (.call key value)).map fun map => { s with map := map }
    | .resume i by_ world => s.resume cfg i by_ world
    | .load hash => if s.map.frames.all Frame.waits then some (s.load cfg hash) else none
    | .removed i world =>
      if s.map.frames.all Frame.waits then
        (s.loads[i]?).map fun l =>
          { s with map := { s.map with world := world }, loads := s.loads.eraseIdx i }.install l.target
      else none
  else none

def Allowed (env : Env World) (s : Loading World) : LoadEvent World → Prop
  | .insert _ _ => True
  | .resume i by_ world => ∀ frame, s.map.frames[i]? = some frame → env.Answers s.map.world frame by_ world
  | .load _ => True
  | .removed i world => ∀ l, s.loads[i]? = some l → env.removes s.map.world l.removing world

def Step (cfg : Config) (env : Env World) (s : Loading World) (e : LoadEvent World) (s' : Loading World) : Prop :=
  s.Allowed env e ∧ s.step cfg e = some s'

def Starts (s : Loading World) : Prop := ∃ world, s = .fresh world

end Loading

inductive LoadAct where
  | insert (key : Key) (value : Value)
  | resume (frame : Nat)
  | load (hash : Hash)
  | removed (load : Nat)

namespace Loading
variable {World : Type}

def event (S : Storage World) (s : Loading World) : LoadAct → Option (LoadEvent World)
  | .insert key value => some (.insert key value)
  | .resume i =>
    (s.map.frames[i]?).map fun frame => .resume i (S.answer s.map.world frame).1 (S.answer s.map.world frame).2
  | .load hash => some (.load hash)
  | .removed i => (s.loads[i]?).map fun l => .removed i (S.remove s.map.world l.removing)

def play (cfg : Config) (S : Storage World) (ok : Loading World → LoadEvent World → Bool) :
    List LoadAct → Loading World → Option (Loading World)
  | [],s => some s
  | a :: acts,s =>
    match s.event S a with
    | none => none
    | some e => if ok s e then (s.step cfg e).bind (play cfg S ok acts) else none

end Loading
end IpfsCache
