import IpfsCache.BTree

/-! Inserts that overlap. Every call of BTree::insert is a coroutine of one thread: it
runs until it ends or waits for a storage operation, and only then can another call
begin or another operation return. -/
namespace IpfsCache

inductive Frame where
  | loop                                          -- at the test of the while loop
  | batch (buf : List (Key × Value))              -- at the next round of the for loop
  | inserting (at_ : Pause) (next : List Pause) (after : Root) (buf : List (Key × Value))
                                                  -- in a remove_op that raw_insert called
  | unhooking (hash : Hash)                       -- in the remove_op of the old root block
  | unhooked                                      -- behind it
  | storing (block : Value) (next : Except ErrorCode Hash → StoreProgram)

def Frame.waits : Frame → Bool
  | .inserting .. | .unhooking _ | .storing .. => true
  | _ => false

def Frame.handing : Frame → List (Key × Value)
  | .batch (kv :: _) => [kv]
  | _ => []

inductive Resumption where
  | go
  | removed
  | added (reply : Except ErrorCode Hash)

inductive Advance where
  | goes (tree : BTree) (frame : Frame)
  | ends (tree : BTree) (outcome : InsertOutcome)

def storeOn (tree : BTree) (hash : Hash) : StoreProgram → Advance
  | .await block view next => .goes { tree with root := some ⟨some view,hash⟩ } (.storing block next)
  | .done out =>
    match BTree.afterStore hash out with
    | (r,.completed) => .goes { tree with root := some r } .loop
    | (r,outcome) => .ends { tree with root := some r, isInserting := false } outcome

def pauseOn (tree : BTree) (after : Root) (buf : List (Key × Value)) : List Pause → Advance
  | [] => .goes { tree with root := some after } (.batch buf)
  | p :: ps => .goes { tree with root := some { after with node := some p.tree } } (.inserting p ps after buf)

/-- BTree::insert from one point to the next; none: an assertion fails, or the frame does not
wait for what has returned. -/
def advance (cfg : Config) (tree : BTree) : Frame → Resumption → Option Advance
  | .loop,.go =>
    match tree.insertBuffer with
    | [] => some (.ends { tree with isInserting := false } .completed)
    | buf => some (.goes { tree with insertBuffer := [] } (.batch buf))
  | .batch ((k,v) :: buf),.go =>
    (BTree.rawInsert cfg k v tree.root).map fun (ps,after) => pauseOn tree after buf ps
  | .inserting _ ps after buf,.removed => some (pauseOn tree after buf ps)
  | .batch [],.go =>
    match tree.root with
    | none => some (.goes tree .unhooked)
    | some r =>
      let tree := { tree with root := some { r with hash := noHash } }
      match Node.tryRemove cfg r.hash ⟨[]⟩ none with
      | [] => some (.goes tree .unhooked)
      | p :: _ => some (.goes tree (.unhooking p.hash))
  | .unhooking _,.removed => some (.goes tree .unhooked)
  | .unhooked,.go =>
    match tree.root with
    | some ⟨some n,hash⟩ => some (if cfg.addOp then storeOn tree hash (n.store cfg) else .goes tree .loop)
    | _ => some (.goes tree .loop)
  | .storing _ next,.added reply => some (storeOn tree tree.rootHash (next reply))
  | _,_ => none

/-- The tree, the calls past the guard and the storage; and what has happened so far: the
calls made, the keys handed to raw_insert, the outcomes of the calls that ended. -/
structure System (World : Type) where
  tree : BTree
  frames : List Frame
  world : World
  calls : List (Key × Value)
  handed : List Key
  ended : List InsertOutcome

inductive Event (World : Type) where
  | call (key : Key) (value : Value)
  | resume (frame : Nat) (by_ : Resumption) (world : World)

namespace System
variable {World : Type}

def fresh (world : World) : System World := ⟨.fresh,[],world,[],[],[]⟩

def call (key : Key) (value : Value) (s : System World) : System World :=
  let buffer := OrderedMap.insert key value s.tree.insertBuffer
  let s := { s with calls := s.calls ++ [(key,value)] }
  if s.tree.isInserting then
    { s with tree := { s.tree with insertBuffer := buffer }, ended := s.ended ++ [.buffered] }
  else
    { s with tree := { s.tree with insertBuffer := buffer, isInserting := true }, frames := s.frames ++ [.loop] }

def after (s : System World) (i : Nat) (frame : Frame) (world : World) : Advance → System World
  | .goes tree frame' =>
    { s with
      tree := tree, frames := s.frames.set i frame', world := world,
      handed := s.handed ++ OrderedMap.keys frame.handing }
  | .ends tree outcome =>
    { s with
      tree := tree, frames := s.frames.eraseIdx i, world := world,
      handed := s.handed ++ OrderedMap.keys frame.handing, ended := s.ended ++ [outcome] }

def step (cfg : Config) (s : System World) : Event World → Option (System World)
  | .call key value => if s.frames.all Frame.waits then some (s.call key value) else none
  | .resume i by_ world =>
    match s.frames[i]? with
    | none => none
    | some frame =>
      if (s.frames.eraseIdx i).all Frame.waits then
        (advance cfg s.tree frame by_).map (s.after i frame world)
      else none

end System

structure Env (World : Type) where
  removes : World → Hash → World → Prop
  adds : World → Value → Except ErrorCode Hash → World → Prop

def Env.Answers {World : Type} (env : Env World) (world : World) : Frame → Resumption → World → Prop
  | .inserting p _ _ _,.removed,world' => env.removes world p.hash world'
  | .unhooking hash,.removed,world' => env.removes world hash world'
  | .storing block _,.added reply,world' => env.adds world block reply world'
  | _,_,world' => world' = world

def Allowed {World : Type} (env : Env World) (s : System World) : Event World → Prop
  | .call _ _ => True
  | .resume i by_ world => ∀ frame, s.frames[i]? = some frame → env.Answers s.world frame by_ world

def Step {World : Type} (cfg : Config) (env : Env World) (s : System World) (e : Event World)
    (s' : System World) : Prop :=
  Allowed env s e ∧ s.step cfg e = some s'

def Starts {World : Type} (s : System World) : Prop := ∃ world, s = .fresh world

inductive Act where
  | call (key : Key) (value : Value)
  | resume (frame : Nat)

namespace Storage
variable {World : Type}

def env (S : Storage World) : Env World :=
  ⟨fun world hash world' => world' = S.remove world hash,fun world x reply world' => S.add world x = (reply,world')⟩

def answer (S : Storage World) (world : World) : Frame → Resumption × World
  | .inserting p _ _ _ => (.removed,S.remove world p.hash)
  | .unhooking hash => (.removed,S.remove world hash)
  | .storing block _ => (.added (S.add world block).1,(S.add world block).2)
  | _ => (.go,world)

end Storage

def Act.event {World : Type} (S : Storage World) (s : System World) : Act → Option (Event World)
  | .call key value => some (.call key value)
  | .resume i =>
    match s.frames[i]? with
    | none => none
    | some frame => some (.resume i (S.answer s.world frame).1 (S.answer s.world frame).2)

def System.play {World : Type} (cfg : Config) (S : Storage World) (ok : System World → Event World → Bool) :
    List Act → System World → Option (System World)
  | [],s => some s
  | a :: acts,s =>
    match a.event S s with
    | none => none
    | some e => if ok s e then (s.step cfg e).bind (play cfg S ok acts) else none

end IpfsCache
