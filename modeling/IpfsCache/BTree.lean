import IpfsCache.NodeInsert
import IpfsCache.NodeFind
import IpfsCache.NodeStore

/-! BTree with storage operations that return before anything else runs on the tree:
the calls of one coroutine, one after another. -/
namespace IpfsCache

structure Storage (σ : Type) where
  cat : σ → Hash → Except ErrorCode Value × σ
  add : σ → Value → Except ErrorCode Hash × σ
  remove : σ → Hash → σ

structure Root where
  node : Option Node
  hash : Hash

structure BTree where
  root : Option Root
  insertBuffer : List (Key × Value)
  isInserting : Bool

inductive InsertOutcome where
  | completed
  | buffered
  | error (ec : ErrorCode)
  | exception
  deriving DecidableEq

namespace BTree
variable {σ : Type}

def fresh : BTree := ⟨none,[],false⟩

def rootHash (bt : BTree) : Hash :=
  match bt.root with
  | none => noHash
  | some r => r.hash

def localNodeCount (bt : BTree) : Nat :=
  match bt.root with
  | some ⟨some n,_⟩ => n.localNodeCount
  | _ => 0

def lazyFind (hash : Hash) (node : Option Node) (key : Key) : Option Node × FindStep :=
  match node with
  | none => if hash.isEmpty then (none,.done (.error .notFound)) else (some ⟨[]⟩,.cat [] hash)
  | some n => ((n.find key).map some id)

def find (key : Key) (bt : BTree) : BTree × FindStep :=
  match OrderedMap.find key bt.insertBuffer with
  | some value => (bt,.done (.ok value))
  | none =>
    match bt.root with
    | none => (bt,.done (.error .notFound))
    | some r =>
      let out := lazyFind r.hash r.node key
      ({ bt with root := some { r with node := out.1 } },out.2)

def resume (cfg : Config) (key : Key) (data : Except ErrorCode Value) (path : List NodeId) (bt : BTree) :
    BTree × FindStep :=
  match bt.root with
  | some ⟨some n,hash⟩ =>
    let out := n.resume cfg key data path
    ({ bt with root := some ⟨some out.1,hash⟩ },out.2)
  | _ => (bt,.done (.error .operationAborted))

def finish (cfg : Config) (S : Storage σ) (key : Key) : Nat → BTree × FindStep → σ →
    Option (Except ErrorCode Value × BTree × σ)
  | _,(bt,.done result),st => some (result,bt,st)
  | 0,(_,.cat _ _),_ => none
  | fuel + 1,(bt,.cat path hash),st =>
    let data := S.cat st hash
    finish cfg S key fuel (bt.resume cfg key data.1 path) data.2

def findAlone (cfg : Config) (S : Storage σ) (fuel : Nat) (key : Key) (bt : BTree) (st : σ) :
    Option (Except ErrorCode Value × BTree × σ) :=
  finish cfg S key fuel (bt.find key) st

def findEach (cfg : Config) (S : Storage σ) (fuel : Nat) : List Key → BTree → σ →
    Option (List (Except ErrorCode Value) × BTree × σ)
  | [],bt,st => some ([],bt,st)
  | k :: rest,bt,st =>
    match findAlone cfg S fuel k bt st with
    | none => none
    | some (result,bt,st) => (findEach cfg S fuel rest bt st).map fun out => (result :: out.1,out.2)

/-- BTree::raw_insert: the suspensions and the node that is the root's afterwards; none: an
assertion fails on the way, or the one at the end. -/
def rawInsert (cfg : Config) (key : Key) (value : Value) (root : Option Root) : Option (List Pause × Root) :=
  let r := root.getD ⟨none,noHash⟩
  match (r.node.getD ⟨[]⟩).insert cfg key value with
  | none => none
  | some out =>
    let n := out.ret.getD out.node
    if n.checkInvariants cfg.maxNodeSize then some (out.pauses,⟨some n,r.hash⟩) else none

def removeAll (S : Storage σ) (pauses : List Pause) (st : σ) : σ :=
  pauses.foldl (fun st p => S.remove st p.hash) st

def rawInsertAll (cfg : Config) (S : Storage σ) : List (Key × Value) → Option Root → σ → Option (Option Root × σ)
  | [],root,st => some (root,st)
  | (k,v) :: rest,root,st =>
    match rawInsert cfg k v root with
    | none => none
    | some (pauses,r) => rawInsertAll cfg S rest (some r) (removeAll S pauses st)

def removeRoot (cfg : Config) (S : Storage σ) (root : Option Root) (st : σ) : Option Root × σ :=
  match root with
  | none => (none,st)
  | some ⟨node,hash⟩ =>
    (some ⟨node,noHash⟩,removeAll S (Node.tryRemove cfg hash ⟨[]⟩ none) st)

def afterStore (hash : Hash) : Node × StoreOutcome → Root × InsertOutcome
  | (n,.stored hash') => (⟨some n,hash'⟩,.completed)
  | (n,.error ec) => (⟨some n,hash⟩,.error ec)
  | (n,.exception) => (⟨some n,hash⟩,.exception)

def storeRoot (cfg : Config) (S : Storage σ) (root : Option Root) (st : σ) : Option Root × InsertOutcome × σ :=
  match root with
  | some ⟨some n,hash⟩ =>
    if cfg.addOp then
      let out := (n.store cfg).run S.add st
      let after := afterStore hash out.1
      (some after.1,after.2,out.2)
    else (root,.completed,st)
  | _ => (root,.completed,st)

def insertLoop (cfg : Config) (S : Storage σ) (bt : BTree) (st : σ) : Option (InsertOutcome × BTree × σ) :=
  match filled : bt.insertBuffer with
  | [] => some (.completed,bt,st)
  | kv :: rest =>
    match rawInsertAll cfg S (kv :: rest) bt.root st with
    | none => none
    | some (root,st) =>
      let removed := removeRoot cfg S root st
      have : 0 < bt.insertBuffer.length := by simp [filled]
      match storeRoot cfg S removed.1 removed.2 with
      | (root,.completed,st) => insertLoop cfg S { bt with root := root, insertBuffer := [] } st
      | (root,outcome,st) => some (outcome,{ bt with root := root, insertBuffer := [] },st)
termination_by bt.insertBuffer.length

def insert (cfg : Config) (S : Storage σ) (key : Key) (value : Value) (bt : BTree) (st : σ) :
    Option (InsertOutcome × BTree × σ) :=
  let buffer := OrderedMap.insert key value bt.insertBuffer
  if bt.isInserting then some (.buffered,{ bt with insertBuffer := buffer },st)
  else
    (insertLoop cfg S { bt with insertBuffer := buffer, isInserting := true } st).map
      fun (outcome,bt,st) => (outcome,{ bt with isInserting := false },st)

def insertEach (cfg : Config) (S : Storage σ) : List (Key × Value) → BTree → σ → Option (BTree × σ)
  | [],bt,st => some (bt,st)
  | (k,v) :: rest,bt,st =>
    match insert cfg S k v bt st with
    | some (.completed,bt,st) => insertEach cfg S rest bt st
    | _ => none

def load (cfg : Config) (S : Storage σ) (hash : Hash) (bt : BTree) (st : σ) : BTree × σ :=
  match bt.root with
  | some r =>
    if r.hash = hash then (bt,st)
    else ({ bt with root := some ⟨none,hash⟩, insertBuffer := [] },
      removeAll S (Node.tryRemove cfg r.hash ⟨[]⟩ none) st)
  | none => ({ bt with root := some ⟨none,hash⟩, insertBuffer := [] },st)

end BTree
end IpfsCache
