import IpfsCache.Node

/-! Node::restore, Node::find and BTree::lazy_find. A find runs until it ends or until
it needs a block; it has then put an empty node in the place the block will fill, and
holds the way to that node. -/
namespace IpfsCache

inductive FindStep where
  | done (result : Except ErrorCode Value)
  | cat (path : List NodeId) (hash : Hash)
  deriving DecidableEq

def FindStep.under (i : NodeId) : FindStep → FindStep
  | .done result => .done result
  | .cat path hash => .cat (i :: path) hash

namespace Node

def restoreChild (v : Json) : Option Hash :=
  match v.find childField with
  | none => some noHash
  | some (.string s) => some s
  | some _ => none

def restoreValue (v : Json) : Option Value :=
  match v.index valueField with
  | none => none
  | some (.string s) => some s
  | some _ => some ⟨[]⟩

/-- The loop of Node::restore over the members of an object; false: an exception left it. -/
def restoreLoop : List (StdString × Json) → Entries → Entries × Bool
  | [],es => (es,true)
  | (k,v) :: rest,es =>
    match restoreChild v,restoreValue v with
    | some childHash,some value =>
      let key : NodeId := if k.isEmpty then ⊤ else k
      restoreLoop rest (OrderedMap.insert key ⟨value,none,childHash⟩ es)
    | _,_ => (es,false)

/-- Node::restore, given what cat_op brought. Only objects have keys to iterate over: null and
the empty array have no elements, any other value throws at its first one. -/
def restore (cfg : Config) (data : Except ErrorCode Value) (n : Node) : Node × Except ErrorCode Unit :=
  match data with
  | .error ec => (n,.error ec)
  | .ok text =>
    match cfg.json.parse text with
    | none => (n,.error .badDescriptor)
    | some (.object members) =>
      match restoreLoop members [] with
      | (es,true) => (⟨es⟩,.ok ())
      | (es,false) => (⟨es⟩,.error .badDescriptor)
    | some .null | some (.array []) => (⟨[]⟩,.ok ())
    | some _ => (⟨[]⟩,.error .badDescriptor)

theorem lowerBoundMem {es rest : Entries} {key : NodeId} {p : NodeId × Entry Node}
    (same : OrderedMap.lowerBound key es = p :: rest) : p ∈ es := by
  rw [← OrderedMap.cut key es,same]
  simp

def find (key : Key) : Node → Node × FindStep
  | ⟨es⟩ =>
    match at_ : OrderedMap.lowerBound (key : NodeId) es with
    | [] => (⟨es⟩,.done (.error .notFound))
    | (i,e) :: post =>
      let pre := OrderedMap.before (key : NodeId) es
      if i = key then (⟨es⟩,.done (.ok e.value))
      else
        match child : e.child with
        | none =>
          if e.childHash.isEmpty then (⟨es⟩,.done (.error .notFound))
          else (⟨pre ++ (i,{ e with child := some ⟨[]⟩ }) :: post⟩,.cat [i] e.childHash)
        | some c =>
          have := childSmaller (lowerBoundMem at_) child
          let below := find key c
          (⟨pre ++ (i,{ e with child := some below.1 }) :: post⟩,below.2.under i)
termination_by n => sizeOf n

def resume (cfg : Config) (key : Key) (data : Except ErrorCode Value) : List NodeId → Node → Node × FindStep
  | [],n =>
    match n.restore cfg data with
    | (n',.error ec) => (n',.done (.error ec))
    | (n',.ok ()) => n'.find key
  | i :: path,⟨es⟩ =>
    match OrderedMap.lowerBound i es with
    | (j,e) :: post =>
      match (if j = i then e.child else none) with
      | some c =>
        let below := resume cfg key data path c
        (⟨OrderedMap.before i es ++ (j,{ e with child := some below.1 }) :: post⟩,below.2.under i)
      | none => (⟨es⟩,.done (.error .operationAborted))
    | [] => (⟨es⟩,.done (.error .operationAborted))

end Node
end IpfsCache
