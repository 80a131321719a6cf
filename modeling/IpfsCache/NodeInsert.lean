import IpfsCache.Node

/-! Node::insert, insert_node and split. The only calls that can suspend are the
remove_op calls inside BTree::try_remove. Their outcome is ignored and nobody else
writes to the tree meanwhile, so a run is its suspensions in order and its result. -/
namespace IpfsCache

/-- A suspension in remove_op: the id being removed, the subtree as any other coroutine sees
it, and the split-off node a frame of Node::insert holds in `new_node`. -/
structure Pause where
  hash : Hash
  tree : Node
  held : Option Node

structure Inserted where
  pauses : List Pause
  node : Node
  ret : Option Node

namespace Node

def tryRemove (cfg : Config) (hash : Hash) (tree : Node) (held : Option Node) : List Pause :=
  if hash.isEmpty then [] else if cfg.removeOp then [⟨hash,tree,held⟩] else []

def splitLoop (cfg : Config) (median : Nat) (fillLeft : Bool) (left ret : Entries) :
    Entries → List Pause × Entries
  | [] => ([],ret)
  | (i,e) :: rest =>
    match fillLeft,median with
    | true,0 =>
      let inf := left.infEntry
      let leftChild : Node := ⟨inf.1 ++ [(⊤,{ inf.2 with child := e.child })]⟩
      let e' : Entry Node := ⟨e.value,some leftChild,noHash⟩
      let tail := splitLoop cfg 0 false [] (OrderedMap.insert i e' ret) rest
      (tryRemove cfg e.childHash ⟨(i,e') :: rest⟩ none ++ tail.1,tail.2)
    | true,median + 1 => splitLoop cfg median true (OrderedMap.insert i e left) ret rest
    | false,_ =>
      let inf := ret.infEntry
      let ch := inf.2.child.getD ⟨[]⟩
      let ch' : Node := ⟨OrderedMap.insert i e ch.entries⟩
      splitLoop cfg 0 false [] (inf.1 ++ [(⊤,{ inf.2 with child := some ch' })]) rest

def split (cfg : Config) (before : List Pause) (es : Entries) : Inserted :=
  if es.size ≤ cfg.maxNodeSize then ⟨before,⟨es⟩,none⟩
  else
    let out := splitLoop cfg (es.size / 2) true [] [] es
    ⟨before ++ out.1,⟨[]⟩,some ⟨out.2⟩⟩

/-- Node::insert_node; none: one of its assertions fails, or it follows a null pointer. -/
def insertNode (n : Node) (es : Entries) : Option Entries :=
  match n.entries with
  | [(k₁,e₁),(_,e₂)] =>
    let es₁ := OrderedMap.insert k₁ e₁ es
    match OrderedMap.lowerBound k₁ es₁ with
    | j :: (i,e) :: post =>
      match e.child,e₂.child with
      | some _,some right =>
        let refilled := right.entries.foldl (fun m p => OrderedMap.insert p.1 p.2 m) []
        some (OrderedMap.before k₁ es₁ ++ j :: (i,{ e with child := some ⟨refilled⟩ }) :: post)
      | _,_ => none
    | _ => none
  | _ => none

theorem lowerBoundChild {es : Entries} {key : Key} (inner : es.isLeaf = false) {pre post : Entries}
    {i : NodeId} {e : Entry Node} (at_ : es.findOrCreateLowerBound key = (pre,(i,e),post)) :
    sizeOf (e.child.getD ⟨[]⟩) < 1 + sizeOf es := by
  cases child : e.child with
  | none =>
    obtain ⟨p,mem,_⟩ : ∃ p ∈ es, p.2.child.isSome := by
      simpa [Entries.isLeaf,Option.isNone_iff_eq_none,Option.isSome_iff_ne_none] using inner
    have smaller := List.sizeOf_lt_of_mem mem
    rw [Prod.mk.sizeOf_spec] at smaller
    simp only [Option.getD_none,Node.mk.sizeOf_spec,List.nil.sizeOf_spec]
    omega
  | some c =>
    have mem : (i,e) ∈ es := by
      unfold Entries.findOrCreateLowerBound at at_
      split at at_
      · cases at_; cases child
      · rename_i p rest same
        cases at_
        rw [← OrderedMap.cut (key : NodeId) es,same]
        simp
    exact childSmaller mem child

def insert (cfg : Config) (key : Key) (value : Value) : Node → Option Inserted
  | ⟨es⟩ =>
    if inner : Entries.isLeaf es = false then
      match at_ : Entries.findOrCreateLowerBound key es with
      | (pre,(i,e),post) =>
        if i = key then some ⟨[],⟨pre ++ (i,{ e with value := value }) :: post⟩,none⟩
        else
          have := lowerBoundChild inner at_
          match insert cfg key value (e.child.getD ⟨[]⟩) with
          | none => none
          | some ⟨below,child,newNode⟩ =>
            let here (child : Node) (hash : Hash) : Entries :=
              pre ++ (i,{ e with child := some child, childHash := hash }) :: post
            let pauses := below.map (fun p => { p with tree := ⟨here p.tree e.childHash⟩ }) ++
              tryRemove cfg e.childHash ⟨here child noHash⟩ newNode
            match newNode with
            | none => some (split cfg pauses (here child noHash))
            | some n => (insertNode n (here child noHash)).map (split cfg pauses)
    else some (split cfg [] (OrderedMap.insert (key : NodeId) ⟨value,none,noHash⟩ es))
termination_by n => sizeOf n

end Node
end IpfsCache
