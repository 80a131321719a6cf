import IpfsCache.Json
import Mathlib.Data.List.Flatten

/-! BTree::Node: a std::map from node ids to entries. The id of the INF entry
(boost::none) is greater than every key. -/
namespace IpfsCache

abbrev NodeId := WithTop Key

structure Entry (N : Type) where
  value : Value
  child : Option N
  childHash : Hash

inductive Node where
  | mk (entries : List (NodeId × Entry Node))

abbrev Entries := List (NodeId × Entry Node)

def noHash : Hash := ⟨[]⟩

/-- What the BTree constructor was given: the node size, which of the storage operations are
there (an empty std::function is absent), and the JSON library. -/
structure Config where
  maxNodeSize : Nat
  addOp : Bool
  removeOp : Bool
  json : JsonLib

namespace Node

def entries : Node → Entries
  | ⟨es⟩ => es

theorem childSmaller {es : Entries} {p : NodeId × Entry Node} {c : Node} (mem : p ∈ es)
    (child : p.2.child = some c) : sizeOf c < 1 + sizeOf es := by
  have h := List.sizeOf_lt_of_mem mem
  obtain ⟨i,v,c',x⟩ := p
  cases child
  simp only [Prod.mk.sizeOf_spec,Entry.mk.sizeOf_spec,Option.some.sizeOf_spec] at h
  omega

theorem induct {P : Node → Prop}
    (step : ∀ es : Entries, (∀ p ∈ es, ∀ c, p.2.child = some c → P c) → P ⟨es⟩) (n : Node) : P n :=
  match n with
  | ⟨es⟩ => step es fun p mem c child => have := childSmaller mem child; induct step c
termination_by sizeOf n

end Node

namespace Entries

def size (es : Entries) : Nat :=
  match es.getLast? with
  | none => 0
  | some (i,_) => if i = ⊤ then es.length - 1 else es.length

def isLeaf (es : Entries) : Bool := es.all (fun p => p.2.child.isNone)

def makeInfEntry : NodeId × Entry Node := (⊤,⟨⟨[]⟩,none,noHash⟩)

def infEntry (es : Entries) : Entries × Entry Node :=
  match es.getLast? with
  | none => ([],makeInfEntry.2)
  | some (i,e) => if i = ⊤ then (es.dropLast,e) else (es,makeInfEntry.2)

def findOrCreateLowerBound (key : Key) (es : Entries) : Entries × (NodeId × Entry Node) × Entries :=
  match OrderedMap.lowerBound (key : NodeId) es with
  | [] => (OrderedMap.before (key : NodeId) es,makeInfEntry,[])
  | p :: rest => (OrderedMap.before (key : NodeId) es,p,rest)

end Entries

namespace Node

def size (n : Node) : Nat := n.entries.size
def isLeaf (n : Node) : Bool := n.entries.isLeaf

mutual
def minMaxDepth : Node → Nat × Nat
  | ⟨es⟩ => minMaxLoop none es

def minMaxLoop : Option (Nat × Nat) → Entries → Nat × Nat
  | acc,[] => acc.getD (1,1)
  | acc,(_,⟨_,none,_⟩) :: rest => minMaxLoop acc rest
  | none,(_,⟨_,some c,_⟩) :: rest => minMaxLoop (some (c.minMaxDepth.1 + 1,c.minMaxDepth.2 + 1)) rest
  | some (least,most),(_,⟨_,some c,_⟩) :: rest =>
      minMaxLoop (some (min least (c.minMaxDepth.1 + 1),max most (c.minMaxDepth.2 + 1))) rest
end

mutual
def checkInvariants (maxNodeSize : Nat) : Node → Bool
  | ⟨es⟩ =>
    if Entries.size es > maxNodeSize then false
    else if (minMaxDepth ⟨es⟩).1 ≠ (minMaxDepth ⟨es⟩).2 then false
    else checkEntries maxNodeSize es

def checkEntries (maxNodeSize : Nat) : Entries → Bool
  | [] => true
  | (_,⟨_,none,_⟩) :: rest => checkEntries maxNodeSize rest
  | (i,⟨_,some c,_⟩) :: rest =>
      c.entries.all (fun q => q.1 = ⊤ || decide (q.1 < i)) &&
      c.checkInvariants maxNodeSize && checkEntries maxNodeSize rest
end

mutual
def localNodeCount : Node → Nat
  | ⟨es⟩ => localNodeCounts es + 1

def localNodeCounts : Entries → Nat
  | [] => 0
  | (_,⟨_,none,_⟩) :: rest => localNodeCounts rest
  | (_,⟨_,some c,_⟩) :: rest => c.localNodeCount + localNodeCounts rest
end

mutual
def everyNodeHasHash : Node → Bool
  | ⟨es⟩ => es.all (fun p => p.2.child.isNone || !p.2.childHash.isEmpty) && everyChildHasHash es

def everyChildHasHash : Entries → Bool
  | [] => true
  | (_,⟨_,none,_⟩) :: rest => everyChildHasHash rest
  | (_,⟨_,some c,_⟩) :: rest => c.everyNodeHasHash && everyChildHasHash rest
end

end Node
end IpfsCache
