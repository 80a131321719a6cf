import IpfsCache.NodeFind

/-! What a tree is for: the map from keys to values obtained by reading it from left
to right. A search tree is one whose reading is in key order; find then is a lookup
in that map. -/
namespace IpfsCache
open OrderedMap (Sorted)

namespace Node

def ownPair (i : NodeId) (value : Value) : List (Key × Value) :=
  match i with
  | ⊤ => []
  | some (k : Key) => [(k,value)]

mutual
def flatten : Node → List (Key × Value)
  | ⟨es⟩ => flattenEntries es

def flattenEntries : Entries → List (Key × Value)
  | [] => []
  | (i,⟨value,none,_⟩) :: rest => ownPair i value ++ flattenEntries rest
  | (i,⟨value,some c,_⟩) :: rest => c.flatten ++ ownPair i value ++ flattenEntries rest
end

def keys (n : Node) : List Key := OrderedMap.keys n.flatten

def belowEntry (child : Option Node) : List (Key × Value) :=
  match child with
  | none => []
  | some c => c.flatten

def entryFlat (p : NodeId × Entry Node) : List (Key × Value) := belowEntry p.2.child ++ ownPair p.1 p.2.value

theorem flattenEntriesEq (es : Entries) : flattenEntries es = es.flatMap entryFlat := by
  induction es with
  | nil => rfl
  | cons p rest ih =>
    obtain ⟨i,value,child,hash⟩ := p
    cases child <;> simp [flattenEntries,entryFlat,belowEntry,ih]

theorem flattenEq (es : Entries) : flatten ⟨es⟩ = es.flatMap entryFlat := flattenEntriesEq es

theorem flattenAt (pre post : Entries) (i : NodeId) (e : Entry Node) :
    flatten ⟨pre ++ (i,e) :: post⟩ =
      flatten ⟨pre⟩ ++ belowEntry e.child ++ (ownPair i e.value ++ flatten ⟨post⟩) := by
  simp [flattenEq,entryFlat]

theorem flattenAppend (a b : Entries) : flatten ⟨a ++ b⟩ = flatten ⟨a⟩ ++ flatten ⟨b⟩ := by
  simp [flattenEq]

theorem ownPairKey {i : NodeId} {v : Value} {x : Key × Value} (mem : x ∈ ownPair i v) : (x.1 : NodeId) = i := by
  cases i using WithTop.recTopCoe with
  | top => simp [ownPair] at mem
  | coe k => simp only [ownPair,List.mem_singleton] at mem; rw [mem]

theorem belowInside {es : Entries} {p : NodeId × Entry Node} (mem : p ∈ es) {c : Node} (child : p.2.child = some c)
    {x : Key × Value} (inside : x ∈ c.flatten) : x ∈ flatten ⟨es⟩ := by
  rw [flattenEq]
  refine List.mem_flatMap.mpr ⟨p,mem,List.mem_append_left _ ?_⟩
  rw [child]
  exact inside

theorem ownInside {es : Entries} {p : NodeId × Entry Node} (mem : p ∈ es) {k : Key} (own : p.1 = k) :
    (k,p.2.value) ∈ flatten ⟨es⟩ := by
  rw [flattenEq]
  exact List.mem_flatMap.mpr ⟨p,mem,List.mem_append_right _ (by simp [own,ownPair])⟩

inductive Ordered : Node → Prop
  | mk {es : Entries} (here : Sorted es) (below : ∀ p ∈ es, ∀ c, p.2.child = some c → Ordered c) : Ordered ⟨es⟩

theorem Ordered.here {es : Entries} (h : Ordered ⟨es⟩) : Sorted es := by cases h; assumption

theorem Ordered.child {es : Entries} (h : Ordered ⟨es⟩) {p : NodeId × Entry Node} (mem : p ∈ es) {c : Node}
    (child : p.2.child = some c) : Ordered c := by cases h with | mk _ below => exact below p mem c child

structure SearchTree (n : Node) : Prop where
  ordered : Ordered n
  sorted : Sorted n.flatten

theorem SearchTree.child {es : Entries} (h : SearchTree ⟨es⟩) {p : NodeId × Entry Node} (mem : p ∈ es) {c : Node}
    (child : p.2.child = some c) : SearchTree c := by
  refine ⟨h.ordered.child mem child,?_⟩
  obtain ⟨a,b,rfl⟩ := List.append_of_mem mem
  have sorted := h.sorted
  rw [flattenAt,child] at sorted
  exact (OrderedMap.sortedAppend.mp (OrderedMap.sortedAppend.mp sorted).1).2.1

theorem flattenBelow {es : Entries} (sorted : Sorted (flatten ⟨es⟩)) {key : NodeId}
    (less : ∀ p ∈ es, p.1 < key) : ∀ x ∈ flatten ⟨es⟩, (x.1 : NodeId) < key := by
  intro x mem
  rw [flattenEq] at mem
  obtain ⟨⟨i,e⟩,here,inside⟩ := List.mem_flatMap.mp mem
  refine lt_of_le_of_lt ?_ (less _ here)
  cases i using WithTop.recTopCoe with
  | top => exact le_top
  | coe k =>
    obtain ⟨a,b,rfl⟩ := List.append_of_mem here
    rw [flattenAt] at sorted
    have across := (OrderedMap.sortedAppend.mp sorted).2.2
    rcases List.mem_append.mp inside with h | h
    · have : x.1 < k := across x (List.mem_append_right _ h) (k,e.value) (by simp [ownPair])
      exact WithTop.coe_le_coe.mpr this.le
    · exact (ownPairKey h).le

theorem flattenAbove {pre post : Entries} {i : NodeId} {e : Entry Node} (here : Sorted (pre ++ (i,e) :: post))
    (sorted : Sorted (flatten ⟨pre ++ (i,e) :: post⟩)) : ∀ x ∈ flatten ⟨post⟩, i < (x.1 : NodeId) := by
  intro x mem
  cases i using WithTop.recTopCoe with
  | top =>
    have above := (OrderedMap.sortedCons.mp (OrderedMap.sortedAppend.mp here).2.1).1
    cases post with
    | nil => simp [flattenEq] at mem
    | cons q _ => exact absurd (above q (by simp)) not_top_lt
  | coe k =>
    rw [flattenAt] at sorted
    have right := (OrderedMap.sortedAppend.mp sorted).2.1
    have : k < x.1 := (OrderedMap.sortedAppend.mp right).2.2 (k,e.value) (by simp [ownPair]) x mem
    exact WithTop.coe_lt_coe.mpr this

structure CutAt (key : Key) (pre : Entries) (i : NodeId) : Prop where
  less : ∀ p ∈ pre, p.1 < key
  ge : (key : NodeId) ≤ i

theorem SearchTree.left {key : Key} {pre post : Entries} {i : NodeId} {e : Entry Node}
    (h : SearchTree ⟨pre ++ (i,e) :: post⟩) (cut : CutAt key pre i) :
    ∀ x ∈ flatten ⟨pre⟩, x.1 < key := by
  have sorted := h.sorted
  rw [flattenAt] at sorted
  have left := (OrderedMap.sortedAppend.mp (OrderedMap.sortedAppend.mp sorted).1).1
  exact fun x mem => WithTop.coe_lt_coe.mp (flattenBelow left cut.less x mem)

theorem SearchTree.right {key : Key} {pre post : Entries} {i : NodeId} {e : Entry Node}
    (h : SearchTree ⟨pre ++ (i,e) :: post⟩) (cut : CutAt key pre i) :
    ∀ x ∈ flatten ⟨post⟩, key < x.1 := fun x mem =>
  WithTop.coe_lt_coe.mp (lt_of_le_of_lt cut.ge (flattenAbove h.ordered.here h.sorted x mem))

theorem SearchTree.rest {key : Key} {pre post : Entries} {i : NodeId} {e : Entry Node}
    (h : SearchTree ⟨pre ++ (i,e) :: post⟩) (cut : CutAt key pre i) (other : i ≠ key) :
    ∀ x ∈ ownPair i e.value ++ flatten ⟨post⟩, key < x.1 := by
  refine List.forall_mem_append.mpr ⟨fun x mem => ?_,h.right cut⟩
  exact WithTop.coe_lt_coe.mp (ownPairKey mem ▸ lt_of_le_of_ne cut.ge other.symm)

theorem SearchTree.belowSorted {pre post : Entries} {i : NodeId} {e : Entry Node}
    (h : SearchTree ⟨pre ++ (i,e) :: post⟩) : Sorted (belowEntry e.child) := by
  have sorted := h.sorted
  rw [flattenAt] at sorted
  exact (OrderedMap.sortedAppend.mp (OrderedMap.sortedAppend.mp sorted).1).2.1

theorem cutOf {key : Key} {es post : Entries} {i : NodeId} {e : Entry Node}
    (at_ : OrderedMap.lowerBound (key : NodeId) es = (i,e) :: post) :
    es = OrderedMap.before (key : NodeId) es ++ (i,e) :: post ∧
      CutAt key (OrderedMap.before (key : NodeId) es) i :=
  ⟨by rw [← at_,OrderedMap.cut],fun _ mem => OrderedMap.beforeLess mem,OrderedMap.lowerBoundHead at_⟩

theorem lowerBoundCut {key : Key} {pre post : Entries} {i : NodeId} {e : Entry Node} (cut : CutAt key pre i) :
    OrderedMap.lowerBound (key : NodeId) (pre ++ (i,e) :: post) = (i,e) :: post :=
  (OrderedMap.cutAt cut.less (by simpa using cut.ge)).2

theorem beforeCut {key : Key} {pre post : Entries} {i : NodeId} {e : Entry Node} (cut : CutAt key pre i) :
    OrderedMap.before (key : NodeId) (pre ++ (i,e) :: post) = pre :=
  (OrderedMap.cutAt cut.less (by simpa using cut.ge)).1

theorem SearchTree.lookupEnd {key : Key} {es : Entries} (h : SearchTree ⟨es⟩)
    (at_ : OrderedMap.lowerBound (key : NodeId) es = []) : OrderedMap.find key (flatten ⟨es⟩) = none := by
  have whole := OrderedMap.cut (key : NodeId) es
  rw [at_,List.append_nil] at whole
  have less : ∀ x ∈ flatten ⟨es⟩, x.1 < key := fun x mem =>
    WithTop.coe_lt_coe.mp (flattenBelow h.sorted (fun p hp => OrderedMap.beforeLess (whole.symm ▸ hp)) x mem)
  simpa using OrderedMap.findMiss (b := []) less (by simp)

theorem SearchTree.lookupHere {key : Key} {pre post : Entries} {e : Entry Node}
    (h : SearchTree ⟨pre ++ ((key : NodeId),e) :: post⟩) (cut : CutAt key pre key) :
    OrderedMap.find key (flatten ⟨pre ++ ((key : NodeId),e) :: post⟩) = some e.value := by
  have sorted := h.sorted
  have left := h.left cut
  rw [flattenAt] at sorted ⊢
  have inner := (OrderedMap.sortedAppend.mp sorted).2.2
  refine OrderedMap.findHit (List.forall_mem_append.mpr ⟨left,fun x mem => ?_⟩)
  exact inner x (List.mem_append_right _ mem) (key,e.value) (by simp [ownPair])

theorem SearchTree.lookupBelow {key : Key} {pre post : Entries} {i : NodeId} {e : Entry Node}
    (h : SearchTree ⟨pre ++ (i,e) :: post⟩) (cut : CutAt key pre i) (other : i ≠ key) :
    OrderedMap.find key (flatten ⟨pre ++ (i,e) :: post⟩) = OrderedMap.find key (belowEntry e.child) := by
  rw [flattenAt]
  exact OrderedMap.findFrame h.belowSorted (h.left cut) (h.rest cut other)

inductive Loaded : Node → Prop
  | mk {es : Entries} (here : ∀ p ∈ es, p.2.child = none → p.2.childHash.isEmpty)
      (below : ∀ p ∈ es, ∀ c, p.2.child = some c → Loaded c) : Loaded ⟨es⟩

theorem Loaded.here {es : Entries} (h : Loaded ⟨es⟩) : ∀ p ∈ es, p.2.child = none → p.2.childHash.isEmpty := by
  cases h; assumption

theorem Loaded.child {es : Entries} (h : Loaded ⟨es⟩) {p : NodeId × Entry Node} (mem : p ∈ es) {c : Node}
    (child : p.2.child = some c) : Loaded c := by cases h with | mk _ below => exact below p mem c child

def answer : Option Value → Except ErrorCode Value
  | some v => .ok v
  | none => .error .notFound

theorem findIsLookup (key : Key) (n : Node) :
    SearchTree n → Loaded n → n.find key = (n,.done (answer (OrderedMap.find key n.flatten))) := by
  induction n using Node.induct with
  | step es ih =>
    intro tree loaded
    unfold find
    split
    · rename_i at_
      rw [tree.lookupEnd at_]
      rfl
    · rename_i i e post at_
      obtain ⟨whole,cut⟩ := cutOf at_
      have mem : (i,e) ∈ es := lowerBoundMem at_
      dsimp only
      split
      · rename_i same
        subst same
        have look : OrderedMap.find key (flatten ⟨es⟩) = some e.value := by
          rw [whole] at tree ⊢
          exact tree.lookupHere cut
        rw [look]
        rfl
      · rename_i other
        have look : OrderedMap.find key (flatten ⟨es⟩) = OrderedMap.find key (belowEntry e.child) := by
          rw [whole] at tree ⊢
          exact tree.lookupBelow cut other
        rw [look]
        split
        · rename_i null
          rw [if_pos (loaded.here _ mem null),null]
          rfl
        · rename_i c child
          obtain ⟨value,child',hash⟩ := e
          cases child
          rw [ih _ mem c rfl (tree.child mem rfl) (loaded.child mem rfl)]
          exact Prod.ext (congrArg mk whole.symm) rfl

end Node
end IpfsCache
