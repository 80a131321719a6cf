import IpfsCache.Shape

/-! What Node::insert can do, said once. Everything up to the call of split is one of
four cases: a bare leaf takes the key; the key is an entry of this node; the child
below takes it and does not split; the child splits and its middle entry joins this
node. Invariants of an insertion are inductions over these cases. -/
namespace IpfsCache
open OrderedMap (Sorted)

def refill (e : Entry Node) (es : Entries) : Entry Node := { e with child := some ⟨es⟩, childHash := noHash }

def Pause.inside (pre : Entries) (i : NodeId) (e : Entry Node) (post : Entries) (p : Pause) : Pause :=
  { p with tree := ⟨pre ++ (i,{ e with child := some p.tree }) :: post⟩ }

open Node Entries

inductive Grown (cfg : Config) (key : Key) (value : Value) : Nat → Entries → List Pause → Entries → Prop
  | leaf {es : Entries} (bare : Bare es) :
      Grown cfg key value 0 es [] (OrderedMap.insert (key : NodeId) ⟨value,none,noHash⟩ es)
  | hit {d : Nat} {pre post : Entries} {e : Entry Node} (less : ∀ p ∈ pre, p.1 < (key : NodeId)) :
      Grown cfg key value (d + 1) (pre ++ ((key : NodeId),e) :: post) []
        (pre ++ ((key : NodeId),{ e with value := value }) :: post)
  | pass {d : Nat} {pre post c es' : Entries} {i : NodeId} {e : Entry Node} {ps : List Pause}
      (cut : CutAt key pre i) (other : i ≠ key) (child : e.child = some ⟨c⟩)
      (below : Grown cfg key value d c ps es') (fits : es'.size ≤ cfg.maxNodeSize) :
      Grown cfg key value (d + 1) (pre ++ (i,e) :: post)
        (ps.map (Pause.inside pre i e post) ++ tryRemove cfg e.childHash ⟨pre ++ (i,refill e es') :: post⟩ none)
        (pre ++ (i,refill e es') :: post)
  | absorb {d : Nat} {pre post c L R : Entries} {i : NodeId} {e x : Entry Node} {κ : Key} {ps : List Pause}
      (cut : CutAt key pre i) (other : i ≠ key) (child : e.child = some ⟨c⟩)
      (below : Grown cfg key value d c ps (L ++ ((κ : NodeId),x) :: R))
      (full : (L ++ ((κ : NodeId),x) :: R : Entries).size = cfg.maxNodeSize + 1)
      (mid : L.length = (cfg.maxNodeSize + 1) / 2) :
      Grown cfg key value (d + 1) (pre ++ (i,e) :: post)
        ((ps ++ tryRemove cfg x.childHash ⟨((κ : NodeId),upper L x) :: R⟩ none).map (Pause.inside pre i e post) ++
          tryRemove cfg e.childHash ⟨pre ++ (i,refill e []) :: post⟩ (some (halves L κ x R)))
        (pre ++ ((κ : NodeId),upper L x) :: (i,refill e R) :: post)

theorem flattenAbsorb (pre post L R : Entries) (i : NodeId) (e x : Entry Node) (κ : Key) :
    flatten ⟨pre ++ ((κ : NodeId),upper L x) :: (i,refill e R) :: post⟩ =
      flatten ⟨pre ++ (i,refill e (L ++ ((κ : NodeId),x) :: R)) :: post⟩ := by
  simp [flattenEq,entryFlat,upper,refill,belowEntry,ownPair]

theorem flattenHalves (L R : Entries) (κ : Key) (x : Entry Node) :
    flatten (halves L κ x R) = flatten ⟨L ++ ((κ : NodeId),x) :: R⟩ := by
  simp [halves,flattenEq,entryFlat,upper,belowEntry,ownPair]

namespace Node
mutual
def leafValues (key : Key) : Node → List Value
  | ⟨es⟩ =>
    if Entries.isLeaf es then es.filterMap (fun p => if p.1 = (key : NodeId) then some p.2.value else none)
    else leafValuesOf key es

def leafValuesOf (key : Key) : Entries → List Value
  | [] => []
  | (_,⟨_,none,_⟩) :: rest => leafValuesOf key rest
  | (_,⟨_,some c,_⟩) :: rest => c.leafValues key ++ leafValuesOf key rest
end
end Node

theorem leafValuesHere {key : Key} {es : Entries} {e : Entry Node} (leaf : es.isLeaf = true)
    (mem : ((key : NodeId),e) ∈ es) : e.value ∈ leafValues key ⟨es⟩ := by
  rw [leafValues,if_pos leaf,List.mem_filterMap]
  exact ⟨_,mem,if_pos rfl⟩

theorem leafValuesBelow {key : Key} {es : Entries} {p : NodeId × Entry Node} {c : Node} (mem : p ∈ es)
    (child : p.2.child = some c) {w : Value} (inside : w ∈ leafValues key c) : w ∈ leafValues key ⟨es⟩ := by
  have inner : es.isLeaf = false := by
    rw [Entries.isLeaf,List.all_eq_false]
    exact ⟨p,mem,by simp [child]⟩
  have loop (es : Entries) (mem : p ∈ es) : w ∈ leafValuesOf key es := by
    induction es with
    | nil => cases mem
    | cons q rest ih =>
      obtain ⟨i,v,child',x⟩ := q
      rcases List.mem_cons.mp mem with rfl | later
      · cases child
        exact List.mem_append_left _ inside
      · cases child' with
        | none => exact ih later
        | some c' => exact List.mem_append_right _ (ih later)
  rw [leafValues,if_neg (by simp [inner])]
  exact loop es mem

theorem bareLeaf {es : Entries} (bare : Bare es) : es.isLeaf = true := by
  simpa [Entries.isLeaf] using fun i e mem => (bare (i,e) mem).1

theorem flattenBare {es : Entries} (bare : Bare es) {k : Key} {v : Value} :
    (k,v) ∈ flatten ⟨es⟩ ↔ ∃ e, ((k : NodeId),e) ∈ es ∧ e.value = v := by
  rw [flattenEq,List.mem_flatMap]
  constructor
  · rintro ⟨⟨i,e⟩,mem,inside⟩
    rw [entryFlat,(bare _ mem).1] at inside
    have same := ownPairKey (x := (k,v)) inside
    cases same
    refine ⟨e,mem,?_⟩
    simpa [belowEntry,ownPair,eq_comm] using inside
  · rintro ⟨e,mem,rfl⟩
    exact ⟨_,mem,List.mem_append_right _ (by simp [ownPair])⟩

theorem flattenBareInsert {es : Entries} (bare : Bare es) (tree : SearchTree ⟨es⟩) (key : Key) (value : Value) :
    flatten ⟨OrderedMap.insert (key : NodeId) ⟨value,none,noHash⟩ es⟩ =
    OrderedMap.insert key value (flatten ⟨es⟩) := by
  rcases OrderedMap.cases (key : NodeId) es tree.ordered.here with ⟨a,e,b,rfl,less,greater⟩ | ⟨a,b,rfl,less,greater⟩
  · have held := (OrderedMap.findSome tree.sorted).mpr
      ((flattenBare bare).mpr ⟨e,List.mem_append_right _ List.mem_cons_self,rfl⟩)
    rw [OrderedMap.insertHit less,OrderedMap.insertAsAssign _ _ tree.sorted,held,Option.getD_some]
    have cut : CutAt key a key := ⟨less,le_rfl⟩
    have split : flatten ⟨a ++ ((key : NodeId),e) :: b⟩ = flatten ⟨a⟩ ++ (key,e.value) :: flatten ⟨b⟩ := by
      rw [flattenAt,(bare ((key : NodeId),e) (by simp)).1]
      simp [belowEntry,ownPair]
    have left := tree.left cut
    rw [split]
    exact (OrderedMap.assignHit left).symm
  · have sorted := tree.sorted
    rw [flattenAppend] at sorted
    have left : ∀ x ∈ flatten ⟨a⟩, x.1 < key := fun x mem =>
      WithTop.coe_lt_coe.mp (flattenBelow (OrderedMap.sortedAppend.mp sorted).1 less x mem)
    have right : ∀ x ∈ flatten ⟨b⟩, key < x.1 := fun x mem => by
      obtain ⟨e,inside,_⟩ := (flattenBare fun p hp => bare p (List.mem_append_right _ hp)).mp mem
      exact WithTop.coe_lt_coe.mp (greater _ inside)
    rw [OrderedMap.insertMiss less (OrderedMap.headOfAll greater),flattenAt,flattenAppend,
      OrderedMap.insertMiss left (OrderedMap.headOfAll right)]
    simp [belowEntry,ownPair]

section content
variable {cfg : Config} {key : Key} {value : Value}

theorem flattenRefill {pre post es es' : Entries} {i : NodeId} {e : Entry Node} {w : Value}
    (tree : SearchTree ⟨pre ++ (i,e) :: post⟩) (cut : CutAt key pre i) (other : i ≠ key)
    (child : e.child = some ⟨es⟩) (content : flatten ⟨es'⟩ = OrderedMap.assign key w (flatten ⟨es⟩)) :
    flatten ⟨pre ++ (i,refill e es') :: post⟩ = OrderedMap.assign key w (flatten ⟨pre ++ (i,e) :: post⟩) := by
  have sorted := tree.belowSorted
  rw [child] at sorted
  rw [flattenAt,flattenAt,child,OrderedMap.assignFrame sorted (tree.left cut) (tree.rest cut other)]
  simp [refill,belowEntry,content]

theorem grownContent {d : Nat} {es es' : Entries} {ps : List Pause} (grown : Grown cfg key value d es ps es')
    (tree : SearchTree ⟨es⟩) :
    (∃ w, w ∈ leafValues key ⟨es⟩ ∧ OrderedMap.find key (flatten ⟨es⟩) = some w ∧
      flatten ⟨es'⟩ = OrderedMap.assign key w (flatten ⟨es⟩)) ∨
    flatten ⟨es'⟩ = OrderedMap.assign key value (flatten ⟨es⟩) := by
  induction grown with
  | @leaf es bare =>
    rw [flattenBareInsert bare tree,OrderedMap.insertAsAssign _ _ tree.sorted]
    cases held : OrderedMap.find key (flatten ⟨es⟩) with
    | none => exact .inr rfl
    | some w =>
      obtain ⟨e,mem,same⟩ := (flattenBare bare).mp ((OrderedMap.findSome tree.sorted).mp held)
      exact .inl ⟨w,same ▸ leafValuesHere (bareLeaf bare) mem,rfl,rfl⟩
  | @hit d pre post e less =>
    have cut : CutAt key pre key := ⟨less,le_rfl⟩
    have inner := tree.sorted
    rw [flattenAt] at inner
    have before := (OrderedMap.sortedAppend.mp inner).2.2
    have left : ∀ x ∈ flatten ⟨pre⟩ ++ belowEntry e.child, x.1 < key := fun x mem =>
      before x mem (key,e.value) (by simp [ownPair])
    refine .inr ?_
    rw [flattenAt,flattenAt]
    exact (OrderedMap.assignHit left).symm
  | @pass d pre post c es' i e ps cut other child below fits ih =>
    have held := tree.lookupBelow cut other
    rw [child] at held
    rcases ih (tree.child (p := (i,e)) (by simp) child) with ⟨w,holds,found,content⟩ | content
    · exact .inl ⟨w,leafValuesBelow (p := (i,e)) (by simp) child holds,held.trans found,
        flattenRefill tree cut other child content⟩
    · exact .inr (flattenRefill tree cut other child content)
  | @absorb d pre post c L R i e x κ ps cut other child below full mid ih =>
    have held := tree.lookupBelow cut other
    rw [child] at held
    rw [flattenAbsorb]
    rcases ih (tree.child (p := (i,e)) (by simp) child) with ⟨w,holds,found,content⟩ | content
    · exact .inl ⟨w,leafValuesBelow (p := (i,e)) (by simp) child holds,held.trans found,
        flattenRefill tree cut other child content⟩
    · exact .inr (flattenRefill tree cut other child content)

theorem grownAssigns {d : Nat} {es es' : Entries} {ps : List Pause} (grown : Grown cfg key value d es ps es')
    (tree : SearchTree ⟨es⟩) :
    ∃ w, (w = value ∨ OrderedMap.find key (flatten ⟨es⟩) = some w) ∧
      flatten ⟨es'⟩ = OrderedMap.assign key w (flatten ⟨es⟩) := by
  rcases grownContent grown tree with ⟨w,_,found,content⟩ | content
  · exact ⟨w,.inr found,content⟩
  · exact ⟨value,.inl rfl,content⟩

theorem grownSorted {d : Nat} {es es' : Entries} {ps : List Pause} (grown : Grown cfg key value d es ps es')
    (tree : SearchTree ⟨es⟩) : Sorted (flatten ⟨es'⟩) := by
  obtain ⟨w,_,content⟩ := grownAssigns grown tree
  rw [content]
  exact OrderedMap.assignSorted key w tree.sorted

end content
end IpfsCache
