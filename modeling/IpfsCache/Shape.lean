import IpfsCache.SearchTree
import IpfsCache.NodeInsert

/-! The shape of a tree built by insertions: bare leaves, all at one depth, interior
nodes whose last entry is INF and whose entries all have children of the right size.
A level leaves the number of its own entries open, so that it also describes the
node that has just become over-full. -/
namespace IpfsCache
open OrderedMap (Sorted)

namespace Entries

def Bare (es : Entries) : Prop := ∀ p ∈ es, p.2.child = none ∧ p.2.childHash = noHash

def EndsInInf (es : Entries) : Prop := ∃ pre e, es = pre ++ [(⊤,e)]

def Level (m : Nat) : Nat → Entries → Prop
  | 0,es => Sorted es ∧ Bare es
  | d + 1,es => Sorted es ∧ EndsInInf es ∧
      ∀ p ∈ es, ∃ c : Node, p.2.child = some c ∧ Level m d c.entries ∧ m / 2 ≤ c.size ∧ c.size ≤ m

theorem Level.sorted {m d : Nat} {es : Entries} (h : Level m d es) : Sorted es := by
  cases d <;> exact h.1

theorem Level.bare {m : Nat} {es : Entries} (h : Level m 0 es) : Bare es := h.2

theorem Level.inf {m d : Nat} {es : Entries} (h : Level m (d + 1) es) : EndsInInf es := h.2.1

theorem Level.child {m d : Nat} {es : Entries} (h : Level m (d + 1) es) {p : NodeId × Entry Node} (mem : p ∈ es)
    {c : Node} (child : p.2.child = some c) : Level m d c.entries ∧ m / 2 ≤ c.size ∧ c.size ≤ m := by
  obtain ⟨c',child',level⟩ := h.2.2 p mem
  cases child.symm.trans child'
  exact level

theorem Level.ordered {m d : Nat} {es : Entries} (h : Level m d es) : Node.Ordered ⟨es⟩ := by
  induction d generalizing es with
  | zero => exact .mk h.sorted fun p mem c child => by simp [(h.bare p mem).1] at child
  | succ d ih => exact .mk h.sorted fun p mem ⟨c⟩ child => ih (h.child mem child).1

theorem Level.loaded {m d : Nat} {es : Entries} (h : Level m d es) : Node.Loaded ⟨es⟩ := by
  induction d generalizing es with
  | zero =>
    exact .mk (fun p mem _ => by rw [(h.bare p mem).2]; rfl)
      fun p mem c child => by simp [(h.bare p mem).1] at child
  | succ d ih =>
    refine .mk (fun p mem null => ?_) fun p mem ⟨c⟩ child => ih (h.child mem child).1
    obtain ⟨c,child,_⟩ := h.2.2 p mem
    cases null.symm.trans child

theorem infLast {pre post : Entries} {e : Entry Node} (h : Sorted (pre ++ (⊤,e) :: post)) : post = [] := by
  cases post with
  | nil => rfl
  | cons q _ => exact absurd ((OrderedMap.sortedCons.mp (OrderedMap.sortedAppend.mp h).2.1).1 q
      (by simp)) not_top_lt

theorem realBefore {pre post : Entries} {p : NodeId × Entry Node} (h : Sorted (pre ++ p :: post)) :
    ∀ q ∈ pre, q.1 ≠ ⊤ := fun q mem =>
  ((OrderedMap.sortedAppend.mp h).2.2 q mem p (by simp)).ne_top

theorem sizeCount {es : Entries} (h : Sorted es) : size es = es.countP (fun p => decide (p.1 ≠ ⊤)) := by
  rcases es.eq_nil_or_concat' with rfl | ⟨pre,p,rfl⟩
  · rfl
  · have before : pre.countP (fun p => decide (p.1 ≠ ⊤)) = pre.length :=
      List.countP_eq_length.mpr fun q mem => by simpa using realBefore h q mem
    rw [List.countP_append,before]
    by_cases top : p.1 = ⊤ <;> simp [size,top]

theorem sizeInf {pre : Entries} {e : Entry Node} : size (pre ++ [(⊤,e)]) = pre.length := by
  simp [size]

theorem middle {es : Entries} (h : Sorted es) {n : Nat} (more : n < size es) :
    ∃ (L : Entries) (κ : Key) (x : Entry Node) (R : Entries), es = L ++ ((κ : NodeId),x) :: R ∧ L.length = n := by
  have bound : size es ≤ es.length := by rw [sizeCount h]; exact List.countP_le_length
  have inside : n < es.length := more.trans_le bound
  have whole : es = es.take n ++ es[n] :: es.drop (n + 1) := by
    rw [List.getElem_cons_drop inside,List.take_append_drop]
  have len : (es.take n).length = n := by simp [inside.le]
  rcases hp : es[n] with ⟨i,x⟩
  rw [hp] at whole
  cases i using WithTop.recTopCoe with
  | top =>
    rw [whole] at h more
    have none_ := infLast h
    rw [none_] at h more
    rw [sizeInf,len] at more
    exact absurd more (lt_irrefl _)
  | coe κ => exact ⟨_,κ,x,_,whole,len⟩

theorem infEntryNew {es : Entries} (real : ∀ p ∈ es, p.1 ≠ ⊤) : infEntry es = (es,makeInfEntry.2) := by
  rcases es.eq_nil_or_concat' with rfl | ⟨pre,p,rfl⟩
  · rfl
  · simp [infEntry,real p (by simp)]

theorem infEntryOld (pre : Entries) (e : Entry Node) : infEntry (pre ++ [(⊤,e)]) = (pre,e) := by
  simp [infEntry]

end Entries

def upper (L : Entries) (x : Entry Node) : Entry Node :=
  ⟨x.value,some ⟨L ++ [(⊤,⟨⟨[]⟩,x.child,noHash⟩)]⟩,noHash⟩

def halves (L : Entries) (κ : Key) (x : Entry Node) (R : Entries) : Node :=
  ⟨[((κ : NodeId),upper L x),(⊤,⟨⟨[]⟩,some ⟨R⟩,noHash⟩)]⟩

namespace Node
open Entries

theorem splitLoopRight (cfg : Config) (pre acc R : Entries) (v : Value) (hash : Hash) (sorted : Sorted (acc ++ R)) :
    splitLoop cfg 0 false [] (pre ++ [(⊤,⟨v,some ⟨acc⟩,hash⟩)]) R = ([],pre ++ [(⊤,⟨v,some ⟨acc ++ R⟩,hash⟩)]) := by
  induction R generalizing acc with
  | nil => simp [splitLoop]
  | cons p R ih =>
    obtain ⟨i,e⟩ := p
    have less : ∀ q ∈ acc, q.1 < i := fun q mem => (OrderedMap.sortedAppend.mp sorted).2.2 q mem (i,e) (by simp)
    have last := OrderedMap.insertMiss (v := e) (b := []) less (by simp)
    rw [List.append_nil] at last
    have next := ih (acc ++ [(i,e)]) (by simpa using sorted)
    simpa [splitLoop,infEntryOld,entries,last] using next

theorem splitLoopLeft (cfg : Config) (left L R : Entries) (κ : Key) (x : Entry Node)
    (sorted : Sorted (left ++ L ++ ((κ : NodeId),x) :: R)) (more : R ≠ []) :
    splitLoop cfg L.length true left [] (L ++ ((κ : NodeId),x) :: R) =
      (tryRemove cfg x.childHash ⟨((κ : NodeId),upper (left ++ L) x) :: R⟩ none,
      (halves (left ++ L) κ x R).entries) := by
  induction L generalizing left with
  | nil =>
    have real : ∀ p ∈ left, p.1 ≠ ⊤ := realBefore (by simpa using sorted)
    obtain ⟨p,rest,rfl⟩ := List.exists_cons_of_ne_nil more
    have tail := (OrderedMap.sortedCons.mp (OrderedMap.sortedAppend.mp sorted).2.1).2
    have right := splitLoopRight cfg [((κ : NodeId),upper left x)] [p] rest ⟨[]⟩ noHash (by simpa using tail)
    have first : infEntry [((κ : NodeId),upper left x)] = ([((κ : NodeId),upper left x)],makeInfEntry.2) :=
      infEntryNew (by simp)
    simp only [List.length_nil,List.nil_append,splitLoop,infEntryNew real,List.append_nil]
    rw [show OrderedMap.insert (κ : NodeId) ⟨x.value,
      some ⟨left ++ [(⊤,{ makeInfEntry.2 with child := x.child })]⟩,noHash⟩
        ([] : Entries) = [((κ : NodeId),upper left x)] from rfl,first]
    have one : OrderedMap.insert p.1 p.2 ([] : Entries) = [p] := rfl
    simp only [makeInfEntry,Option.getD_none,entries,one]
    rw [right]
    simp [halves,upper]
  | cons p L ih =>
    obtain ⟨i,e⟩ := p
    have less : ∀ q ∈ left, q.1 < i := fun q mem => by
      rw [List.append_assoc] at sorted
      exact (OrderedMap.sortedAppend.mp sorted).2.2 q mem (i,e) (by simp)
    have last := OrderedMap.insertMiss (v := e) (b := []) less (by simp)
    rw [List.append_nil] at last
    have next := ih (left ++ [(i,e)]) (by simpa using sorted)
    simp only [List.length_cons,List.cons_append,splitLoop,last]
    rw [next]
    simp

theorem splitSmall {cfg : Config} {ps : List Pause} {es : Entries} (fits : es.size ≤ cfg.maxNodeSize) :
    split cfg ps es = ⟨ps,⟨es⟩,none⟩ := if_pos fits

theorem splitLarge {cfg : Config} {ps : List Pause} {L R : Entries} {κ : Key} {x : Entry Node}
    (sorted : Sorted (L ++ ((κ : NodeId),x) :: R))
    (large : cfg.maxNodeSize < (L ++ ((κ : NodeId),x) :: R : Entries).size)
    (mid : L.length = (L ++ ((κ : NodeId),x) :: R : Entries).size / 2) (more : R ≠ []) :
    split cfg ps (L ++ ((κ : NodeId),x) :: R) =
      ⟨ps ++ tryRemove cfg x.childHash ⟨((κ : NodeId),upper L x) :: R⟩ none,⟨[]⟩,some (halves L κ x R)⟩ := by
  rw [split,if_neg (not_le.mpr large),← mid,splitLoopLeft cfg [] L R κ x (by simpa using sorted) more]
  rfl

theorem insertNodeBetween {pre post L R : Entries} {i : NodeId} {κ : Key} {x : Entry Node} {v : Value} {c : Node}
    {hash : Hash} (less : ∀ p ∈ pre, p.1 < κ) (greater : (κ : NodeId) < i) (sorted : Sorted R) :
    insertNode (halves L κ x R) (pre ++ (i,⟨v,some c,hash⟩) :: post) =
      some (pre ++ ((κ : NodeId),upper L x) :: (i,⟨v,some ⟨R⟩,hash⟩) :: post) := by
  have placed := OrderedMap.insertMiss (v := upper L x) (b := (i,(⟨v,some c,hash⟩ : Entry Node)) :: post) less
    (by simpa using greater)
  have at_ := OrderedMap.cutAt (b := ((κ : NodeId),upper L x) ::
      (i,(⟨v,some c,hash⟩ : Entry Node)) :: post) less (by simp)
  simp only [insertNode,halves,entries,placed,at_.1,at_.2,OrderedMap.insertAll sorted]

end Node
end IpfsCache
