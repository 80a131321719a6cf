import IpfsCache.PartialTree

/-! What an insert relies on in a tree that is partly in memory. Node::insert takes a child
that has not been read for one that is not there, and Node::split forgets the hash of the
child that comes under INF. -/
namespace IpfsCache
open OrderedMap (Sorted)
open Node Entries

def Entry.unread {N : Type} (e : Entry N) : Bool := e.child.isNone && !e.childHash.isEmpty

/-- What Node::split needs of the entries of an inner node: the child of the one in the middle
is in memory, and so is a child behind it (or min_max_depth will differ). -/
def Entries.middleRead (m : Nat) (es : Entries) : Bool :=
  match es.drop ((m + 1) / 2) with
  | [] => false
  | (_,x) :: R => !x.unread && R.any fun p => p.2.child.isSome

namespace Node

def overflows (m : Nat) (key : Key) : Node → Bool
  | ⟨es⟩ =>
    match at_ : OrderedMap.lowerBound (key : NodeId) es with
    | [] => decide (m ≤ Entries.size es)
    | (i,e) :: _ =>
      if i = key then false
      else
        match child : e.child with
        | none => decide (m ≤ Entries.size es)
        | some c =>
          have := childSmaller (lowerBoundMem at_) child
          c.overflows m key && decide (m ≤ Entries.size es)
termination_by n => sizeOf n

def ready (m : Nat) (key : Key) : Node → Bool
  | ⟨es⟩ =>
    match at_ : OrderedMap.lowerBound (key : NodeId) es with
    | [] => true
    | (i,e) :: post =>
      if i = key then true
      else
        match child : e.child with
        | none => !e.unread
        | some c =>
          have := childSmaller (lowerBoundMem at_) child
          -- a second entry stands for the one that comes up from the child
          c.ready m key && (!(c.overflows m key && decide (m ≤ Entries.size es)) ||
            Entries.middleRead m (OrderedMap.before (key : NodeId) es ++ (i,e) :: (i,e) :: post))
termination_by n => sizeOf n

end Node

section path
variable {m : Nat} {key : Key} {es post : Entries} {i : NodeId} {e : Entry Node} {c : Node}

theorem overflowsBare (bare : ∀ p ∈ es, p.2.child = none) (missing : (key : NodeId) ∉ OrderedMap.keys es) :
    overflows m key ⟨es⟩ = decide (m ≤ size es) := by
  rw [overflows]
  split
  · rfl
  · rename_i i e post at_
    have inside := lowerBoundMem at_
    have other : i ≠ key := fun same => missing (same ▸ List.mem_map_of_mem (f := Prod.fst) inside)
    rw [if_neg other]
    split
    · rfl
    · rename_i child
      rw [bare _ inside] at child
      cases child

theorem overflowsDown (at_ : OrderedMap.lowerBound (key : NodeId) es = (i,e) :: post) (other : i ≠ key)
    (child : e.child = some c) : overflows m key ⟨es⟩ = (c.overflows m key && decide (m ≤ size es)) := by
  obtain ⟨v,x,hash⟩ := e
  cases child
  rw [overflows]
  split
  · rename_i same
    cases at_.symm.trans same
  · rename_i same
    cases at_.symm.trans same
    rw [if_neg other]

theorem readyNull (at_ : OrderedMap.lowerBound (key : NodeId) es = (i,e) :: post) (other : i ≠ key)
    (child : e.child = none) : ready m key ⟨es⟩ = !e.unread := by
  obtain ⟨v,x,hash⟩ := e
  cases child
  rw [ready]
  split
  · rename_i same
    cases at_.symm.trans same
  · rename_i same
    cases at_.symm.trans same
    rw [if_neg other]

theorem readyDown (at_ : OrderedMap.lowerBound (key : NodeId) es = (i,e) :: post) (other : i ≠ key)
    (child : e.child = some c) :
    ready m key ⟨es⟩ = (c.ready m key && (!(c.overflows m key && decide (m ≤ size es)) ||
      middleRead m (OrderedMap.before (key : NodeId) es ++ (i,e) :: (i,e) :: post))) := by
  obtain ⟨v,x,hash⟩ := e
  cases child
  rw [ready]
  split
  · rename_i same
    cases at_.symm.trans same
  · rename_i same
    cases at_.symm.trans same
    rw [if_neg other]

def readFlags (p : NodeId × Entry Node) : Bool × Bool := (p.2.unread,p.2.child.isSome)

theorem middleReadFlags (m : Nat) {es es' : Entries} (same : es.map readFlags = es'.map readFlags) :
    middleRead m es = middleRead m es' := by
  have look (es : Entries) : middleRead m es =
      match (es.map readFlags).drop ((m + 1) / 2) with
      | [] => false
      | f :: R => !f.1 && R.any Prod.snd := by
    rw [middleRead,← List.map_drop]
    cases es.drop ((m + 1) / 2) with
    | nil => rfl
    | cons p R => simp [readFlags,List.any_map,Function.comp_def]
  rw [look,look,same]

theorem middleReadAt {L R : Entries} {i : NodeId} {x : Entry Node} (read : middleRead m (L ++ (i,x) :: R) = true)
    (mid : L.length = (m + 1) / 2) : (x.child = none → x.childHash.isEmpty = true) ∧ ∃ p ∈ R, p.2.child.isSome := by
  rw [middleRead,← mid,List.drop_left] at read
  simp only [Bool.and_eq_true,Bool.not_eq_true',List.any_eq_true] at read
  refine ⟨fun null => ?_,read.2⟩
  simpa [Entry.unread,null] using read.1

end path

abbrev NoneWaits : List NodeId → Prop := fun _ => False

section quiet
variable {P T : Entries}

theorem View.sublist {pend : List NodeId → Prop} (h : View pend P T) :
    (OrderedMap.keys P).Sublist (OrderedMap.keys T) := by
  induction T generalizing P with
  | nil => cases h; exact .refl _
  | cons t T ih =>
    obtain ⟨i,e⟩ := t
    rcases h.head with ⟨f,P',rfl,_,rest⟩ | ⟨rfl,_⟩
    · exact (ih rest).cons_cons i
    · exact List.nil_sublist _

theorem View.sorted {pend : List NodeId → Prop} (h : View pend P T) (sorted : Sorted T) : Sorted P := by
  rw [OrderedMap.sortedKeys] at sorted ⊢
  exact sorted.sublist h.sublist

theorem View.sameSize {pend : List NodeId → Prop} (h : View pend P T) (sorted : Sorted T) : size P = size T := by
  rw [sizeCount (h.sorted sorted),sizeCount sorted]
  clear sorted
  induction T generalizing P with
  | nil => cases h; rfl
  | cons t T ih =>
    obtain ⟨i,e⟩ := t
    rcases h.head with ⟨f,P',rfl,_,rest⟩ | ⟨rfl,top,_,_,rfl⟩
    · rw [List.countP_cons,List.countP_cons,ih rest]
    · simp [top]

theorem View.length {pend : List NodeId → Prop} (h : View pend P T) (real : ∀ t ∈ T, t.1 ≠ ⊤) :
    P.length = T.length := by
  induction T generalizing P with
  | nil => cases h; rfl
  | cons t T ih =>
    obtain ⟨i,e⟩ := t
    rcases h.head with ⟨f,P',rfl,_,rest⟩ | ⟨_,top,_⟩
    · rw [List.length_cons,List.length_cons,ih rest fun t mem => real t (List.mem_cons_of_mem _ mem)]
    · exact absurd top (real (i,e) (by simp))

theorem View.allBare {pend : List NodeId → Prop} (h : View pend P T) (bare : Bare T) : Bare P := by
  induction T generalizing P with
  | nil => cases h; exact bare
  | cons t T ih =>
    obtain ⟨i,e⟩ := t
    rcases h.head with ⟨f,P',rfl,entry,rest⟩ | ⟨rfl,_⟩
    · have own := bare (i,e) (by simp)
      refine List.forall_mem_cons.mpr ⟨⟨(entry.bare own.1).1,entry.hash.trans own.2⟩,
        ih rest fun t mem => bare t (List.mem_cons_of_mem _ mem)⟩
    · simp [Bare]

theorem View.fitting {m : Nat} {T : Node} (fitting : Fitting m T) : ∀ P :
    Node, Ordered T → View NoneWaits P.entries T.entries → Fitting m P := by
  induction fitting with
  | @mk es fits under below ih =>
    intro ⟨P⟩ ordered h
    have size_ : size P ≤ m := (h.sameSize ordered.here).le.trans fits
    have each : ∀ (P T : Entries), View NoneWaits P T → (∀ t ∈ T, t ∈ es) → ∀ p ∈ P, ∀ c, p.2.child = some c →
        (∀ q ∈ c.entries, q.1 = ⊤ ∨ q.1 < p.1) ∧ Fitting m c := by
      intro P T h inside
      induction T generalizing P with
      | nil => cases h; simp
      | cons t T ih' =>
        obtain ⟨i,e⟩ := t
        rcases h.head with ⟨f,P',rfl,entry,rest⟩ | ⟨rfl,_⟩
        · refine List.forall_mem_cons.mpr ⟨fun p child => ?_,
            ih' P' rest fun t mem => inside t (List.mem_cons_of_mem _ mem)⟩
          have mem : (i,e) ∈ es := inside _ (by simp)
          cases whole : e.child with
          | none =>
            rw [(entry.bare whole).1] at child
            cases child
          | some c =>
            have seen := entry.child c whole
            rw [show f.child = some p from child] at seen
            cases seen with
            | waiting held => exact held.elim
            | @read ps cs _ view =>
              refine ⟨fun q memq => ?_,ih _ mem _ whole ⟨ps⟩ (ordered.child mem whole) view⟩
              obtain ⟨t,memt,same⟩ := view.keys q memq
              rw [← same]
              exact under _ mem _ whole t memt
        · simp
    have children := each P es h fun _ => id
    exact .mk size_ (fun p mem c child => (children p mem c child).1) fun p mem c child =>
      (children p mem c child).2

theorem View.halves {LP L RP R : Entries} {κ : Key} {x y : Entry Node} (real : ∀ t ∈ L, t.1 ≠ ⊤)
    (left : View NoneWaits LP L)
    (mid : EntrySeen NoneWaits κ x y) (read : x.child = none → x.childHash.isEmpty = true)
    (right : View NoneWaits RP R) :
    EntrySeen NoneWaits κ (upper LP x) (upper L y) ∧
    View NoneWaits (halves LP κ x RP).entries (halves L κ y R).entries := by
  have inf : EntrySeen NoneWaits ⊤ ⟨⟨[]⟩,x.child,noHash⟩ ⟨⟨[]⟩,y.child,noHash⟩ := by
    refine ⟨rfl,fun _ => rfl,fun none_ => ⟨(mid.bare none_).1,rfl,fun _ => id⟩,fun c child => mid.child c child,
      fun c child none_ => ?_⟩
    have proper := mid.proper c child none_
    rw [← mid.hash,read none_] at proper
    cases proper
  have first : EntrySeen NoneWaits κ (upper LP x) (upper L y) := by
    refine ⟨rfl,mid.value,fun none_ => (by cases none_),fun c same => ?_,fun _ _ none_ => by cases none_⟩
    cases same
    exact .read id (.append real left (.cons inf .nil))
  exact ⟨first,.cons first (.cons ⟨rfl,fun _ => rfl,fun none_ => (by cases none_),
    fun c same => (by cases same; exact .read id right), fun _ _ none_ => by cases none_⟩ .nil)⟩

end quiet

theorem uniformCongr {k : Nat} {es es' : Entries} (same : es'.map (fun p => p.2.child) = es.map fun p => p.2.child)
    (uniform : Uniform k es) : Uniform k es' := by
  have each {p : NodeId × Entry Node} (mem : p ∈ es') : ∃ q ∈ es, q.2.child = p.2.child := by
    have inside := List.mem_map_of_mem (f := fun p : NodeId × Entry Node => p.2.child) mem
    rw [same] at inside
    exact List.mem_map.mp inside
  cases k with
  | zero =>
    intro p mem
    obtain ⟨q,inside,child⟩ := each mem
    rw [← child]
    exact uniform q inside
  | succ k =>
    refine ⟨?_,fun p mem c child => ?_⟩
    · obtain ⟨p,mem,some_⟩ := uniform.1
      have inside := List.mem_map_of_mem (f := fun p : NodeId × Entry Node => p.2.child) mem
      rw [← same] at inside
      obtain ⟨q,there,child⟩ := List.mem_map.mp inside
      exact ⟨q,there,by rw [child]; exact some_⟩
    · obtain ⟨q,inside,child'⟩ := each mem
      exact uniform.2 q inside c (child'.trans child)

theorem uniformDown {k : Nat} {P₁ P₂ : Entries} {i : NodeId} {f : Entry Node} {c : Node}
    (uniform : Uniform k (P₁ ++ (i,f) :: P₂))
    (child : f.child = some c) : ∃ k', k = k' + 1 ∧ Uniform k' c.entries := by
  cases k with
  | zero =>
    rw [uniform (i,f) (by simp)] at child
    cases child
  | succ k => exact ⟨k,rfl,uniform.2 (i,f) (by simp) c child⟩

theorem uniformUp (new : Entries) {k : Nat} {P₁ P₂ : Entries} {i : NodeId} {f : Entry Node}
    (uniform : Uniform (k + 1) (P₁ ++ (i,f) :: P₂))
    (some_ : ∃ p ∈ new, p.2.child.isSome) (below : ∀ p ∈ new, ∀ c, p.2.child = some c → Uniform k c.entries) :
    Uniform (k + 1) (P₁ ++ (new ++ P₂)) := by
  refine ⟨?_,fun p mem c child => ?_⟩
  · obtain ⟨p,mem,child⟩ := some_
    exact ⟨p,by simp [mem],child⟩
  · simp only [List.mem_append] at mem
    rcases mem with mem | mem | mem
    · exact uniform.2 p (by simp [mem]) c child
    · exact below p mem c child
    · exact uniform.2 p (by simp [mem]) c child

theorem uniformHalves {k : Nat} {L R : Entries} {κ : Key} {x : Entry Node}
    (uniform : Uniform k (L ++ ((κ : NodeId),x) :: R))
    (read : (∀ p ∈ L ++ ((κ : NodeId),x) :: R, p.2.child = none) ∨ (x.child.isSome ∧ ∃ p ∈ R, p.2.child.isSome)) :
    Uniform k (L ++ [(⊤,⟨⟨[]⟩,x.child,noHash⟩)]) ∧ Uniform k R := by
  cases k with
  | zero =>
    refine ⟨List.forall_mem_append.mpr ⟨fun p mem => uniform p (by simp [mem]),?_⟩,
      fun p mem => uniform p (by simp [mem])⟩
    simpa using uniform ((κ : NodeId),x) (by simp)
  | succ k =>
    rcases read with none_ | ⟨mid,right⟩
    · obtain ⟨p,mem,some_⟩ := uniform.1
      rw [none_ p mem] at some_
      cases some_
    · refine ⟨⟨⟨(⊤,⟨⟨[]⟩,x.child,noHash⟩),by simp,mid⟩,
        List.forall_mem_append.mpr ⟨fun p mem => uniform.2 p (by simp [mem]),?_⟩⟩,
        right,fun p mem => uniform.2 p (by simp [mem])⟩
      simpa using uniform.2 ((κ : NodeId),x) (by simp)

end IpfsCache
