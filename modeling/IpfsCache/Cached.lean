import IpfsCache.InsertShape
import Mathlib.Algebra.Order.Group.Multiset
import Mathlib.Tactic.Abel

/-! The hashes cached in a tree. An insertion gives up some of them, to remove_op where
there is one, and leaves the others next to the child they belong to. -/
namespace IpfsCache
open OrderedMap (Sorted)
open Node Entries

def ownId (hash : Hash) : Multiset Hash := if hash.isEmpty then 0 else {hash}

namespace Node
mutual
def ids : Node → Multiset Hash
  | ⟨es⟩ => idsOf es

def idsOf : Entries → Multiset Hash
  | [] => 0
  | (_,⟨_,none,_⟩) :: rest => idsOf rest
  | (_,⟨_,some c,hash⟩) :: rest => ownId hash + c.ids + idsOf rest
end
end Node

def entryIds (e : Entry Node) : Multiset Hash :=
  match e.child with
  | none => 0
  | some c => ownId e.childHash + c.ids

theorem ownIdNone : ownId noHash = 0 := rfl

theorem ownIdSome {hash : Hash} (h : hash.isEmpty = false) : ownId hash = {hash} := by simp [ownId,h]

theorem idsOfCons (p : NodeId × Entry Node) (es : Entries) : idsOf (p :: es) = entryIds p.2 + idsOf es := by
  obtain ⟨i,v,_ | c,x⟩ := p
  · simp [idsOf,entryIds]
  · rfl

theorem idsOfAppend (a b : Entries) : idsOf (a ++ b) = idsOf a + idsOf b := by
  induction a with
  | nil => simp [idsOf]
  | cons p a ih => rw [List.cons_append,idsOfCons,idsOfCons,ih,add_assoc]

theorem idsAt (pre post : Entries) (p : NodeId × Entry Node) :
    idsOf (pre ++ p :: post) = idsOf pre + entryIds p.2 + idsOf post := by
  rw [idsOfAppend,idsOfCons,add_assoc]

theorem idsBare {es : Entries} (bare : Bare es) : idsOf es = 0 := by
  induction es with
  | nil => rfl
  | cons p es ih =>
    rw [idsOfCons,ih fun q mem => bare q (List.mem_cons_of_mem _ mem),entryIds,(bare p (by simp)).1]
    rfl

theorem idsInside {es : Entries} {p : NodeId × Entry Node} (mem : p ∈ es) : entryIds p.2 ≤ idsOf es := by
  obtain ⟨a,b,rfl⟩ := List.append_of_mem mem
  rw [idsAt,add_right_comm]
  exact Multiset.le_add_left _ _

inductive Backed (Own : Hash → Node → Prop) : Node → Prop
  | mk {es : Entries}
      (here : ∀ p ∈ es, ∀ c, p.2.child = some c → p.2.childHash.isEmpty = false → Own p.2.childHash c)
      (below : ∀ p ∈ es, ∀ c, p.2.child = some c → Backed Own c) : Backed Own ⟨es⟩

section backed
variable {Own Own' : Hash → Node → Prop} {es : Entries}

theorem Backed.here (h : Backed Own ⟨es⟩) {p : NodeId × Entry Node} (mem : p ∈ es) {c : Node}
    (child : p.2.child = some c) (cached : p.2.childHash.isEmpty = false) : Own p.2.childHash c := by
  cases h with | mk here _ => exact here p mem c child cached

theorem Backed.child (h : Backed Own ⟨es⟩) {p : NodeId × Entry Node} (mem : p ∈ es) {c : Node}
    (child : p.2.child = some c) : Backed Own c := by
  cases h with | mk _ below => exact below p mem c child

theorem Backed.mono {n : Node} (h : Backed Own n) (weaker : ∀ hash ∈ n.ids, ∀ c, Own hash c → Own' hash c) :
    Backed Own' n := by
  induction h with
  | @mk es here below ih =>
    have inside {p : NodeId × Entry Node} (mem : p ∈ es) {hash : Hash} (h : hash ∈ entryIds p.2) :
        hash ∈ ids ⟨es⟩ := Multiset.mem_of_le (idsInside mem) h
    refine .mk (fun p mem c child cached => ?_) fun p mem c child => ih p mem c child fun hash h => ?_
    · exact weaker _ (inside mem (by simp [entryIds,child,ownIdSome cached])) c (here p mem c child cached)
    · exact weaker hash (inside mem (by simp [entryIds,child,h]))

theorem Backed.sub {es' : Entries} (h : Backed Own ⟨es⟩) (sub : ∀ p ∈ es', p ∈ es) : Backed Own ⟨es'⟩ :=
  .mk (fun _ mem _ => h.here (sub _ mem)) fun _ mem _ => h.child (sub _ mem)

theorem Backed.append {es' : Entries} (h : Backed Own ⟨es⟩) (h' : Backed Own ⟨es'⟩) : Backed Own ⟨es ++ es'⟩ :=
  .mk (fun _ mem _ => (List.mem_append.mp mem).elim (fun a => h.here a) fun a => h'.here a)
    fun _ mem _ => (List.mem_append.mp mem).elim (fun a => h.child a) fun a => h'.child a

theorem Backed.one {i : NodeId} {v : Value} {c : Node} {hash : Hash} (own : hash.isEmpty = false → Own hash c)
    (h : Backed Own c) : Backed Own ⟨[(i,⟨v,some c,hash⟩)]⟩ := by
  refine .mk (fun p mem c' child => ?_) fun p mem c' child => ?_ <;> cases List.mem_singleton.mp mem <;> cases child
  · exact own
  · exact h

theorem Backed.bare (h : Bare es) : Backed Own ⟨es⟩ :=
  .mk (fun p mem c child => by simp [(h p mem).1] at child) fun p mem c child => by simp [(h p mem).1] at child

end backed

def hashes (ps : List Pause) : Multiset Hash := (ps.map Pause.hash : List Hash)

theorem hashesAppend (a b : List Pause) : hashes (a ++ b) = hashes a + hashes b := by simp [hashes]

theorem hashesInside {pre post : Entries} {i : NodeId} {e : Entry Node} (ps : List Pause) :
    hashes (ps.map (Pause.inside pre i e post)) = hashes ps := by
  simp [hashes,Function.comp_def,Pause.inside]

theorem tryRemoveHashes (cfg : Config) (hash : Hash) (tree : Node) (held : Option Node) :
    ∃ lost, hashes (tryRemove cfg hash tree held) + lost = ownId hash ∧ (cfg.removeOp = true → lost = 0) := by
  unfold tryRemove ownId
  split
  · exact ⟨0,by simp [hashes],fun _ => rfl⟩
  · split
    · exact ⟨0,by simp [hashes],fun _ => rfl⟩
    · exact ⟨{hash},by simp [hashes],fun h => by contradiction⟩

theorem idsRefill (e : Entry Node) (es : Entries) : entryIds (refill e es) = idsOf es := zero_add _

theorem idsChild {e : Entry Node} {c : Entries} (child : e.child = some ⟨c⟩) :
    entryIds e = ownId e.childHash + idsOf c := by simp only [entryIds,child,ids]

theorem idsUpper (L : Entries) (x : Entry Node) :
    entryIds (upper L x) = idsOf L + entryIds ⟨x.value,x.child,noHash⟩ := by
  change 0 + idsOf (L ++ [(⊤,⟨⟨[]⟩,x.child,noHash⟩)]) = _
  rw [zero_add,idsOfAppend,idsOfCons]
  exact congrArg _ (add_zero _)

theorem idsMoved {m d : Nat} {es : Entries} (level : Level m d es) {p : NodeId × Entry Node} (mem : p ∈ es) :
    entryIds p.2 = ownId p.2.childHash + entryIds ⟨p.2.value,p.2.child,noHash⟩ := by
  cases d with
  | zero =>
    obtain ⟨child,hash⟩ := level.bare p mem
    simp [entryIds,child,hash,ownIdNone]
  | succ d =>
    obtain ⟨c,child,_⟩ := level.2.2 p mem
    simp only [entryIds,child,ownIdNone,zero_add]

theorem grownIds {cfg : Config} {key : Key} {value : Value} {d : Nat} {es es' : Entries} {ps : List Pause}
    (two : 2 ≤ cfg.maxNodeSize) (grown : Grown cfg key value d es ps es') (good : GoodAt cfg.maxNodeSize d es) :
    ∃ lost, hashes ps + lost + idsOf es' = idsOf es ∧ (cfg.removeOp = true → lost = 0) := by
  induction grown with
  | @leaf es bare =>
    have bare' : Bare (OrderedMap.insert (key : NodeId) ⟨value,none,noHash⟩ es) := fun p mem =>
      (OrderedMap.memInsert mem).elim (fun h => by rw [h]; exact ⟨rfl,rfl⟩) (bare p)
    exact ⟨0,by rw [idsBare bare,idsBare bare']; rfl,fun _ => rfl⟩
  | @hit d pre post e less => exact ⟨0,by rw [idsAt,idsAt]; simp [hashes,entryIds],fun _ => rfl⟩
  | @pass d pre post c es' i e ps cut other child below fits' ih =>
    obtain ⟨lost,account,none_⟩ := ih (good.child child)
    obtain ⟨own,removed,none'⟩ := tryRemoveHashes cfg e.childHash ⟨pre ++ (i,refill e es') :: post⟩ none
    refine ⟨lost + own,?_,fun h => by rw [none_ h,none' h,add_zero]⟩
    rw [hashesAppend,hashesInside,idsAt,idsAt,idsRefill,idsChild child,← account,← removed]
    abel
  | @absorb d pre post c L R i e x κ ps cut other child below full mid ih =>
    obtain ⟨lost,account,none_⟩ := ih (good.child child)
    obtain ⟨own,removed,none'⟩ := tryRemoveHashes cfg e.childHash ⟨pre ++ (i,refill e []) :: post⟩
      (some (halves L κ x R))
    obtain ⟨mine,removed',none''⟩ := tryRemoveHashes cfg x.childHash ⟨((κ : NodeId),upper L x) :: R⟩ none
    have moved := idsMoved (grownLevel two below (good.child child)).1 (p := ((κ : NodeId),x)) (by simp)
    refine ⟨lost + own + mine,?_,fun h => by rw [none_ h,none' h,none'' h]; rfl⟩
    rw [hashesAppend,hashesInside,hashesAppend,idsAt,idsOfCons,idsAt,idsRefill,idsUpper,idsChild child,← account,
      ← removed,idsAt,moved,← removed']
    abel

theorem grownBacked {Own : Hash → Node → Prop} {cfg : Config} {key : Key} {value : Value} {d : Nat}
    {es es' : Entries}
    {ps : List Pause} (grown : Grown cfg key value d es ps es') (backed : Backed Own ⟨es⟩) : Backed Own ⟨es'⟩ := by
  have emptied {P : Prop} (h : noHash.isEmpty = false) : P := by cases h
  have left {pre post : Entries} {p : NodeId × Entry Node} (h : Backed Own ⟨pre ++ p :: post⟩) : Backed Own ⟨pre⟩ :=
    h.sub fun q mem => List.mem_append_left _ mem
  have right {pre post : Entries} {p : NodeId × Entry Node}
      (h : Backed Own ⟨pre ++ p :: post⟩) : Backed Own ⟨post⟩ :=
    h.sub fun q mem => by simp [mem]
  induction grown with
  | @leaf es bare =>
    exact .bare fun p mem => (OrderedMap.memInsert mem).elim (fun h => by rw [h]; exact ⟨rfl,rfl⟩) (bare p)
  | @hit d pre post e less =>
    have own : Backed Own ⟨[((key : NodeId),{ e with value := value })]⟩ := by
      refine .mk (fun p mem c child cached => ?_) fun p mem c child => ?_ <;> cases List.mem_singleton.mp mem
      · exact backed.here (p := ((key : NodeId),e)) (by simp) child cached
      · exact backed.child (p := ((key : NodeId),e)) (by simp) child
    exact (left backed).append (own.append (right backed))
  | @pass d pre post c es' i e ps cut other child below fits' ih =>
    have inner := ih (backed.child (p := (i,e)) (by simp) child)
    exact (left backed).append ((Backed.one emptied inner).append (right backed))
  | @absorb d pre post c L R i e x κ ps cut other child below full mid ih =>
    have inner := ih (backed.child (p := (i,e)) (by simp) child)
    have inf : Backed Own ⟨[((⊤ : NodeId),(⟨⟨[]⟩,x.child,noHash⟩ : Entry Node))]⟩ := by
      refine .mk (fun p mem c' child' => ?_) fun p mem c' child' => ?_ <;> cases List.mem_singleton.mp mem
      · exact emptied
      · exact inner.child (p := ((κ : NodeId),x)) (by simp) child'
    have upper_ := Backed.one (i := (κ : NodeId)) (v := x.value) emptied ((left inner).append inf)
    have refilled := Backed.one (i := i) (v := e.value) emptied (right inner)
    exact (left backed).append (upper_.append (refilled.append (right backed)))

end IpfsCache
