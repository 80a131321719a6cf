import IpfsCache.InsertShape

/-! Node::check_invariants says two things: that the nodes in memory have the right sizes
and keys, and that they reach equally far down everywhere. -/
namespace IpfsCache
open OrderedMap (Sorted)
open Node Entries

inductive Fitting (m : Nat) : Node → Prop
  | mk {es : Entries} (fits : size es ≤ m)
      (under : ∀ p ∈ es, ∀ c, p.2.child = some c → ∀ q ∈ c.entries, q.1 = ⊤ ∨ q.1 < p.1)
      (below : ∀ p ∈ es, ∀ c, p.2.child = some c → Fitting m c) : Fitting m ⟨es⟩

def Uniform : Nat → Entries → Prop
  | 0,es => ∀ p ∈ es, p.2.child = none
  | k + 1,es => (∃ p ∈ es, p.2.child.isSome) ∧ ∀ p ∈ es, ∀ c, p.2.child = some c → Uniform k c.entries

theorem loopBare (acc : Option (Nat × Nat)) (es : Entries) (bare : ∀ p ∈ es, p.2.child = none) :
    minMaxLoop acc es = acc.getD (1,1) := by
  induction es with
  | nil => simp [minMaxLoop]
  | cons p es ih =>
    obtain ⟨i,v,child,x⟩ := p
    have null : child = none := bare (i,⟨v,child,x⟩) (by simp)
    subst null
    rw [minMaxLoop]
    exact ih fun q mem => bare q (List.mem_cons_of_mem _ mem)

theorem loopUniform {d : Nat} (es : Entries) (each : ∀ p ∈ es, ∀ c, p.2.child = some c → minMaxDepth c = (d,d)) :
    ∀ acc, acc = some (d + 1,d + 1) ∨ (acc = none ∧ ∃ p ∈ es, p.2.child.isSome) →
    minMaxLoop acc es = (d + 1,d + 1) := by
  induction es with
  | nil =>
    rintro acc (rfl | ⟨_,p,mem,_⟩)
    · simp [minMaxLoop]
    · cases mem
  | cons p es ih =>
    intro acc start
    obtain ⟨i,v,child,x⟩ := p
    have rest := ih fun q mem => each q (List.mem_cons_of_mem _ mem)
    cases child with
    | none =>
      rw [minMaxLoop]
      refine rest acc (start.imp id fun ⟨none_,q,mem,some_⟩ => ⟨none_,q,?_,some_⟩)
      rcases List.mem_cons.mp mem with rfl | later
      · cases some_
      · exact later
    | some c =>
      have depth := each (i,⟨v,some c,x⟩) (by simp) c rfl
      rcases start with rfl | ⟨rfl,_⟩ <;> simp [minMaxLoop,depth,rest]

theorem uniformDepth {k : Nat} {es : Entries} (uniform : Uniform k es) : minMaxDepth ⟨es⟩ = (k + 1,k + 1) := by
  induction k generalizing es with
  | zero =>
    rw [minMaxDepth,loopBare none es uniform]
    rfl
  | succ k ih =>
    rw [minMaxDepth]
    exact loopUniform es (fun p mem ⟨c⟩ child => ih (uniform.2 p mem _ child)) none (.inr ⟨rfl,uniform.1⟩)

theorem loopBounds (es : Entries) : ∀ acc,
    (∀ least most, acc = some (least,most) → (minMaxLoop acc es).1 ≤ least ∧ most ≤ (minMaxLoop acc es).2) ∧
    ∀ p ∈ es, ∀ c, p.2.child = some c →
      (minMaxLoop acc es).1 ≤ c.minMaxDepth.1 + 1 ∧ c.minMaxDepth.2 + 1 ≤ (minMaxLoop acc es).2 := by
  induction es with
  | nil =>
    refine fun acc => ⟨fun least most same => ?_,by simp⟩
    subst same
    simp [minMaxLoop]
  | cons p es ih =>
    intro acc
    obtain ⟨i,v,child,x⟩ := p
    cases child with
    | none =>
      rw [minMaxLoop]
      refine ⟨(ih acc).1,List.forall_mem_cons.mpr ⟨by simp,(ih acc).2⟩⟩
    | some c =>
      cases acc with
      | none =>
        rw [minMaxLoop]
        have here := (ih (some (c.minMaxDepth.1 + 1,c.minMaxDepth.2 + 1))).1 _ _ rfl
        exact ⟨by simp,List.forall_mem_cons.mpr ⟨by simpa using here,(ih _).2⟩⟩
      | some acc =>
        obtain ⟨least,most⟩ := acc
        rw [minMaxLoop]
        have here := (ih (some (min least (c.minMaxDepth.1 + 1),max most (c.minMaxDepth.2 + 1)))).1 _ _ rfl
        refine ⟨fun _ _ same => ?_,List.forall_mem_cons.mpr ⟨fun _ same => ?_,(ih _).2⟩⟩ <;> cases same <;> omega

theorem checkEntriesEach (m : Nat) (es : Entries) : checkEntries m es = true ↔ ∀ p ∈ es, ∀ c, p.2.child = some c →
    (∀ q ∈ c.entries, q.1 = ⊤ ∨ q.1 < p.1) ∧ c.checkInvariants m = true := by
  induction es with
  | nil => simp [checkEntries]
  | cons p es ih =>
    obtain ⟨i,v,child,x⟩ := p
    cases child with
    | none => simp [checkEntries,ih]
    | some c => simp [checkEntries,ih,and_assoc]

theorem checkIff (m : Nat) (n : Node) : n.checkInvariants m = true ↔ Fitting m n ∧ ∃ k, Uniform k n.entries := by
  induction n using Node.induct with
  | step es ih =>
    rw [checkInvariants]
    constructor
    · intro checked
      split at checked
      · cases checked
      · rename_i fits
        split at checked
        · cases checked
        · rename_i level
          have each := (checkEntriesEach m es).mp checked
          have below (p : NodeId × Entry Node) (mem : p ∈ es) (c : Node) (child : p.2.child = some c) :=
            (ih p mem c child).mp (each p mem c child).2
          refine ⟨.mk (by omega) (fun p mem c child => (each p mem c child).1) fun p mem c child =>
            (below p mem c child).1,?_⟩
          by_cases bare : ∀ p ∈ es, p.2.child = none
          · exact ⟨0,bare⟩
          · obtain ⟨p,mem,some_⟩ : ∃ p ∈ es, p.2.child.isSome := by
              simpa [Option.isSome_iff_ne_none] using bare
            have bounds := (loopBounds es none).2
            have same (p : NodeId × Entry Node) (mem : p ∈ es) (c : Node) (child : p.2.child = some c) :
                ∃ k, Uniform k c.entries ∧ k + 2 = (minMaxDepth ⟨es⟩).1 := by
              obtain ⟨k,uniform⟩ := (below p mem c child).2
              obtain ⟨cs⟩ := c
              have depth : minMaxDepth ⟨cs⟩ = (k + 1,k + 1) := uniformDepth uniform
              have bound := bounds p mem _ child
              rw [depth] at bound
              rw [ne_eq,not_not] at level
              refine ⟨k,uniform,?_⟩
              rw [minMaxDepth] at level ⊢
              omega
            obtain ⟨c,child⟩ := Option.isSome_iff_exists.mp some_
            obtain ⟨k,_,depth⟩ := same p mem c child
            refine ⟨k + 1,⟨p,mem,some_⟩,fun p' mem' c' child' => ?_⟩
            obtain ⟨k',uniform,depth'⟩ := same p' mem' c' child'
            rwa [show k = k' by omega]
    · rintro ⟨fitting,k,uniform⟩
      cases fitting with
      | mk fits under below =>
        have depth : minMaxDepth ⟨es⟩ = (k + 1,k + 1) := uniformDepth uniform
        rw [if_neg (by omega),depth,if_neg (by simp),checkEntriesEach]
        refine fun p mem c child => ⟨under p mem c child,(ih p mem c child).mpr ⟨below p mem c child,?_⟩⟩
        cases k with
        | zero =>
          rw [uniform p mem] at child
          cases child
        | succ k => exact ⟨k,uniform.2 p mem c child⟩

theorem levelUniform {m d : Nat} {es : Entries} (level : Level m d es) : Uniform d es := by
  induction d generalizing es with
  | zero => exact fun p mem => (level.bare p mem).1
  | succ d ih =>
    obtain ⟨pre,e,last⟩ := level.inf
    have inside : ((⊤ : NodeId),e) ∈ es := by rw [last]; simp
    obtain ⟨c,child,_⟩ := level.2.2 _ inside
    exact ⟨⟨_,inside,Option.isSome_iff_exists.mpr ⟨c,child⟩⟩,fun p mem c child => ih (level.child mem child).1⟩

theorem levelFitting {m d : Nat} {es : Entries} (good : GoodAt m d es) : Fitting m ⟨es⟩ := by
  induction d generalizing es with
  | zero =>
    refine .mk good.fits (fun p mem c child => ?_) fun p mem c child => ?_ <;>
      rw [(good.level.bare p mem).1] at child <;> cases child
  | succ d ih =>
    refine .mk good.fits (fun ⟨i,e⟩ mem ⟨c⟩ child ⟨j,f⟩ here => ?_) fun ⟨i,e⟩ mem ⟨c⟩ child => ?_ <;>
      obtain ⟨pre,post,rfl⟩ := List.append_of_mem mem
    · cases j using WithTop.recTopCoe with
      | top => exact .inl rfl
      | coe k =>
        have inner : (k,f.value) ∈ belowEntry e.child := by
          rw [show e.child = some ⟨c⟩ from child]
          exact ownInside here rfl
        exact .inr (childBetween good.tree inner).2
    · exact ih (good.child child)

end IpfsCache
