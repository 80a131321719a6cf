import Mathlib.Order.Basic
import Mathlib.Order.Lattice
import Mathlib.Data.List.TakeWhile
import Mathlib.Data.List.Pairwise

/-! Ordered associative containers as the list of their elements in key order.
An iterator is a cut of the list: what lies before it and what starts at it.
Insertion keeps an element that is there, assignment replaces its value. -/
namespace OrderedMap
variable {K V : Type} [LinearOrder K]

def before (k : K) (l : List (K × V)) : List (K × V) := l.takeWhile (fun p => decide (p.1 < k))

def lowerBound (k : K) (l : List (K × V)) : List (K × V) := l.dropWhile (fun p => decide (p.1 < k))

def find (k : K) (l : List (K × V)) : Option V :=
  match lowerBound k l with
  | [] => none
  | (i,v) :: _ => if i = k then some v else none

def insert (k : K) (v : V) (l : List (K × V)) : List (K × V) :=
  match lowerBound k l with
  | [] => before k l ++ [(k,v)]
  | (i,w) :: rest => if i = k then l else before k l ++ (k,v) :: (i,w) :: rest

def assign (k : K) (v : V) (l : List (K × V)) : List (K × V) :=
  match lowerBound k l with
  | [] => before k l ++ [(k,v)]
  | (i,w) :: rest => if i = k then before k l ++ (k,v) :: rest else before k l ++ (k,v) :: (i,w) :: rest

def erase (k : K) (l : List (K × V)) : List (K × V) := l.filter (fun p => decide (p.1 ≠ k))

def Sorted (l : List (K × V)) : Prop := l.Pairwise (fun p q => p.1 < q.1)

def keys (l : List (K × V)) : List K := l.map Prod.fst

theorem cut (k : K) (l : List (K × V)) : before k l ++ lowerBound k l = l := List.takeWhile_append_dropWhile

theorem beforeMap (f : K × V → K × V) (keeps : ∀ p, (f p).1 = p.1) (k : K) (l : List (K × V)) :
    before k (l.map f) = (before k l).map f := by
  rw [before,List.takeWhile_map]
  simp only [Function.comp_def,keeps]
  rfl

theorem lowerBoundMap (f : K × V → K × V) (keeps : ∀ p, (f p).1 = p.1) (k : K) (l : List (K × V)) :
    lowerBound k (l.map f) = (lowerBound k l).map f := by
  rw [lowerBound,List.dropWhile_map]
  simp only [Function.comp_def,keeps]
  rfl

theorem insertNotEmpty (k : K) (v : V) (l : List (K × V)) : insert k v l ≠ [] := by
  unfold insert
  split
  · simp
  · rename_i at_
    split
    · rintro rfl
      cases at_
    · simp

theorem assignNotEmpty (k : K) (v : V) (l : List (K × V)) : assign k v l ≠ [] := by
  unfold assign
  split
  · simp
  · split <;> simp

theorem beforeLess {k : K} {l : List (K × V)} {p : K × V} (h : p ∈ before k l) : p.1 < k := by
  simpa using List.mem_takeWhile_imp h

theorem lowerBoundHead {k i : K} {v : V} {l rest : List (K × V)} (h : lowerBound k l = (i,v) :: rest) : k ≤ i := by
  have head := List.head?_dropWhile_not (fun p : K × V => decide (p.1 < k)) l
  rw [show l.dropWhile (fun p => decide (p.1 < k)) = (i,v) :: rest from h] at head
  simpa using head

theorem cutAt {k : K} {a b : List (K × V)} (less : ∀ p ∈ a, p.1 < k) (head : ∀ p ∈ b.head?, k ≤ p.1) :
    before k (a ++ b) = a ∧ lowerBound k (a ++ b) = b := by
  have all : ∀ p ∈ a, decide (p.1 < k) = true := fun p hp => by simpa using less p hp
  have stop : b.takeWhile (fun p => decide (p.1 < k)) = [] ∧ b.dropWhile (fun p => decide (p.1 < k)) = b := by
    cases b with
    | nil => simp
    | cons p rest =>
      have hp : ¬ p.1 < k := not_lt.mpr (head p (by simp))
      simp [hp]
  constructor
  · rw [before,List.takeWhile_append_of_pos all,stop.1,List.append_nil]
  · rw [lowerBound,List.dropWhile_append_of_pos all,stop.2]

theorem sortedAppend {a b : List (K × V)} :
    Sorted (a ++ b) ↔ Sorted a ∧ Sorted b ∧ ∀ p ∈ a, ∀ q ∈ b, p.1 < q.1 := List.pairwise_append

theorem sortedCons {p : K × V} {l : List (K × V)} :
    Sorted (p :: l) ↔ (∀ q ∈ l, p.1 < q.1) ∧ Sorted l := List.pairwise_cons

theorem sortedKeys {l : List (K × V)} : Sorted l ↔ (keys l).Pairwise (· < ·) := List.pairwise_map.symm

theorem keysNodup {l : List (K × V)} (h : Sorted l) : (keys l).Nodup :=
  (sortedKeys.mp h).imp fun less => less.ne

theorem sortedReplace {pre post : List (K × V)} {k : K} {v w : V} (sorted : Sorted (pre ++ (k,v) :: post)) :
    Sorted (pre ++ (k,w) :: post) := by
  rw [sortedKeys] at sorted ⊢
  simpa [keys] using sorted

theorem memReplace {A : Type} {pre post : List A} (x : A) {y z : A} (mem : z ∈ pre ++ y :: post) :
    z = y ∨ z ∈ pre ++ x :: post := by
  simp only [List.mem_append,List.mem_cons] at mem ⊢
  rcases mem with h | h | h
  · exact .inr (.inl h)
  · exact .inl h
  · exact .inr (.inr (.inr h))

theorem lowerBoundGe {k : K} {l : List (K × V)} (sorted : Sorted l) : ∀ p ∈ lowerBound k l, k ≤ p.1 := by
  intro p mem
  have rest : Sorted (lowerBound k l) := List.Pairwise.sublist (List.dropWhile_sublist _) sorted
  cases same : lowerBound k l with
  | nil => rw [same] at mem; cases mem
  | cons q tail =>
    have head : k ≤ q.1 := lowerBoundHead same
    rw [same] at mem rest
    rcases List.mem_cons.mp mem with rfl | inside
    · exact head
    · exact head.trans ((sortedCons.mp rest).1 p inside).le

section cuts
variable {k : K} {v w : V} {a b : List (K × V)}

theorem findHit (less : ∀ p ∈ a, p.1 < k) : find k (a ++ (k,v) :: b) = some v := by
  simp [find,(cutAt (b := (k,v) :: b) less (by simp)).2]

theorem findMiss (less : ∀ p ∈ a, p.1 < k) (greater : ∀ p ∈ b.head?, k < p.1) : find k (a ++ b) = none := by
  rw [find,(cutAt less fun p hp => (greater p hp).le).2]
  cases b with
  | nil => rfl
  | cons p rest => simp [(greater p (by simp)).ne']

theorem insertHit (less : ∀ p ∈ a, p.1 < k) : insert k v (a ++ (k,w) :: b) = a ++ (k,w) :: b := by
  simp [insert,(cutAt (b := (k,w) :: b) less (by simp)).2]

theorem insertMiss (less : ∀ p ∈ a, p.1 < k) (greater : ∀ p ∈ b.head?, k < p.1) :
    insert k v (a ++ b) = a ++ (k,v) :: b := by
  have at_ := cutAt less fun p hp => (greater p hp).le
  cases b with
  | nil => simp only [insert,at_.1,at_.2]
  | cons p rest => simp [insert,at_.1,at_.2,(greater p (by simp)).ne']

theorem assignHit (less : ∀ p ∈ a, p.1 < k) : assign k v (a ++ (k,w) :: b) = a ++ (k,v) :: b := by
  have at_ := cutAt (b := (k,w) :: b) less (by simp)
  simp [assign,at_.1,at_.2]

theorem assignMiss (less : ∀ p ∈ a, p.1 < k) (greater : ∀ p ∈ b.head?, k < p.1) :
    assign k v (a ++ b) = a ++ (k,v) :: b := by
  have at_ := cutAt less fun p hp => (greater p hp).le
  cases b with
  | nil => simp only [assign,at_.1,at_.2]
  | cons p rest => simp [assign,at_.1,at_.2,(greater p (by simp)).ne']

end cuts

/-- Every sorted list is cut at a key in one of two ways. -/
theorem cases (k : K) (l : List (K × V)) (sorted : Sorted l) :
    (∃ a w b, l = a ++ (k,w) :: b ∧ (∀ p ∈ a, p.1 < k) ∧ ∀ p ∈ b, k < p.1) ∨
    (∃ a b, l = a ++ b ∧ (∀ p ∈ a, p.1 < k) ∧ ∀ p ∈ b, k < p.1) := by
  have whole := cut k l
  have ge := lowerBoundGe (k := k) sorted
  cases same : lowerBound k l with
  | nil => exact .inr ⟨before k l,[],by rw [← same,whole],fun p => beforeLess,by simp⟩
  | cons q rest =>
    rw [same] at whole ge
    have after := (sortedAppend.mp (whole.symm ▸ sorted)).2.1
    rcases (ge q (by simp)).eq_or_lt with eq | lt
    · obtain ⟨i,w⟩ := q
      cases eq
      exact .inl ⟨_,w,rest,whole.symm,fun p => beforeLess,(sortedCons.mp after).1⟩
    · refine .inr ⟨_,q :: rest,whole.symm,fun p => beforeLess,fun p hp => ?_⟩
      rcases List.mem_cons.mp hp with rfl | inside
      · exact lt
      · exact lt.trans ((sortedCons.mp after).1 p inside)

omit [LinearOrder K] in
theorem headOfAll {P : K × V → Prop} {b : List (K × V)} (h : ∀ p ∈ b, P p) : ∀ p ∈ b.head?, P p :=
  fun p hp => h p (List.mem_of_mem_head? hp)

section frames
variable {k : K} {v : V} {a b c : List (K × V)}

theorem findFrame (sorted : Sorted c) (less : ∀ p ∈ a, p.1 < k) (greater : ∀ p ∈ b, k < p.1) :
    find k (a ++ c ++ b) = find k c := by
  rcases cases k c sorted with ⟨c₁,w,c₂,rfl,less',_⟩ | ⟨c₁,c₂,rfl,less',greater'⟩
  · have all : ∀ p ∈ a ++ c₁, p.1 < k := List.forall_mem_append.mpr ⟨less,less'⟩
    rw [findHit less',← List.append_assoc,List.append_assoc,List.cons_append,findHit all]
  · have all : ∀ p ∈ a ++ c₁, p.1 < k := List.forall_mem_append.mpr ⟨less,less'⟩
    have above : ∀ p ∈ c₂ ++ b, k < p.1 := List.forall_mem_append.mpr ⟨greater',greater⟩
    rw [findMiss less' (headOfAll greater'),← List.append_assoc,List.append_assoc,findMiss all (headOfAll above)]

theorem assignFrame (sorted : Sorted c) (less : ∀ p ∈ a, p.1 < k) (greater : ∀ p ∈ b, k < p.1) :
    assign k v (a ++ c ++ b) = a ++ assign k v c ++ b := by
  rcases cases k c sorted with ⟨c₁,w,c₂,rfl,less',_⟩ | ⟨c₁,c₂,rfl,less',greater'⟩
  · have all : ∀ p ∈ a ++ c₁, p.1 < k := List.forall_mem_append.mpr ⟨less,less'⟩
    rw [assignHit less',← List.append_assoc,List.append_assoc,List.cons_append,assignHit all]
    simp
  · have all : ∀ p ∈ a ++ c₁, p.1 < k := List.forall_mem_append.mpr ⟨less,less'⟩
    have above : ∀ p ∈ c₂ ++ b, k < p.1 := List.forall_mem_append.mpr ⟨greater',greater⟩
    rw [assignMiss less' (headOfAll greater'),← List.append_assoc,List.append_assoc,
      assignMiss all (headOfAll above)]
    simp

end frames

theorem findSome {k : K} {v : V} {l : List (K × V)} (sorted : Sorted l) : find k l = some v ↔ (k,v) ∈ l := by
  rcases cases k l sorted with ⟨a,w,b,rfl,less,greater⟩ | ⟨a,b,rfl,less,greater⟩
  · rw [findHit less]
    constructor
    · rintro h; cases h; simp
    · intro mem
      simp only [List.mem_append,List.mem_cons,Prod.mk.injEq,true_and] at mem
      rcases mem with h | h | h
      · exact absurd (less _ h) (lt_irrefl _)
      · rw [h]
      · exact absurd (greater _ h) (lt_irrefl _)
  · rw [findMiss less (headOfAll greater)]
    simp only [reduceCtorEq,List.mem_append,false_iff,not_or]
    exact ⟨fun h => lt_irrefl _ (less _ h),fun h => lt_irrefl _ (greater _ h)⟩

theorem findNone {k : K} {l : List (K × V)} (sorted : Sorted l) : find k l = none ↔ k ∉ keys l := by
  rw [Option.eq_none_iff_forall_ne_some]
  simp [findSome sorted,keys]

theorem findCons (k j : K) (v : V) {l : List (K × V)} (sorted : Sorted ((k,v) :: l)) :
    find j ((k,v) :: l) = if j = k then some v else find j l := by
  refine Option.ext fun w => ?_
  have above := (sortedCons.mp sorted).1
  rw [findSome sorted,List.mem_cons]
  split
  · rename_i same
    subst same
    have free : (j,w) ∉ l := fun mem => lt_irrefl j (above (j,w) mem)
    simp [free,eq_comm]
  · rename_i other
    rw [findSome (sortedCons.mp sorted).2]
    simp [other]

theorem findAssign (k j : K) (v : V) {l : List (K × V)} (sorted : Sorted l) :
    find j (assign k v l) = if j = k then some v else find j l := by
  split
  · rename_i same
    subst same
    rcases cases j l sorted with ⟨a,w,b,rfl,less,greater⟩ | ⟨a,b,rfl,less,greater⟩
    · rw [assignHit less,findHit less]
    · rw [assignMiss less (headOfAll greater),findHit less]
  · rename_i other
    have keep (a b : List (K × V)) (w : V) (ha : ∀ p ∈ a, p.1 < k) (hb : ∀ p ∈ b, k < p.1)
        (sa : Sorted a) (sb : Sorted b) : find j (a ++ (k,w) :: b) = find j (a ++ b) := by
      rcases lt_or_gt_of_ne other with less | greater
      · have left (r : List (K × V)) (hr : ∀ p ∈ r, j < p.1) : find j (a ++ r) = find j a :=
          findFrame (a := []) sa (by simp) hr
        rw [left _ (List.forall_mem_cons.mpr ⟨less,fun p hp => less.trans (hb p hp)⟩),
          left _ fun p hp => less.trans (hb p hp)]
      · have right (l : List (K × V)) (hl : ∀ p ∈ l, p.1 < j) : find j (l ++ b) = find j b := by
          simpa using findFrame (a := l) (b := []) sb hl (by simp)
        have below : ∀ p ∈ a, p.1 < j := fun p hp => (ha p hp).trans greater
        rw [← List.singleton_append,← List.append_assoc,right a below,
          right _ (List.forall_mem_append.mpr ⟨below,by simpa using greater⟩)]
    rcases cases k l sorted with ⟨a,w,b,rfl,less,greater⟩ | ⟨a,b,rfl,less,greater⟩
    · have parts := sortedAppend.mp sorted
      have tail := (sortedCons.mp parts.2.1).2
      rw [assignHit less,keep _ _ _ less greater parts.1 tail,keep _ _ _ less greater parts.1 tail]
    · have parts := sortedAppend.mp sorted
      rw [assignMiss less (headOfAll greater),keep _ _ _ less greater parts.1 parts.2.1]

theorem insertAsAssign (k : K) (v : V) {l : List (K × V)} (sorted : Sorted l) :
    insert k v l = assign k ((find k l).getD v) l := by
  rcases cases k l sorted with ⟨a,w,b,rfl,less,greater⟩ | ⟨a,b,rfl,less,greater⟩
  · rw [insertHit less,findHit less,assignHit less,Option.getD_some]
  · rw [insertMiss less (headOfAll greater),assignMiss less (headOfAll greater),
      findMiss less (headOfAll greater),Option.getD_none]

theorem findInsert (k j : K) (v : V) {l : List (K × V)} (sorted : Sorted l) :
    find j (insert k v l) = if j = k then some ((find k l).getD v) else find j l := by
  rw [insertAsAssign k v sorted,findAssign k j _ sorted]

theorem assignSorted (k : K) (v : V) {l : List (K × V)} (sorted : Sorted l) : Sorted (assign k v l) := by
  have close (a b : List (K × V)) (ha : ∀ p ∈ a, p.1 < k) (hb : ∀ p ∈ b, k < p.1)
      (sa : Sorted a) (sb : Sorted b) : Sorted (a ++ (k,v) :: b) := by
    refine sortedAppend.mpr ⟨sa,sortedCons.mpr ⟨hb,sb⟩,fun p hp q hq => ?_⟩
    rcases List.mem_cons.mp hq with rfl | inside
    · exact ha p hp
    · exact (ha p hp).trans (hb q inside)
  rcases cases k l sorted with ⟨a,w,b,rfl,less,greater⟩ | ⟨a,b,rfl,less,greater⟩
  · have parts := sortedAppend.mp sorted
    rw [assignHit less]
    exact close a b less greater parts.1 (sortedCons.mp parts.2.1).2
  · have parts := sortedAppend.mp sorted
    rw [assignMiss less (headOfAll greater)]
    exact close a b less greater parts.1 parts.2.1

theorem insertSorted (k : K) (v : V) {l : List (K × V)} (sorted : Sorted l) : Sorted (insert k v l) := by
  rw [insertAsAssign k v sorted]
  exact assignSorted k _ sorted

theorem memAssign {k : K} {v : V} {l : List (K × V)} (sorted : Sorted l) {p : K × V} :
    p ∈ assign k v l ↔ p = (k,v) ∨ (p ∈ l ∧ p.1 ≠ k) := by
  obtain ⟨j,w⟩ := p
  rw [← findSome (assignSorted k v sorted),findAssign k j v sorted,← findSome sorted]
  by_cases same : j = k
  · simp [same,eq_comm]
  · simp [same]

theorem memInsert {k : K} {v : V} {l : List (K × V)} {p : K × V} (mem : p ∈ insert k v l) :
    p = (k,v) ∨ p ∈ l := by
  have whole := cut k l
  rw [insert] at mem
  split at mem
  · rename_i none_
    rw [none_] at whole
    rcases List.mem_append.mp mem with h | h
    · exact .inr (whole ▸ List.mem_append_left _ h)
    · exact .inl (List.mem_singleton.mp h)
  · rename_i some_
    rw [some_] at whole
    split at mem
    · exact .inr mem
    · rw [← whole]
      simp only [List.mem_append,List.mem_cons] at mem ⊢
      rcases mem with h | h | h
      · exact .inr (.inl h)
      · exact .inl h
      · exact .inr (.inr h)

theorem keysAssign {k : K} {v : V} {l : List (K × V)} (sorted : Sorted l) {j : K} :
    j ∈ keys (assign k v l) ↔ j = k ∨ j ∈ keys l := by
  rw [← not_iff_not,← findNone (assignSorted k v sorted),findAssign k j v sorted,not_or,← findNone sorted]
  by_cases same : j = k <;> simp [same]

theorem keysInsert {k : K} {v : V} {l : List (K × V)} (sorted : Sorted l) {j : K} :
    j ∈ keys (insert k v l) ↔ j = k ∨ j ∈ keys l := by
  rw [insertAsAssign k v sorted]
  exact keysAssign sorted

theorem eraseSorted (k : K) {l : List (K × V)} (sorted : Sorted l) : Sorted (erase k l) :=
  List.Pairwise.sublist List.filter_sublist sorted

theorem findErase (k j : K) {l : List (K × V)} (sorted : Sorted l) :
    find j (erase k l) = if j = k then none else find j l := by
  split
  · rename_i same
    rw [findNone (eraseSorted k sorted)]
    simp [keys,erase,same]
  · rename_i other
    refine Option.ext fun v => ?_
    rw [findSome (eraseSorted k sorted),findSome sorted]
    simp [erase,other]

theorem insertAll {l : List (K × V)} (sorted : Sorted l) :
    l.foldl (fun m p => insert p.1 p.2 m) [] = l := by
  have step (done rest : List (K × V)) (sorted : Sorted (done ++ rest)) :
      rest.foldl (fun m p => insert p.1 p.2 m) done = done ++ rest := by
    induction rest generalizing done with
    | nil => simp
    | cons p rest ih =>
      have less : ∀ q ∈ done, q.1 < p.1 := fun q hq => (sortedAppend.mp sorted).2.2 q hq p (by simp)
      have last := insertMiss (v := p.2) (b := []) less (by simp)
      rw [List.append_nil] at last
      rw [List.foldl_cons,last,ih _ (by simpa using sorted),List.append_assoc,List.singleton_append]
  simpa using step [] l (by simpa using sorted)

theorem insertEachSorted (more : List (K × V)) : ∀ {l : List (K × V)}, Sorted l →
    Sorted (more.foldl (fun m p => insert p.1 p.2 m) l) := by
  induction more with
  | nil => exact id
  | cons p more ih => exact fun sorted => ih (insertSorted p.1 p.2 sorted)

theorem findInsertEach [BEq K] [LawfulBEq K] (k : K) (more : List (K × V)) : ∀ {l : List (K × V)}, Sorted l →
    find k (more.foldl (fun m p => insert p.1 p.2 m) l) = (find k l).or (more.lookup k) := by
  induction more with
  | nil => simp
  | cons p more ih =>
    intro l sorted
    rw [List.foldl_cons,ih (insertSorted p.1 p.2 sorted),findInsert p.1 k p.2 sorted,List.lookup_cons]
    by_cases same : k = p.1
    · subst same
      cases find p.1 l <;> simp
    · simp [same,beq_eq_false_iff_ne.mpr same]

theorem lowerBoundLeast {k i : K} {v : V} {l : List (K × V)} (sorted : Sorted l) :
    (∃ rest, lowerBound k l = (i,v) :: rest) ↔ find i l = some v ∧ k ≤ i ∧ ∀ p ∈ l, k ≤ p.1 → i ≤ p.1 := by
  have whole := cut k l
  rw [findSome sorted]
  constructor
  · rintro ⟨rest,at_⟩
    rw [at_] at whole
    refine ⟨whole ▸ by simp,lowerBoundHead at_,fun p mem above => ?_⟩
    rw [← whole] at mem sorted
    rcases List.mem_append.mp mem with less | behind
    · exact absurd (beforeLess less) above.not_gt
    · rcases List.mem_cons.mp behind with rfl | behind
      · exact le_rfl
      · exact ((sortedCons.mp (sortedAppend.mp sorted).2.1).1 p behind).le
  · rintro ⟨mem,above,least⟩
    rw [← whole] at mem
    rcases List.mem_append.mp mem with less | behind
    · exact absurd (beforeLess less) above.not_gt
    · cases at_ : lowerBound k l with
      | nil => rw [at_] at behind; cases behind
      | cons q rest =>
        rw [at_] at behind whole
        rcases List.mem_cons.mp behind with rfl | behind
        · exact ⟨rest,rfl⟩
        · rw [← whole] at sorted
          have order := (sortedCons.mp (sortedAppend.mp sorted).2.1).1 _ behind
          exact absurd (least q (whole ▸ by simp) (lowerBoundHead at_)) order.not_ge

end OrderedMap
