import IpfsCache.Growth

/-! An insertion keeps the shape of the tree, never trips over an assertion of
insert_node, and takes the four cases of Grown to the result split makes of them. -/
namespace IpfsCache
open OrderedMap (Sorted)
open Node Entries

theorem endsInInfReplace {pre post : Entries} {i : NodeId} {e e' : Entry Node}
    (h : EndsInInf (pre ++ (i,e) :: post)) : EndsInInf (pre ++ (i,e') :: post) := by
  obtain ⟨a,f,same⟩ := h
  rcases post.eq_nil_or_concat' with rfl | ⟨b,q,rfl⟩
  · have last := List.append_inj' same rfl
    cases last.2
    exact ⟨pre,e',rfl⟩
  · rw [show pre ++ (i,e) :: (b ++ [q]) = (pre ++ (i,e) :: b) ++ [q] by simp] at same
    cases (List.append_inj' same rfl).2
    exact ⟨pre ++ (i,e') :: b,f,by simp⟩

theorem levelReplace {m d : Nat} {pre post : Entries} {i : NodeId} {e f : Entry Node}
    (level : Level m (d + 1) (pre ++ (i,e) :: post))
    (child : ∃ c : Node, f.child = some c ∧ Level m d c.entries ∧ m / 2 ≤ c.size ∧ c.size ≤ m) :
    Level m (d + 1) (pre ++ (i,f) :: post) := by
  refine ⟨OrderedMap.sortedReplace level.sorted,endsInInfReplace level.inf,fun p mem => ?_⟩
  rcases OrderedMap.memReplace (i,e) mem with rfl | old
  · exact child
  · exact level.2.2 p old

theorem endsInInfGrow {pre post : Entries} {i : NodeId} {e : Entry Node} {p : NodeId × Entry Node}
    (h : EndsInInf (pre ++ (i,e) :: post)) : EndsInInf (pre ++ p :: (i,e) :: post) := by
  obtain ⟨a,f,same⟩ := h
  have tail : ∃ b, (i,e) :: post = b ++ [(⊤,f)] := by
    rcases ((i,e) :: post).eq_nil_or_concat' with none_ | ⟨b,q,whole⟩
    · cases none_
    · rw [whole,← List.append_assoc] at same
      cases (List.append_inj' same rfl).2
      exact ⟨b,whole⟩
  obtain ⟨b,whole⟩ := tail
  exact ⟨pre ++ p :: b,f,by rw [whole]; simp⟩

theorem sizeReplace {pre post : Entries} {i : NodeId} {e e' : Entry Node} (h : Sorted (pre ++ (i,e) :: post)) :
    size (pre ++ (i,e') :: post) = size (pre ++ (i,e) :: post) := by
  rw [sizeCount h,sizeCount (OrderedMap.sortedReplace h)]
  simp only [List.countP_append,List.countP_cons]

theorem sizeNew {a b : Entries} {key : Key} (sorted : Sorted (a ++ b)) (less : ∀ p ∈ a, p.1 < (key : NodeId))
    (greater : ∀ p ∈ b, (key : NodeId) < p.1) (e : Entry Node) :
    size (OrderedMap.insert (key : NodeId) e (a ++ b)) = size (a ++ b) + 1 := by
  rw [sizeCount sorted,sizeCount (OrderedMap.insertSorted _ _ sorted),
    OrderedMap.insertMiss less (OrderedMap.headOfAll greater)]
  simp only [List.countP_append,List.countP_cons]
  simp
  omega

theorem sizeAbsorb {pre post : Entries} {i : NodeId} {e e' u : Entry Node} {κ : Key}
    (grown : Sorted (pre ++ ((κ : NodeId),u) :: (i,e') :: post)) (sorted : Sorted (pre ++ (i,e) :: post)) :
    size (pre ++ ((κ : NodeId),u) :: (i,e') :: post) = size (pre ++ (i,e) :: post) + 1 := by
  rw [sizeCount grown,sizeCount sorted]
  simp only [List.countP_append,List.countP_cons]
  simp
  omega

theorem keysAbove {pre : Entries} (real : ∀ p ∈ pre, p.1 ≠ ⊤) {κ : Key}
    (above : ∀ x ∈ flatten ⟨pre⟩, x.1 < κ) : ∀ p ∈ pre, p.1 < (κ : NodeId) := by
  intro ⟨i,e⟩ mem
  cases i using WithTop.recTopCoe with
  | top => exact absurd rfl (real _ mem)
  | coe k =>
    exact WithTop.coe_lt_coe.mpr (above _ (ownInside mem rfl))

theorem childBetween {pre post : Entries} {i : NodeId} {e : Entry Node}
    (tree : SearchTree ⟨pre ++ (i,e) :: post⟩) {x : Key × Value} (mem : x ∈ belowEntry e.child) :
    (∀ p ∈ pre, p.1 < (x.1 : NodeId)) ∧ (x.1 : NodeId) < i := by
  have here := tree.ordered.here
  have sorted := tree.sorted
  rw [flattenAt] at sorted
  have left := OrderedMap.sortedAppend.mp (OrderedMap.sortedAppend.mp sorted).1
  constructor
  · exact keysAbove (realBefore here) fun y hy => left.2.2 y hy x mem
  · cases i using WithTop.recTopCoe with
    | top => exact WithTop.coe_lt_top _
    | coe k =>
      exact WithTop.coe_lt_coe.mpr
        ((OrderedMap.sortedAppend.mp sorted).2.2 x (List.mem_append_right _ mem) (k,e.value) (by simp [ownPair]))

structure GoodAt (m d : Nat) (es : Entries) : Prop where
  tree : SearchTree ⟨es⟩
  level : Level m d es
  fits : size es ≤ m

theorem GoodAt.child {m d : Nat} {pre post c : Entries} {i : NodeId} {e : Entry Node}
    (good : GoodAt m (d + 1) (pre ++ (i,e) :: post)) (child : e.child = some ⟨c⟩) : GoodAt m d c := by
  have below := good.level.child (p := (i,e)) (by simp) child
  exact ⟨good.tree.child (p := (i,e)) (by simp) child,below.1,below.2.2⟩

section shape
variable {cfg : Config} {key : Key} {value : Value}

theorem grownBetween {d : Nat} {pre post c es' : Entries} {i : NodeId} {e : Entry Node} {ps : List Pause}
    (tree : SearchTree ⟨pre ++ (i,e) :: post⟩) (cut : CutAt key pre i) (other : i ≠ key)
    (child : e.child = some ⟨c⟩) (grown : Grown cfg key value d c ps es') {x : Key × Value}
    (mem : x ∈ flatten ⟨es'⟩) : (∀ p ∈ pre, p.1 < (x.1 : NodeId)) ∧ (x.1 : NodeId) < i := by
  have inner : SearchTree ⟨c⟩ := tree.child (p := (i,e)) (by simp) child
  obtain ⟨w,_,content⟩ := grownAssigns grown inner
  rw [content] at mem
  rcases (OrderedMap.memAssign inner.sorted).mp mem with rfl | ⟨old,_⟩
  · exact ⟨cut.less,lt_of_le_of_ne cut.ge other.symm⟩
  · exact childBetween tree (by rw [child]; exact old)

theorem middleKey {L R : Entries} {κ : Key} {x : Entry Node} :
    (κ,x.value) ∈ flatten ⟨L ++ ((κ : NodeId),x) :: R⟩ := by
  rw [flattenAt]
  simp [ownPair]

theorem levelLeft {m d : Nat} {L R : Entries} {κ : Key} {x : Entry Node}
    (level : Level m d (L ++ ((κ : NodeId),x) :: R)) : Level m d (L ++ [(⊤,⟨⟨[]⟩,x.child,noHash⟩)]) := by
  have sorted : Sorted (L ++ [((⊤ : NodeId),(⟨⟨[]⟩,x.child,noHash⟩ : Entry Node))]) := by
    refine OrderedMap.sortedAppend.mpr ⟨(OrderedMap.sortedAppend.mp level.sorted).1,by simp [Sorted],
      fun p mem q last => ?_⟩
    rw [List.mem_singleton.mp last]
    exact lt_top_iff_ne_top.mpr (realBefore level.sorted p mem)
  cases d with
  | zero =>
    refine ⟨sorted,List.forall_mem_append.mpr ⟨fun p mem => level.bare p (List.mem_append_left _ mem),?_⟩⟩
    simpa using (level.bare ((κ : NodeId),x) (by simp)).1
  | succ d =>
    refine ⟨sorted,⟨L,_,rfl⟩,List.forall_mem_append.mpr ⟨fun p mem => level.2.2 p (List.mem_append_left _ mem),?_⟩⟩
    simpa using level.2.2 ((κ : NodeId),x) (by simp)

theorem levelRight {m d : Nat} {L R : Entries} {κ : Key} {x : Entry Node} (more : R ≠ [])
    (level : Level m d (L ++ ((κ : NodeId),x) :: R)) : Level m d R := by
  have sorted := (OrderedMap.sortedCons.mp (OrderedMap.sortedAppend.mp level.sorted).2.1).2
  have inside : ∀ p ∈ R, p ∈ L ++ ((κ : NodeId),x) :: R := fun p mem => by simp [mem]
  cases d with
  | zero => exact ⟨sorted,fun p mem => level.bare p (inside p mem)⟩
  | succ d =>
    refine ⟨sorted,?_,fun p mem => level.2.2 p (inside p mem)⟩
    obtain ⟨a,f,same⟩ := level.inf
    obtain ⟨b,q,rfl⟩ := R.eq_nil_or_concat'.resolve_left more
    rw [show L ++ ((κ : NodeId),x) :: (b ++ [q]) = (L ++ ((κ : NodeId),x) :: b) ++ [q] by simp] at same
    cases (List.append_inj' same rfl).2
    exact ⟨b,f,rfl⟩

theorem sizeRight {L R : Entries} {κ : Key} {x : Entry Node} (sorted : Sorted (L ++ ((κ : NodeId),x) :: R)) :
    size (L ++ ((κ : NodeId),x) :: R) = L.length + 1 + size R := by
  have right := (OrderedMap.sortedCons.mp (OrderedMap.sortedAppend.mp sorted).2.1).2
  have left : L.countP (fun p => decide (p.1 ≠ ⊤)) = L.length :=
    List.countP_eq_length.mpr fun p mem => by simpa using realBefore sorted p mem
  rw [sizeCount sorted,sizeCount right,List.countP_append,List.countP_cons,left]
  simp
  omega

theorem sizeHalf {m : Nat} (two : 2 ≤ m) {L R : Entries} {κ : Key} {x : Entry Node}
    (sorted : Sorted (L ++ ((κ : NodeId),x) :: R)) (full : size (L ++ ((κ : NodeId),x) :: R) = m + 1)
    (mid : L.length = (m + 1) / 2) : m / 2 ≤ size R ∧ size R ≤ m ∧ R ≠ [] := by
  have whole := sizeRight sorted
  refine ⟨by omega,by omega,?_⟩
  rintro rfl
  rw [show size ([] : Entries) = 0 from rfl] at whole
  omega

theorem levelParts {m d : Nat} (two : 2 ≤ m) {L R : Entries} {κ : Key} {x : Entry Node}
    (level : Level m d (L ++ ((κ : NodeId),x) :: R)) (full : size (L ++ ((κ : NodeId),x) :: R) = m + 1)
    (mid : L.length = (m + 1) / 2) :
    (∃ c : Node, (upper L x).child = some c ∧ Level m d c.entries ∧ m / 2 ≤ c.size ∧ c.size ≤ m) ∧
      Level m d R ∧ m / 2 ≤ size R ∧ size R ≤ m := by
  have right := sizeHalf two level.sorted full mid
  refine ⟨⟨_,rfl,levelLeft level,?_,?_⟩,levelRight right.2.2 level,right.1,right.2.1⟩ <;>
    simp only [Node.size,Node.entries,sizeInf] <;> omega

theorem overfull {m : Nat} (two : 2 ≤ m) {es : Entries} (sorted : Sorted es) (large : ¬ size es ≤ m)
    (most : size es ≤ m + 1) : ∃ (L : Entries) (κ : Key) (x : Entry Node) (R : Entries),
      es = L ++ ((κ : NodeId),x) :: R ∧ size es = m + 1 ∧ L.length = (m + 1) / 2 ∧
      m / 2 ≤ size R ∧ size R ≤ m ∧ R ≠ [] := by
  have full : size es = m + 1 := by omega
  obtain ⟨L,κ,x,R,rfl,mid⟩ := middle sorted (n := (m + 1) / 2) (by omega)
  exact ⟨L,κ,x,R,rfl,full,mid,sizeHalf two sorted full mid⟩

theorem grownLevel (two : 2 ≤ cfg.maxNodeSize) {d : Nat} {es es' : Entries} {ps : List Pause}
    (grown : Grown cfg key value d es ps es') (good : GoodAt cfg.maxNodeSize d es) :
    Level cfg.maxNodeSize d es' ∧ size es ≤ size es' ∧ size es' ≤ cfg.maxNodeSize + 1 := by
  induction grown with
  | @leaf es bare =>
    have sorted : Sorted es := good.level.sorted
    have fits := good.fits
    have count : size (OrderedMap.insert (key : NodeId) ⟨value,none,noHash⟩ es) = size es ∨
        size (OrderedMap.insert (key : NodeId) ⟨value,none,noHash⟩ es) = size es + 1 := by
      rcases OrderedMap.cases (key : NodeId) es sorted with ⟨a,e,b,rfl,less,_⟩ | ⟨a,b,rfl,less,greater⟩
      · rw [OrderedMap.insertHit less]
        exact .inl rfl
      · exact .inr (sizeNew sorted less greater _)
    refine ⟨⟨OrderedMap.insertSorted _ _ sorted,fun p mem => ?_⟩,by omega,by omega⟩
    rcases OrderedMap.memInsert mem with rfl | old
    · exact ⟨rfl,rfl⟩
    · exact bare p old
  | @hit d pre post e less =>
    have level := good.level
    have sorted := level.sorted
    have fits := good.fits
    exact ⟨levelReplace level (level.2.2 ((key : NodeId),e) (by simp)),(sizeReplace sorted).ge,
      (sizeReplace sorted).le.trans (by omega)⟩
  | @pass d pre post c es' i e ps cut other child below fits' ih =>
    have level := good.level
    have sorted := level.sorted
    have fits := good.fits
    have least := (level.child (p := (i,e)) (by simp) child).2.1
    have grownChild := ih (good.child child)
    exact ⟨levelReplace level ⟨⟨es'⟩,rfl,grownChild.1,least.trans grownChild.2.1,fits'⟩,(sizeReplace sorted).ge,
      (sizeReplace sorted).le.trans (by omega)⟩
  | @absorb d pre post c L R i e x κ ps cut other child below full mid ih =>
    have level := good.level
    have sorted := level.sorted
    have fits := good.fits
    obtain ⟨large,_,_⟩ := ih (good.child child)
    have between := grownBetween good.tree cut other child below middleKey
    have grownSorted' : Sorted (pre ++ ((κ : NodeId),upper L x) :: (i,refill e R) :: post) := by
      have parts := OrderedMap.sortedAppend.mp (OrderedMap.sortedReplace (w := refill e R) sorted)
      have tail := OrderedMap.sortedCons.mp parts.2.1
      refine OrderedMap.sortedAppend.mpr ⟨parts.1,OrderedMap.sortedCons.mpr ⟨?_,parts.2.1⟩,?_⟩
      · exact List.forall_mem_cons.mpr ⟨between.2,fun q mem => between.2.trans (tail.1 q mem)⟩
      · exact fun p mem => List.forall_mem_cons.mpr ⟨between.1 p mem,parts.2.2 p mem⟩
    have count := sizeAbsorb grownSorted' sorted
    have parts := levelParts two large full mid
    refine ⟨⟨grownSorted',endsInInfGrow (endsInInfReplace level.inf),fun p mem => ?_⟩,by omega,by omega⟩
    rcases OrderedMap.memReplace (i,refill e R) mem with rfl | mem
    · exact parts.1
    · simp only [List.mem_append,List.mem_cons,or_self_left] at mem
      rcases mem with h | rfl | h
      · exact level.2.2 p (by simp [h])
      · exact ⟨⟨R⟩,rfl,parts.2⟩
      · exact level.2.2 p (by simp [h])

theorem lowerBoundInner {es : Entries} (inf : EndsInInf es) (key : Key) :
    ∃ pre i e post, es.findOrCreateLowerBound key = (pre,(i,e),post) ∧ es = pre ++ (i,e) ::
    post ∧ CutAt key pre i := by
  have whole := OrderedMap.cut (key : NodeId) es
  cases at_ : OrderedMap.lowerBound (key : NodeId) es with
  | nil =>
    obtain ⟨a,f,rfl⟩ := inf
    rw [at_,List.append_nil] at whole
    have mem : ((⊤ : NodeId),f) ∈ OrderedMap.before (key : NodeId) (a ++ [(⊤,f)]) := by rw [whole]; simp
    exact absurd (OrderedMap.beforeLess mem) not_top_lt
  | cons p post =>
    obtain ⟨i,e⟩ := p
    obtain ⟨same,cut⟩ := cutOf at_
    exact ⟨_,i,e,post,by simp only [findOrCreateLowerBound,at_],same,cut⟩

theorem levelInner {m d : Nat} {es : Entries} (level : Level m (d + 1) es) : es.isLeaf = false := by
  obtain ⟨a,f,rfl⟩ := level.inf
  obtain ⟨c,child,_⟩ := level.2.2 (⊤,f) (by simp)
  have there : f.child = some c := child
  simp [Entries.isLeaf,there]

theorem insertLeaf {es : Entries} (leaf : es.isLeaf = true) :
    insert cfg key value ⟨es⟩ = some (split cfg [] (OrderedMap.insert (key : NodeId) ⟨value,none,noHash⟩ es)) := by
  rw [Node.insert,dif_neg (by simp [leaf])]

theorem insertHit {pre post : Entries} {e : Entry Node} {es : Entries} (inner : es.isLeaf = false)
    (at_ : es.findOrCreateLowerBound key = (pre,((key : NodeId),e),post)) :
    insert cfg key value ⟨es⟩ = some ⟨[],⟨pre ++ ((key : NodeId),{ e with value := value }) :: post⟩,none⟩ := by
  rw [Node.insert,dif_pos inner]
  split
  rename_i pre' i' e' post' at'
  cases at'.symm.trans at_
  rw [if_pos rfl]

theorem insertDown {pre post : Entries} {i : NodeId} {e : Entry Node} {es : Entries} {c : Inserted}
    (inner : es.isLeaf = false) (at_ : es.findOrCreateLowerBound key = (pre,(i,e),post)) (other : i ≠ key)
    (below : insert cfg key value (e.child.getD ⟨[]⟩) = some c) :
    insert cfg key value ⟨es⟩ =
      (match c.ret with
      | none => some (pre ++ (i,{ e with child := some c.node, childHash := noHash }) :: post)
      | some n => insertNode n (pre ++ (i,{ e with child := some c.node, childHash := noHash }) :: post)).map
        (split cfg (c.pauses.map (Pause.inside pre i e post) ++ tryRemove cfg e.childHash
          ⟨pre ++ (i,{ e with child := some c.node, childHash := noHash }) :: post⟩ c.ret)) := by
  obtain ⟨pauses,node,ret⟩ := c
  rw [Node.insert,dif_pos inner]
  split
  rename_i pre' i' e' post' at'
  cases at'.symm.trans at_
  rw [if_neg other]
  simp only [below]
  cases ret <;> rfl

theorem insertPass {pre post es' : Entries} {i : NodeId} {e : Entry Node} {es : Entries} {ps : List Pause}
    (inner : es.isLeaf = false) (at_ : es.findOrCreateLowerBound key = (pre,(i,e),post)) (other : i ≠ key)
    (below : insert cfg key value (e.child.getD ⟨[]⟩) = some (split cfg ps es'))
    (small : size es' ≤ cfg.maxNodeSize) :
    insert cfg key value ⟨es⟩ = some (split cfg (ps.map (Pause.inside pre i e post) ++
      tryRemove cfg e.childHash ⟨pre ++ (i,refill e es') :: post⟩ none) (pre ++ (i,refill e es') :: post)) := by
  have down := insertDown inner at_ other below
  rw [splitSmall small] at down
  exact down

theorem insertAbsorb {pre post L R : Entries} {i : NodeId} {e x : Entry Node} {κ : Key} {es : Entries}
    {ps : List Pause}
    (inner : es.isLeaf = false) (at_ : es.findOrCreateLowerBound key = (pre,(i,e),post)) (other : i ≠ key)
    (below : insert cfg key value (e.child.getD ⟨[]⟩) = some (split cfg ps (L ++ ((κ : NodeId),x) :: R)))
    (sorted : Sorted (L ++ ((κ : NodeId),x) :: R)) (full : size (L ++ ((κ : NodeId),x) :: R) = cfg.maxNodeSize + 1)
    (mid : L.length = (cfg.maxNodeSize + 1) / 2) (more : R ≠ []) (less : ∀ p ∈ pre, p.1 < κ)
    (greater : (κ : NodeId) < i) : insert cfg key value ⟨es⟩ = some (split cfg
      ((ps ++ tryRemove cfg x.childHash ⟨((κ : NodeId),upper L x) :: R⟩ none).map (Pause.inside pre i e post) ++
        tryRemove cfg e.childHash ⟨pre ++ (i,refill e []) :: post⟩ (some (halves L κ x R)))
      (pre ++ ((κ : NodeId),upper L x) :: (i,refill e R) :: post)) := by
  have down := insertDown inner at_ other below
  have right := (OrderedMap.sortedCons.mp (OrderedMap.sortedAppend.mp sorted).2.1).2
  rw [splitLarge sorted (by omega) (by rw [full,mid]) more] at down
  simp only [insertNodeBetween less greater right,Option.map_some] at down
  exact down

theorem insertGrows (key : Key) (value : Value) (two : 2 ≤ cfg.maxNodeSize) {d : Nat} {es : Entries}
    (good : GoodAt cfg.maxNodeSize d es) :
    ∃ ps es', Grown cfg key value d es ps es' ∧ insert cfg key value ⟨es⟩ = some (split cfg ps es') := by
  induction d generalizing es with
  | zero => exact ⟨_,_,.leaf good.level.bare,insertLeaf (bareLeaf good.level.bare)⟩
  | succ d ih =>
    have level := good.level
    have inner := levelInner level
    obtain ⟨pre,i,e,post,at_,rfl,cut⟩ := lowerBoundInner level.inf key
    by_cases same : i = key
    · subst same
      have grown : Grown cfg key value (d + 1) (pre ++ ((key : NodeId),e) :: post) []
          (pre ++ ((key : NodeId),{ e with value := value }) :: post) := .hit cut.less
      refine ⟨_,_,grown,?_⟩
      rw [insertHit inner at_,splitSmall ((sizeReplace level.sorted).le.trans good.fits)]
    · obtain ⟨⟨c⟩,child,_⟩ := level.2.2 (i,e) (by simp)
      have goodChild := good.child child
      obtain ⟨ps,es',below,result⟩ := ih goodChild
      have there : insert cfg key value (e.child.getD ⟨[]⟩) = some (split cfg ps es') := by
        rw [show e.child = some ⟨c⟩ from child]
        exact result
      obtain ⟨levelBelow,_,most⟩ := grownLevel two below goodChild
      by_cases small : size es' ≤ cfg.maxNodeSize
      · exact ⟨_,_,.pass cut same child below small,insertPass inner at_ same there small⟩
      · obtain ⟨L,κ,x,R,rfl,full,mid,_,_,more⟩ := overfull two levelBelow.sorted small most
        have between := grownBetween good.tree cut same child below middleKey
        exact ⟨_,_,.absorb cut same child below full mid,
          insertAbsorb inner at_ same there levelBelow.sorted full mid more between.1 between.2⟩

end shape
end IpfsCache
