import IpfsCache.Ready

/-! Node::insert on a part of a tree in which all it relies on has been read: it makes the
requests it would make on the whole tree, and leaves a part of what that would leave. -/
namespace IpfsCache
open OrderedMap (Sorted)
open Node Entries

structure Mirrored (m d k : Nat) (key : Key) (P T' P' : Entries) (ps ps' : List Pause) : Prop where
  view : View NoneWaits P' T'
  requests : ps'.map Pause.hash = ps.map Pause.hash
  uniform : Uniform k P'
  overflow : size T' = m + 1 → overflows m key ⟨P⟩ = true
  middle : size T' = m + 1 → d = 0 ∨ middleRead m P' = true

theorem tryRemoveRequests (cfg : Config) (hash : Hash) (t t' : Node) (held held' : Option Node) :
    (tryRemove cfg hash t held).map Pause.hash = (tryRemove cfg hash t' held').map Pause.hash := by
  unfold tryRemove
  split
  · rfl
  · split <;> rfl

theorem insideRequests (pre post : Entries) (i : NodeId) (e : Entry Node) (ps : List Pause) :
    (ps.map (Pause.inside pre i e post)).map Pause.hash = ps.map Pause.hash := by
  rw [List.map_map]
  rfl

section insert
variable {cfg : Config} {m : Nat} {key : Key} {P T : Entries}

theorem leafViews (key : Key) (value : Value) (sorted : Sorted T) (view : View NoneWaits P T) :
    View NoneWaits (OrderedMap.insert (key : NodeId) ⟨value,none,noHash⟩ P)
    (OrderedMap.insert (key : NodeId) ⟨value,none,noHash⟩ T) := by
  have below {P₁ a : Entries} (left : View NoneWaits P₁ a) (less : ∀ t ∈ a, t.1 < (key : NodeId)) : ∀ p ∈ P₁,
      p.1 < (key : NodeId) := by
    intro p mem
    obtain ⟨t,inside,same⟩ := left.keys p mem
    exact same ▸ less t inside
  rcases OrderedMap.cases (key : NodeId) T sorted with ⟨a,e,b,rfl,less,_⟩ | ⟨a,b,rfl,less,greater⟩
  · obtain ⟨P₁,P₂,rfl,left,right⟩ := view.split (realBefore sorted)
    rcases right.head with ⟨f,P',rfl,_⟩ | ⟨_,top,_⟩
    · rwa [OrderedMap.insertHit less,OrderedMap.insertHit (below left less)]
    · exact absurd top WithTop.coe_ne_top
  · have real : ∀ t ∈ a, t.1 ≠ ⊤ := fun t mem => (less t mem).ne_top
    obtain ⟨P₁,P₂,rfl,left,right⟩ := view.split real
    have after : ∀ p ∈ P₂, (key : NodeId) < p.1 := by
      intro p mem
      obtain ⟨t,inside,same⟩ := right.keys p mem
      exact same ▸ greater t inside
    rw [OrderedMap.insertMiss less (OrderedMap.headOfAll greater),
      OrderedMap.insertMiss (below left less) (OrderedMap.headOfAll after)]
    exact .append real left (.bare (fun _ => rfl) (fun _ => id) right)

theorem leafOverflows (value : Value) (sorted : Sorted T) (bare : Bare T) (fits : size T ≤ m)
    (view : View NoneWaits P T)
    (full : size (OrderedMap.insert (key : NodeId) (⟨value,none,noHash⟩ : Entry Node) T) = m + 1) :
    overflows m key ⟨P⟩ = true := by
  rcases OrderedMap.cases (key : NodeId) T sorted with ⟨a,e,b,rfl,less,_⟩ | ⟨a,b,rfl,less,greater⟩
  · rw [OrderedMap.insertHit less] at full
    omega
  · have grown := OrderedMap.insertSorted (key : NodeId) (⟨value,none,noHash⟩ : Entry Node) sorted
    have count : size (OrderedMap.insert (key : NodeId) (⟨value,none,noHash⟩ : Entry Node) (a ++ b)) = size
        (a ++ b) + 1 := by
      rw [sizeCount grown,sizeCount sorted,OrderedMap.insertMiss less (OrderedMap.headOfAll greater)]
      simp only [List.countP_append,List.countP_cons]
      simp
      omega
    have missing : (key : NodeId) ∉ OrderedMap.keys P := by
      intro mem
      obtain ⟨t,inside,same⟩ := List.mem_map.mp (view.sublist.subset mem)
      rcases List.mem_append.mp inside with h | h
      · exact (less t h).ne same
      · exact (greater t h).ne' same
    rw [overflowsBare (fun p mem => (view.allBare bare p mem).1) missing,decide_eq_true_eq,view.sameSize sorted]
    omega

structure Parts (m k : Nat) (L : Entries) (κ : Key) (x : Entry Node) (R P' LP : Entries) (y : Entry Node)
    (RP : Entries) : Prop where
  whole : P' = LP ++ ((κ : NodeId),y) :: RP
  left : View NoneWaits LP L
  mid : EntrySeen NoneWaits κ y x
  right : View NoneWaits RP R
  sorted : Sorted (LP ++ ((κ : NodeId),y) :: RP)
  full : size (LP ++ ((κ : NodeId),y) :: RP) = m + 1
  middle : LP.length = (m + 1) / 2
  more : RP ≠ []
  read : y.child = none → y.childHash.isEmpty = true
  lower : Uniform k (LP ++ [(⊤,⟨⟨[]⟩,y.child,noHash⟩)])
  higher : Uniform k RP

theorem Mirrored.parts (two : 2 ≤ m) {d k : Nat} {L R P' : Entries} {κ : Key} {x : Entry Node} {ps ps' : List Pause}
    (mirrored : Mirrored m d k key P (L ++ ((κ : NodeId),x) :: R) P' ps ps')
    (level : Level m d (L ++ ((κ : NodeId),x) :: R))
    (full : size (L ++ ((κ : NodeId),x) :: R) = m + 1) (mid : L.length = (m + 1) / 2) :
    ∃ LP y RP, Parts m k L κ x R P' LP y RP := by
  have sorted := level.sorted
  obtain ⟨LP,rest,rfl,left,right⟩ := mirrored.view.split (realBefore sorted)
  rcases right.head with ⟨y,RP,rfl,entry,right⟩ | ⟨_,top,_⟩
  · have view := mirrored.view
    have full' : size (LP ++ ((κ : NodeId),y) :: RP) = m + 1 := (view.sameSize sorted).trans full
    have mid' : LP.length = (m + 1) / 2 := (left.length (realBefore sorted)).trans mid
    have sorted' := view.sorted sorted
    have read : (y.child = none → y.childHash.isEmpty = true) ∧
        ((∀ p ∈ LP ++ ((κ : NodeId),y) :: RP, p.2.child = none) ∨
          (y.child.isSome ∧ ∃ p ∈ RP, p.2.child.isSome)) := by
      rcases mirrored.middle full with rfl | read
      · have bare := view.allBare level.bare
        exact ⟨fun _ => by rw [(bare (κ,y) (by simp)).2]; rfl,.inl fun p mem => (bare p mem).1⟩
      · obtain ⟨here,behind⟩ := middleReadAt read mid'
        cases d with
        | zero =>
          have bare := view.allBare level.bare
          exact ⟨here,.inl fun p mem => (bare p mem).1⟩
        | succ d =>
          obtain ⟨c,child,_⟩ := level.2.2 (κ,x) (by simp)
          refine ⟨here,.inr ⟨?_,behind⟩⟩
          cases null : y.child with
          | some => rfl
          | none =>
            have proper := entry.proper c child null
            rw [← entry.hash,here null] at proper
            cases proper
    obtain ⟨lower,higher⟩ := uniformHalves mirrored.uniform read.2
    exact ⟨LP,y,RP,rfl,left,entry,right,sorted',full',mid',(sizeHalf two sorted' full' mid').2.2,read.1,
      lower,higher⟩
  · exact absurd top WithTop.coe_ne_top

theorem innerBy {es : Entries} {p : NodeId × Entry Node} (mem : p ∈ es) (some_ : p.2.child.isSome) :
    es.isLeaf = false := by
  rw [Entries.isLeaf,List.all_eq_false]
  exact ⟨p,mem,by simpa [Option.isSome_iff_ne_none] using some_⟩

theorem refillSeen {i : NodeId} {e f : Entry Node} {p c : Entries} (entry : EntrySeen NoneWaits i f e)
    (view : View NoneWaits p c) : EntrySeen NoneWaits i (refill f p) (refill e c) :=
  ⟨rfl,entry.value,fun none_ => (by cases none_),fun d same => (by cases same; exact .read id view),
    fun _ _ none_ => by cases none_⟩

structure Place (m d k : Nat) (key : Key) (pre post P₁ P₂ : Entries) (i : NodeId) (e f : Entry Node)
    (c p : Entries) : Prop where
  level : Level m (d + 1) (pre ++ (i,e) :: post)
  fits : size (pre ++ (i,e) :: post) ≤ m
  left : View NoneWaits P₁ pre
  entry : EntrySeen NoneWaits i f e
  right : View NoneWaits P₂ post
  other : i ≠ key
  at_ : OrderedMap.lowerBound (key : NodeId) (P₁ ++ (i,f) :: P₂) = (i,f) :: P₂
  before_ : OrderedMap.before (key : NodeId) (P₁ ++ (i,f) :: P₂) = P₁
  child : e.child = some ⟨c⟩
  child' : f.child = some ⟨p⟩
  uniform : Uniform (k + 1) (P₁ ++ (i,f) :: P₂)

section step
variable {d k : Nat} {pre post P₁ P₂ c p : Entries} {i : NodeId} {e f : Entry Node} {ps ps' : List Pause}

theorem Place.view (place : Place m d k key pre post P₁ P₂ i e f c p) :
    View NoneWaits (P₁ ++ (i,f) :: P₂) (pre ++ (i,e) :: post) :=
  .append (realBefore place.level.sorted) place.left (.cons place.entry place.right)

theorem Place.pass {c' p' : Entries} (place : Place m d k key pre post P₁ P₂ i e f c p) (t t' : Node)
    (held held' : Option Node) (below : Mirrored m d k key p c' p' ps ps') :
    Mirrored m (d + 1) (k + 1) key (P₁ ++ (i,f) :: P₂) (pre ++ (i,refill e c') :: post)
    (P₁ ++ (i,refill f p') :: P₂) (ps.map (Pause.inside pre i e post) ++ tryRemove cfg e.childHash t held)
      (ps'.map (Pause.inside P₁ i f P₂) ++ tryRemove cfg f.childHash t' held') := by
  have sorted := place.level.sorted
  have large : size (pre ++ (i,refill e c') :: post) ≤ m := (sizeReplace sorted).le.trans place.fits
  refine ⟨.append (realBefore sorted) place.left (.cons (refillSeen place.entry below.view) place.right),?_,?_,
    by omega,by omega⟩
  · rw [List.map_append,List.map_append,insideRequests,insideRequests,below.requests,place.entry.hash,
      tryRemoveRequests cfg e.childHash t' t held' held]
  · refine uniformUp [(i,refill f p')] place.uniform ⟨(i,refill f p'),by simp,rfl⟩ fun q mem c child => ?_
    cases List.mem_singleton.mp mem
    cases child
    exact below.uniform

theorem Place.absorb {L R LP RP p' : Entries} {κ : Key} {x y : Entry Node}
    (place : Place m d k key pre post P₁ P₂ i e f c p)
    (ready_ : ready m key ⟨P₁ ++ (i,f) :: P₂⟩ = true) (sorted' : Sorted (L ++ ((κ : NodeId),x) :: R))
    (grown : Sorted (pre ++ ((κ : NodeId),upper L x) :: (i,refill e R) :: post))
    (full : size (L ++ ((κ : NodeId),x) :: R) = m + 1)
    (t t' h h' : Node) (held held' : Option Node)
    (below : Mirrored m d k key p (L ++ ((κ : NodeId),x) :: R) p' ps ps')
    (parts : Parts m k L κ x R p' LP y RP) :
    Mirrored m (d + 1) (k + 1) key (P₁ ++ (i,f) :: P₂) (pre ++ ((κ : NodeId),upper L x) :: (i,refill e R) :: post)
      (P₁ ++ ((κ : NodeId),upper LP y) :: (i,refill f RP) :: P₂)
      ((ps ++ tryRemove cfg x.childHash h none).map (Pause.inside pre i e post) ++ tryRemove cfg e.childHash t held)
      ((ps' ++ tryRemove cfg y.childHash h' none).map (Pause.inside P₁ i f P₂) ++
      tryRemove cfg f.childHash t' held') := by
  have sorted := place.level.sorted
  have size_ : size (pre ++ ((κ : NodeId),upper L x) :: (i,refill e R) :: post) = size
      (pre ++ (i,e) :: post) + 1 := by
    rw [sizeCount grown,sizeCount sorted]
    simp only [List.countP_append,List.countP_cons]
    simp
    omega
  have filled (large : size (pre ++ ((κ : NodeId),upper L x) :: (i,refill e R) :: post) = m + 1) :
      overflows m key ⟨p⟩ = true ∧ m ≤ size (P₁ ++ (i,f) :: P₂) :=
    ⟨below.overflow full,by rw [place.view.sameSize sorted]; omega⟩
  refine ⟨.append (realBefore sorted) place.left
    (.cons (View.halves (realBefore sorted') parts.left parts.mid parts.read parts.right).1
    (.cons (refillSeen place.entry parts.right) place.right)),?_,?_,fun large => ?_,fun large => .inr ?_⟩
  · simp only [List.map_append,insideRequests,below.requests,place.entry.hash,parts.mid.hash]
    rw [tryRemoveRequests cfg e.childHash t' t held' held,tryRemoveRequests cfg x.childHash h' h none none]
  · refine uniformUp [((κ : NodeId),upper LP y),(i,refill f RP)] place.uniform ⟨(i,refill f RP),by simp,
      rfl⟩ fun q mem c child => ?_
    simp only [List.mem_cons,List.not_mem_nil,or_false] at mem
    rcases mem with rfl | rfl <;> cases child
    · exact parts.lower
    · exact parts.higher
  · rw [overflowsDown place.at_ place.other place.child',(filled large).1,decide_eq_true (filled large).2]
    rfl
  · rw [readyDown place.at_ place.other place.child',(filled large).1,decide_eq_true (filled large).2,
      place.before_,Bool.and_eq_true] at ready_
    have flags : (P₁ ++ (i,f) :: (i,f) :: P₂).map readFlags =
        (P₁ ++ ((κ : NodeId),upper LP y) :: (i,refill f RP) :: P₂).map readFlags := by
      simp [readFlags,Entry.unread,upper,refill,place.child']
    rw [← middleReadFlags m flags]
    simpa using ready_.2

end step

theorem hitViews (value : Value) {d k : Nat} {pre post P₁ P₂ : Entries} {e f : Entry Node}
    (good : GoodAt cfg.maxNodeSize (d + 1) (pre ++ ((key : NodeId),e) :: post)) (cut : CutAt key pre key)
    (whole : findOrCreateLowerBound key (pre ++ ((key : NodeId),e) :: post) = (pre,((key : NodeId),e),post))
    (left : View NoneWaits P₁ pre) (entry : EntrySeen NoneWaits key f e) (right : View NoneWaits P₂ post)
    (at_ : OrderedMap.lowerBound (key : NodeId) (P₁ ++ ((key : NodeId),f) :: P₂) = ((key : NodeId),f) :: P₂)
    (before_ : OrderedMap.before (key : NodeId) (P₁ ++ ((key : NodeId),f) :: P₂) = P₁)
    (uniform : Uniform k (P₁ ++ ((key : NodeId),f) :: P₂)) :
    ∃ w T' P', (w = value ∨ OrderedMap.find key (flatten ⟨pre ++ ((key : NodeId),e) :: post⟩) = some w) ∧
      Grown cfg key w (d + 1) (pre ++ ((key : NodeId),e) :: post) [] T' ∧
      insert cfg key w ⟨pre ++ ((key : NodeId),e) :: post⟩ = some (split cfg [] T') ∧
      insert cfg key value ⟨P₁ ++ ((key : NodeId),f) :: P₂⟩ = some (split cfg [] P') ∧
      Mirrored cfg.maxNodeSize (d + 1) k key (P₁ ++ ((key : NodeId),f) :: P₂) T' P' [] [] := by
  have sorted := good.level.sorted
  have size_ (w : Value) : size (pre ++ ((key : NodeId),{ e with value := w }) :: post) ≤ cfg.maxNodeSize :=
    (sizeReplace sorted).le.trans good.fits
  have seen (w : Value) : EntrySeen NoneWaits key { f with value := w } { e with value := w } :=
    ⟨entry.hash,fun _ => rfl,entry.bare,entry.child,entry.proper⟩
  have view (w : Value) : View NoneWaits (P₁ ++ ((key : NodeId),{ f with value := w }) :: P₂)
      (pre ++ ((key : NodeId),{ e with value := w }) :: post) :=
        .append (realBefore sorted) left (.cons (seen w) right)
  have mirrored (w : Value) : Mirrored cfg.maxNodeSize (d + 1) k key (P₁ ++ ((key : NodeId),f) :: P₂)
      (pre ++ ((key : NodeId),{ e with value := w }) :: post)
        (P₁ ++ ((key : NodeId),{ f with value := w }) :: P₂) [] [] := by
    have large := size_ w
    exact ⟨view w,rfl,uniformCongr (by simp) uniform,by omega,by omega⟩
  have run (w : Value) : insert cfg key w ⟨pre ++ ((key : NodeId),e) :: post⟩ =
      some (split cfg [] (pre ++ ((key : NodeId),{ e with value := w }) :: post)) := by
    rw [insertHit (levelInner good.level) whole,splitSmall (size_ w)]
  cases leaf : Entries.isLeaf (P₁ ++ ((key : NodeId),f) :: P₂) with
  | true =>
    -- none of the children is in memory: std::map::insert keeps the value that is there
    have less : ∀ p ∈ P₁, p.1 < (key : NodeId) := before_ ▸ fun _ => OrderedMap.beforeLess
    refine ⟨e.value,_,P₁ ++ ((key : NodeId),f) :: P₂,.inr (good.tree.lookupHere cut),.hit cut.less,run _,?_,?_⟩
    · rw [insertLeaf leaf,OrderedMap.insertHit less]
    · have same : f = { f with value := e.value } := by rw [← entry.value WithTop.coe_ne_top]
      have own := mirrored e.value
      rwa [← same] at own
  | false =>
    refine ⟨value,_,_,.inl rfl,.hit cut.less,run value,?_,mirrored value⟩
    have fits' : size (P₁ ++ ((key : NodeId),{ f with value := value }) :: P₂) ≤ cfg.maxNodeSize := by
      have sorted' : Sorted (pre ++ ((key : NodeId),({ e with value := value } : Entry Node)) :: post) :=
          OrderedMap.sortedReplace sorted
      rw [(view value).sameSize sorted']
      exact size_ value
    have bound : findOrCreateLowerBound key (P₁ ++ ((key : NodeId),f) :: P₂) = (P₁,((key : NodeId),f),P₂) := by
      simp only [findOrCreateLowerBound,at_,before_]
    rw [insertHit leaf bound,splitSmall fits']

theorem insertViews (two : 2 ≤ cfg.maxNodeSize) (value : Value) {d : Nat} (good : GoodAt cfg.maxNodeSize d T) :
    ∀ (k : Nat) (P : Entries), View NoneWaits P T → ready cfg.maxNodeSize key ⟨P⟩ = true → Uniform k P →
      ∃ w ps ps' T' P', (w = value ∨ OrderedMap.find key (flatten ⟨T⟩) = some w) ∧ Grown cfg key w d T ps T' ∧
        insert cfg key w ⟨T⟩ = some (split cfg ps T') ∧ insert cfg key value ⟨P⟩ = some (split cfg ps' P') ∧
        Mirrored cfg.maxNodeSize d k key P T' P' ps ps' := by
  induction d generalizing T with
  | zero =>
    intro k P view ready_ uniform
    have level := good.level
    have bare := view.allBare level.bare
    have after := leafViews key value level.sorted view
    have grown : Grown cfg key value 0 T [] _ := .leaf level.bare
    have bare' := after.allBare (grownLevel two grown good).1.bare
    refine ⟨value,[],[],_,_,.inl rfl,grown,insertLeaf (bareLeaf level.bare),insertLeaf (bareLeaf bare),after,rfl,?_,
      leafOverflows value level.sorted level.bare good.fits view,fun _ => .inl rfl⟩
    cases k with
    | zero => exact fun p mem => (bare' p mem).1
    | succ k =>
      obtain ⟨p,mem,some_⟩ := uniform.1
      rw [(bare p mem).1] at some_
      cases some_
  | succ d ih =>
    intro k P view ready_ uniform
    have level := good.level
    have inner := levelInner level
    obtain ⟨pre,i,e,post,whole,rfl,cut⟩ := lowerBoundInner level.inf key
    obtain ⟨⟨c⟩,child,_⟩ := level.2.2 (i,e) (by simp)
    rcases view.cutAt level.sorted cut with ⟨P₁,f,P₂,rfl,before_,at_,left,entry,right⟩ | ⟨_,_,none_⟩
    · by_cases same : i = key
      · subst same
        obtain ⟨w,T',P',found⟩ := hitViews value good cut whole left entry right at_ before_ uniform
        exact ⟨w,[],[],T',P',found⟩
      · have there := entry.child _ child
        cases null : f.child with
        | none =>
          rw [readyNull at_ same null,Entry.unread,null,entry.hash,entry.proper _ child null] at ready_
          cases ready_
        | some p =>
          rw [null] at there
          cases there with
          | waiting held => exact held.elim
          | @read p _ _ viewChild =>
            obtain ⟨k,rfl,uniformChild⟩ := uniformDown uniform null
            have ready' : ready cfg.maxNodeSize key ⟨p⟩ = true := by
              rw [readyDown at_ same null,Bool.and_eq_true] at ready_
              exact ready_.1
            have goodChild := good.child child
            obtain ⟨w,ps,ps',c',p',kept,below,run,run',mirrored⟩ :=
              ih goodChild k p viewChild ready' uniformChild
            have kept' : w = value ∨ OrderedMap.find key (flatten ⟨pre ++ (i,e) :: post⟩) = some w := by
              rw [good.tree.lookupBelow cut same,show e.child = some ⟨c⟩ from child]
              exact kept
            have there : insert cfg key w (e.child.getD ⟨[]⟩) = some (split cfg ps c') := by
              rw [show e.child = some ⟨c⟩ from child]
              exact run
            have there' : insert cfg key value (f.child.getD ⟨[]⟩) = some (split cfg ps' p') := by
              rw [null]
              exact run'
            have inner' : Entries.isLeaf (P₁ ++ (i,f) :: P₂) = false := innerBy (p := (i,f)) (by simp)
                (by simp [null])
            have bound : findOrCreateLowerBound key (P₁ ++ (i,f) :: P₂) = (P₁,(i,f),P₂) := by
              simp only [findOrCreateLowerBound,at_,before_]
            have place : Place cfg.maxNodeSize d k key pre post P₁ P₂ i e f c p :=
              ⟨level,good.fits,left,entry,right,same,at_,before_,child,null,uniform⟩
            obtain ⟨levelBelow,_,most⟩ := grownLevel two below goodChild
            by_cases small : size c' ≤ cfg.maxNodeSize
            · have small' : size p' ≤ cfg.maxNodeSize := (mirrored.view.sameSize levelBelow.sorted).le.trans small
              exact ⟨w,_,_,_,_,kept',.pass cut same child below small,insertPass inner whole same there small,
                insertPass inner' bound same there' small',place.pass _ _ _ _ mirrored⟩
            · obtain ⟨L,κ,x,R,rfl,full,mid,_,_,more⟩ := overfull two levelBelow.sorted small most
              have between := grownBetween good.tree cut same child below middleKey
              have grown : Grown cfg key w (d + 1) (pre ++ (i,e) :: post) _ _ :=
                  .absorb cut same child below full mid
              obtain ⟨LP,y,RP,parts⟩ := mirrored.parts two levelBelow full mid
              have less : ∀ q ∈ P₁, q.1 < (κ : NodeId) := by
                intro q mem
                obtain ⟨t,inside,key_⟩ := left.keys q mem
                exact key_ ▸ between.1 t inside
              rw [parts.whole] at there'
              exact ⟨w,_,_,_,_,kept',grown,
                insertAbsorb inner whole same there levelBelow.sorted full mid more between.1 between.2,
                insertAbsorb inner' bound same there' parts.sorted parts.full parts.middle parts.more less between.2,
                place.absorb ready_ levelBelow.sorted (grownLevel two grown good).1.sorted full _ _ _ _ _ _
                  mirrored parts⟩
    · rw [show e.child = some ⟨c⟩ from child] at none_
      cases none_

def splitTop (cfg : Config) (ps : List Pause) (es : Entries) :
    Node := (split cfg ps es).ret.getD (split cfg ps es).node

theorem Mirrored.split (two : 2 ≤ cfg.maxNodeSize) {d k : Nat} {T' P' : Entries} {ps ps' : List Pause}
    (mirrored : Mirrored cfg.maxNodeSize d k key P T' P' ps ps') (level : Level cfg.maxNodeSize d T')
    (most : size T' ≤ cfg.maxNodeSize + 1) :
    View NoneWaits (splitTop cfg ps' P').entries (splitTop cfg ps T').entries ∧
      (Node.split cfg ps' P').pauses.map Pause.hash = (Node.split cfg ps T').pauses.map Pause.hash ∧
      ∃ k', Uniform k' (splitTop cfg ps' P').entries := by
  by_cases fits : size T' ≤ cfg.maxNodeSize
  · have fits' : size P' ≤ cfg.maxNodeSize := (mirrored.view.sameSize level.sorted).le.trans fits
    rw [splitTop,splitTop,splitSmall fits,splitSmall fits']
    exact ⟨mirrored.view,mirrored.requests,k,mirrored.uniform⟩
  · obtain ⟨L,κ,x,R,rfl,full,mid,_,_,more⟩ := overfull two level.sorted fits most
    obtain ⟨LP,y,RP,parts⟩ := mirrored.parts two level full mid
    have requests := mirrored.requests
    rw [parts.whole,splitTop,splitTop,splitLarge level.sorted (by omega) (by rw [full,mid]) more,
      splitLarge parts.sorted (by rw [parts.full]; omega) (by rw [parts.full,parts.middle]) parts.more]
    refine ⟨(View.halves (realBefore level.sorted) parts.left parts.mid parts.read parts.right).2,?_,k + 1,
      ⟨_,List.mem_cons_self,rfl⟩,?_⟩
    · rw [List.map_append,List.map_append,requests,parts.mid.hash,
        tryRemoveRequests cfg x.childHash ⟨((κ : NodeId),upper LP y) :: RP⟩
          ⟨((κ : NodeId),upper L x) :: R⟩ none none]
    · intro q mem c child
      simp only [halves,entries,Option.getD_some,List.mem_cons,List.not_mem_nil,or_false] at mem
      rcases mem with rfl | rfl <;> cases child
      · exact parts.lower
      · exact parts.higher

theorem rawViews (two : 2 ≤ cfg.maxNodeSize) (value : Value) {root root' : Option Root} {P : Entries}
    (good : Good cfg.maxNodeSize (top root)) (part : top root' = ⟨P⟩) (view : View NoneWaits P (top root).entries)
    (ready_ : ready cfg.maxNodeSize key ⟨P⟩ = true) (checked : checkInvariants cfg.maxNodeSize ⟨P⟩ = true) :
    ∃ w ps ps' n n', (w = value ∨ OrderedMap.find key (top root).flatten = some w) ∧
      BTree.rawInsert cfg key w root = some (ps,⟨some n,topHash root⟩) ∧
      BTree.rawInsert cfg key value root' = some (ps',⟨some n',topHash root'⟩) ∧
      ps'.map Pause.hash = ps.map Pause.hash ∧ View NoneWaits n'.entries n.entries := by
  obtain ⟨T,whole⟩ : ∃ T, top root = ⟨T⟩ := by
    cases top root
    exact ⟨_,rfl⟩
  rw [whole] at good view
  obtain ⟨d,here⟩ := good.depth
  obtain ⟨_,k,uniform⟩ := (checkIff _ _).mp checked
  obtain ⟨w,ps,ps',T',P',kept,grown,run,run',mirrored⟩ :=
    insertViews two value here k P view ready_ uniform
  have inserted := grownInserted two grown here
  obtain ⟨large,_,most⟩ := grownLevel two grown here
  obtain ⟨view',requests,uniform'⟩ := mirrored.split two large most
  rw [← whole] at run kept
  rw [← part] at run'
  have fitting := ((checkIff _ _).mp inserted.good.checks).1
  have checks : (splitTop cfg ps' P').checkInvariants cfg.maxNodeSize = true :=
    (checkIff _ _).mpr ⟨View.fitting fitting _ inserted.good.tree.ordered view',uniform'⟩
  exact ⟨w,_,_,_,_,kept,rawInsertTop run inserted.good.checks,rawInsertTop run' checks,requests,view'⟩

end insert
end IpfsCache
