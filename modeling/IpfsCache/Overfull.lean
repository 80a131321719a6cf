import IpfsCache.Sequential

/-! What Node::split is called on in a run of inserts, and what it delivers there: two
halves with the median between them, if anything lies behind the median. -/
namespace IpfsCache
open OrderedMap (Sorted)
open Node Entries

inductive SplitCalled (cfg : Config) (key : Key) (value : Value) : Node → Entries → Prop
  | leaf {es : Entries} (leaf : es.isLeaf = true) :
      SplitCalled cfg key value ⟨es⟩ (OrderedMap.insert (key : NodeId) ⟨value,none,noHash⟩ es)
  | deeper {es pre post s : Entries} {i : NodeId} {e : Entry Node} (inner : es.isLeaf = false)
      (at_ : es.findOrCreateLowerBound key = (pre,(i,e),post)) (other : i ≠ key)
      (there : SplitCalled cfg key value (e.child.getD ⟨[]⟩) s) : SplitCalled cfg key value ⟨es⟩ s
  | kept {es pre post : Entries} {i : NodeId} {e : Entry Node} {c : Inserted} (inner : es.isLeaf = false)
      (at_ : es.findOrCreateLowerBound key = (pre,(i,e),post)) (other : i ≠ key)
      (back : Node.insert cfg key value (e.child.getD ⟨[]⟩) = some c) (whole : c.ret = none) :
      SplitCalled cfg key value ⟨es⟩ (pre ++ (i,{ e with child := some c.node, childHash := noHash }) :: post)
  | joined {es pre post s : Entries} {i : NodeId} {e : Entry Node} {c : Inserted} {n : Node}
      (inner : es.isLeaf = false) (at_ : es.findOrCreateLowerBound key = (pre,(i,e),post)) (other : i ≠ key)
      (back : Node.insert cfg key value (e.child.getD ⟨[]⟩) = some c) (parted : c.ret = some n)
      (joins : insertNode n (pre ++ (i,{ e with child := some c.node, childHash := noHash }) :: post) = some s) :
      SplitCalled cfg key value ⟨es⟩ s

/-- The node that insert_node expects: the median, with all that was before it and with its
former child as its child, and INF with all that was behind it. Nothing stays where it was. -/
def SplitDelivers (cfg : Config) (es : Entries) : Prop :=
  ∃ (L R : Entries) (κ : Key) (x : Entry Node), es = L ++ ((κ : NodeId),x) :: R ∧ L.length = es.size / 2 ∧
    (∀ p ∈ L, p.1 < (κ : NodeId)) ∧ (∀ p ∈ R, (κ : NodeId) < p.1) ∧
    ∀ ps, (split cfg ps es).node = ⟨[]⟩ ∧ (split cfg ps es).ret = some (halves L κ x R)

theorem splitLoopLast (cfg : Config) (left L : Entries) (κ : Key) (x : Entry Node)
    (sorted : Sorted (left ++ L ++ [((κ : NodeId),x)])) :
    (splitLoop cfg L.length true left [] (L ++ [((κ : NodeId),x)])).2 = [((κ : NodeId),upper (left ++ L) x)] := by
  induction L generalizing left with
  | nil =>
    have real : ∀ p ∈ left, p.1 ≠ ⊤ := realBefore (by simpa using sorted)
    simp only [List.length_nil,List.nil_append,splitLoop,infEntryNew real,List.append_nil]
    rfl
  | cons p L ih =>
    obtain ⟨i,e⟩ := p
    have less : ∀ q ∈ left, q.1 < i := fun q mem => by
      rw [List.append_assoc] at sorted
      exact (OrderedMap.sortedAppend.mp sorted).2.2 q mem (i,e) (by simp)
    have last := OrderedMap.insertMiss (v := e) (b := []) less (by simp)
    rw [List.append_nil] at last
    have next := ih (left ++ [(i,e)]) (by simpa using sorted)
    simp only [List.length_cons,List.cons_append,splitLoop,last]
    rw [next]
    simp

theorem deliversIff {cfg : Config} {L R : Entries} {κ : Key} {x : Entry Node}
    (sorted : Sorted (L ++ ((κ : NodeId),x) :: R))
    (large : cfg.maxNodeSize < (L ++ ((κ : NodeId),x) :: R : Entries).size)
    (mid : L.length = (L ++ ((κ : NodeId),x) :: R : Entries).size / 2) :
    SplitDelivers cfg (L ++ ((κ : NodeId),x) :: R) ↔ R ≠ [] := by
  constructor
  · rintro ⟨L',R',κ',x',_,_,_,_,delivers⟩ rfl
    have ret := (delivers []).2
    rw [split,if_neg (not_le.mpr large),← mid] at ret
    have one := splitLoopLast cfg [] L κ x (by simpa using sorted)
    dsimp only at ret
    rw [one] at ret
    have lengths := congrArg (fun n : Option Node => n.map fun n => n.entries.length) ret
    simp [halves,entries] at lengths
  · intro more
    have parts := OrderedMap.sortedAppend.mp sorted
    refine ⟨L,R,κ,x,rfl,mid,fun p mem => parts.2.2 p mem ((κ : NodeId),x) (by simp),
      (OrderedMap.sortedCons.mp parts.2.1).1,fun ps => ?_⟩
    rw [splitLarge sorted large mid more]
    exact ⟨rfl,rfl⟩

section calls
variable {cfg : Config} {key : Key} {value : Value}

theorem levelDown {m d : Nat} {es pre post : Entries} {i : NodeId} {e : Entry Node} (inner : es.isLeaf = false)
    (at_ : es.findOrCreateLowerBound key = (pre,(i,e),post)) (good : GoodAt m d es) :
    ∃ d' c, d = d' + 1 ∧ es = pre ++ (i,e) :: post ∧ CutAt key pre i ∧ e.child = some ⟨c⟩ ∧
      e.child.getD ⟨[]⟩ = ⟨c⟩ ∧ GoodAt m d' c := by
  cases d with
  | zero =>
    have leaf := bareLeaf good.level.bare
    rw [inner] at leaf
    cases leaf
  | succ d =>
    obtain ⟨pre',i',e',post',at',rfl,cut⟩ := lowerBoundInner good.level.inf key
    cases at'.symm.trans at_
    obtain ⟨⟨c⟩,child,_⟩ := good.level.2.2 (i,e) (by simp)
    have there : e.child = some ⟨c⟩ := child
    exact ⟨d,c,rfl,rfl,cut,there,by rw [there]; rfl,good.child there⟩

theorem calledGrown (two : 2 ≤ cfg.maxNodeSize) {n : Node} {s : Entries} (called : SplitCalled cfg key value n s) :
    ∀ {d : Nat} {es : Entries}, n = ⟨es⟩ → GoodAt cfg.maxNodeSize d es →
      ∃ d' es' ps, Grown cfg key value d' es' ps s ∧ GoodAt cfg.maxNodeSize d' es' := by
  induction called with
  | @leaf es leaf =>
    rintro d _ ⟨⟩ good
    cases d with
    | zero => exact ⟨0,es,[],.leaf good.level.bare,good⟩
    | succ d =>
      rw [levelInner good.level] at leaf
      cases leaf
  | @deeper es pre post s i e inner at_ other there ih =>
    rintro d _ ⟨⟩ good
    obtain ⟨d',c,_,_,_,_,given,goodChild⟩ := levelDown inner at_ good
    exact ih given goodChild
  | @kept es pre post i e c inner at_ other back whole =>
    rintro d _ ⟨⟩ good
    obtain ⟨d,es₀,rfl,rfl,cut,child,given,goodChild⟩ := levelDown inner at_ good
    obtain ⟨ps,es',below,result⟩ := insertGrows key value two goodChild
    rw [given] at back
    cases back.symm.trans result
    by_cases small : size es' ≤ cfg.maxNodeSize
    · rw [splitSmall small]
      exact ⟨d + 1,_,_,.pass cut other child below small,good⟩
    · rw [split,if_neg small] at whole
      cases whole
  | @joined es pre post s i e c n inner at_ other back parted joins =>
    rintro d _ ⟨⟩ good
    obtain ⟨d,es₀,rfl,rfl,cut,child,given,goodChild⟩ := levelDown inner at_ good
    obtain ⟨ps,es',below,result⟩ := insertGrows key value two goodChild
    rw [given] at back
    cases back.symm.trans result
    by_cases small : size es' ≤ cfg.maxNodeSize
    · rw [splitSmall small] at parted
      cases parted
    · obtain ⟨levelBelow,_,most⟩ := grownLevel two below goodChild
      obtain ⟨L,κ,x,R,rfl,full,mid,_,_,more⟩ := overfull two levelBelow.sorted small most
      have between := grownBetween good.tree cut other child below middleKey
      have right := (OrderedMap.sortedCons.mp (OrderedMap.sortedAppend.mp levelBelow.sorted).2.1).2
      rw [splitLarge levelBelow.sorted (by omega) (by rw [full,mid]) more] at parted joins
      cases parted
      rw [insertNodeBetween between.1 between.2 right] at joins
      cases joins
      exact ⟨d + 1,_,_,.absorb cut other child below full mid,good⟩

theorem calledDelivers (two : 2 ≤ cfg.maxNodeSize) {n : Node} (good : Good cfg.maxNodeSize n) {s : Entries}
    (called : SplitCalled cfg key value n s) (large : cfg.maxNodeSize < s.size) : SplitDelivers cfg s := by
  obtain ⟨es₀⟩ := n
  obtain ⟨d,here⟩ := good.depth
  obtain ⟨d',es,ps,grown,here'⟩ := calledGrown two called rfl here
  obtain ⟨levelAfter,_,most⟩ := grownLevel two grown here'
  obtain ⟨L,κ,x,R,rfl,full,mid,_,_,more⟩ := overfull two levelAfter.sorted (not_le.mpr large) most
  exact (deliversIff levelAfter.sorted large (by rw [full,mid])).mpr more

end calls

section runs
variable {σ : Type}

def BTree.insertRun (cfg : Config) (S : Storage σ) : List (Key × Value) → BTree → σ → Option (BTree × σ)
  | [],bt,st => some (bt,st)
  | (k,v) :: rest,bt,st =>
    match BTree.insert cfg S k v bt st with
    | none => none
    | some (_,bt,st) => insertRun cfg S rest bt st

/-- At each insert of a sequence: every over-full node that split meets is delivered in two
halves, and no assertion fails, those of insert_node among them. -/
def SplitsDeliver (cfg : Config) (S : Storage σ) (kvs : List (Key × Value)) (st : σ) : Prop :=
  ∀ done key value rest bt st', kvs = done ++ (key,value) :: rest →
    BTree.insertRun cfg S done BTree.fresh st = some (bt,st') →
    (∀ es, SplitCalled cfg key value (top bt.root) es → cfg.maxNodeSize < es.size → SplitDelivers cfg es) ∧
      (BTree.insert cfg S key value bt st').isSome = true

variable {cfg : Config} {S : Storage σ}

theorem insertSettles (S : Storage σ) (st : σ) {bt : BTree} {key : Key} {value : Value} {ps : List Pause} {n : Node}
    (buffer : bt.insertBuffer = []) (flag : bt.isInserting = false)
    (raw : BTree.rawInsert cfg key value bt.root = some (ps,⟨some n,topHash bt.root⟩)) :
    ∃ outcome n' hash st', BTree.insert cfg S key value bt st = some (outcome,settled n' hash,st') ∧ Alike n n' := by
  have step := insertStored S st buffer flag raw
  rcases storeRootCases cfg S n noHash (removed cfg S ps (topHash bt.root) st) with ⟨_,same⟩ | ⟨_,same⟩
  · rw [same] at step
    exact ⟨_,n,noHash,_,step,.refl n⟩
  · have wp : (n.store cfg).Wp (addAnswers S) (fun _ => Alike n) (fun _ => StoreKeeps (addAnswers S) n)
        (removed cfg S ps (topHash bt.root) st) := storeKeeps n _
    have alike := (Program.wpRun S.add (fun _ _ => rfl) _ _ wp).1
    rcases out : (n.store cfg).run S.add (removed cfg S ps (topHash bt.root) st) with ⟨⟨n',outcome⟩,st'⟩
    rw [out] at alike same
    rw [same] at step
    cases outcome <;> exact ⟨_,n',_,st',step,alike⟩

theorem insertRunKeeps (Inv : BTree → Prop) (Fit : Key → Prop)
    (step : ∀ key value bt (st : σ), Fit key → Inv bt →
      ∃ outcome bt' st', BTree.insert cfg S key value bt st = some (outcome,bt',st') ∧ Inv bt')
    (kvs : List (Key × Value)) (fit : ∀ x ∈ kvs, Fit x.1) (bt : BTree) (st : σ) (start : Inv bt) :
    ∃ bt' st', BTree.insertRun cfg S kvs bt st = some (bt',st') ∧ Inv bt' := by
  induction kvs generalizing bt st with
  | nil => exact ⟨bt,st,rfl,start⟩
  | cons kv kvs ih =>
    obtain ⟨key,value⟩ := kv
    obtain ⟨outcome,bt₁,st₁,run,next⟩ := step key value bt st (fit (key,value) (by simp)) start
    obtain ⟨bt',st',rest,final⟩ := ih (fun x mem => fit x (List.mem_cons_of_mem _ mem)) bt₁ st₁ next
    exact ⟨bt',st',by simp only [BTree.insertRun,run,rest],final⟩

theorem insertGoes (two : 2 ≤ cfg.maxNodeSize) {bt : BTree} (rest : Resting cfg.maxNodeSize bt) (key : Key)
    (value : Value) (st : σ) : ∃ outcome bt' st', BTree.insert cfg S key value bt st = some (outcome,bt',st') ∧
      Resting cfg.maxNodeSize bt' := by
  obtain ⟨ps,n,raw,inserted⟩ := rawInserts two rest.good key value
  obtain ⟨outcome,n',hash,st',step,alike⟩ := insertSettles S st rest.buffer rest.flag raw
  exact ⟨outcome,_,st',step,settledRests (inserted.good.alike alike) hash⟩

structure Lone (m : Nat) (key : Key) (bt : BTree) : Prop where
  rest : Resting m bt
  level : Level m 0 (top bt.root).entries
  keys : ∀ p ∈ (top bt.root).entries, p.1 = (key : NodeId)

theorem loneLength {key : NodeId} {es : Entries} (sorted : Sorted es) (keys : ∀ p ∈ es, p.1 = key) :
    es.length ≤ 1 := by
  match es,sorted,keys with
  | [],_,_ => exact Nat.zero_le 1
  | [_],_,_ => exact le_rfl
  | p :: q :: _,sorted,keys =>
    have less := (OrderedMap.sortedCons.mp sorted).1 q (by simp)
    rw [keys p (by simp),keys q (by simp)] at less
    exact absurd less (lt_irrefl _)

theorem sizeLength (es : Entries) : es.size ≤ es.length := by
  unfold Entries.size
  split
  · exact Nat.zero_le _
  · split
    · exact Nat.sub_le ..
    · exact le_rfl

theorem Lone.leaf {m : Nat} {key : Key} {bt : BTree} (lone : Lone m key bt) :
    ∃ es : Entries, top bt.root = ⟨es⟩ ∧ Level m 0 es ∧ SearchTree ⟨es⟩ ∧ ∀ p ∈ es, p.1 = (key : NodeId) := by
  have tree := lone.rest.good.tree
  have level := lone.level
  have keys := lone.keys
  cases same : top bt.root with
  | mk es =>
    rw [same] at tree level keys
    exact ⟨es,rfl,level,tree,keys⟩

theorem Lone.single {m : Nat} {key : Key} {bt : BTree} (lone : Lone m key bt) (some_ : (top bt.root).entries ≠ []) :
    ∃ e : Entry Node, top bt.root = ⟨[((key : NodeId),e)]⟩ ∧ Level m 0 [((key : NodeId),e)] := by
  obtain ⟨es,same,level,_,keys⟩ := lone.leaf
  rw [same] at some_
  have short := loneLength level.sorted keys
  obtain ⟨p,rest,rfl⟩ := List.exists_cons_of_ne_nil (show es ≠ [] from some_)
  obtain rfl : rest = [] := List.length_eq_zero_iff.mp (by rw [List.length_cons] at short; omega)
  obtain ⟨i,e⟩ := p
  cases keys (i,e) (by simp)
  exact ⟨e,same,level⟩

theorem leafCalled {key : Key} {value : Value} {es s : Entries} (leaf : es.isLeaf = true)
    (called : SplitCalled cfg key value ⟨es⟩ s) : s = OrderedMap.insert (key : NodeId) ⟨value,none,noHash⟩ es := by
  cases called with
  | leaf => rfl
  | deeper inner => exact absurd (inner.symm.trans leaf) (by decide)
  | kept inner => exact absurd (inner.symm.trans leaf) (by decide)
  | joined inner => exact absurd (inner.symm.trans leaf) (by decide)

theorem loneTaken {m : Nat} {key : Key} {es : Entries} (level : Level m 0 es) (keys : ∀ p ∈ es, p.1 = (key : NodeId))
    (value : Value) : Level m 0 (OrderedMap.insert (key : NodeId) ⟨value,none,noHash⟩ es) ∧
      (∀ p ∈ OrderedMap.insert (key : NodeId) (⟨value,none,noHash⟩ : Entry Node) es, p.1 = (key : NodeId)) ∧
      Entries.size (OrderedMap.insert (key : NodeId) ⟨value,none,noHash⟩ es) ≤ 1 := by
  have sorted := OrderedMap.insertSorted (key : NodeId) (⟨value,none,noHash⟩ : Entry Node) level.sorted
  have keys' : ∀ p ∈ OrderedMap.insert (key : NodeId) (⟨value,none,noHash⟩ : Entry Node) es,
      p.1 = (key : NodeId) := by
    intro p mem
    rcases OrderedMap.memInsert mem with rfl | old
    · rfl
    · exact keys p old
  refine ⟨⟨sorted,fun p mem => ?_⟩,keys',(sizeLength _).trans (loneLength sorted keys')⟩
  rcases OrderedMap.memInsert mem with rfl | old
  · exact ⟨rfl,rfl⟩
  · exact level.bare p old

theorem Lone.goes {key : Key} {bt : BTree} (lone : Lone cfg.maxNodeSize key bt) (one : 1 ≤ cfg.maxNodeSize)
    (value : Value) (st : σ) : ∃ outcome bt' st', BTree.insert cfg S key value bt st = some (outcome,bt',st') ∧
      Lone cfg.maxNodeSize key bt' ∧ (top bt'.root).entries ≠ [] := by
  obtain ⟨es,same,level,tree,keys⟩ := lone.leaf
  obtain ⟨level',keys',size'⟩ := loneTaken level keys value
  have run : (top bt.root).insert cfg key value =
      some ⟨[],⟨OrderedMap.insert (key : NodeId) ⟨value,none,noHash⟩ es⟩,none⟩ := by
    rw [same,insertLeaf (bareLeaf level.bare),splitSmall (size'.trans one)]
  have good : Good cfg.maxNodeSize ⟨OrderedMap.insert (key : NodeId) ⟨value,none,noHash⟩ es⟩ :=
    ⟨⟨level'.ordered,@grownSorted cfg key value _ _ _ _ (.leaf level.bare) tree⟩,⟨0,level'⟩,size'.trans one⟩
  obtain ⟨outcome,n',hash,st',step,alike⟩ :=
    insertSettles S st lone.rest.buffer lone.rest.flag (rawInsertTop run good.checks)
  refine ⟨outcome,_,st',step,⟨settledRests (good.alike alike) hash,alike.level _ _ level',fun p mem => ?_⟩,
    fun none_ => ?_⟩
  · have there : p.1 ∈ n'.entries.map Prod.fst := List.mem_map_of_mem mem
    rw [alike.keys] at there
    obtain ⟨q,mem',same'⟩ := List.mem_map.mp there
    exact same' ▸ keys' q mem'
  · have listed := alike.keys
    have gone : n'.entries = [] := none_
    rw [gone,List.map_nil] at listed
    exact OrderedMap.insertNotEmpty _ _ _ (List.map_eq_nil_iff.mp listed.symm)

theorem freshLone (m : Nat) (key : Key) : Lone m key BTree.fresh :=
  ⟨freshRests m,⟨List.Pairwise.nil,fun p mem => by cases mem⟩,fun p mem => by cases mem⟩

theorem pairUndelivered (one : cfg.maxNodeSize = 1) {p : NodeId × Entry Node} {κ : Key} {x : Entry Node}
    (sorted : Sorted [p,((κ : NodeId),x)]) :
    cfg.maxNodeSize < Entries.size [p,((κ : NodeId),x)] ∧ ¬ SplitDelivers cfg [p,((κ : NodeId),x)] := by
  have two : Entries.size [p,((κ : NodeId),x)] = 2 := by simp [Entries.size]
  have large : cfg.maxNodeSize < Entries.size [p,((κ : NodeId),x)] := by omega
  refine ⟨large,fun delivers => ?_⟩
  exact (deliversIff (L := [p]) (R := []) sorted large (by rw [List.singleton_append,two]; rfl)).mp delivers rfl

theorem otherUndelivered (one : cfg.maxNodeSize = 1) {k₀ : Key} {done : List (Key × Value)} (some_ : done ≠ [])
    (alone : ∀ x ∈ done, x.1 = k₀) {key : Key} (other : key ≠ k₀) (value : Value) (rest : List (Key × Value))
    (st : σ) : ¬ SplitsDeliver cfg S (done ++ (key,value) :: rest) st := by
  intro claim
  obtain ⟨⟨k,v⟩,done,rfl⟩ := List.exists_cons_of_ne_nil some_
  cases alone (k,v) (by simp)
  obtain ⟨outcome,bt₁,st₁,first,lone₁,some₁⟩ := (freshLone cfg.maxNodeSize k).goes (S := S) one.ge v st
  obtain ⟨bt,st',more,lone,some'⟩ := insertRunKeeps (S := S) (fun bt => Lone cfg.maxNodeSize k bt ∧
    (top bt.root).entries ≠ []) (· = k)
    (fun key value bt st fit lone => by cases fit; exact lone.1.goes one.ge value st) done
    (fun x mem => alone x (List.mem_cons_of_mem _ mem)) bt₁ st₁ ⟨lone₁,some₁⟩
  have run : BTree.insertRun cfg S ((k,v) :: done) BTree.fresh st = some (bt,st') := by
    simp only [BTree.insertRun,first,more]
  have delivers := (claim ((k,v) :: done) key value rest bt st' rfl run).1
  obtain ⟨e,same,level⟩ := lone.single some'
  rw [same] at delivers
  have called : SplitCalled cfg key value ⟨[((k : NodeId),e)]⟩ _ := .leaf (bareLeaf level.bare)
  have sorted := OrderedMap.insertSorted (key : NodeId) (⟨value,none,noHash⟩ : Entry Node) level.sorted
  rcases lt_or_gt_of_ne other with less | greater
  · have placed : OrderedMap.insert (key : NodeId) ⟨value,none,noHash⟩ [((k : NodeId),e)] =
        [((key : NodeId),⟨value,none,noHash⟩),((k : NodeId),e)] :=
      OrderedMap.insertMiss (a := []) (by simp) (by simpa using less)
    rw [placed] at called sorted
    obtain ⟨large,undelivered⟩ := pairUndelivered one sorted
    exact undelivered (delivers _ called large)
  · have placed : OrderedMap.insert (key : NodeId) ⟨value,none,noHash⟩ [((k : NodeId),e)] =
        [((k : NodeId),e),((key : NodeId),⟨value,none,noHash⟩)] :=
      OrderedMap.insertMiss (a := [((k : NodeId),e)]) (b := []) (by simpa using greater) (by simp)
    rw [placed] at called sorted
    obtain ⟨large,undelivered⟩ := pairUndelivered one sorted
    exact undelivered (delivers _ called large)

theorem otherKey {kvs : List (Key × Value)} (differ : ¬ ∀ x ∈ kvs, ∀ y ∈ kvs, x.1 = y.1) :
    ∃ k₀ done key value rest, kvs = done ++ (key,value) :: rest ∧ done ≠ [] ∧ (∀ x ∈ done, x.1 = k₀) ∧ key ≠ k₀ := by
  cases kvs with
  | nil => exact absurd (fun x mem => by cases mem) differ
  | cons x kvs =>
    have whole := List.takeWhile_append_dropWhile (p := fun y : Key × Value => decide (y.1 = x.1)) (l := kvs)
    have before : ∀ y ∈ kvs.takeWhile (fun y => decide (y.1 = x.1)), y.1 = x.1 := fun y mem =>
      by simpa using List.mem_takeWhile_imp mem
    cases behind : kvs.dropWhile (fun y => decide (y.1 = x.1)) with
    | nil =>
      rw [behind,List.append_nil] at whole
      rw [whole] at before
      have all : ∀ y ∈ x :: kvs, y.1 = x.1 := List.forall_mem_cons.mpr ⟨rfl,before⟩
      exact absurd (fun y mem z mem' => (all y mem).trans (all z mem').symm) differ
    | cons y rest =>
      have head := List.head?_dropWhile_not (fun y : Key × Value => decide (y.1 = x.1)) kvs
      rw [behind] at head whole
      exact ⟨x.1,x :: kvs.takeWhile (fun y => decide (y.1 = x.1)),y.1,y.2,rest,by rw [List.cons_append,whole],by simp,
        List.forall_mem_cons.mpr ⟨rfl,before⟩,by simpa using head⟩

/-- Split delivers what its callers rely on as soon as a node may have two keys; with one
key in a node it fails at the second key. -/
theorem splitsDeliver (one : 1 ≤ cfg.maxNodeSize) (kvs : List (Key × Value)) (st : σ) :
    SplitsDeliver cfg S kvs st ↔ 2 ≤ cfg.maxNodeSize ∨ ∀ x ∈ kvs, ∀ y ∈ kvs, x.1 = y.1 := by
  constructor
  · intro delivers
    by_contra neither
    obtain ⟨small,differ⟩ := not_or.mp neither
    obtain ⟨k₀,done,key,value,rest,rfl,some_,alone,other⟩ := otherKey differ
    exact otherUndelivered (by omega) some_ alone other value rest st delivers
  · rintro (two | alone) done key value rest bt st' rfl run
    · obtain ⟨bt₁,st₁,run',rests⟩ := insertRunKeeps (S := S) (Resting cfg.maxNodeSize) (fun _ => True)
        (fun key value bt st _ rests => insertGoes two rests key value st) done (fun _ _ => trivial) BTree.fresh st
        (freshRests _)
      cases run.symm.trans run'
      obtain ⟨outcome,bt',st'',step,_⟩ := insertGoes (S := S) two rests key value st'
      exact ⟨fun es called large => calledDelivers two rests.good called large,by rw [step]; rfl⟩
    · obtain ⟨bt₁,st₁,run',lone⟩ := insertRunKeeps (S := S) (Lone cfg.maxNodeSize key) (· = key)
        (fun k value bt st fit lone => by
          cases fit
          obtain ⟨outcome,bt',st',step,lone',_⟩ := lone.goes (S := S) one value st
          exact ⟨outcome,bt',st',step,lone'⟩) done
        (fun x mem => alone x (by simp [mem]) (key,value) (by simp)) BTree.fresh st (freshLone _ key)
      cases run.symm.trans run'
      obtain ⟨outcome,bt',st'',step,_⟩ := lone.goes (S := S) one value st'
      refine ⟨fun es called large => ?_,by rw [step]; rfl⟩
      obtain ⟨es₀,same,level,_,keys⟩ := lone.leaf
      rw [same] at called
      rw [leafCalled (bareLeaf level.bare) called] at large
      exact absurd ((loneTaken level keys value).2.2.trans one) (not_le.mpr large)

theorem splitsDeliverFour : SplitsDeliver (mockConfig 2) MockStorage.storage
    [(letter 99,letter 120),(letter 97,letter 120),(letter 98,letter 120),(letter 100,letter 120)]
    MockStorage.empty :=
  (splitsDeliver (by decide) _ _).mpr (.inl (by decide))

/-- One key in a node: what the second insert's split returns has one entry, and the
assertion on it fails when this happens to a leaf below the root, at the fourth insert. -/
theorem halfMissing : ¬ SplitsDeliver (mockConfig 1) MockStorage.storage
      [(letter 97,letter 120),(letter 98,letter 120)] MockStorage.empty ∧
    (BTree.insertRun (mockConfig 1) MockStorage.storage
      [(letter 97,letter 120),(letter 98,letter 120),(letter 99,letter 120),(letter 100,letter 120)] BTree.fresh
      MockStorage.empty).isNone = true := by
  refine ⟨?_,by decide +kernel⟩
  exact otherUndelivered rfl (List.cons_ne_nil (letter 97,letter 120) [])
    (fun x mem => congrArg Prod.fst (List.mem_singleton.mp mem)) (by decide) (letter 120) [] MockStorage.empty

end runs
end IpfsCache
