import IpfsCache.BTree
import IpfsCache.Checked
import IpfsCache.StoreSpec
import IpfsCache.Suspended

/-! BTree::raw_insert on a tree of the right shape: the root takes the key, or splits
and becomes the only entry, with INF, of a new root. -/
namespace IpfsCache
open OrderedMap (Sorted)
open Node Entries

structure Good (m : Nat) (n : Node) : Prop where
  tree : SearchTree n
  level : ∃ d, Level m d n.entries
  fits : n.size ≤ m

theorem Good.depth {m : Nat} {es : Entries} (h : Good m ⟨es⟩) : ∃ d, GoodAt m d es := by
  obtain ⟨d,level⟩ := h.level
  exact ⟨d,h.tree,level,h.fits⟩

theorem Good.loaded {m : Nat} {n : Node} (h : Good m n) : Loaded n := by
  obtain ⟨es⟩ := n
  obtain ⟨d,level⟩ := h.level
  exact level.loaded

theorem Good.checks {m : Nat} {n : Node} (good : Good m n) : n.checkInvariants m = true := by
  obtain ⟨es⟩ := n
  obtain ⟨d,here⟩ := good.depth
  exact (checkIff m ⟨es⟩).mpr ⟨levelFitting here,d,levelUniform here.level⟩

theorem Good.alike {m : Nat} {n n' : Node} (h : Good m n) (alike : Alike n n') : Good m n' := by
  refine ⟨⟨alike.ordered h.tree.ordered,?_⟩,?_,alike.size.le.trans h.fits⟩
  · rw [alike.flat]
    exact h.tree.sorted
  · obtain ⟨d,level⟩ := h.level
    exact ⟨d,alike.level m d level⟩

theorem goodEmpty (m : Nat) : Good m ⟨[]⟩ :=
  ⟨⟨.mk List.Pairwise.nil (by simp),List.Pairwise.nil⟩,⟨0,List.Pairwise.nil,by simp [Bare,entries]⟩,Nat.zero_le m⟩

def top (root : Option Root) : Node := (root.bind Root.node).getD ⟨[]⟩
def topHash (root : Option Root) : Hash := (root.map Root.hash).getD noHash

theorem rootHashTop (bt : BTree) : bt.rootHash = topHash bt.root := by
  rw [BTree.rootHash,topHash]
  cases bt.root <;> rfl

def InMemory (root : Option Root) : Prop := root = none ∨ ∃ n hash, root = some ⟨some n,hash⟩

theorem findInMemory {bt : BTree} (memory : InMemory bt.root) (tree : SearchTree (top bt.root))
    (loaded : Loaded (top bt.root)) (key : Key) : bt.find key =
      (bt,.done (answer ((OrderedMap.find key bt.insertBuffer).or (OrderedMap.find key (top bt.root).flatten)))) := by
  obtain ⟨root,buffer,flag⟩ := bt
  unfold BTree.find
  cases held : OrderedMap.find key buffer with
  | some v => rfl
  | none =>
    rcases memory with rfl | ⟨n,hash,rfl⟩
    · rfl
    · have look := findIsLookup key n tree loaded
      simp only [BTree.lazyFind,look,Prod.map]
      rfl

theorem rawInsertTop {cfg : Config} {key : Key} {value : Value} {root : Option Root} {out : Inserted}
    (run : (top root).insert cfg key value = some out)
    (checks : (out.ret.getD out.node).checkInvariants cfg.maxNodeSize = true) :
    BTree.rawInsert cfg key value root = some (out.pauses,⟨some (out.ret.getD out.node),topHash root⟩) := by
  have run' : ((root.getD ⟨none,noHash⟩).node.getD ⟨[]⟩).insert cfg key value = some out := by cases root
      <;> exact run
  rw [BTree.rawInsert]
  simp only [run',checks,if_true]
  cases root <;> rfl

structure RawInserted (cfg : Config) (key : Key) (value : Value) (n : Node) (ps : List Pause) (n' : Node) :
    Prop where
  good : Good cfg.maxNodeSize n'
  content : (∃ w, w ∈ leafValues key n ∧ OrderedMap.find key n.flatten = some w ∧
      n'.flatten = OrderedMap.assign key w n.flatten) ∨
    n'.flatten = OrderedMap.assign key value n.flatten
  account : ∃ lost, hashes ps + lost + n'.ids = n.ids ∧ (cfg.removeOp = true → lost = 0)
  backed : ∀ Own, Backed Own n → Backed Own n'
  shows : ∀ p ∈ ps, p.Shows n'.flatten

theorem levelHalves {m d : Nat} (two : 2 ≤ m) {L R : Entries} {κ : Key} {x : Entry Node}
    (level : Level m d (L ++ ((κ : NodeId),x) :: R)) (full : size (L ++ ((κ : NodeId),x) :: R) = m + 1)
    (mid : L.length = (m + 1) / 2) : Level m (d + 1) (halves L κ x R).entries := by
  have parts := levelParts two level full mid
  refine ⟨?_,⟨[((κ : NodeId),upper L x)],_,rfl⟩,?_⟩
  · exact OrderedMap.sortedCons.mpr ⟨by simp,by simp [Sorted]⟩
  · intro p mem
    simp only [halves,entries,List.mem_cons,List.not_mem_nil,or_false] at mem
    rcases mem with rfl | rfl
    · exact parts.1
    · exact ⟨⟨R⟩,rfl,parts.2⟩

theorem backedHalves {Own : Hash → Node → Prop} {L R : Entries} {κ : Key} {x : Entry Node}
    (h : Backed Own ⟨L ++ ((κ : NodeId),x) :: R⟩) : Backed Own (halves L κ x R) := by
  have emptied {P : Prop} (h : noHash.isEmpty = false) : P := by cases h
  have inf : Backed Own ⟨[((⊤ : NodeId),(⟨⟨[]⟩,x.child,noHash⟩ : Entry Node))]⟩ := by
    refine .mk (fun p mem c child => ?_) fun p mem c child => ?_ <;> cases List.mem_singleton.mp mem
    · exact emptied
    · exact h.child (p := ((κ : NodeId),x)) (by simp) child
  have left : Backed Own ⟨L ++ [((⊤ : NodeId),(⟨⟨[]⟩,x.child,noHash⟩ : Entry Node))]⟩ :=
    (h.sub fun q mem => List.mem_append_left _ mem).append inf
  have right : Backed Own ⟨R⟩ := h.sub fun q mem => by simp [mem]
  exact (Backed.one (i := (κ : NodeId)) (v := x.value) emptied left).append (Backed.one emptied right)

theorem idsHalves (L R : Entries) (κ : Key) (x : Entry Node) :
    (halves L κ x R).ids = idsOf L + entryIds ⟨x.value,x.child,noHash⟩ + idsOf R := by
  change idsOf (((κ : NodeId),upper L x) :: [(⊤,⟨⟨[]⟩,some ⟨R⟩,noHash⟩)]) = _
  rw [idsOfCons,idsUpper,idsOfCons]
  exact congrArg _ ((add_zero _).trans (zero_add _))

theorem grownInserted {cfg : Config} (two : 2 ≤ cfg.maxNodeSize) {key : Key} {value : Value} {d : Nat}
    {es es' : Entries} {ps : List Pause} (grown : Grown cfg key value d es ps es')
    (good : GoodAt cfg.maxNodeSize d es) :
    RawInserted cfg key value ⟨es⟩ (split cfg ps es').pauses ((split cfg ps es').ret.getD (split cfg ps es').node) := by
  have after := grownLevel two grown good
  obtain ⟨lost,account,none_⟩ := grownIds two grown good
  have shows_ := grownShows two grown good
  have sorted := grownSorted grown good.tree
  by_cases fits : size es' ≤ cfg.maxNodeSize
  · rw [splitSmall fits]
    exact ⟨⟨⟨after.1.ordered,sorted⟩,⟨d,after.1⟩,fits⟩,grownContent grown good.tree,⟨lost,account,none_⟩,
      fun _ => grownBacked grown,shows_⟩
  · obtain ⟨L,κ,x,R,rfl,full,mid,_,_,more⟩ := overfull two after.1.sorted fits after.2.2
    have rootLevel := levelHalves two after.1 full mid
    obtain ⟨own,removed,none'⟩ := tryRemoveHashes cfg x.childHash ⟨((κ : NodeId),upper L x) :: R⟩ none
    rw [splitLarge after.1.sorted (by omega) (by rw [full,mid]) more]
    refine ⟨⟨⟨rootLevel.ordered,?_⟩,⟨d + 1,rootLevel⟩,?_⟩,?_,⟨lost + own,?_,fun h => by rw [none_ h,none' h]; rfl⟩,
      fun _ backed => backedHalves (grownBacked grown backed),?_⟩
    · rwa [Option.getD_some,flattenHalves]
    · change size (halves L κ x R).entries ≤ _
      rw [show (halves L κ x R).entries = [((κ : NodeId),upper L x)] ++
        [(⊤,⟨⟨[]⟩,some ⟨R⟩,noHash⟩)] from rfl,sizeInf]
      simp only [List.length_singleton]
      omega
    · rw [Option.getD_some,flattenHalves]
      exact grownContent grown good.tree
    · have moved := idsMoved after.1 (p := ((κ : NodeId),x)) (by simp)
      rw [Option.getD_some,hashesAppend,idsHalves]
      rw [Node.ids,← account,idsAt,moved,← removed]
      abel
    · rw [Option.getD_some,flattenHalves]
      exact List.forall_mem_append.mpr ⟨shows_,tryRemoveShows (splitShows after.1)⟩

theorem rawInserts {cfg : Config} (two : 2 ≤ cfg.maxNodeSize) {root : Option Root}
    (good : Good cfg.maxNodeSize (top root)) (key : Key) (value : Value) :
    ∃ ps n', BTree.rawInsert cfg key value root = some (ps,⟨some n',topHash root⟩) ∧
      RawInserted cfg key value (top root) ps n' := by
  obtain ⟨es,same⟩ : ∃ es, top root = ⟨es⟩ := by
    cases top root
    exact ⟨_,rfl⟩
  rw [same] at good
  obtain ⟨d,here⟩ := good.depth
  obtain ⟨ps,es',grown,result⟩ := insertGrows key value two here
  have inserted := grownInserted two grown here
  rw [← same] at result inserted
  exact ⟨_,_,rawInsertTop result inserted.good.checks,inserted⟩

section content
variable {cfg : Config} {key : Key} {value : Value} {n n' : Node} {ps : List Pause}

theorem RawInserted.assigns (h : RawInserted cfg key value n ps n') :
    ∃ w, (w = value ∨ OrderedMap.find key n.flatten = some w) ∧ n'.flatten = OrderedMap.assign key w n.flatten := by
  rcases h.content with ⟨w,_,found,content⟩ | content
  · exact ⟨w,.inr found,content⟩
  · exact ⟨value,.inl rfl,content⟩

theorem RawInserted.keys (h : RawInserted cfg key value n ps n') (good : Good cfg.maxNodeSize n) (k : Key) :
    k ∈ n'.keys ↔ k = key ∨ k ∈ n.keys := by
  obtain ⟨w,_,content⟩ := h.assigns
  rw [Node.keys,content]
  exact OrderedMap.keysAssign good.tree.sorted

theorem RawInserted.members (h : RawInserted cfg key value n ps n') (good : Good cfg.maxNodeSize n)
    {x : Key × Value} (mem : x ∈ n'.flatten) : x = (key,value) ∨ x ∈ n.flatten := by
  obtain ⟨w,given,content⟩ := h.assigns
  rw [content] at mem
  rcases (OrderedMap.memAssign good.tree.sorted).mp mem with rfl | ⟨old,_⟩
  · exact given.imp (fun same => by rw [same]) (OrderedMap.findSome good.tree.sorted).mp
  · exact .inr old

end content
end IpfsCache
