import IpfsCache.PathOnly
import IpfsCache.RoundTrip
import Mathlib.Data.Nat.Log

/-! How many levels a tree of so many keys has, and that a find which starts with the root's
hash asks for no more than a block a level. -/
namespace IpfsCache
open OrderedMap (Sorted)
open Node Entries

theorem flattenLength {es : Entries} (none_ : ∀ p ∈ es, p.2.child = none) :
    (flatten ⟨es⟩).length = es.countP (fun p => decide (p.1 ≠ ⊤)) := by
  induction es with
  | nil => rfl
  | cons p rest ih =>
    obtain ⟨i,v,child,hash⟩ := p
    have null : child = none := none_ (i,⟨v,child,hash⟩) (by simp)
    subst null
    have tail := ih fun q mem => none_ q (List.mem_cons_of_mem _ mem)
    rw [flattenEq] at tail ⊢
    rw [List.flatMap_cons,List.length_append,tail,List.countP_cons]
    cases i using WithTop.recTopCoe <;> simp [entryFlat,belowEntry,ownPair,add_comm]

theorem leastPart {B : Nat} {pre : Entries} (real : ∀ p ∈ pre, p.1 ≠ ⊤)
    (each : ∀ p ∈ pre, B ≤ (belowEntry p.2.child).length + 1) : pre.length * B ≤ (flatten ⟨pre⟩).length := by
  induction pre with
  | nil => simp
  | cons p pre ih =>
    have rest := ih (fun q mem => real q (List.mem_cons_of_mem _ mem))
      fun q mem => each q (List.mem_cons_of_mem _ mem)
    have here := each p (by simp)
    have own : (ownPair p.1 p.2.value).length = 1 := by
      have proper := real p (by simp)
      cases key : p.1 using WithTop.recTopCoe with
      | top => exact absurd key proper
      | coe k => rfl
    rw [flattenEq] at rest ⊢
    rw [List.flatMap_cons,List.length_append,List.length_cons,entryFlat,List.length_append,own,Nat.succ_mul]
    omega

theorem leastKeys {m d : Nat} {es : Entries} (level : Level m d es) :
    (size es + 1) * (m / 2 + 1) ^ d ≤ (flatten ⟨es⟩).length + 1 := by
  induction d generalizing es with
  | zero => rw [flattenLength fun p mem => (level.bare p mem).1,sizeCount level.sorted,pow_zero,Nat.mul_one]
  | succ d ih =>
    have each : ∀ p ∈ es, (m / 2 + 1) ^ (d + 1) ≤ (belowEntry p.2.child).length + 1 := by
      intro p mem
      obtain ⟨⟨c⟩,child,below,half,_⟩ := level.2.2 p mem
      rw [child]
      calc (m / 2 + 1) ^ (d + 1) = (m / 2 + 1) * (m / 2 + 1) ^ d := pow_succ' _ _
        _ ≤ (size c + 1) * (m / 2 + 1) ^ d := Nat.mul_le_mul_right _ (Nat.succ_le_succ half)
        _ ≤ (flatten ⟨c⟩).length + 1 := ih below
    obtain ⟨pre,e,rfl⟩ := level.inf
    have part := leastPart (realBefore level.sorted) fun p mem => each p (List.mem_append_left _ mem)
    have last := each ((⊤ : NodeId),e) (by simp)
    rw [sizeInf,flattenAppend,List.length_append,Nat.succ_mul]
    have inf : (belowEntry e.child).length ≤ (flatten ⟨[((⊤ : NodeId),e)]⟩).length := by
      simp [flattenEq,entryFlat]
    dsimp only at last
    omega

structure Levels (m d : Nat) (n : Node) : Prop where
  level : Level m d n.entries
  busy : d = 0 ∨ 1 ≤ n.size

section rooted
variable {m d : Nat} {n n' : Node}

theorem Levels.alike (h : Levels m d n) (alike : Alike n n') : Levels m d n' :=
  ⟨alike.level m d h.level,h.busy.imp id fun some_ => alike.size ▸ some_⟩

theorem Levels.depths (h : Levels m d n) : n.minMaxDepth = (d + 1,d + 1) := by
  obtain ⟨es⟩ := n
  exact uniformDepth (levelUniform h.level)

theorem Levels.height (two : 2 ≤ m) (h : Levels m d n) : d ≤ Nat.log (m / 2 + 1) ((n.flatten.length + 1) / 2) := by
  obtain ⟨es⟩ := n
  rcases h.busy with rfl | some_
  · exact Nat.zero_le _
  · have least := leastKeys h.level
    have more : 2 * (m / 2 + 1) ^ d ≤ (flatten ⟨es⟩).length + 1 :=
      (Nat.mul_le_mul_right _ (Nat.succ_le_succ some_)).trans least
    exact Nat.le_log_of_pow_le (by omega) (by omega)

end rooted

section grown
variable {cfg : Config} {key : Key} {value : Value}

theorem rootedInsert (two : 2 ≤ cfg.maxNodeSize) {root : Option Root} {d : Nat}
    (good : Good cfg.maxNodeSize (top root)) (rooted : Levels cfg.maxNodeSize d (top root)) {ps : List Pause}
    {n : Node} {hash : Hash} (raw : BTree.rawInsert cfg key value root = some (ps,⟨some n,hash⟩)) :
    ∃ d', Levels cfg.maxNodeSize d' n := by
  obtain ⟨es,same⟩ : ∃ es, top root = ⟨es⟩ := by
    cases top root
    exact ⟨_,rfl⟩
  rw [same] at good rooted
  have here : GoodAt cfg.maxNodeSize d es := ⟨good.tree,rooted.level,good.fits⟩
  obtain ⟨ps',es',grown,result⟩ := insertGrows key value two here
  have inserted := grownInserted two grown here
  rw [← same] at result
  have raw' := rawInsertTop result inserted.good.checks
  cases raw.symm.trans raw'
  obtain ⟨after,grew,most⟩ := grownLevel two grown here
  by_cases small : size es' ≤ cfg.maxNodeSize
  · rw [splitSmall small]
    exact ⟨d,after,rooted.busy.imp id fun some_ => le_trans some_ grew⟩
  · obtain ⟨L,κ,x,R,rfl,full,mid,_,_,more⟩ := overfull two after.sorted small most
    rw [splitLarge after.sorted (by omega) (by rw [full,mid]) more]
    exact ⟨d + 1,levelHalves two after full mid,.inr le_rfl⟩

end grown

theorem Contents.count {kvs : List (Key × Value)} {n : Node} (contents : Contents kvs n) (tree : SearchTree n) :
    n.flatten.length = (OrderedMap.keys kvs).dedup.length := by
  have perm : n.keys.Perm (OrderedMap.keys kvs).dedup :=
    (List.perm_ext_iff_of_nodup (OrderedMap.keysNodup tree.sorted) (List.nodup_dedup _)).mpr fun k =>
      (contents.keys k).trans List.mem_dedup.symm
  have lengths := perm.length_eq
  rwa [Node.keys,OrderedMap.keys,List.length_map] at lengths

def mostLevels (m : Nat) (kvs : List (Key × Value)) : Nat :=
  Nat.log (m / 2 + 1) (((OrderedMap.keys kvs).dedup.length + 1) / 2)

theorem Levels.most {m d : Nat} (two : 2 ≤ m) {n : Node} {kvs : List (Key × Value)} (h : Levels m d n)
    (contents : Contents kvs n) (tree : SearchTree n) : d ≤ mostLevels m kvs := by
  have height := h.height two
  rwa [contents.count tree] at height

theorem freshRooted (m : Nat) : Levels m 0 (top BTree.fresh.root) :=
  ⟨show Level m 0 [] from ⟨List.Pairwise.nil,by simp [Bare]⟩,.inl rfl⟩

section inserts
variable {σ : Type} {cfg : Config} {S : Storage σ}

theorem insertEachRooted (two : 2 ≤ cfg.maxNodeSize) (adds : S.AddsSucceed cfg) (kvs : List (Key × Value)) (st : σ) :
    ∃ bt st' d, BTree.insertEach cfg S kvs BTree.fresh st = some (bt,st') ∧ Resting cfg.maxNodeSize bt ∧
      Contents kvs (top bt.root) ∧ Levels cfg.maxNodeSize d (top bt.root) := by
  obtain ⟨bt,st',run,rest,contents,d,rooted⟩ := insertEachKeeps (fun done bt _ => Resting cfg.maxNodeSize bt ∧
      Contents done (top bt.root) ∧ ∃ d, Levels cfg.maxNodeSize d (top bt.root))
    (fun done key value bt st _ ⟨rest,contents,d,rooted⟩ => by
      obtain ⟨ps,n,n',hash,st',run,raw,inserted,alike,_⟩ := insertRests two adds rest key value st
      obtain ⟨d',after⟩ := rootedInsert two rest.good rooted raw
      exact ⟨_,st',run,settledRests (inserted.good.alike alike) hash,
        (contents.insert rest.good inserted).alike alike,d',after.alike alike⟩)
    kvs [] (fun _ _ => trivial) BTree.fresh st
    ⟨freshRests _,⟨fun x mem => (by cases mem),fun k => Iff.rfl⟩,0,freshRooted _⟩
  exact ⟨bt,st',d,run,rest,contents,rooted⟩

/-- The number of levels is the same everywhere, and at most logarithmic in the number of
keys, to a base of half the node size. -/
theorem levelsLogarithmic (two : 2 ≤ cfg.maxNodeSize) (adds : S.AddsSucceed cfg) (kvs : List (Key × Value)) (st : σ) :
    ∃ bt st' d, BTree.insertEach cfg S kvs BTree.fresh st = some (bt,st') ∧
      (top bt.root).minMaxDepth = (d + 1,d + 1) ∧ d ≤ mostLevels cfg.maxNodeSize kvs := by
  obtain ⟨bt,st',d,run,rest,contents,rooted⟩ := insertEachRooted two adds kvs st
  exact ⟨bt,st',d,run,rooted.depths,rooted.most two contents rest.good.tree⟩

theorem levelsLogarithmicMock : ∃ bt st' d, BTree.insertEach (mockConfig 2) MockStorage.storage
      (letters [99,97,98,97,100]) BTree.fresh MockStorage.empty = some (bt,st') ∧
    (top bt.root).minMaxDepth = (d + 1,d + 1) ∧ d ≤ 1 :=
  levelsLogarithmic (by decide) (MockStorage.addsSucceed _) _ _

end inserts

theorem Way.shorter {key : Key} {T c : Node} {h g : Hash} {path : List NodeId} (way : Way key T h path c g)
    {m d : Nat} (level : Level m d T.entries) : path.length ≤ d := by
  induction way generalizing d with
  | here => exact Nat.zero_le d
  | down at_ other below ih =>
    cases d with
    | zero =>
      have null := (level.bare _ (lowerBoundMem at_)).1
      cases null
    | succ d => exact Nat.succ_le_succ (ih (level.child (lowerBoundMem at_) rfl).1)

theorem Way.smaller {key : Key} {T c : Node} {h g : Hash} {path : List NodeId} (way : Way key T h path c g) :
    sizeOf c ≤ sizeOf T := by
  induction way with
  | here => exact le_rfl
  | down at_ _ _ ih =>
    have less := childSmaller (lowerBoundMem at_) rfl
    rw [Node.mk.sizeOf_spec]
    omega

theorem Way.longer {key : Key} {T c c' : Node} {h g g' : Hash} {path path' : List NodeId}
    (way : Way key T h path c g) (way' : Way key T h path' c' g') (less : sizeOf c' < sizeOf c) :
    path.length < path'.length := by
  induction way generalizing path' with
  | here =>
    cases way' with
    | here => exact absurd less (lt_irrefl _)
    | down => exact Nat.succ_pos _
  | down at_ other below ih =>
    cases way' with
    | here =>
      have inside := (Way.down (h := noHash) at_ other below).smaller
      omega
    | down at' other' below' =>
      cases at_.symm.trans at'
      exact Nat.succ_lt_succ (ih below' less)

section finds
variable {σ : Type} {cfg : Config} {S : Storage σ} {h : Hash} {T : Node} {key : Key}

theorem finishWithin (faithful : S.Faithful) (back : cfg.json.ParsesBack) (usable : Usable StdString.ValidUtf8)
    (tree : SearchTree T) (proper : h.isEmpty = false) {m d : Nat} (level : Level m d T.entries) (fuel : Nat) :
    ∀ (bound : Nat) (out : Option Node × FindStep) (st : σ), Readable cfg S st h T →
    Looked (fun _ => False) key T h bound out → (∀ path g, out.2 = .cat path g → d < path.length + fuel) →
      (BTree.finish cfg S key fuel (⟨some ⟨out.1,h⟩,[],false⟩,out.2) st).isSome := by
  induction fuel with
  | zero =>
    intro bound out st readable looked enough
    cases looked with
    | found seen => rfl
    | @asks x path c g way free smaller seen =>
      have here := enough path g rfl
      have deep := way.shorter level
      omega
  | succ fuel ih =>
    intro bound out st readable looked enough
    cases looked with
    | found seen => rfl
    | @asks x path c g way free smaller seen =>
      obtain ⟨own,stored⟩ := readable proper
      have there := stored.way way own
      obtain ⟨n,rfl⟩ := seen.there (Or.inr rfl)
      have next := resumeLooks back usable way _ n tree stored seen (.inr rfl)
      have none_ : (fun q => (False ∨ q = path) ∧ q ≠ path) = fun _ => False := funext fun q => by simp
      rw [none_] at next
      rw [BTree.finish,show (S.cat st g).1 = .ok (block cfg c) from there.1]
      refine ih _ _ (S.cat st g).2 (readable.mono (catHolds faithful st g)) next fun path' g' asks => ?_
      have here := enough path g rfl
      have deeper : path.length < path'.length := by
        generalize ((n.resume cfg key (.ok (block cfg c)) path).map some id) = out at next asks
        cases next with
        | found => cases asks
        | asks way' _ smaller' _ =>
          cases asks
          exact way.longer way' smaller'
      omega

theorem Opened.findWithin (key : Key) (faithful : S.Faithful) (back : cfg.json.ParsesBack)
    (usable : Usable StdString.ValidUtf8) (tree : SearchTree T) {m d : Nat} (level : Level m d T.entries) {bt : BTree}
    (opened : Opened h T bt) {st : σ} (readable : Readable cfg S st h T) {fuel : Nat} (enough : d < fuel) :
    ∃ bt' st', BTree.findAlone cfg S fuel key bt st = some (answer (OrderedMap.find key T.flatten),bt',st') ∧
      Opened h T bt' ∧ ∀ g y, S.holds st g y → S.holds st' g y := by
  obtain ⟨bt',st',run,opened',keeps⟩ := opened.find key faithful back usable tree readable
    (show sizeOf T < sizeOf T + 1 + fuel by omega)
  suffices some_ : (BTree.findAlone cfg S fuel key bt st).isSome by
    obtain ⟨out,same⟩ := Option.isSome_iff_exists.mp some_
    have more := findMore (show fuel ≤ sizeOf T + 1 + fuel by omega) same
    rw [run] at more
    cases more
    exact ⟨bt',st',same,opened',keeps⟩
  obtain ⟨root,buffer,flag⟩ := bt
  obtain ⟨buffer_,flag_,x,root_,cases_⟩ := opened
  cases buffer_
  cases flag_
  cases root_
  rcases cases_ with ⟨empty,rfl,rfl⟩ | ⟨proper,seen⟩
  · have step : BTree.find key ⟨some ⟨none,h⟩,[],false⟩ = (⟨some ⟨none,h⟩,[],false⟩,.done (.error .notFound)) := by
      simp [BTree.find,OrderedMap.find,OrderedMap.lowerBound,BTree.lazyFind,empty]
    rw [BTree.findAlone,step]
    cases fuel <;> rfl
  · rcases lazyFindLooks key T (fun _ => False) h x (sizeOf T + 1) tree (fun _ => proper) seen (by omega)
      (fun _ => by omega) with looked | ⟨_,_,_,_,held,_⟩
    · exact finishWithin faithful back usable tree proper level fuel _ _ st readable looked fun path g _ => by omega
    · exact held.elim

theorem Opened.findEachWithin (faithful : S.Faithful) (back : cfg.json.ParsesBack)
    (usable : Usable StdString.ValidUtf8) (tree : SearchTree T) {m d : Nat} (level : Level m d T.entries) {fuel : Nat}
    (enough : d < fuel) (keys : List Key) : ∀ (bt : BTree) (st : σ), Opened h T bt → Readable cfg S st h T →
      ∃ bt' st', BTree.findEach cfg S fuel keys bt st =
        some (keys.map fun k => answer (OrderedMap.find k T.flatten),bt',st') := by
  induction keys with
  | nil => exact fun bt st _ _ => ⟨bt,st,rfl⟩
  | cons k keys ih =>
    intro bt st opened readable
    obtain ⟨bt₁,st₁,run,opened₁,keeps⟩ := opened.findWithin k faithful back usable tree level readable enough
    obtain ⟨bt',st',rest⟩ := ih bt₁ st₁ opened₁ (readable.mono keeps)
    refine ⟨bt',st',?_⟩
    rw [BTree.findEach,run]
    simp only [rest]
    rfl

end finds

section loaded
variable {σ : Type} {cfg : Config} {S : Storage σ}

theorem insertEachAnchorsRooted (two : 2 ≤ cfg.maxNodeSize) (here : cfg.addOp = true) (adds : S.AddsSucceed cfg)
    (faithful : S.Faithful) (back : cfg.json.ParsesBack) (kvs : List (Key × Value))
    (clean : ∀ x ∈ kvs, Clean StdString.ValidUtf8 x) (st : σ) :
    ∃ bt st' d, BTree.insertEach cfg S kvs BTree.fresh st = some (bt,st') ∧ Anchored cfg S kvs bt st' ∧
      Levels cfg.maxNodeSize d (top bt.root) := by
  obtain ⟨bt,st',run,anchored⟩ := insertEachAnchors two here adds faithful back kvs clean st
  obtain ⟨bt',st'',d,run',_,_,rooted⟩ := insertEachRooted two adds kvs st
  cases run.symm.trans run'
  exact ⟨bt,st',d,run,anchored,rooted⟩

/-- A tree loaded from its root's hash answers each find as the tree that was stored, and
needs no more blocks for it than that tree has levels. -/
theorem loadedFindsLogarithmic (two : 2 ≤ cfg.maxNodeSize) (here : cfg.addOp = true) (adds : S.AddsSucceed cfg)
    (faithful : S.Faithful) (back : cfg.json.ParsesBack) (kvs : List (Key × Value))
    (clean : ∀ x ∈ kvs, Clean StdString.ValidUtf8 x) (st : σ) :
    ∃ bt st', BTree.insertEach cfg S kvs BTree.fresh st = some (bt,st') ∧ ∀ keys,
      ∃ results bt₁ bt₂ st₂, BTree.findEach cfg S 0 keys bt st' = some (results,bt₁,st') ∧
        BTree.findEach cfg S (mostLevels cfg.maxNodeSize kvs + 1) keys
          (BTree.load cfg S bt.rootHash BTree.fresh st').1
          (BTree.load cfg S bt.rootHash BTree.fresh st').2 = some (results,bt₂,st₂) := by
  obtain ⟨bt,st',d,run,anchored,rooted⟩ := insertEachAnchorsRooted two here adds faithful back kvs clean st
  obtain ⟨empty,readable⟩ := anchored.readable two faithful back clean
  obtain ⟨second,load,opened⟩ := loadOpens cfg S st' empty
  have tree := anchored.rest.good.tree
  have most := rooted.most two anchored.contents tree
  refine ⟨bt,st',run,fun keys => ?_⟩
  obtain ⟨bt₂,st₂,finds⟩ := Opened.findEachWithin faithful back utf8Usable tree rooted.level
    (Nat.lt_succ_of_le most) keys second st' opened readable
  exact ⟨_,bt,bt₂,st₂,anchored.rest.findEach 0 st' keys,by rw [load]; exact finds⟩

theorem loadedFindsLogarithmicMock : ∃ bt st', BTree.insertEach (mockConfig 2) MockStorage.storage
      ([99,97,98,101,100].map fun b => (letter b,letter b)) BTree.fresh MockStorage.empty = some (bt,st') ∧
    ∀ keys, ∃ results bt₁ bt₂ st₂,
      BTree.findEach (mockConfig 2) MockStorage.storage 0 keys bt st' = some (results,bt₁,st') ∧
      BTree.findEach (mockConfig 2) MockStorage.storage 2 keys
        (BTree.load (mockConfig 2) MockStorage.storage bt.rootHash BTree.fresh st').1
        (BTree.load (mockConfig 2) MockStorage.storage bt.rootHash BTree.fresh st').2 = some (results,bt₂,st₂) :=
  loadedFindsLogarithmic (by decide) rfl (MockStorage.addsSucceed _) MockStorage.faithful nlohmannParsesBack _
    (lettersClean _ (by decide +kernel)) _

end loaded

end IpfsCache
