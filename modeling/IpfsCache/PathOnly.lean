import IpfsCache.Overfull
import IpfsCache.Sharing

/-! One more insert into a stored tree: what it removes, what it stores, and what is left
as it was. -/
namespace IpfsCache
open OrderedMap (Sorted)
open Node Entries

theorem offPathAt {key : Key} {c n : Node} {h : Hash} (off : OffPath key c h n) : ∃ depth, At n (depth + 1) c := by
  induction off with
  | @beside pre post i e p cut mem child =>
    exact ⟨0,.child .root (p := p) (by rcases mem with mem | mem <;> simp [mem]) child⟩
  | @under pre post e cut child => exact ⟨0,.child .root (p := ((key : NodeId),e)) (by simp) child⟩
  | @deeper pre post i e d cut other child below ih =>
    obtain ⟨depth,at_⟩ := ih
    exact ⟨depth + 1,atOver (p := (i,e)) (by simp) child at_⟩

theorem offPathHashed {key : Key} {c n : Node} {h : Hash} (off : OffPath key c h n)
    (hashed : n.everyNodeHasHash = true) : h.isEmpty = false := by
  induction off with
  | @beside pre post i e p cut mem child hash =>
    exact hash ▸ (everyNodeHasHashIff.mp hashed p (by rcases mem with mem | mem <;> simp [mem]) _ child).1
  | @under pre post e cut child hash =>
    exact hash ▸ (everyNodeHasHashIff.mp hashed ((key : NodeId),e) (by simp) _ child).1
  | @deeper pre post i e d cut other child below ih =>
    exact ih (everyNodeHasHashIff.mp hashed (i,e) (by simp) _ child).2

theorem hangsAt {c n : Node} {h : Hash} (hangs : Hangs c h n) : ∃ depth, At n (depth + 1) c := by
  induction hangs with
  | here mem child => exact ⟨0,.child .root mem child⟩
  | deeper mem child _ ih =>
    obtain ⟨depth,at_⟩ := ih
    exact ⟨depth + 1,atOver mem child at_⟩

theorem storeCalledInside {d n : Node} (called : StoreCalled d n) : ∀ x ∈ d.flatten, x ∈ n.flatten := by
  induction called with
  | here => exact fun x mem => mem
  | deeper mem child _ _ ih => exact fun x inside => belowInside mem child (ih x inside)

theorem siblingsApart {es : Entries} (tree : SearchTree ⟨es⟩) {p q : NodeId × Entry Node} (memP : p ∈ es)
    (memQ : q ∈ es)
    {c d : Node} (childP : p.2.child = some c) (childQ : q.2.child = some d) {x : Key × Value} (inP : x ∈ c.flatten)
    (inQ : x ∈ d.flatten) : p = q := by
  obtain ⟨pre,post,rfl⟩ := List.append_of_mem memP
  obtain ⟨i,e⟩ := p
  have sorted := tree.sorted
  have inner : x ∈ belowEntry e.child := by rw [show e.child = some c from childP]; exact inP
  rw [flattenAt] at sorted
  have parts := OrderedMap.sortedAppend.mp sorted
  rcases List.mem_append.mp memQ with before | after
  · exact absurd ((OrderedMap.sortedAppend.mp parts.1).2.2 x (belowInside before childQ inQ) x inner) (lt_irrefl _)
  · rcases List.mem_cons.mp after with same | after
    · exact same.symm
    · exact absurd (parts.2.2 x (List.mem_append_right _ inner) x
        (List.mem_append_right _ (belowInside after childQ inQ))) (lt_irrefl _)

theorem hashedUnstored {c d n : Node} {h : Hash} (tree : SearchTree n) (proper : h.isEmpty = false)
    (hangs : Hangs c h n) {depth : Nat} (inside : At c depth d) {x : Key × Value} (some_ : x ∈ d.flatten) :
    ¬ StoreCalled d n := by
  induction hangs with
  | @here es p mem child hash =>
    intro called
    cases called with
    | here =>
      have small := atSmaller inside
      have less := childSmaller mem child
      simp only [Node.mk.sizeOf_spec] at small
      omega
    | @deeper _ q c' mem' child' unknown below =>
      cases siblingsApart tree mem mem' child child' (atInside inside x some_) (storeCalledInside below x some_)
      rw [hash,proper] at unknown
      cases unknown
  | @deeper es p d' mem child below ih =>
    intro called
    obtain ⟨_,at_⟩ := hangsAt below
    cases called with
    | here =>
      have small := atSmaller (atTrans at_ inside)
      have less := childSmaller mem child
      simp only [Node.mk.sizeOf_spec] at small
      omega
    | @deeper _ q c' mem' child' unknown stored =>
      cases siblingsApart tree mem mem' child child' (atInside (atTrans at_ inside) x some_)
        (storeCalledInside stored x some_)
      cases child.symm.trans child'
      exact ih (tree.child mem child) stored

theorem hangsFilled : Filled fun n n' => ∀ c h, h.isEmpty = false → Hangs c h n → Hangs c h n' where
  refl _ _ _ _ hangs := hangs
  trans first second c h proper hangs := second c h proper (first c h proper hangs)
  child := by
    intro pre post i v c₀ c₁ x x' unknown fills c h proper hangs
    cases hangs with
    | here mem child hash =>
      rcases OrderedMap.memReplace (i,(⟨v,some c₁,x'⟩ : Entry Node)) mem with rfl | mem
      · rw [show x = h from hash,proper] at unknown
        cases unknown
      · exact .here mem child hash
    | deeper mem child below =>
      rcases OrderedMap.memReplace (i,(⟨v,some c₁,x'⟩ : Entry Node)) mem with rfl | mem
      · cases child
        exact .deeper (p := (i,⟨v,some c₁,x'⟩)) (by simp) rfl (fills c h proper below)
      · exact .deeper mem child below

theorem pathWithin (key : Key) (n : Node) (hashed : n.everyNodeHasHash = true) :
    (pathHashes key n : Multiset Hash) ≤ n.ids := by
  induction n using Node.induct with
  | step es ih =>
    rw [pathHashes]
    split
    · rename_i i v c hash post at_
      have mem := lowerBoundMem at_
      have there := everyNodeHasHashIff.mp hashed _ mem c rfl
      have within := idsInside mem
      split
      · exact Multiset.zero_le _
      · rw [entryIds,ownIdSome there.1] at within
        rw [← Multiset.cons_coe,← Multiset.singleton_add]
        exact (add_le_add le_rfl (ih _ mem c rfl there.2)).trans within
    · exact Multiset.zero_le _

theorem pathEntry {key : Key} {pre post : Entries} {i : NodeId} {e : Entry Node} (cut : CutAt key pre i)
    (hashed : everyNodeHasHash ⟨pre ++ (i,e) :: post⟩ = true) :
    (pathHashes key ⟨pre ++ (i,e) :: post⟩ : Multiset Hash) ≤ entryIds e := by
  by_cases same : i = key
  · cases same
    rw [pathHashesHit cut]
    exact Multiset.zero_le _
  · cases child : e.child with
    | none =>
      rw [pathHashes]
      split
      · rename_i at_
        cases (lowerBoundCut cut).symm.trans at_
        cases child
      · exact Multiset.zero_le _
    | some c =>
      have there := everyNodeHasHashIff.mp hashed (i,e) (by simp) c child
      rw [pathHashesDown cut same child,← Multiset.cons_coe,← Multiset.singleton_add,entryIds,child,
        ownIdSome there.1]
      exact add_le_add le_rfl (pathWithin key c there.2)

theorem offPathWithin {key : Key} {c n : Node} {h : Hash} (off : OffPath key c h n)
    (hashed : n.everyNodeHasHash = true) : (pathHashes key n : Multiset Hash) + (ownId h + c.ids) ≤ n.ids := by
  induction off with
  | @beside pre post i e p cut mem child hash =>
    have here := pathEntry cut hashed
    have there : ownId h + c.ids = entryIds p.2 := by rw [entryIds,child,← hash]
    rw [there,Node.ids,idsAt]
    rcases mem with mem | mem
    · rw [add_comm (idsOf pre),add_right_comm,add_assoc]
      exact add_le_add here ((idsInside mem).trans (Multiset.le_add_left _ _))
    · rw [add_comm (idsOf pre),add_assoc]
      exact add_le_add here ((idsInside mem).trans (Multiset.le_add_left _ _))
  | @under pre post e cut child hash =>
    have there : ownId h + c.ids = entryIds e := by rw [entryIds,child,← hash]
    rw [pathHashesHit cut,there]
    exact (zero_add _).trans_le (idsInside (p := ((key : NodeId),e)) (by simp))
  | @deeper pre post i e d cut other child below ih =>
    have there := everyNodeHasHashIff.mp hashed (i,e) (by simp) d child
    have within := @idsInside (pre ++ (i,e) :: post) (i,e) (by simp)
    rw [entryIds,child,ownIdSome there.1] at within
    rw [pathHashesDown cut other child,← Multiset.cons_coe,← Multiset.singleton_add,add_assoc]
    exact (add_le_add le_rfl (ih there.2)).trans within

section raw
variable {cfg : Config} {key : Key} {value : Value} {es : Entries}

theorem rawShares (two : 2 ≤ cfg.maxNodeSize) (good : Good cfg.maxNodeSize ⟨es⟩) (key : Key) (value : Value)
    (hash : Hash) : ∃ ps n, BTree.rawInsert cfg key value (some ⟨some ⟨es⟩,hash⟩) = some (ps,⟨some n,hash⟩) ∧
      Good cfg.maxNodeSize n ∧
      (splitsBeside cfg.maxNodeSize key ⟨es⟩ = false → hashes ps ≤ (pathHashes key ⟨es⟩ : Multiset Hash) ∧
        ∀ c h, h.isEmpty = false → OffPath key c h ⟨es⟩ → Hangs c h n) ∧
      (splitsBeside cfg.maxNodeSize key ⟨es⟩ = true → ∃ c h, OffPath key c h ⟨es⟩ ∧ StoreCalled c n) := by
  obtain ⟨d,here⟩ := good.depth
  obtain ⟨ps,es',grown,result⟩ := insertGrows key value two here
  have inserted := grownInserted two grown here
  have raw := @rawInsertTop cfg key value (some ⟨some ⟨es⟩,hash⟩) _ result inserted.good.checks
  refine ⟨_,_,raw,inserted.good,?_⟩
  obtain ⟨after,_,most⟩ := grownLevel two grown here
  by_cases small : size es' ≤ cfg.maxNodeSize
  · rw [splitSmall small]
    refine ⟨fun centred => ⟨removedOnPath two grown here centred,fun c h proper off =>
      offPathHangs two proper grown here centred off⟩,fun beside => ?_⟩
    rcases besideStored two grown here beside with ⟨c,h,off,p,mem,d,child,unknown,
      stored⟩ | ⟨full,_⟩
    · exact ⟨c,h,off,.deeper mem child unknown stored⟩
    · omega
  · obtain ⟨L,κ,x,R,rfl,full,mid,_,_,more⟩ := overfull two after.sorted small most
    rw [splitLarge after.sorted (by omega) (by rw [full,mid]) more]
    constructor
    · intro centred
      have fresh := middleFresh two grown here centred full mid
      refine ⟨?_,fun c h proper off => ?_⟩
      · rw [fresh,tryRemove,if_pos noHashEmpty,List.append_nil]
        exact removedOnPath two grown here centred
      · rcases splitHangs fresh proper (offPathHangs two proper grown here centred off) with
          left | right
        · exact .deeper (p := ((κ : NodeId),upper L x)) (by simp) rfl left
        · exact .deeper (p := ((⊤ : NodeId),(⟨⟨[]⟩,some ⟨R⟩,noHash⟩ : Entry Node))) (by simp) rfl right
    · intro beside
      rcases besideStored two grown here beside with ⟨c,h,off,stored⟩ | ⟨_,middle_⟩
      · refine ⟨c,h,off,?_⟩
        rcases storedHalves stored with left | right
        · exact .deeper (p := ((κ : NodeId),upper L x)) (by simp) rfl noHashEmpty left
        · exact .deeper (p := ((⊤ : NodeId),(⟨⟨[]⟩,some ⟨R⟩,noHash⟩ : Entry Node))) (by simp) rfl noHashEmpty right
      · obtain ⟨c,child,off⟩ := middle_ L R κ x rfl mid
        exact ⟨c,_,off,.deeper (p := ((κ : NodeId),upper L x)) (by simp) rfl noHashEmpty (middleStored child)⟩

end raw

def Storage.recorded {σ : Type} (S : Storage σ) : Storage (σ × List Hash) where
  cat st hash := ((S.cat st.1 hash).1,(S.cat st.1 hash).2,st.2)
  add st block := ((S.add st.1 block).1,(S.add st.1 block).2,st.2)
  remove st hash := (S.remove st.1 hash,st.2 ++ [hash])

section recorded
variable {σ : Type} {cfg : Config} {S : Storage σ}

theorem recordedRun {View α : Type} (p : Program Value (Except ErrorCode Hash) View α) (st : σ × List Hash) :
    (p.run S.recorded.add st).2.2 = st.2 := by
  induction p generalizing st with
  | done result => rfl
  | await request view next ih => exact ih _ _

theorem recordedRemoves (ps : List Pause) (st : σ × List Hash) :
    (BTree.removeAll S.recorded ps st).2 = st.2 ++ ps.map Pause.hash := by
  rw [BTree.removeAll]
  induction ps generalizing st with
  | nil => simp
  | cons p ps ih =>
    rw [List.foldl_cons,ih]
    simp [Storage.recorded]

theorem recordedStore (n : Node) (hash : Hash) (st : σ × List Hash) :
    (BTree.storeRoot cfg S.recorded (some ⟨some n,hash⟩) st).2.2.2 = st.2 := by
  rcases storeRootCases cfg S.recorded n hash st with ⟨_,same⟩ | ⟨_,same⟩ <;> rw [same]
  exact recordedRun _ st

/-- What an insert of the key does to a tree with this root, whose hashes `gone` it removes
and which it leaves as `n'`. -/
structure TouchesPath (cfg : Config) (key : Key) (value : Value) (n : Node) (hash : Hash) (gone : List Hash)
    (n' : Node) : Prop where
  most : (gone : Multiset Hash) ≤ hash ::ₘ (pathHashes key n : Multiset Hash)
  unremoved : (hash ::ₘ n.ids).Nodup → ∀ c h, OffPath key c h n → ∀ g ∈ h ::ₘ c.ids, g ∉ gone
  unstored : ∀ ps n₁, BTree.rawInsert cfg key value (some ⟨some n,hash⟩) = some (ps,⟨some n₁,hash⟩) →
    ∀ c h depth d, OffPath key c h n → At c depth d → d ∉ n₁.storeCalls
  kept : ∀ c h, OffPath key c h n → Hangs c h n'

theorem unremovedOf {key : Key} {n c : Node} {hash h : Hash} {gone : List Hash} (hashed : n.everyNodeHasHash = true)
    (most : (gone : Multiset Hash) ≤ hash ::ₘ (pathHashes key n : Multiset Hash)) (once : (hash ::ₘ n.ids).Nodup)
    (off : OffPath key c h n) : ∀ g ∈ h ::ₘ c.ids, g ∉ gone := by
  intro g mem there
  have within := offPathWithin off hashed
  rw [ownIdSome (offPathHashed off hashed),Multiset.singleton_add] at within
  have once' := Multiset.nodup_of_le ((Multiset.cons_le_cons_iff hash).mpr within) once
  rw [← Multiset.cons_add] at once'
  exact Multiset.disjoint_left.mp (Multiset.nodup_add.mp once').2.2
    (Multiset.mem_of_le most (by simpa using there)) mem

theorem storedHangs {n n' : Node} {hash hash' : Hash} {st : σ}
    (root : (BTree.storeRoot cfg S (some ⟨some n,hash⟩) st).1 = some ⟨some n',hash'⟩) {c : Node} {h : Hash}
    (proper : h.isEmpty = false) (hangs : Hangs c h n) : Hangs c h n' := by
  rcases storeRootCases cfg S n hash st with ⟨_,same⟩ | ⟨_,same⟩
  · rw [same] at root
    cases root
    exact hangs
  · have fills := (Program.wpRun S.add (fun _ _ => rfl) _ _
      (@storeFills _ (addAnswers S) cfg _ hangsFilled n st)).1
    rw [same] at root
    rcases out : (n.store cfg).run S.add st with ⟨⟨n₁,outcome⟩,st'⟩
    rw [out] at root fills
    cases outcome <;> cases root <;> exact fills c h proper hangs

theorem besideTouches (two : 2 ≤ cfg.maxNodeSize) {key : Key} {value : Value} {n n' : Node} {hash : Hash}
    {gone : List Hash} (good : Good cfg.maxNodeSize n) (beside : splitsBeside cfg.maxNodeSize key n = true) :
    ¬ TouchesPath cfg key value n hash gone n' := by
  intro touches
  obtain ⟨es⟩ := n
  obtain ⟨ps,n₁,raw,_,_,stored⟩ := rawShares two good key value hash
  obtain ⟨c,h,off,called⟩ := stored beside
  exact touches.unstored ps n₁ raw c h 0 c off .root (storeCallsMem.mpr called)

theorem insertRunRests (two : 2 ≤ cfg.maxNodeSize) {kvs : List (Key × Value)} {bt : BTree} {st st' : σ}
    (built : BTree.insertRun cfg S kvs BTree.fresh st = some (bt,st')) : Resting cfg.maxNodeSize bt := by
  obtain ⟨bt₁,st₁,run,rest⟩ := insertRunKeeps (S := S) (Resting cfg.maxNodeSize) (fun _ => True)
    (fun key value bt st _ rest => insertGoes two rest key value st) kvs (fun _ _ => trivial) BTree.fresh st
    (freshRests _)
  cases built.symm.trans run
  exact rest

/-- An insert touches its own path only, exactly when no node on it is split beside it. -/
theorem touchesPath (two : 2 ≤ cfg.maxNodeSize) {kvs : List (Key × Value)} {bt bt' : BTree} {st st₁ st₂ : σ}
    {n n' : Node} {hash hash' : Hash} (built : BTree.insertRun cfg S kvs BTree.fresh st = some (bt,st₁))
    (root : bt.root = some ⟨some n,hash⟩) (hashed : n.everyNodeHasHash = true) {key : Key} {value : Value}
    {gone : List Hash}
    (inserted : BTree.insert cfg S.recorded key value bt (st₁,[]) = some (.completed,bt',(st₂,gone)))
    (root' : bt'.root = some ⟨some n',hash'⟩) :
    TouchesPath cfg key value n hash gone n' ↔ splitsBeside cfg.maxNodeSize key n = false := by
  have rest := insertRunRests two built
  have good : Good cfg.maxNodeSize n := by
    have there := rest.good
    rwa [root] at there
  constructor
  · intro touches
    by_contra away
    exact besideTouches two good (by simpa using away) touches
  · intro centre
    obtain ⟨es⟩ := n
    obtain ⟨ps,n₁,raw,good₁,centred,_⟩ := rawShares two good key value hash
    obtain ⟨most,hangs⟩ := centred centre
    have step := insertStored S.recorded (st₁,[]) rest.buffer rest.flag (by rw [root]; exact raw)
    rw [inserted,root] at step
    have outcome := Option.some.inj step
    obtain ⟨_,outcome⟩ := Prod.mk.inj outcome
    obtain ⟨tree,state⟩ := Prod.mk.inj outcome
    have record : gone = (ps ++ tryRemove cfg hash ⟨[]⟩ none).map Pause.hash := by
      have same := congrArg Prod.snd state
      rw [recordedStore,removed,recordedRemoves] at same
      exact same
    have most' : (gone : Multiset Hash) ≤ hash ::ₘ (pathHashes key ⟨es⟩ : Multiset Hash) := by
      rw [record,← Multiset.singleton_add,add_comm]
      exact (hashesAppend ps _).trans_le (add_le_add most (tryRemoveMost ..))
    refine ⟨most',fun once c h off => unremovedOf hashed most' once off,fun ps' n₂ raw' c h depth d off at_ => ?_,
      fun c h off => ?_⟩
    · cases raw.symm.trans raw'
      have proper := offPathHashed off hashed
      obtain ⟨depth',inside⟩ := offPathAt off
      obtain ⟨d',level⟩ := good.level
      obtain ⟨_,_,_,levelD,_,half⟩ := atGood good.tree level good.fits (atTrans inside at_)
      have some_ := half (by omega)
      obtain ⟨L,κ,x,R,same,_⟩ := middle levelD.sorted (n := 0) (lt_of_lt_of_le (by omega) some_)
      obtain ⟨ds⟩ := d
      have own : ((κ : NodeId),x) ∈ ds := by
        rw [show ds = L ++ ((κ : NodeId),x) :: R from same]
        simp
      rw [storeCallsMem]
      exact hashedUnstored good₁.tree proper (hangs c h proper off) at_ (ownInside own rfl)
    · have proper := offPathHashed off hashed
      rw [tree] at root'
      exact storedHangs root' proper (hangs c h proper off)

end recorded

def letters (keys : List (Fin 256)) : List (Key × Value) := keys.map fun b => (letter b,letter 120)

def triedOn (keys : List (Fin 256)) (key : Key) (P : Node → Bool) : Bool :=
  (BTree.insertRun (mockConfig 2) MockStorage.storage (letters keys) BTree.fresh MockStorage.empty).any fun out =>
    out.1.root.any fun r => r.node.any fun n => n.everyNodeHasHash && P n &&
      (BTree.insert (mockConfig 2) MockStorage.storage.recorded key (letter 120) out.1 (out.2,[])).any fun out' =>
        decide (out'.1 = .completed) && out'.2.1.root.any fun r' => r'.node.isSome

theorem triedOnRun {keys : List (Fin 256)} {key : Key} {P : Node → Bool} (tried : triedOn keys key P = true) :
    ∃ bt st bt' st' n n' hash hash' gone,
      BTree.insertRun (mockConfig 2) MockStorage.storage (letters keys) BTree.fresh MockStorage.empty = some (bt,st) ∧
      bt.root = some ⟨some n,hash⟩ ∧ n.everyNodeHasHash = true ∧ P n = true ∧
      BTree.insert (mockConfig 2) MockStorage.storage.recorded key (letter 120) bt (st,[]) =
        some (.completed,bt',(st',gone)) ∧
      bt'.root = some ⟨some n',hash'⟩ := by
  obtain ⟨⟨bt,st⟩,built,tree⟩ := Option.any_eq_true _ _ |>.mp tried
  obtain ⟨⟨node,hash⟩,root,there⟩ := Option.any_eq_true _ _ |>.mp tree
  obtain ⟨n,rfl,seen⟩ := Option.any_eq_true _ _ |>.mp there
  simp only [Bool.and_eq_true] at seen
  obtain ⟨⟨out',bt',st',gone⟩,inserted,ended⟩ := Option.any_eq_true _ _ |>.mp seen.2
  simp only [Bool.and_eq_true,decide_eq_true_eq] at ended
  obtain ⟨⟨node',hash'⟩,root',some_⟩ := Option.any_eq_true _ _ |>.mp ended.2
  obtain ⟨n',rfl⟩ := Option.isSome_iff_exists.mp some_
  cases ended.1
  exact ⟨bt,st,bt',st',n,n',hash,hash',gone,built,root,seen.1.1,seen.1.2,inserted,root'⟩

theorem touchesPathSplit : ∃ bt st bt' st' n n' hash hash' gone,
    BTree.insertRun (mockConfig 2) MockStorage.storage (letters [97,98,99,100,101,102,65]) BTree.fresh
      MockStorage.empty = some (bt,st) ∧
    bt.root = some ⟨some n,hash⟩ ∧ splits 2 (letter 48) n = true ∧
    BTree.insert (mockConfig 2) MockStorage.storage.recorded (letter 48) (letter 120) bt (st,[]) =
      some (.completed,bt',(st',gone)) ∧
    bt'.root = some ⟨some n',hash'⟩ ∧ TouchesPath (mockConfig 2) (letter 48) (letter 120) n hash gone n' := by
  obtain ⟨bt,st,bt',st',n,n',hash,hash',gone,built,root,hashed,seen,inserted,root'⟩ :=
    triedOnRun (show triedOn [97,98,99,100,101,102,65] (letter 48) (fun n => splits 2 (letter 48) n &&
      !splitsBeside 2 (letter 48) n) = true by decide +kernel)
  simp only [Bool.and_eq_true,Bool.not_eq_true'] at seen
  exact ⟨bt,st,bt',st',n,n',hash,hash',gone,built,root,seen.1,inserted,root',
    (touchesPath (by decide) built root hashed inserted root').mpr seen.2⟩

theorem siblingStoredAgain : ∃ bt st bt' st' n n' hash hash' gone,
    BTree.insertRun (mockConfig 2) MockStorage.storage (letters [97,98,99,100,101,102]) BTree.fresh
      MockStorage.empty = some (bt,st) ∧
    bt.root = some ⟨some n,hash⟩ ∧ n.everyNodeHasHash = true ∧ hash.isEmpty = false ∧
    BTree.insert (mockConfig 2) MockStorage.storage.recorded (letter 103) (letter 120) bt (st,[]) =
      some (.completed,bt',(st',gone)) ∧
    bt'.root = some ⟨some n',hash'⟩ ∧ ¬ TouchesPath (mockConfig 2) (letter 103) (letter 120) n hash gone n' := by
  obtain ⟨bt,st,bt',st',n,n',hash,hash',gone,built,root,hashed,seen,inserted,root'⟩ :=
    triedOnRun (show triedOn [97,98,99,100,101,102] (letter 103)
      (splitsBeside 2 (letter 103)) = true by decide +kernel)
  have good : Good 2 n := by
    have there := (insertRunRests (show 2 ≤ (mockConfig 2).maxNodeSize by decide) built).good
    rwa [root] at there
  have proper : (BTree.insertRun (mockConfig 2) MockStorage.storage (letters [97,98,99,100,101,102]) BTree.fresh
      MockStorage.empty).all (fun out => !out.1.rootHash.isEmpty) = true := by decide +kernel
  rw [built,Option.all_some,BTree.rootHash,root] at proper
  exact ⟨bt,st,bt',st',n,n',hash,hash',gone,built,root,hashed,by simpa using proper,inserted,root',
    besideTouches (show 2 ≤ (mockConfig 2).maxNodeSize by decide) good seen⟩

end IpfsCache
