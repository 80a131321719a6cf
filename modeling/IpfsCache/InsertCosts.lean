import IpfsCache.Height

/-! What an insert into a stored tree costs: how many blocks it adds and how many it removes,
by the levels of the tree. -/
namespace IpfsCache
open OrderedMap (Sorted)
open Node Entries

structure Tally where
  adds : Nat
  removes : Nat

def Storage.tallied {σ : Type} (S : Storage σ) : Storage (σ × Tally) where
  cat st hash := ((S.cat st.1 hash).1,(S.cat st.1 hash).2,st.2)
  add st block := ((S.add st.1 block).1,(S.add st.1 block).2,{ st.2 with adds := st.2.adds + 1 })
  remove st hash := (S.remove st.1 hash,{ st.2 with removes := st.2.removes + 1 })

section tallied
variable {σ : Type} {cfg : Config} {S : Storage σ}

theorem talliedRun {View α : Type} (p : Program Value (Except ErrorCode Hash) View α) (st : σ) (t : Tally) :
    p.run S.tallied.add (st,t) = ((p.run S.add st).1,(p.run S.add st).2,
      { t with adds := t.adds + (p.requests S.add st).length }) := by
  induction p generalizing st t with
  | done result => rfl
  | await request view next ih =>
    refine (ih _ _ _).trans ?_
    simp only [Program.run,Program.requests,List.length_cons,Storage.tallied]
    rw [Nat.add_assoc,Nat.add_comm 1]

theorem talliedRemoves (ps : List Pause) (st : σ) (t : Tally) :
    BTree.removeAll S.tallied ps (st,t) =
      (BTree.removeAll S ps st,{ t with removes := t.removes + ps.length }) := by
  rw [BTree.removeAll,BTree.removeAll]
  induction ps generalizing st t with
  | nil => rfl
  | cons p ps ih =>
    rw [List.foldl_cons,List.foldl_cons]
    refine (ih _ _).trans ?_
    rw [List.length_cons,Nat.add_comm ps.length,← Nat.add_assoc]

end tallied

theorem storeCallsAppend (a b : Entries) : storeCallsBelow (a ++ b) = storeCallsBelow a ++ storeCallsBelow b := by
  induction a with
  | nil => rfl
  | cons p a ih =>
    obtain ⟨i,v,x,hash⟩ := p
    cases x <;> simp [storeCallsBelow,ih]

theorem storeCallsHashed {es : Entries} (hashed : everyNodeHasHash ⟨es⟩ = true) : storeCallsBelow es = [] := by
  refine List.eq_nil_iff_forall_not_mem.mpr fun d mem => ?_
  obtain ⟨p,inside,c,child,unknown,_⟩ := storeCallsBelowMem.mp mem
  have proper := (everyNodeHasHashIff.mp hashed p inside c child).1
  rw [unknown] at proper
  cases proper

theorem storeCallsOwn (c : Node) : c.storeCalls.length = (storeCallsBelow c.entries).length + 1 := by
  obtain ⟨es⟩ := c
  simp [storeCalls,entries]

theorem storeCallsUnknown {i : NodeId} {v : Value} (es post : Entries) :
    (storeCallsBelow ((i,⟨v,some ⟨es⟩,noHash⟩) :: post)).length =
      (storeCallsBelow es).length + 1 + (storeCallsBelow post).length := by
  simp only [storeCallsBelow,noHashEmpty,if_true,List.length_append,storeCallsOwn,entries]

abbrev ChildHashed (_ : Hash) (c : Node) : Prop := c.everyNodeHasHash = true

theorem hashedBacked (n : Node) : n.everyNodeHasHash = true → Backed ChildHashed n := by
  induction n using Node.induct with
  | step es ih =>
    intro hashed
    have each := everyNodeHasHashIff.mp hashed
    exact .mk (fun p mem c child _ => (each p mem c child).2)
      fun p mem c child => ih p mem c child (each p mem c child).2

theorem halvesStores {L R : Entries} {κ : Key} {x : Entry Node}
    (backed : Backed ChildHashed ⟨L ++ ((κ : NodeId),x) :: R⟩) :
    (storeCallsBelow (L ++ [(⊤,⟨⟨[]⟩,x.child,noHash⟩)])).length + (storeCallsBelow R).length ≤
      (storeCallsBelow (L ++ ((κ : NodeId),x) :: R)).length + if x.child.isSome then 1 else 0 := by
  obtain ⟨v,child,hash⟩ := x
  cases child with
  | none => simp [storeCallsAppend,storeCallsBelow]
  | some c =>
    obtain ⟨es⟩ := c
    rw [storeCallsAppend,storeCallsAppend,List.length_append,List.length_append,storeCallsUnknown]
    cases empty : hash.isEmpty with
    | true => simp [storeCallsBelow,empty,storeCallsOwn,entries]; omega
    | false =>
      have none_ := storeCallsHashed
        (backed.here (p := ((κ : NodeId),(⟨v,some ⟨es⟩,hash⟩ : Entry Node))) (by simp) rfl empty)
      simp [storeCallsBelow,empty,none_]
      omega

theorem tryRemoveLength (cfg : Config) (hash : Hash) (tree : Node) (held : Option Node) :
    (tryRemove cfg hash tree held).length ≤ 1 ∧ (hash = noHash → (tryRemove cfg hash tree held).length = 0) := by
  unfold tryRemove
  refine ⟨?_,?_⟩
  · split
    · exact Nat.zero_le 1
    · split <;> simp
  · rintro rfl
    rw [if_pos noHashEmpty]
    rfl

section grown
variable {cfg : Config} {key : Key} {value : Value}

theorem grownCosts (two : 2 ≤ cfg.maxNodeSize) {d : Nat} {es es' : Entries} {ps : List Pause}
    (grown : Grown cfg key value d es ps es') (good : GoodAt cfg.maxNodeSize d es)
    (hashed : everyNodeHasHash ⟨es⟩ = true) :
    (storeCallsBelow es').length ≤ 3 * d - 1 ∧ ps.length ≤ 2 * d - 1 := by
  induction grown with
  | @leaf es bare =>
    refine ⟨?_,Nat.zero_le _⟩
    have none_ : storeCallsBelow (OrderedMap.insert (key : NodeId) ⟨value,none,noHash⟩ es) = [] :=
      List.eq_nil_iff_forall_not_mem.mpr fun d mem => by
        obtain ⟨p,inside,c,child,_⟩ := storeCallsBelowMem.mp mem
        rcases OrderedMap.memInsert inside with rfl | old
        · cases child
        · rw [(bare p old).1] at child
          cases child
    rw [none_]
    exact Nat.zero_le _
  | @hit d pre post e less =>
    refine ⟨?_,Nat.zero_le _⟩
    have same : everyNodeHasHash ⟨pre ++ ((key : NodeId),{ e with value := value }) :: post⟩ = true := by
      refine everyNodeHasHashIff.mpr fun p mem c child => ?_
      rcases OrderedMap.memReplace ((key : NodeId),e) mem with rfl | old
      · exact everyNodeHasHashIff.mp hashed ((key : NodeId),e) (by simp) c child
      · exact everyNodeHasHashIff.mp hashed p old c child
    rw [storeCallsHashed same]
    exact Nat.zero_le _
  | @pass d pre post c es' i e ps cut other child below fits' ih =>
    obtain ⟨stores,removes⟩ := ih (good.child child) (everyNodeHasHashIff.mp hashed (i,e) (by simp) _ child).2
    have left : storeCallsBelow pre = [] := storeCallsHashed
      (everyNodeHasHashIff.mpr fun p mem => everyNodeHasHashIff.mp hashed p (by simp [mem]))
    have right : storeCallsBelow post = [] := storeCallsHashed
      (everyNodeHasHashIff.mpr fun p mem => everyNodeHasHashIff.mp hashed p (by simp [mem]))
    have one := (tryRemoveLength cfg e.childHash ⟨pre ++ (i,refill e es') :: post⟩ none).1
    have count : (storeCallsBelow (pre ++ (i,refill e es') :: post)).length = (storeCallsBelow es').length + 1 := by
      rw [storeCallsAppend,left,List.nil_append,refill,storeCallsUnknown,right]
      rfl
    rw [count,List.length_append,List.length_map]
    omega
  | @absorb d pre post c L R i e x κ ps cut other child below full mid ih =>
    have goodChild := good.child child
    have hashedChild := (everyNodeHasHashIff.mp hashed (i,e) (by simp) _ child).2
    obtain ⟨stores,removes⟩ := ih goodChild hashedChild
    have halves_ := halvesStores (grownBacked below (hashedBacked _ hashedChild))
    have after := (grownLevel two below goodChild).1
    have left : storeCallsBelow pre = [] := storeCallsHashed
      (everyNodeHasHashIff.mpr fun p mem => everyNodeHasHashIff.mp hashed p (by simp [mem]))
    have right : storeCallsBelow post = [] := storeCallsHashed
      (everyNodeHasHashIff.mpr fun p mem => everyNodeHasHashIff.mp hashed p (by simp [mem]))
    obtain ⟨own,bare⟩ := tryRemoveLength cfg x.childHash ⟨((κ : NodeId),upper L x) :: R⟩ none
    have one := (tryRemoveLength cfg e.childHash ⟨pre ++ (i,refill e []) :: post⟩ (some (halves L κ x R))).1
    have count : (storeCallsBelow (pre ++ ((κ : NodeId),upper L x) :: (i,refill e R) :: post)).length =
        (storeCallsBelow (L ++ [(⊤,⟨⟨[]⟩,x.child,noHash⟩)])).length + 1 + ((storeCallsBelow R).length + 1) := by
      rw [storeCallsAppend,left,List.nil_append,upper,storeCallsUnknown,refill,storeCallsUnknown,right]
      rfl
    rw [count,List.length_append,List.length_map,List.length_append]
    -- The entry in the middle of a leaf has neither a child nor a hash.
    cases d with
    | zero =>
      obtain ⟨null,empty⟩ := after.bare ((κ : NodeId),x) (by simp)
      dsimp only at null empty
      have nothing := bare empty
      simp only [null,Option.isSome_none,Bool.false_eq_true,if_false] at halves_ ⊢
      omega
    | succ d =>
      have most : (if x.child.isSome then 1 else 0) ≤ 1 := by split <;> simp
      omega

theorem rawCosts (two : 2 ≤ cfg.maxNodeSize) {root : Option Root} {d : Nat} (good : Good cfg.maxNodeSize (top root))
    (rooted : Levels cfg.maxNodeSize d (top root)) (hashed : (top root).everyNodeHasHash = true) {ps : List Pause}
    {n : Node} {hash : Hash} (raw : BTree.rawInsert cfg key value root = some (ps,⟨some n,hash⟩)) :
    n.storeCalls.length ≤ 3 * (d + 1) ∧ ps.length ≤ 2 * d := by
  obtain ⟨es,same⟩ : ∃ es, top root = ⟨es⟩ := by
    cases top root
    exact ⟨_,rfl⟩
  rw [same] at good rooted hashed
  have here : GoodAt cfg.maxNodeSize d es := ⟨good.tree,rooted.level,good.fits⟩
  obtain ⟨ps',es',grown,result⟩ := insertGrows key value two here
  have inserted := grownInserted two grown here
  rw [← same] at result
  have raw' := rawInsertTop result inserted.good.checks
  cases raw.symm.trans raw'
  obtain ⟨after,_,most⟩ := grownLevel two grown here
  obtain ⟨stores,removes⟩ := grownCosts two grown here hashed
  by_cases small : size es' ≤ cfg.maxNodeSize
  · rw [splitSmall small]
    refine ⟨?_,by dsimp only; omega⟩
    simp only [Option.getD_none,storeCallsOwn,entries]
    omega
  · obtain ⟨L,κ,x,R,rfl,full,mid,_,_,more⟩ := overfull two after.sorted small most
    rw [splitLarge after.sorted (by omega) (by rw [full,mid]) more]
    have halves_ := halvesStores (grownBacked grown (hashedBacked _ hashed))
    obtain ⟨own,bare⟩ := tryRemoveLength cfg x.childHash ⟨((κ : NodeId),upper L x) :: R⟩ none
    have count : (halves L κ x R).storeCalls.length =
        (storeCallsBelow (L ++ [(⊤,⟨⟨[]⟩,x.child,noHash⟩)])).length + 1 + ((storeCallsBelow R).length + 1) + 1 := by
      rw [storeCallsOwn,halves,upper,entries,storeCallsUnknown,storeCallsUnknown]
      rfl
    simp only [Option.getD_some,count,List.length_append]
    cases d with
    | zero =>
      obtain ⟨null,empty⟩ := after.bare ((κ : NodeId),x) (by simp)
      dsimp only at null empty
      have nothing := bare empty
      simp only [null,Option.isSome_none,Bool.false_eq_true,if_false] at halves_ ⊢
      omega
    | succ d =>
      have one : (if x.child.isSome then 1 else 0) ≤ 1 := by split <;> simp
      omega

end grown

section costs
variable {σ : Type} {cfg : Config} {S : Storage σ}

def Storage.AddsProper (S : Storage σ) : Prop :=
  ∀ st x, ∃ hash st', S.add st x = (.ok hash,st') ∧ hash.isEmpty = false

theorem Storage.AddsProper.succeed (proper : S.AddsProper) : S.AddsSucceed cfg := fun _ => proper

theorem Storage.AddsProper.tallied (proper : S.AddsProper) : S.tallied.AddsProper := by
  rintro ⟨st,t⟩ x
  obtain ⟨hash,st',added,some_⟩ := proper st x
  exact ⟨hash,(st',{ t with adds := t.adds + 1 }),by simp [Storage.tallied,added],some_⟩

theorem insertHashed (two : 2 ≤ cfg.maxNodeSize) (here : cfg.addOp = true) (proper : S.AddsProper) {bt bt' : BTree}
    (rest : Resting cfg.maxNodeSize bt) (hashed : (top bt.root).everyNodeHasHash = true) {key : Key} {value : Value}
    {st st' : σ} (run : BTree.insert cfg S key value bt st = some (.completed,bt',st')) :
    (top bt'.root).everyNodeHasHash = true := by
  have spec : AddSpec (addAnswers S) (fun _ _ _ => True) fun _ _ => True :=
    ⟨fun {w x h w'} given => by
      obtain ⟨hash,_,added,some_⟩ := proper w x
      have same := congrArg Prod.fst (given.symm.trans added)
      cases same
      exact ⟨some_,trivial⟩,fun _ _ => trivial,fun _ _ => trivial,fun _ _ => trivial⟩
  obtain ⟨ps,n,n',hash,st'',run',raw,inserted,alike,stored⟩ := insertRests two proper.succeed rest key value st
  cases run.symm.trans run'
  have backed : Backed (OwnBlock cfg fun _ _ => True) (top bt.root) :=
    (hashedBacked _ hashed).mono fun _ _ c own => ⟨trivial,own⟩
  have wp := storeWp spec n (removed cfg S ps (topHash bt.root) st) (inserted.backed _ backed)
  have post := Program.wpRun S.add (fun _ _ => rfl) _ _ wp
  rcases storeRootCases cfg S n noHash (removed cfg S ps (topHash bt.root) st) with ⟨absent,_⟩ | ⟨_,same⟩
  · rw [here] at absent
    cases absent
  · rcases out : (n.store cfg).run S.add (removed cfg S ps (topHash bt.root) st) with ⟨⟨n₁,outcome⟩,st₁⟩
    rw [out] at post same
    rw [stored] at same
    cases outcome <;> cases same
    exact (post.stored _ rfl).2.2

/-- An insert adds at most three blocks a level and removes at most two, at logarithmically
many levels. -/
theorem insertCostsLogarithmic (two : 2 ≤ cfg.maxNodeSize) (here : cfg.addOp = true) (proper : S.AddsProper)
    (kvs : List (Key × Value)) (st : σ) :
    ∃ bt st', BTree.insertEach cfg S kvs BTree.fresh st = some (bt,st') ∧ ∀ key value t,
      ∃ bt' st'' t', BTree.insert cfg S.tallied key value bt (st',t) = some (.completed,bt',(st'',t')) ∧
        t'.adds ≤ t.adds + 3 * (mostLevels cfg.maxNodeSize kvs + 1) ∧
        t'.removes ≤ t.removes + 2 * mostLevels cfg.maxNodeSize kvs + 1 := by
  obtain ⟨bt,st',run,rest,hashed,contents,d,rooted⟩ := @insertEachKeeps _ cfg S
    (fun done bt _ => Resting cfg.maxNodeSize bt ∧ (top bt.root).everyNodeHasHash = true ∧
      Contents done (top bt.root) ∧ ∃ d, Levels cfg.maxNodeSize d (top bt.root))
    (fun _ => True)
    (fun done key value bt st _ ⟨rest,hashed,contents,d,rooted⟩ => by
      obtain ⟨ps,n,n',hash,st',run,raw,inserted,alike,_⟩ := insertRests two proper.succeed rest key value st
      obtain ⟨d',after⟩ := rootedInsert two rest.good rooted raw
      exact ⟨_,st',run,settledRests (inserted.good.alike alike) hash,insertHashed two here proper rest hashed run,
        (contents.insert rest.good inserted).alike alike,d',after.alike alike⟩)
    kvs [] (fun _ _ => trivial) BTree.fresh st
    ⟨freshRests _,rfl,⟨fun x mem => (by cases mem),fun k => Iff.rfl⟩,0,freshRooted _⟩
  refine ⟨bt,st',run,fun key value t => ?_⟩
  obtain ⟨ps,n,n',hash,⟨st'',t'⟩,run',raw,_,_,stored⟩ :=
    insertRests two proper.tallied.succeed rest key value (st',t)
  have most : d ≤ mostLevels cfg.maxNodeSize kvs := rooted.most two contents rest.good.tree
  obtain ⟨stores,removes⟩ := rawCosts two rest.good rooted hashed raw
  have last := (tryRemoveLength cfg (topHash bt.root) ⟨[]⟩ none).1
  refine ⟨_,st'',t',run',?_⟩
  rw [removed,talliedRemoves] at stored
  rcases storeRootCases cfg S.tallied n noHash
    (BTree.removeAll S (ps ++ tryRemove cfg (topHash bt.root) ⟨[]⟩ none) st',
      { t with removes := t.removes + (ps ++ tryRemove cfg (topHash bt.root) ⟨[]⟩ none).length }) with
    ⟨absent,_⟩ | ⟨_,same⟩
  · rw [here] at absent
    cases absent
  · rw [stored,talliedRun] at same
    have tally := congrArg (fun out : Option Root × InsertOutcome × σ × Tally => out.2.2.2) same
    dsimp only at tally
    have calls := (@storeAdds _ cfg _ proper n
      (BTree.removeAll S (ps ++ tryRemove cfg (topHash bt.root) ⟨[]⟩ none) st')).length_eq
    rw [tally,← calls,List.length_append]
    dsimp only
    omega

theorem mockAddsProper : MockStorage.storage.AddsProper := fun _ _ => ⟨_,_,rfl,StdString.decimalProper _⟩

theorem insertCostsLogarithmicMock : ∃ bt st', BTree.insertEach (mockConfig 2) MockStorage.storage
      (letters [99,97,98,101,100]) BTree.fresh MockStorage.empty = some (bt,st') ∧ ∀ key value t, ∃ bt' st'' t',
      BTree.insert (mockConfig 2) MockStorage.storage.tallied key value bt (st',t) = some (.completed,bt',(st'',t')) ∧
      t'.adds ≤ t.adds + 6 ∧ t'.removes ≤ t.removes + 3 :=
  insertCostsLogarithmic (by decide) rfl mockAddsProper _ _

end costs

end IpfsCache
