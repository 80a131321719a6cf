import IpfsCache.MockStorage
import IpfsCache.RawInsert
import IpfsCache.StoreSpec

/-! Inserts one after another. Between two of them the tree is whole and in memory, and
the buffer is empty; each is one raw_insert, the removal of the old root block and a store. -/
namespace IpfsCache
open OrderedMap (Sorted)
open Node Entries
variable {σ : Type} {cfg : Config} {S : Storage σ}

structure Resting (m : Nat) (bt : BTree) : Prop where
  buffer : bt.insertBuffer = []
  flag : bt.isInserting = false
  inMemory : InMemory bt.root
  good : Good m (top bt.root)

theorem freshRests (m : Nat) : Resting m BTree.fresh := ⟨rfl,rfl,.inl rfl,goodEmpty m⟩

theorem Resting.find {m : Nat} {bt : BTree} (rest : Resting m bt) (key : Key) :
    bt.find key = (bt,.done (answer (OrderedMap.find key (top bt.root).flatten))) := by
  rw [findInMemory rest.inMemory rest.good.tree rest.good.loaded,rest.buffer]
  rfl

theorem Resting.findAlone {m : Nat} {bt : BTree} (rest : Resting m bt) (key : Key) (fuel : Nat) (st : σ) :
    BTree.findAlone cfg S fuel key bt st = some (answer (OrderedMap.find key (top bt.root).flatten),bt,st) := by
  rw [BTree.findAlone,rest.find]
  cases fuel <;> rfl

theorem Resting.findEach {m : Nat} {bt : BTree} (rest : Resting m bt) (fuel : Nat) (st : σ) (keys : List Key) :
    BTree.findEach cfg S fuel keys bt st = some (keys.map fun k =>
    answer (OrderedMap.find k (top bt.root).flatten),bt,st) := by
  induction keys with
  | nil => rfl
  | cons k keys ih =>
    rw [BTree.findEach,rest.findAlone]
    simp only [ih]
    rfl

def removed (cfg : Config) (S : Storage σ) (ps : List Pause) (hash : Hash) (st : σ) : σ :=
  BTree.removeAll S (ps ++ tryRemove cfg hash ⟨[]⟩ none) st

theorem insertLoopDone {bt : BTree} {st : σ} (empty : bt.insertBuffer = []) :
    BTree.insertLoop cfg S bt st = some (.completed,bt,st) := by
  rw [BTree.insertLoop]
  split
  · rfl
  · rename_i filled
    cases empty.symm.trans filled

theorem insertStored (S : Storage σ) (st : σ) {bt : BTree} {key : Key} {value : Value} {ps : List Pause} {n : Node}
    (buffer : bt.insertBuffer = []) (flag : bt.isInserting = false)
    (raw : BTree.rawInsert cfg key value bt.root = some (ps,⟨some n,topHash bt.root⟩)) :
    BTree.insert cfg S key value bt st =
      let out := BTree.storeRoot cfg S (some ⟨some n,noHash⟩) (removed cfg S ps (topHash bt.root) st)
      some (out.2.1,⟨out.1,[],false⟩,out.2.2) := by
  obtain ⟨root,_,_⟩ := bt
  cases buffer
  cases flag
  have states : BTree.removeRoot cfg S (some ⟨some n,topHash root⟩) (BTree.removeAll S ps st) =
      (some ⟨some n,noHash⟩,removed cfg S ps (topHash root) st) := by
    simp [BTree.removeRoot,removed,BTree.removeAll]
  have one : OrderedMap.insert key value ([] : List (Key × Value)) = [(key,value)] := rfl
  simp only [BTree.insert,one,Bool.false_eq_true,if_false]
  rw [BTree.insertLoop]
  dsimp only at raw
  simp only [BTree.rawInsertAll,raw,states]
  rcases same : BTree.storeRoot cfg S (some ⟨some n,noHash⟩)
    (removed cfg S ps (topHash root) st) with ⟨root',outcome,st'⟩
  cases outcome <;> simp [insertLoopDone]

theorem storeRootCases (cfg : Config) (S : Storage σ) (n : Node) (hash : Hash) (st : σ) :
    (cfg.addOp = false ∧ BTree.storeRoot cfg S (some ⟨some n,hash⟩) st = (some ⟨some n,hash⟩,.completed,st)) ∨
    (cfg.addOp = true ∧ BTree.storeRoot cfg S (some ⟨some n,hash⟩) st =
      (some (BTree.afterStore hash ((n.store cfg).run S.add st).1).1,
        (BTree.afterStore hash ((n.store cfg).run S.add st).1).2,((n.store cfg).run S.add st).2)) := by
  cases here : cfg.addOp
  · exact .inl ⟨rfl,by simp [BTree.storeRoot,here]⟩
  · exact .inr ⟨rfl,by simp [BTree.storeRoot,here]⟩

def addAnswers (S : Storage σ) (st : σ) (x : Value) (reply : Except ErrorCode Hash) (st' : σ) : Prop :=
  S.add st x = (reply,st')

def settled (n : Node) (hash : Hash) : BTree := ⟨some ⟨some n,hash⟩,[],false⟩

theorem settledRests {m : Nat} {n : Node} (good : Good m n) (hash : Hash) : Resting m (settled n hash) :=
  ⟨rfl,rfl,.inr ⟨n,hash,rfl⟩,good⟩

theorem insertRests (two : 2 ≤ cfg.maxNodeSize) (adds : S.AddsSucceed cfg) {bt : BTree}
    (rest : Resting cfg.maxNodeSize bt) (key : Key) (value : Value) (st : σ) :
    ∃ ps n n' hash st', BTree.insert cfg S key value bt st = some (.completed,settled n' hash,st') ∧
      BTree.rawInsert cfg key value bt.root = some (ps,⟨some n,topHash bt.root⟩) ∧
      RawInserted cfg key value (top bt.root) ps n ∧ Alike n n' ∧
      BTree.storeRoot cfg S (some ⟨some n,noHash⟩) (removed cfg S ps (topHash bt.root) st) =
        (some ⟨some n',hash⟩,.completed,st') := by
  obtain ⟨ps,n,raw,inserted⟩ := rawInserts two rest.good key value
  have step := insertStored S st rest.buffer rest.flag raw
  rcases storeRootCases cfg S n noHash (removed cfg S ps (topHash bt.root) st) with
    ⟨_,same⟩ | ⟨here,same⟩
  · rw [same] at step
    exact ⟨ps,n,n,noHash,_,step,raw,inserted,.refl n,same⟩
  · have wp : (n.store cfg).Wp (addAnswers S) (fun _ => Alike n) (fun _ => StoreKeeps (addAnswers S) n)
        (removed cfg S ps (topHash bt.root) st) := storeKeeps n _
    obtain ⟨alike,stored⟩ := Program.wpRun S.add (fun _ _ => rfl) _ _ wp
    obtain ⟨h,outcome⟩ := stored fun st x r st' given => by
      obtain ⟨h,st'',ok,_⟩ := adds here st x
      exact ⟨h,(congrArg Prod.fst (given.symm.trans ok))⟩
    rcases out : (n.store cfg).run S.add (removed cfg S ps (topHash bt.root) st) with ⟨⟨n',outcome'⟩,st'⟩
    rw [out] at alike outcome same
    cases outcome
    rw [same] at step
    exact ⟨ps,n,n',h,st',step,raw,inserted,alike,same⟩

theorem insertEachKeeps (Inv : List (Key × Value) → BTree → σ → Prop) {Fit : Key × Value → Prop}
    (step : ∀ done key value bt st, Fit (key,value) → Inv done bt st →
      ∃ bt' st', BTree.insert cfg S key value bt st = some (.completed,bt',st') ∧
      Inv (done ++ [(key,value)]) bt' st')
    (kvs done : List (Key × Value)) (fit : ∀ x ∈ kvs, Fit x) (bt : BTree) (st : σ) (start : Inv done bt st) :
    ∃ bt' st', BTree.insertEach cfg S kvs bt st = some (bt',st') ∧ Inv (done ++ kvs) bt' st' := by
  induction kvs generalizing done bt st with
  | nil => exact ⟨bt,st,rfl,by simpa using start⟩
  | cons kv kvs ih =>
    obtain ⟨key,value⟩ := kv
    obtain ⟨bt₁,st₁,run,next⟩ := step done key value bt st (fit _ (by simp)) start
    obtain ⟨bt',st',rest,final⟩ := ih _ (fun x mem => fit x (List.mem_cons_of_mem _ mem)) bt₁ st₁ next
    exact ⟨bt',st',by simp only [BTree.insertEach,run,rest],by simpa using final⟩

structure Contents (kvs : List (Key × Value)) (n : Node) : Prop where
  given : ∀ x ∈ n.flatten, x ∈ kvs
  keys : ∀ k, k ∈ n.keys ↔ k ∈ OrderedMap.keys kvs

theorem Contents.insert {done : List (Key × Value)} {n n' : Node} {key : Key} {value : Value} {ps : List Pause}
    (contents : Contents done n) (good : Good cfg.maxNodeSize n) (h : RawInserted cfg key value n ps n') :
    Contents (done ++ [(key,value)]) n' := by
  constructor
  · intro x mem
    rcases h.members good mem with rfl | old
    · simp
    · exact List.mem_append_left _ (contents.given x old)
  · intro k
    rw [h.keys good,contents.keys]
    simp [OrderedMap.keys,or_comm,eq_comm]

theorem Contents.alike {kvs : List (Key × Value)} {n n' : Node} (h : Contents kvs n) (alike : Alike n n') :
    Contents kvs n' := ⟨by rw [alike.flat]; exact h.given,fun k => by rw [Node.keys,alike.flat]; exact h.keys k⟩

theorem Contents.answer {kvs : List (Key × Value)} {n : Node} (h : Contents kvs n) (tree : SearchTree n) (k : Key) :
    (∃ v, (k,v) ∈ kvs ∧ OrderedMap.find k n.flatten = some v) ∨
    (k ∉ OrderedMap.keys kvs ∧ OrderedMap.find k n.flatten = none) := by
  cases found : OrderedMap.find k n.flatten with
  | none => exact .inr ⟨fun mem => (OrderedMap.findNone tree.sorted).mp found ((h.keys k).mpr mem),rfl⟩
  | some v => exact .inl ⟨v,h.given _ ((OrderedMap.findSome tree.sorted).mp found),rfl⟩

theorem insertEachRests (two : 2 ≤ cfg.maxNodeSize) (adds : S.AddsSucceed cfg) (kvs : List (Key × Value)) (st : σ) :
    ∃ bt st', BTree.insertEach cfg S kvs BTree.fresh st = some (bt,st') ∧
      Resting cfg.maxNodeSize bt ∧ Contents kvs (top bt.root) := by
  refine insertEachKeeps (fun done bt _ => Resting cfg.maxNodeSize bt ∧ Contents done (top bt.root)) ?_ kvs []
    (fun _ _ => trivial) BTree.fresh st ⟨freshRests _,⟨fun x mem => (by cases mem),fun k => Iff.rfl⟩⟩
  intro done key value bt st _ ⟨rest,contents⟩
  obtain ⟨ps,n,n',hash,st',run,_,inserted,alike,_⟩ := insertRests two adds rest key value st
  exact ⟨_,st',run,settledRests (inserted.good.alike alike) hash,(contents.insert rest.good inserted).alike alike⟩

/-- No key is lost and none is invented. -/
theorem findsExactlyInserted (two : 2 ≤ cfg.maxNodeSize) (adds : S.AddsSucceed cfg) (kvs : List (Key × Value))
    (st : σ) : ∃ bt st', BTree.insertEach cfg S kvs BTree.fresh st = some (bt,st') ∧
      ∀ k fuel, ∃ result, BTree.findAlone cfg S fuel k bt st' = some (result,bt,st') ∧
        ((∃ v, result = .ok v) ↔ k ∈ OrderedMap.keys kvs) ∧
        (k ∉ OrderedMap.keys kvs → result = .error .notFound) ∧
        ∀ v, result = .ok v → (k,v) ∈ kvs := by
  obtain ⟨bt,st',run,rest,contents⟩ := insertEachRests two adds kvs st
  refine ⟨bt,st',run,fun k fuel => ⟨_,rest.findAlone k fuel st',?_⟩⟩
  rcases contents.answer rest.good.tree k with ⟨v,mem,found⟩ | ⟨free,missing⟩
  · have inside : k ∈ OrderedMap.keys kvs := List.mem_map_of_mem mem
    rw [found]
    refine ⟨⟨fun _ => inside,fun _ => ⟨v,rfl⟩⟩,fun h => absurd inside h,fun w same => ?_⟩
    cases same
    exact mem
  · rw [missing]
    refine ⟨⟨fun ⟨v,same⟩ => ?_,fun h => absurd h free⟩,fun _ => rfl,fun w same => ?_⟩ <;> cases same

theorem findsExactlyInsertedMock : ∃ bt st', BTree.insertEach (mockConfig 2) MockStorage.storage
      [(letter 99,letter 120),(letter 97,letter 120),(letter 98,letter 120),(letter 97,letter 121),
      (letter 100,letter 120)] BTree.fresh MockStorage.empty = some (bt,st') ∧
    ∀ k fuel, ∃ result, BTree.findAlone (mockConfig 2) MockStorage.storage fuel k bt st' = some (result,bt,st') ∧
      ((∃ v, result = .ok v) ↔ k ∈ OrderedMap.keys
        [(letter 99,letter 120),(letter 97,letter 120),(letter 98,letter 120),(letter 97,letter 121),
        (letter 100,letter 120)]) ∧
      (k ∉ OrderedMap.keys
        [(letter 99,letter 120),(letter 97,letter 120),(letter 98,letter 120),(letter 97,letter 121),
        (letter 100,letter 120)] → result = .error .notFound) ∧
      ∀ v, result = .ok v → (k,v) ∈
        [(letter 99,letter 120),(letter 97,letter 120),(letter 98,letter 120),(letter 97,letter 121),
        (letter 100,letter 120)] :=
  findsExactlyInserted (by decide) (MockStorage.addsSucceed _) _ _

end IpfsCache
