import IpfsCache.Opened

/-! Store and load of a whole tree. Between two inserts every id in the tree stands for
the block of its node and stands once, so whatever an insert removes is not needed, and
the root's hash is enough to find everything again. -/
namespace IpfsCache
open OrderedMap (Sorted)
open Node Entries

section
variable {σ : Type} {cfg : Config} {S : Storage σ}

theorem Storage.Faithful.retains (faithful : S.Faithful) : Retains S.env S.holds where
  one := fun h h' => Except.ok.inj (h.1.symm.trans h'.1)
  adds := fun given => ⟨(faithful.stores given).1,(faithful.stores given).2.2,(faithful.stores given).2.1⟩
  addKeeps := fun given there => ⟨faithful.addKeeps given there.1,there.2⟩
  removeKeeps := by
    rintro w h _ g y rfl other there
    exact ⟨faithful.removeKeeps other there.1,there.2⟩

theorem holdsLegible (two : 2 ≤ cfg.maxNodeSize) (faithful : S.Faithful) (back : cfg.json.ParsesBack) (st : σ) :
    Legible cfg StdString.ValidUtf8 (S.holds st) :=
  ⟨two,utf8Usable,back.injective,faithful.retains.one,fun held => held.2⟩

abbrev OwnIds (_ : σ) (ids : Multiset Hash) : Prop := ids.Nodup

structure Anchored (cfg : Config) (S : Storage σ) (kvs : List (Key × Value)) (bt : BTree) (st : σ) : Prop where
  rest : Resting cfg.maxNodeSize bt
  contents : Contents kvs (top bt.root)
  secured : Secured cfg S.holds OwnIds st (ownId (topHash bt.root)) (top bt.root)
  published : (bt.root = none ∧ kvs = []) ∨ (kvs ≠ [] ∧ Published cfg S.holds st bt.root)

variable {Ledger : σ → Multiset Hash → Prop} {Fit : Key × Value → Prop}

theorem Secured.removeAll (custody : Custody cfg S.env S.holds Ledger OwnIds Fit) {own : Multiset Hash}
    {n : Node} (ps : List Pause) :
    ∀ st, Secured cfg S.holds OwnIds st (hashes ps + own) n →
    Secured cfg S.holds OwnIds (BTree.removeAll S ps st) own n := by
  induction ps with
  | nil =>
    intro st secured
    rwa [show hashes [] = 0 from rfl,zero_add] at secured
  | cons p ps ih =>
    intro st secured
    have whole : hashes (p :: ps) + own = {p.hash} + (hashes ps + own) := by
      rw [← add_assoc]
      rfl
    rw [whole] at secured
    exact ih _ (secured.remove custody rfl)

theorem Secured.removed (custody : Custody cfg S.env S.holds Ledger OwnIds Fit) (ps : List Pause) (hash : Hash)
    {n : Node} {st : σ} (secured : Secured cfg S.holds OwnIds st (hashes ps + ownId hash) n) :
    Secured cfg S.holds OwnIds (removed cfg S ps hash st) 0 n := by
  obtain ⟨lost,account,forgets⟩ := tryRemoveHashes cfg hash ⟨[]⟩ none
  refine Secured.removeAll custody _ st (Secured.lose custody lost ?_ forgets)
  rw [hashesAppend,add_zero,show lost + (hashes ps + hashes (tryRemove cfg hash ⟨[]⟩ none)) =
    hashes ps + (hashes (tryRemove cfg hash ⟨[]⟩ none) + lost) by abel,account]
  exact secured

theorem Anchored.insert (two : 2 ≤ cfg.maxNodeSize) (here : cfg.addOp = true) (adds : S.AddsSucceed cfg)
    (faithful : S.Faithful)
    (back : cfg.json.ParsesBack) {kvs : List (Key × Value)} {bt : BTree} {st : σ}
    (anchored : Anchored cfg S kvs bt st)
    (key : Key) (value : Value) (clean : ∀ x ∈ kvs ++ [(key,value)], Clean StdString.ValidUtf8 x) :
    ∃ ps n n' hash st', BTree.insert cfg S key value bt st = some (.completed,settled n' hash,st') ∧
      BTree.rawInsert cfg key value bt.root = some (ps,⟨some n,topHash bt.root⟩) ∧
      RawInserted cfg key value (top bt.root) ps n ∧
      BTree.storeRoot cfg S (some ⟨some n,noHash⟩) (IpfsCache.removed cfg S ps (topHash bt.root) st) =
        (some ⟨some n',hash⟩,.completed,st') ∧
      Alike n n' ∧ Anchored cfg S (kvs ++ [(key,value)]) (settled n' hash) st' := by
  have custody := faithful.retains.custody (holdsLegible two faithful back)
  obtain ⟨ps,n,n',hash,st',run,raw,inserted,alike,stored⟩ := insertRests two adds anchored.rest key value st
  have contents := anchored.contents.insert anchored.rest.good inserted
  have secured := ((anchored.secured.insert custody inserted).removed custody ps (topHash bt.root))
  have good := inserted.good.alike alike
  have post : StorePost cfg S.holds (fun _ _ => True) n (IpfsCache.removed cfg S ps (topHash bt.root) st) st'
      (n',.stored hash) := by
    have wp := storeWp custody.add n _ secured.backed
    have post := Program.wpRun S.add (fun _ _ => rfl) _ _ wp
    rcases storeRootCases cfg S n noHash (IpfsCache.removed cfg S ps (topHash bt.root) st) with ⟨absent,
      _⟩ | ⟨_,same⟩
    · rw [here] at absent
      cases absent
    · rcases out : (n.store cfg).run S.add (IpfsCache.removed cfg S ps (topHash bt.root) st) with ⟨⟨n₁,outcome⟩,st₁⟩
      rw [out] at post same
      rw [stored] at same
      cases outcome <;> cases same
      exact post
  obtain ⟨proper,own⟩ := post.stored hash rfl
  have owned : OwnIds (IpfsCache.removed cfg S ps (topHash bt.root) st) n.ids := by
    rw [← zero_add n.ids]
    exact secured.owned
  have settled_ := custody.settles inserted.good (fun x mem => clean x (contents.given x mem)) owned alike post
  refine ⟨ps,n,n',hash,st',run,raw,inserted,stored,alike,settledRests good hash,contents.alike alike,
    ⟨?_,post.backed⟩, .inr ⟨by simp,n',hash,rfl,proper,own⟩⟩
  change OwnIds st' (ownId hash + n'.ids)
  rw [ownIdSome proper]
  exact settled_

theorem anchoredFresh (st : σ) : Anchored cfg S [] BTree.fresh st :=
  ⟨freshRests _,⟨fun x mem => (by cases mem),fun k => Iff.rfl⟩,⟨Multiset.nodup_zero,.bare (by simp [Bare])⟩,
    .inl ⟨rfl,rfl⟩⟩

theorem insertEachAnchors (two : 2 ≤ cfg.maxNodeSize) (here : cfg.addOp = true) (adds : S.AddsSucceed cfg)
    (faithful : S.Faithful)
    (back : cfg.json.ParsesBack) (kvs : List (Key × Value)) (clean : ∀ x ∈ kvs, Clean StdString.ValidUtf8 x)
    (st : σ) :
    ∃ bt st', BTree.insertEach cfg S kvs BTree.fresh st = some (bt,st') ∧ Anchored cfg S kvs bt st' := by
  obtain ⟨bt,st',run,_,final⟩ := insertEachKeeps
    (fun done bt st => (∀ x ∈ done, Clean StdString.ValidUtf8 x) ∧ Anchored cfg S done bt st)
    (fun done key value bt st fit before => by
      have clean' : ∀ x ∈ done ++ [(key,value)], Clean StdString.ValidUtf8 x :=
        List.forall_mem_append.mpr ⟨before.1,by simpa using fit⟩
      obtain ⟨_,_,n',hash,st',run,_,_,_,_,after⟩ := before.2.insert two here adds faithful back key value clean'
      exact ⟨_,st',run,clean',after⟩)
    kvs [] clean BTree.fresh st ⟨fun x mem => (by cases mem),anchoredFresh st⟩
  exact ⟨bt,st',run,final⟩

theorem Published.readable (two : 2 ≤ cfg.maxNodeSize) (faithful : S.Faithful) (back : cfg.json.ParsesBack)
    {root : Option Root} {st : σ} (published : Published cfg S.holds st root) (good : Good cfg.maxNodeSize (top root))
    (backed : Backed (OwnBlock cfg (S.holds st)) (top root)) (some_ : (top root).flatten ≠ [])
    (clean : ∀ x ∈ (top root).flatten, Clean StdString.ValidUtf8 x) :
    (topHash root).isEmpty = false ∧ Readable cfg S st (topHash root) (top root) := by
  obtain ⟨n,hash,rfl,proper,own⟩ := published
  have written : Written cfg StdString.ValidUtf8 (S.holds st) n := ⟨good.tree,good.level,backed,clean⟩
  exact ⟨proper,fun _ => ⟨own.1,written.stored (holdsLegible two faithful back st) n own.2 some_⟩⟩

theorem Anchored.readable (two : 2 ≤ cfg.maxNodeSize) (faithful : S.Faithful) (back : cfg.json.ParsesBack)
    {kvs : List (Key × Value)}
    {bt : BTree} {st : σ} (anchored : Anchored cfg S kvs bt st) (clean : ∀ x ∈ kvs, Clean StdString.ValidUtf8 x) :
    (bt.rootHash.isEmpty = true → top bt.root = ⟨[]⟩) ∧ Readable cfg S st bt.rootHash (top bt.root) := by
  rcases anchored.published with ⟨none_,_⟩ | ⟨some_,published⟩
  · rw [BTree.rootHash,none_]
    exact ⟨fun _ => rfl,fun proper => by cases proper⟩
  · have contents := anchored.contents
    obtain ⟨proper,readable⟩ := published.readable two faithful back anchored.rest.good anchored.secured.backed
      (fun none_ => by
        obtain ⟨x,mem⟩ := List.exists_mem_of_ne_nil _ some_
        have key := (contents.keys x.1).mpr (List.mem_map_of_mem mem)
        rw [Node.keys,none_] at key
        cases key)
      fun x mem => clean x (contents.given x mem)
    rw [rootHashTop]
    refine ⟨fun empty => ?_,readable⟩
    rw [proper] at empty
    cases empty

/-- A second BTree that loads the root's hash finds, for any keys one after another,
exactly what the first finds. -/
theorem loadedFindsAgree (two : 2 ≤ cfg.maxNodeSize) (here : cfg.addOp = true) (adds : S.AddsSucceed cfg)
    (faithful : S.Faithful)
    (back : cfg.json.ParsesBack) (kvs : List (Key × Value)) (clean : ∀ x ∈ kvs, Clean StdString.ValidUtf8 x)
    (st : σ) :
    ∃ bt st', BTree.insertEach cfg S kvs BTree.fresh st = some (bt,st') ∧ ∃ need, ∀ keys fuel, need ≤ fuel →
      ∃ results bt₁ st₁ bt₂ st₂, BTree.findEach cfg S fuel keys bt st' = some (results,bt₁,st₁) ∧
        BTree.findEach cfg S fuel keys (BTree.load cfg S bt.rootHash BTree.fresh st').1
          (BTree.load cfg S bt.rootHash BTree.fresh st').2 = some (results,bt₂,st₂) := by
  obtain ⟨bt,st',run,anchored⟩ := insertEachAnchors two here adds faithful back kvs clean st
  obtain ⟨empty,readable⟩ := anchored.readable two faithful back clean
  obtain ⟨second,load,opened⟩ := loadOpens cfg S st' empty
  refine ⟨bt,st',run,sizeOf (top bt.root) + 1,fun keys fuel enough => ?_⟩
  obtain ⟨bt₂,st₂,finds,_⟩ :=
    Opened.findEach faithful back utf8Usable anchored.rest.good.tree enough keys second st' opened readable
  exact ⟨_,bt,st',bt₂,st₂,anchored.rest.findEach fuel st' keys,by rw [load]; exact finds⟩

end

theorem lettersClean (bs : List (Fin 256)) (ascii : ∀ b ∈ bs, 0 < b ∧ b < 128) :
    ∀ x ∈ bs.map fun b => (letter b,letter b), Clean StdString.ValidUtf8 x := by
  intro x mem
  obtain ⟨b,inside,rfl⟩ := List.mem_map.mp mem
  have proper : ProperKey (letter b) := ⟨rfl,by simpa [letter,StdString.NulFree,eq_comm] using
      (ascii b inside).1.ne'⟩
  exact ⟨proper,letterUtf8 b (ascii b inside).2,letterUtf8 b (ascii b inside).2⟩

theorem pairClean {k v : Fin 256} (key : 0 < k ∧ k < 128) (value : v < 128) :
    Clean StdString.ValidUtf8 (letter k,letter v) :=
  ⟨(lettersClean [k] (by simpa using key) (letter k,letter k) (by simp)).1,letterUtf8 k key.2,letterUtf8 v value⟩

theorem loadedFindsAgreeMock : ∃ bt st', BTree.insertEach (mockConfig 2) MockStorage.storage
      ([99,97,98,101,100].map fun b => (letter b,letter b)) BTree.fresh MockStorage.empty = some (bt,st') ∧
    ∃ need, ∀ keys fuel, need ≤ fuel → ∃ results bt₁ st₁ bt₂ st₂,
      BTree.findEach (mockConfig 2) MockStorage.storage fuel keys bt st' = some (results,bt₁,st₁) ∧
      BTree.findEach (mockConfig 2) MockStorage.storage fuel keys
        (BTree.load (mockConfig 2) MockStorage.storage bt.rootHash BTree.fresh st').1
        (BTree.load (mockConfig 2) MockStorage.storage bt.rootHash BTree.fresh st').2 = some (results,bt₂,st₂) :=
  loadedFindsAgree (by decide) rfl (MockStorage.addsSucceed _) MockStorage.faithful nlohmannParsesBack _
    (lettersClean _ (by decide +kernel)) _

end IpfsCache
