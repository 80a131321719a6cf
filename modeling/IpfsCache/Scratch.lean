import IpfsCache.Sequential

/-! The hash of a tree computed from scratch, bottom-up, with no cached hash to rely on.
Over a content-addressed storage the cached hashes are these, and the store that skips
every child with a hash publishes the same root. -/
namespace IpfsCache
open OrderedMap (Sorted)
open Node Entries

namespace Node
mutual
def erase : Node → Node
  | ⟨es⟩ => ⟨eraseEntries es⟩

def eraseEntries : Entries → Entries
  | [] => []
  | (i,⟨value,none,_⟩) :: rest => (i,⟨value,none,noHash⟩) :: eraseEntries rest
  | (i,⟨value,some c,_⟩) :: rest => (i,⟨value,some c.erase,noHash⟩) :: eraseEntries rest
end

theorem eraseEntriesCons (i : NodeId) (v : Value) (child : Option Node) (hash : Hash) (rest : Entries) :
    eraseEntries ((i,⟨v,child,hash⟩) :: rest) = (i,⟨v,child.map erase,noHash⟩) :: eraseEntries rest := by
  cases child <;> rfl

end Node

section scratch
variable (cfg : Config) (H : Value → Hash)

def contentAdd (_ : Unit) (x : Value) : Except ErrorCode Hash × Unit := (.ok (H x),())

def scratch (n : Node) : Hash :=
  match ((n.erase.store cfg).run (contentAdd H) ()).1.2 with
  | .stored hash => hash
  | _ => noHash

def Fresh : Node → Prop := Backed fun hash c => hash = scratch cfg H c

end scratch

section store
variable {σ : Type} {cfg : Config} {S : Storage σ} {H : Value → Hash}

structure StoresFresh (cfg : Config) (S : Storage σ) (H : Value → Hash) (n : Node) (st : σ) (n' : Node)
    (st' : σ) : Prop where
  run : (n.store cfg).run S.add st = ((n',.stored (scratch cfg H n)),st')
  same : n'.erase = n.erase
  fresh : Fresh cfg H n'

theorem scratchStores (cfg : Config) (H : Value → Hash) (n : Node) :
    ((n.erase.store cfg).run (contentAdd H) ()).1.2 = .stored (scratch cfg H n) := by
  let answers (_ : Unit) (x : Value) (reply : Except ErrorCode Hash) (_ : Unit) : Prop := reply = .ok (H x)
  have wp : (n.erase.store cfg).Wp answers (fun _ => Alike n.erase) (fun _ => StoreKeeps answers n.erase)
      () := storeKeeps n.erase ()
  obtain ⟨h,out⟩ := (Program.wpRun (contentAdd H) (fun _ _ => rfl) _ _ wp).2 fun _ x _ _ given => ⟨H x,given⟩
  rw [scratch,out]

theorem storeLoopFresh (adds : ∀ st x, (S.add st x).1 = .ok (H x)) (rest : Entries) :
    (∀ p ∈ rest, ∀ c, p.2.child = some c → ∀ st, ∃ c' st', StoresFresh cfg S H c st c' st') → Loaded ⟨rest⟩ →
    Fresh cfg H ⟨rest⟩ → ∀ (done done' : Entries) (json : Json) (st : σ), ∃ rest' h st',
      (storeLoop cfg done json rest).run S.add st = ((⟨done ++ rest'⟩,.stored h),st') ∧
      ((storeLoop cfg done' json (eraseEntries rest)).run (contentAdd H) ()).1.2 = .stored h ∧
      eraseEntries rest' = eraseEntries rest ∧ Fresh cfg H ⟨rest'⟩ := by
  induction rest with
  | nil =>
    intro _ _ fresh done done' json st
    refine ⟨[],H (cfg.json.dump json),(S.add st (cfg.json.dump json)).2,?_,?_,rfl,fresh⟩
    · simp [storeLoop,Program.run,adds]
    · simp [storeLoop,eraseEntries,Program.run,contentAdd]
  | cons p rest ih =>
    intro children loaded fresh done done' json st
    obtain ⟨i,value,child,hash⟩ := p
    have inside : ∀ q ∈ rest, q ∈ (i,(⟨value,child,hash⟩ : Entry Node)) :: rest := fun q mem =>
        List.mem_cons_of_mem _ mem
    have tail := ih (fun q mem => children q (inside q mem))
      (.mk (fun q mem => loaded.here q (inside q mem)) fun q mem c => loaded.child (inside q mem))
        (fresh.sub inside)
    have close (e : Entry Node) (json' : Json) (st₁ : σ) (done'' : Entries) (own : Fresh cfg H ⟨[(i,e)]⟩)
        (value_ : e.value = value) (child_ : e.child.map erase = child.map erase)
        (here : (storeLoop cfg done json ((i,⟨value,child,hash⟩) :: rest)).run S.add st =
          (storeLoop cfg (done ++ [(i,e)]) json' rest).run S.add st₁)
        (there : ((storeLoop cfg done' json (eraseEntries ((i,⟨value,child,hash⟩) :: rest))).run (contentAdd H)
          ()).1.2 = ((storeLoop cfg done'' json' (eraseEntries rest)).run (contentAdd H) ()).1.2) :
        ∃ rest' h st',
          (storeLoop cfg done json ((i,⟨value,child,hash⟩) :: rest)).run S.add st =
            ((⟨done ++ rest'⟩,.stored h),st') ∧
          ((storeLoop cfg done' json (eraseEntries ((i,⟨value,child,hash⟩) :: rest))).run (contentAdd H)
            ()).1.2 = .stored h ∧
          eraseEntries rest' = eraseEntries ((i,⟨value,child,hash⟩) :: rest) ∧ Fresh cfg H ⟨rest'⟩ := by
      obtain ⟨rest',h,st',run,erased,same,fresh'⟩ := tail (done ++ [(i,e)]) done'' json' st₁
      obtain ⟨value',child',hash'⟩ := e
      cases value_
      refine ⟨(i,_) :: rest',h,st',here.trans (run.trans (by simp)),there.trans erased,?_,own.append fresh'⟩
      rw [eraseEntriesCons,eraseEntriesCons,same,child_]
    have recurse (c : Node) : ∃ done'',
        ((storeLoop cfg done' json ((i,⟨value,some c.erase,noHash⟩) :: eraseEntries rest)).run (contentAdd H)
          ()).1.2 =
          ((storeLoop cfg done'' ((storeValue i value json).setField (jsonKey i) childField (scratch cfg H c))
            (eraseEntries rest)).run (contentAdd H) ()).1.2 := by
      have stored := scratchStores cfg H c
      rcases run : (c.erase.store cfg).run (contentAdd H) () with ⟨⟨c',out⟩,_⟩
      rw [run] at stored
      cases stored
      have empty : noHash.isEmpty = true := rfl
      exact ⟨done' ++ [(i,⟨value,some c',scratch cfg H c⟩)],
        by simp only [storeLoop,empty,if_true,Program.runBind,run]⟩
    by_cases cached : hash.isEmpty = true
    · cases child with
      | none =>
        refine close ⟨value,none,hash⟩ (storeValue i value json) st
          (done' ++ [(i,⟨value,none,noHash⟩)]) ?_ rfl rfl ?_ ?_
        · exact .mk (by simp) (by simp)
        · simp only [storeLoop,cached,if_true]
        · have empty : noHash.isEmpty = true := rfl
          simp only [eraseEntries,storeLoop,empty,if_true]
      | some c =>
        obtain ⟨c',st₁,stored⟩ := children (i,⟨value,some c,hash⟩) (by simp) c rfl st
        obtain ⟨done'',there⟩ := recurse c
        refine close ⟨value,some c',scratch cfg H c⟩ _ st₁ done'' (Backed.one (fun _ => ?_) stored.fresh) rfl
          (congrArg some stored.same) ?_ there
        · rw [scratch,scratch,stored.same]
        · simp only [storeLoop,cached,if_true,Program.runBind,stored.run]
    · have known : hash.isEmpty = false := by simpa using cached
      cases child with
      | none => exact absurd (loaded.here (i,⟨value,none,hash⟩) (by simp) rfl) cached
      | some c =>
        have own : hash = scratch cfg H c := fresh.here (p := (i,⟨value,some c,hash⟩)) (by simp) rfl known
        obtain ⟨done'',there⟩ := recurse c
        rw [← own] at there
        refine close ⟨value,some c,hash⟩ _ st done'' ?_ rfl rfl (by rw [storeLoopKnown known]) there
        exact fresh.sub (by simp)

theorem storeFresh (adds : ∀ st x, (S.add st x).1 = .ok (H x)) (n : Node) (loaded : Loaded n)
    (fresh : Fresh cfg H n) (st : σ) : ∃ n' st', StoresFresh cfg S H n st n' st' := by
  induction n using Node.induct generalizing st with
  | step es ih =>
    obtain ⟨rest',h,st',run,erased,same,fresh'⟩ := storeLoopFresh adds es
      (fun p mem c child st => ih p mem c child (loaded.child mem child)
        (fresh.child mem child) st) loaded fresh [] [] .null st
    have root : scratch cfg H ⟨es⟩ = h := by
      have stored := scratchStores cfg H ⟨es⟩
      rw [erase,store,erased] at stored
      cases stored
      rfl
    exact ⟨⟨rest'⟩,st',by rw [store,run,root]; rfl,by rw [erase,erase,same],fresh'⟩

structure FreshlyHashed (cfg : Config) (H : Value → Hash) (bt : BTree) : Prop where
  rest : Resting cfg.maxNodeSize bt
  fresh : Fresh cfg H (top bt.root)

theorem insertPublishes (two : 2 ≤ cfg.maxNodeSize) (here : cfg.addOp = true)
    (adds : ∀ st x, (S.add st x).1 = .ok (H x)) (proper : ∀ x, (H x).isEmpty = false)
    {bt : BTree} (before : FreshlyHashed cfg H bt) (key : Key) (value : Value) (st : σ) :
    ∃ bt' st', BTree.insert cfg S key value bt st = some (.completed,bt',st') ∧ FreshlyHashed cfg H bt' ∧
      bt'.rootHash = scratch cfg H (top bt'.root) := by
  have succeed : S.AddsSucceed cfg := fun _ st x =>
    ⟨H x,(S.add st x).2,Prod.ext (adds st x) rfl,proper x⟩
  obtain ⟨ps,n,n',hash,st',run,_,inserted,alike,stored⟩ := insertRests two succeed before.rest key value st
  obtain ⟨n'',st'',out⟩ := storeFresh adds n inserted.good.loaded (inserted.backed _ before.fresh)
    (removed cfg S ps (topHash bt.root) st)
  rcases storeRootCases cfg S n noHash (removed cfg S ps (topHash bt.root) st) with
    ⟨absent,_⟩ | ⟨_,same⟩
  · rw [here] at absent
    cases absent
  · rw [stored,out.run] at same
    cases same
    exact ⟨_,_,run,⟨settledRests (inserted.good.alike alike) _,out.fresh⟩,by
      change scratch cfg H n = scratch cfg H n'
      rw [scratch,scratch,out.same]⟩

theorem insertsPublish (two : 2 ≤ cfg.maxNodeSize) (here : cfg.addOp = true)
    (adds : ∀ st x, (S.add st x).1 = .ok (H x)) (proper : ∀ x, (H x).isEmpty = false) (kvs : List (Key × Value))
    (st : σ) :
    ∃ bt st', BTree.insertEach cfg S kvs BTree.fresh st = some (bt,st') ∧ FreshlyHashed cfg H bt := by
  refine insertEachKeeps (fun _ bt _ => FreshlyHashed cfg H bt)
    (fun done key value bt st _ before => ?_) kvs [] (fun _ _ => trivial) BTree.fresh st
    ⟨freshRests _,.bare (by simp [Bare])⟩
  obtain ⟨bt',st',run,after,_⟩ := insertPublishes two here adds proper before key value st
  exact ⟨bt',st',run,after⟩

/-- After every insert of a sequence the published hash and the cached ones are those of
the tree serialised from scratch. -/
theorem cachedHashesAreFresh (two : 2 ≤ cfg.maxNodeSize) (here : cfg.addOp = true)
    (adds : ∀ st x, (S.add st x).1 = .ok (H x)) (proper : ∀ x, (H x).isEmpty = false) (kvs : List (Key × Value))
    (key : Key) (value : Value) (st : σ) :
    ∃ before bt st₁ st₂, BTree.insertEach cfg S kvs BTree.fresh st = some (before,st₁) ∧
      BTree.insert cfg S key value before st₁ = some (.completed,bt,st₂) ∧
      bt.rootHash = scratch cfg H (top bt.root) ∧
      Backed (fun hash c => hash = scratch cfg H c) (top bt.root) := by
  obtain ⟨before,st₁,run,published⟩ := insertsPublish two here adds proper kvs st
  obtain ⟨bt,st₂,last,after,root⟩ := insertPublishes two here adds proper published key value st₁
  exact ⟨before,bt,st₁,st₂,run,last,root,after.fresh⟩

end store

def contentHash (x : Value) : Hash := ⟨81 :: x.bytes⟩

def contentStorage : Storage (List Value) :=
  ⟨fun st h => (if ⟨h.bytes.tail⟩ ∈ st then .ok ⟨h.bytes.tail⟩ else .error .notFound,st),
    fun st x => (.ok (contentHash x),x :: st),fun st h => st.erase ⟨h.bytes.tail⟩⟩

theorem cachedHashesAreFreshContent : ∃ before bt st₁ st₂,
    BTree.insertEach (mockConfig 2) contentStorage [(letter 99,letter 120),(letter 97,letter 120),
    (letter 98,letter 120)] BTree.fresh [] = some (before,st₁) ∧
    BTree.insert (mockConfig 2) contentStorage (letter 100) (letter 120) before st₁ = some (.completed,bt,st₂) ∧
    bt.rootHash = scratch (mockConfig 2) contentHash (top bt.root) ∧
    Backed (fun hash c => hash = scratch (mockConfig 2) contentHash c) (top bt.root) :=
  cachedHashesAreFresh (by decide) rfl (fun _ _ => rfl) (fun _ => rfl) _ _ _ _

end IpfsCache
