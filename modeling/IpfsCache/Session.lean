import IpfsCache.PartialInsert
import IpfsCache.PartialStore
import IpfsCache.RoundTrip
import IpfsCache.Lib.Reach

/-! A BTree that loads a root hash and then serves finds and inserts one after another, as
an injector's does after a restart. Beside it runs, in thought, the tree behind the hash
with all its nodes in memory. -/
namespace IpfsCache
open OrderedMap (Sorted)
open Node Entries

def BTree.ready (m : Nat) (key : Key) (bt : BTree) : Bool :=
  match bt.root with
  | some ⟨none,hash⟩ => hash.isEmpty
  | root => (top root).checkInvariants m && (top root).ready m key

inductive Op where
  | find (key : Key)
  | insert (key : Key) (value : Value)

structure Session (σ : Type) where
  tree : BTree
  world : σ
  given : List (Key × Value)

section session
variable {σ : Type} {cfg : Config} {S : Storage σ}

def Session.loaded (cfg : Config) (S : Storage σ) (hash : Hash) (world : σ) : Session σ :=
  let out := BTree.load cfg S hash .fresh world
  ⟨out.1,out.2,[]⟩

def Session.step (cfg : Config) (S : Storage σ) (fuel : Nat) (s : Session σ) : Op → Option (Session σ)
  | .find key => (BTree.findAlone cfg S fuel key s.tree s.world).map fun out => ⟨out.2.1,out.2.2,s.given⟩
  | .insert key value =>
    match BTree.insert cfg S key value s.tree s.world with
    | some (.completed,tree,world) => some ⟨tree,world,s.given ++ [(key,value)]⟩
    | _ => none

def Session.Step (cfg : Config) (S : Storage σ) (s : Session σ) (op : Op) (s' : Session σ) : Prop :=
  ∃ fuel, s.step cfg S fuel op = some s'

def Op.Clean : Op → Prop
  | .find _ => True
  | .insert key value => IpfsCache.Clean StdString.ValidUtf8 (key,value)

def Session.ready (cfg : Config) (s : Session σ) : Op → Bool
  | .find _ => true
  | .insert key _ => s.tree.ready cfg.maxNodeSize key

theorem Anchored.keep {kvs : List (Key × Value)} {bt : BTree} {st st' : σ} (anchored : Anchored cfg S kvs bt st)
    (keeps : ∀ g y, S.holds st g y → S.holds st' g y) : Anchored cfg S kvs bt st' := by
  refine ⟨anchored.rest,anchored.contents,⟨anchored.secured.owned,?_⟩,
    anchored.published.imp id fun ⟨some_,n,hash,root,proper,own⟩ => ?_⟩
  · exact anchored.secured.backed.mono fun _ _ _ own => ⟨keeps _ _ own.1,own.2⟩
  · exact ⟨some_,n,hash,root,proper,keeps _ _ own.1,own.2⟩

theorem removeAllRequests (ps ps' : List Pause) (same : ps'.map Pause.hash = ps.map Pause.hash) (st : σ) :
    BTree.removeAll S ps' st = BTree.removeAll S ps st := by
  have each (ps : List Pause) : BTree.removeAll S ps st = (ps.map Pause.hash).foldl S.remove st := by
    rw [List.foldl_map]
    rfl
  rw [each,each,same]

theorem Opened.part {m : Nat} {key : Key} {h : Hash} {T : Node} {bt : BTree} (opened : Opened h T bt)
    (ready_ : bt.ready m key = true) :
    ∃ P, top bt.root = ⟨P⟩ ∧ View NoneWaits P T.entries ∧ Node.ready m key ⟨P⟩ = true ∧
    checkInvariants m ⟨P⟩ = true := by
  obtain ⟨root,buffer,flag⟩ := bt
  obtain ⟨_,_,x,same,cases_⟩ := opened
  cases same
  rcases cases_ with ⟨_,rfl,rfl⟩ | ⟨proper,seen⟩
  · have none_ : minMaxDepth ⟨[]⟩ = (1,1) := by simp [minMaxDepth,minMaxLoop]
    refine ⟨[],rfl,.nil,?_,?_⟩
    · rw [Node.ready]
      rfl
    · rw [checkInvariants,none_]
      simp [Entries.size,checkEntries]
  · cases seen with
    | unread =>
      have empty : h.isEmpty = true := ready_
      rw [proper] at empty
      cases empty
    | waiting held => exact held.elim
    | @read p _ _ view =>
      simp only [BTree.ready,Bool.and_eq_true] at ready_
      exact ⟨p,rfl,view,ready_.2,ready_.1⟩

theorem Opened.hash {h : Hash} {T : Node} {bt : BTree} (opened : Opened h T bt) :
    bt.rootHash = h ∧ topHash bt.root = h := by
  obtain ⟨x,same,_⟩ := opened.root
  rw [BTree.rootHash,same]
  exact ⟨rfl,rfl⟩

theorem storeRootViews (here : cfg.addOp = true) {n n' n₂ : Node} {hash : Hash} {st st' : σ} (ordered : Ordered n)
    (view : View NoneWaits n'.entries n.entries)
    (stored : BTree.storeRoot cfg S (some ⟨some n,noHash⟩) st = (some ⟨some n₂,hash⟩,.completed,st')) :
    ∃ p, BTree.storeRoot cfg S (some ⟨some n',noHash⟩) st = (some ⟨some p,hash⟩,.completed,st') ∧
    View NoneWaits p.entries n₂.entries := by
  have run (n : Node) : BTree.storeRoot cfg S (some ⟨some n,noHash⟩) st =
      (some (BTree.afterStore noHash ((n.store cfg).run S.add st).1).1,
        (BTree.afterStore noHash ((n.store cfg).run S.add st).1).2,((n.store cfg).run S.add st).2) := by
    rcases storeRootCases cfg S n noHash st with ⟨absent,_⟩ | ⟨_,same⟩
    · rw [here] at absent
      cases absent
    · exact same
  rw [run] at stored ⊢
  obtain ⟨states,outcomes,parts⟩ := storeViews cfg S n n' st ordered view
  generalize (n'.store cfg).run S.add st = out' at states outcomes parts ⊢
  generalize (n.store cfg).run S.add st = out at states outcomes parts stored
  obtain ⟨⟨p,outcome'⟩,st₁'⟩ := out'
  obtain ⟨⟨q,outcome⟩,st₁⟩ := out
  cases states
  cases outcomes
  cases outcome' <;> cases stored
  exact ⟨p,rfl,parts⟩

theorem Anchored.insertPart (two : 2 ≤ cfg.maxNodeSize) (here : cfg.addOp = true) (adds : S.AddsSucceed cfg)
    (faithful : S.Faithful)
    (back : cfg.json.ParsesBack) {kvs : List (Key × Value)} {whole bt : BTree} {st : σ}
    (anchored : Anchored cfg S kvs whole st)
    (clean : ∀ x ∈ kvs, Clean StdString.ValidUtf8 x) (opened : Opened whole.rootHash (top whole.root) bt)
    (key : Key) (value : Value)
    (own : Clean StdString.ValidUtf8 (key,value)) (ready_ : bt.ready cfg.maxNodeSize key = true) :
    ∃ w u bt' whole' st', BTree.insert cfg S key value bt st = some (.completed,bt',st') ∧
      Clean StdString.ValidUtf8 (key,w) ∧ Anchored cfg S (kvs ++ [(key,w)]) whole' st' ∧
      Opened whole'.rootHash (top whole'.root) bt' ∧
      (top whole'.root).flatten = OrderedMap.assign key u (top whole.root).flatten := by
  obtain ⟨P,part,view,readyP,checked⟩ := opened.part ready_
  obtain ⟨w,ps,ps',n,n',kept,raw,raw',requests,view'⟩ :=
    rawViews two value anchored.rest.good part view readyP checked
  have cleanW : Clean StdString.ValidUtf8 (key,w) := by
    rcases kept with rfl | held
    · exact own
    · exact clean _ (anchored.contents.given _ ((OrderedMap.findSome anchored.rest.good.tree.sorted).mp held))
  have cleanAll : ∀ x ∈ kvs ++ [(key,w)], Clean StdString.ValidUtf8 x :=
      List.forall_mem_append.mpr ⟨clean,by simpa using cleanW⟩
  obtain ⟨ps₁,n₁,n₂,hash,st',_,raw₁,inserted,stored,alike,after⟩ :=
    anchored.insert two here adds faithful back key w cleanAll
  cases raw.symm.trans raw₁
  have hashes_ : topHash bt.root = topHash whole.root := by
    rw [opened.hash.2,BTree.rootHash]
    cases whole.root <;> rfl
  have states : removed cfg S ps' (topHash bt.root) st = removed cfg S ps (topHash whole.root) st := by
    rw [removed,removed,hashes_]
    exact removeAllRequests _ _ (by rw [List.map_append,List.map_append,requests]) st
  obtain ⟨p,stored',parts⟩ := storeRootViews here inserted.good.tree.ordered view' stored
  have run := insertStored S st opened.buffer opened.flag raw'
  rw [states,stored'] at run
  obtain ⟨u,_,content⟩ := inserted.assigns
  rcases after.published with ⟨none_,_⟩ | ⟨_,n₃,hash',same,proper,_⟩
  · cases none_
  · cases same
    obtain ⟨p⟩ := p
    obtain ⟨q⟩ := n₂
    exact ⟨w,u,_,_,_,run,cleanW,after,⟨rfl,rfl,some ⟨p⟩,rfl,.inr ⟨proper,.read id parts⟩⟩,alike.flat.trans content⟩

structure Session.Carries (cfg : Config) (S : Storage σ) (T : Node) (s : Session σ) (kvs : List (Key × Value))
    (whole : BTree) : Prop where
  clean : ∀ x ∈ kvs, IpfsCache.Clean StdString.ValidUtf8 x
  anchored : Anchored cfg S kvs whole s.world
  opened : Opened whole.rootHash (top whole.root) s.tree
  keys : ∀ k, k ∈ T.keys ∨ k ∈ OrderedMap.keys s.given → k ∈ (top whole.root).keys
  values : ∀ k, k ∉ OrderedMap.keys s.given → OrderedMap.find k
    (top whole.root).flatten = OrderedMap.find k T.flatten

theorem loadedCarries (two : 2 ≤ cfg.maxNodeSize) (faithful : S.Faithful) (back : cfg.json.ParsesBack)
    {kvs : List (Key × Value)}
    {bt : BTree} {st : σ} (clean : ∀ x ∈ kvs, Clean StdString.ValidUtf8 x) (anchored : Anchored cfg S kvs bt st) :
    (Session.loaded cfg S bt.rootHash st).Carries cfg S (top bt.root) kvs bt := by
  obtain ⟨second,load,opened⟩ := loadOpens cfg S st (anchored.readable two faithful back clean).1
  rw [Session.loaded,load]
  exact ⟨clean,anchored,opened,fun k held => held.elim id fun mem => (by cases mem),fun _ _ => rfl⟩

section run
variable {T : Node} {s : Session σ} {kvs : List (Key × Value)} {whole : BTree}

theorem Session.Carries.readable (two : 2 ≤ cfg.maxNodeSize) (faithful : S.Faithful) (back : cfg.json.ParsesBack)
    (carries : s.Carries cfg S T kvs whole) : Readable cfg S s.world whole.rootHash (top whole.root) :=
  (carries.anchored.readable two faithful back carries.clean).2

theorem Session.Carries.find (two : 2 ≤ cfg.maxNodeSize) (faithful : S.Faithful) (back : cfg.json.ParsesBack)
    (carries : s.Carries cfg S T kvs whole) (key : Key) {fuel : Nat} (enough : sizeOf (top whole.root) < fuel) :
    ∃ bt st, BTree.findAlone cfg S fuel key s.tree s.world =
    some (answer (OrderedMap.find key (top whole.root).flatten),bt,st) ∧
      Session.Carries cfg S T ⟨bt,st,s.given⟩ kvs whole := by
  obtain ⟨bt,st,run,opened,keeps⟩ := carries.opened.find key faithful back utf8Usable carries.anchored.rest.good.tree
    (carries.readable two faithful back) enough
  exact ⟨bt,st,run,carries.clean,carries.anchored.keep keeps,opened,carries.keys,carries.values⟩

theorem Session.Carries.insert (two : 2 ≤ cfg.maxNodeSize) (here : cfg.addOp = true) (adds : S.AddsSucceed cfg)
    (faithful : S.Faithful)
    (back : cfg.json.ParsesBack) (carries : s.Carries cfg S T kvs whole) (key : Key) (value : Value)
    (own : IpfsCache.Clean StdString.ValidUtf8 (key,value)) (ready_ : s.tree.ready cfg.maxNodeSize key = true) :
    ∃ bt st kvs' whole', BTree.insert cfg S key value s.tree s.world = some (.completed,bt,st) ∧
      Session.Carries cfg S T ⟨bt,st,s.given ++ [(key,value)]⟩ kvs' whole' := by
  obtain ⟨w,u,bt,whole',st,run,cleanW,anchored,opened,content⟩ :=
    carries.anchored.insertPart two here adds faithful back carries.clean carries.opened key value own ready_
  have sorted := carries.anchored.rest.good.tree.sorted
  refine ⟨bt,st,_,whole',run,List.forall_mem_append.mpr ⟨carries.clean,by simpa using cleanW⟩,anchored,opened,
    fun k held => ?_,fun k free => ?_⟩
  · rw [Node.keys,content,OrderedMap.keysAssign sorted]
    simp only [OrderedMap.keys,List.map_append,List.mem_append,List.map_cons,List.map_nil,
      List.mem_singleton] at held
    rcases held with old | old | rfl
    · exact .inr (carries.keys k (.inl old))
    · exact .inr (carries.keys k (.inr old))
    · exact .inl rfl
  · simp only [OrderedMap.keys,List.map_append,List.mem_append,List.map_cons,List.map_nil,List.mem_singleton,
      not_or] at free
    rw [content,OrderedMap.findAssign _ _ _ sorted,if_neg free.2]
    exact carries.values k free.1

theorem Session.Carries.goesOn (two : 2 ≤ cfg.maxNodeSize) (here : cfg.addOp = true) (adds : S.AddsSucceed cfg)
    (faithful : S.Faithful)
    (back : cfg.json.ParsesBack) (carries : s.Carries cfg S T kvs whole) (op : Op) (clean : op.Clean)
    (ready_ : s.ready cfg op = true) :
    ∃ s' kvs' whole', (∃ need, ∀ fuel, need ≤ fuel → s.step cfg S fuel op = some s') ∧
    s'.Carries cfg S T kvs' whole' := by
  cases op with
  | find key =>
    obtain ⟨bt,st,run,next⟩ := carries.find two faithful back key (Nat.lt_succ_self _)
    refine ⟨_,_,_,⟨sizeOf (top whole.root) + 1,fun fuel enough => ?_⟩,next⟩
    rw [Session.step,findMore enough run]
    rfl
  | insert key value =>
    obtain ⟨bt,st,kvs',whole',run,next⟩ := carries.insert two here adds faithful back key value clean ready_
    exact ⟨_,_,_,⟨0,fun fuel _ => by rw [Session.step,run]⟩,next⟩

theorem stepMore {op : Op} {s' : Session σ} {fuel fuel' : Nat} (more : fuel ≤ fuel')
    (step : s.step cfg S fuel op = some s') : s.step cfg S fuel' op = some s' := by
  cases op with
  | find key =>
    obtain ⟨out,run,same⟩ := Option.map_eq_some_iff.mp step
    rw [Session.step,findMore more run,← same]
    rfl
  | insert key value => exact step

theorem Session.Carries.step (two : 2 ≤ cfg.maxNodeSize) (here : cfg.addOp = true) (adds : S.AddsSucceed cfg)
    (faithful : S.Faithful)
    (back : cfg.json.ParsesBack) (carries : s.Carries cfg S T kvs whole) {op : Op} {s' : Session σ}
    (step : s.Step cfg S op s')
    (clean : op.Clean) (ready_ : s.ready cfg op = true) : ∃ kvs' whole', s'.Carries cfg S T kvs' whole' := by
  obtain ⟨fuel,ended⟩ := step
  obtain ⟨s₁,kvs',whole',⟨need,ends⟩,next⟩ := carries.goesOn two here adds faithful back op clean ready_
  have same := (stepMore (le_max_left fuel need) ended).symm.trans (ends _ (le_max_right fuel need))
  cases same
  exact ⟨kvs',whole',next⟩

end run

def Session.Runs (cfg : Config) (S : Storage σ) (hash : Hash) (world : σ) (s : Session σ) : Prop :=
  Reach (fun s => s = .loaded cfg S hash world)
    (fun s op s' => s.Step cfg S op s' ∧ op.Clean ∧ s.ready cfg op = true) s

/-- Inserting into a loaded tree keeps what was loaded, as long as every insert finds in
memory what it relies on: each further call ends, and each key of the loaded tree and of
the calls is found, here and by a BTree that loads the root hash. -/
theorem loadedTreeKept (two : 2 ≤ cfg.maxNodeSize) (here : cfg.addOp = true) (adds : S.AddsSucceed cfg)
    (faithful : S.Faithful)
    (back : cfg.json.ParsesBack) (kvs : List (Key × Value)) (clean : ∀ x ∈ kvs, Clean StdString.ValidUtf8 x)
    (st : σ) :
    ∃ bt st', BTree.insertEach cfg S kvs BTree.fresh st = some (bt,st') ∧ ∀ s,
    Session.Runs cfg S bt.rootHash st' s →
      (∀ op : Op, op.Clean → s.ready cfg op = true → ∃ s', s.Step cfg S op s') ∧
      ∀ key, key ∈ OrderedMap.keys kvs ∨ key ∈ OrderedMap.keys s.given → ∃ value,
        (∃ fuel bt₁ st₁, BTree.findAlone cfg S fuel key s.tree s.world = some (.ok value,bt₁,st₁)) ∧
        (∃ fuel bt₂ st₂, BTree.findAlone cfg S fuel key (BTree.load cfg S s.tree.rootHash .fresh s.world).1
          (BTree.load cfg S s.tree.rootHash .fresh s.world).2 = some (.ok value,bt₂,st₂)) ∧
        (key ∉ OrderedMap.keys s.given → bt.find key = (bt,.done (.ok value))) := by
  obtain ⟨bt,st',run,anchored⟩ := insertEachAnchors two here adds faithful back kvs clean st
  refine ⟨bt,st',run,fun s runs => ?_⟩
  obtain ⟨kvs',whole,carries⟩ : ∃ kvs' whole, s.Carries cfg S (top bt.root) kvs' whole := by
    refine Reach.invariant (I := fun s => ∃ kvs' whole, s.Carries cfg S (top bt.root) kvs' whole) (fun s same => ?_)
      (fun s op s' ⟨kvs',whole,carries⟩ ⟨step,clean,ready_⟩ =>
        carries.step two here adds faithful back step clean ready_) runs
    rw [same]
    exact ⟨kvs,bt,loadedCarries two faithful back clean anchored⟩
  refine ⟨fun op clean ready_ => ?_,fun key held => ?_⟩
  · obtain ⟨s',_,_,⟨need,ends⟩,_⟩ := carries.goesOn two here adds faithful back op clean ready_
    exact ⟨s',need,ends need le_rfl⟩
  · have sorted := carries.anchored.rest.good.tree.sorted
    have inside := carries.keys key (held.imp (anchored.contents.keys key).mpr id)
    obtain ⟨value,found⟩ := Option.ne_none_iff_exists'.mp fun none_ => (OrderedMap.findNone sorted).mp none_ inside
    obtain ⟨bt₁,st₁,find₁,_⟩ := carries.find two faithful back key (Nat.lt_succ_self _)
    obtain ⟨further,load,opened⟩ := loadOpens cfg S s.world
      (carries.anchored.readable two faithful back carries.clean).1
    obtain ⟨bt₂,st₂,find₂,_⟩ := opened.find key faithful back utf8Usable carries.anchored.rest.good.tree
      (carries.readable two faithful back) (Nat.lt_succ_self _)
    rw [found] at find₁ find₂
    rw [← carries.opened.hash.1] at load
    refine ⟨value,⟨_,bt₁,st₁,find₁⟩,⟨_,bt₂,st₂,by rw [load]; exact find₂⟩,fun free => ?_⟩
    · rw [anchored.rest.find,← carries.values key free,found]
      rfl

def Session.play (cfg : Config) (S : Storage σ) (fuel : Nat) (ok : Session σ → Op → Bool) :
    List Op → Session σ → Option (Session σ)
  | [],s => some s
  | op :: ops,s => if ok s op then (s.step cfg S fuel op).bind (play cfg S fuel ok ops) else none

theorem opsReach {fuel : Nat} {ok : Session σ → Op → Bool} {Start : Session σ → Prop}
    {Fine : Session σ → Op → Prop} {ops : List Op} {s s' : Session σ}
    (fine : ∀ s, ∀ op ∈ ops, ok s op = true → Fine s op)
    (before : Reach Start (fun s op s' => s.Step cfg S op s' ∧ Fine s op) s)
    (played : s.play cfg S fuel ok ops = some s') :
    Reach Start (fun s op s' => s.Step cfg S op s' ∧ Fine s op) s' := by
  refine before.schedule (fun ops s => s.play cfg S fuel ok ops)
    (fun ops _ => ∀ s, ∀ op ∈ ops, ok s op = true → Fine s op) played fine
    (fun _ => rfl) fun op ops s s' fine played => ?_
  rw [Session.play] at played
  split at played
  · rename_i meets
    obtain ⟨s₁,step,rest⟩ := Option.bind_eq_some_iff.mp played
    exact ⟨op,s₁,⟨⟨fuel,step⟩,fine s op (by simp) meets⟩,fun s op mem => fine s op (List.mem_cons_of_mem _ mem),rest⟩
  · cases played

end session

def firstFinds : List Op :=
  [.find (letter 97),.insert (letter 65) (letter 49),.insert (letter 66) (letter 49),.find (letter 99)]

theorem loadedTreeKeptMock : ∃ (bt : BTree) (st : MockStorage) (s : Session MockStorage),
    BTree.insertEach (mockConfig 2) MockStorage.storage ([97,98,99].map fun b =>
    (letter b,letter b)) .fresh .empty = some (bt,st) ∧
    s.given = [(letter 65,letter 49),(letter 66,letter 49)] ∧
    ∀ key, key ∈ OrderedMap.keys ([97,98,99].map fun b => (letter b,letter b)) ∨
    key ∈ OrderedMap.keys s.given → ∃ value,
      (∃ fuel bt₁ st₁, BTree.findAlone (mockConfig 2) MockStorage.storage fuel key s.tree s.world =
      some (.ok value,bt₁,st₁)) ∧ (∃ fuel bt₂ st₂, BTree.findAlone (mockConfig 2) MockStorage.storage fuel key
        (BTree.load (mockConfig 2) MockStorage.storage s.tree.rootHash .fresh s.world).1
        (BTree.load (mockConfig 2) MockStorage.storage s.tree.rootHash .fresh s.world).2 =
        some (.ok value,bt₂,st₂)) ∧
      (key ∉ OrderedMap.keys s.given → bt.find key = (bt,.done (.ok value))) := by
  have run : (BTree.insertEach (mockConfig 2) MockStorage.storage
      ([97,98,99].map fun b => (letter b,letter b)) .fresh .empty).any
      (fun out => ((Session.loaded (mockConfig 2) MockStorage.storage out.1.rootHash out.2).play
        (mockConfig 2) MockStorage.storage 3 (Session.ready (mockConfig 2)) firstFinds).any
          fun s => decide (s.given = [(letter 65,letter 49),(letter 66,letter 49)])) = true := by
    decide +kernel
  obtain ⟨bt,st,stored,kept⟩ := @loadedTreeKept MockStorage (mockConfig 2) MockStorage.storage (by decide) rfl
    (MockStorage.addsSucceed _)
    MockStorage.faithful nlohmannParsesBack ([97,98,99].map fun b => (letter b,letter b))
      (lettersClean _ (by decide +kernel)) .empty
  rw [stored,Option.any_some] at run
  obtain ⟨s,played,given⟩ := Option.any_eq_true _ _ |>.mp run
  refine ⟨bt,st,s,stored,of_decide_eq_true given,
    (kept s (opsReach (fun s op mem meets => ⟨?_,meets⟩) (.start rfl) played)).2⟩
  simp only [firstFinds,List.mem_cons,List.not_mem_nil,or_false] at mem
  rcases mem with rfl | rfl | rfl | rfl
  · trivial
  · exact pairClean (by decide) (by decide)
  · exact pairClean (by decide) (by decide)
  · trivial

theorem loadedTreeLost : ∃ (bt : BTree) (st : MockStorage) (s : Session MockStorage),
    BTree.insertEach (mockConfig 2) MockStorage.storage [(letter 97,letter 49)] .fresh .empty = some (bt,st) ∧
    Reach (fun s => s = .loaded (mockConfig 2) MockStorage.storage bt.rootHash st)
      (fun s op s' => s.Step (mockConfig 2) MockStorage.storage op s' ∧ op.Clean) s ∧
    ¬ ∀ key, key ∈ OrderedMap.keys [(letter 97,letter 49)] ∨ key ∈ OrderedMap.keys s.given → ∃ value fuel bt₁ st₁,
      BTree.findAlone (mockConfig 2) MockStorage.storage fuel key s.tree s.world = some (.ok value,bt₁,st₁) := by
  have run : (BTree.insertEach (mockConfig 2) MockStorage.storage [(letter 97,letter 49)] .fresh .empty).any
      (fun out => ((Session.loaded (mockConfig 2) MockStorage.storage out.1.rootHash out.2).play
        (mockConfig 2) MockStorage.storage 0 (fun _ _ => true) [.insert (letter 98) (letter 49)]).any
          fun s => decide ((s.tree.find (letter 97)).2 = .done (.error .notFound))) = true := by
    decide +kernel
  obtain ⟨⟨bt,st⟩,stored,played⟩ := Option.any_eq_true _ _ |>.mp run
  obtain ⟨s,played,seen⟩ := Option.any_eq_true _ _ |>.mp played
  have clean : ∀ op ∈ [Op.insert (letter 98) (letter 49)], op.Clean := by
    simpa [Op.Clean] using pairClean (k := 98) (v := 49) (by decide) (by decide)
  refine ⟨bt,st,s,stored,opsReach (fun _ op mem _ => clean op mem) (.start rfl) played,fun found => ?_⟩
  obtain ⟨value,fuel,bt₁,st₁,ends⟩ := found (letter 97) (.inl (by decide))
  have missed := of_decide_eq_true seen
  rw [BTree.findAlone] at ends
  generalize s.tree.find (letter 97) = out at missed ends
  obtain ⟨bt',step⟩ := out
  cases missed
  cases fuel <;> cases ends

end IpfsCache
