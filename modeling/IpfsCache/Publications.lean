import IpfsCache.Delivery
import IpfsCache.EndToEnd

/-! What an injector publishes, in order. The tree behind each id has the keys of those
published before it; an update that was called while no insert was under way, and has
returned without error, is in the tree of its own publish call and of every later one. -/
namespace IpfsCache
open Node

structure Within (s : System World) (n : Node) : Prop where
  keys : n.keys ⊆ OrderedMap.keys s.settled.outline.content
  given : ∀ x ∈ n.flatten, x ∈ s.calls

structure RootTree (cfg : Config) (content : Hash → Option Value) (s : System World) (trees : List Node) (n : Node) :
    Prop where
  tree : TreeOf cfg content s.tree.rootHash n
  within : Within s n
  newest : ∀ m ∈ trees, m.keys ⊆ n.keys

structure Growing (cfg : Config) (content : Hash → Option Value) (s : System World) (ids : List Hash)
    (trees : List Node) : Prop where
  stand : List.Forall₂ (TreeOf cfg content) ids trees
  grows : trees.Pairwise fun m n => m.keys ⊆ n.keys
  within : ∀ n ∈ trees, Within s n
  root : s.tree.rootHash.isEmpty = true ∨ ∃ n, RootTree cfg content s trees n

section map
variable {World : Type} {cfg : Config} {env : Env World} {R : World → Hash → Value → Prop}
  {content : Hash → Option Value} {ids : List Hash} {trees : List Node}

theorem effectKeys {s : System World} {frame : Option Frame} (sound : Sound cfg env s frame) {e : Event World}
    {o : Outline} (effect : Effect cfg s e o) :
    OrderedMap.keys s.outline.content ⊆ OrderedMap.keys o.content ∧ s.calls ⊆ o.calls := by
  cases effect with
  | called => exact ⟨fun _ => id,List.subset_append_left _ _⟩
  | inserted _ h raw =>
    refine ⟨fun k mem => ?_,fun _ => id⟩
    obtain ⟨w,_,assigned⟩ := raw.assigns
    have sorted := sound.outlineSorted.content
    have content : s.outline.content = (top s.tree.root).flatten := by rw [System.outline,h]; rfl
    rw [content] at sorted mem
    exact assigned ▸ (OrderedMap.keysAssign sorted).mpr (.inr mem)
  | _ => exact ⟨fun _ => id,fun _ => id⟩

theorem Within.step {s s' : System World} {n : Node} (within : Within s n)
    (keys_ : OrderedMap.keys s.settled.outline.content ⊆ OrderedMap.keys s'.settled.outline.content)
    (calls : s.calls ⊆ s'.calls) : Within s' n :=
  ⟨fun _ mem => keys_ (within.keys mem),fun x mem => calls (within.given x mem)⟩

theorem Growing.step (two : 2 ≤ cfg.maxNodeSize) (back : cfg.json.ParsesBack)
    (custody : Custody cfg env R (fun _ _ => True) NoDouble (Clean fun _ => True)) {s s' : System World}
    {e : Event World} (carried : Carried cfg env R s) (fed : Fed s.settled)
    (step : Step cfg env s.settled e s'.settled) (carried' : Carried cfg env R s')
    (clean : ∀ x ∈ s'.calls, Clean StdString.ValidUtf8 x)
    (addressed : Addressed content R s'.world) (growing : Growing cfg content s ids trees) :
    Growing cfg content s' ids trees := by
  obtain ⟨frame,sound⟩ := carried.sound
  obtain ⟨keys_,calls⟩ := effectKeys sound (stepSound two sound step).2
  have within : ∀ n ∈ trees, Within s' n := fun n mem => (growing.within n mem).step keys_ calls
  refine ⟨growing.stand,growing.grows,within,?_⟩
  rcases carried.told two back custody fed step carried' clean addressed with stays | empty | ⟨n,tree,flat⟩
  · refine growing.root.imp (stays ▸ id) fun ⟨n,standing⟩ => ?_
    exact ⟨n,stays ▸ standing.tree,standing.within.step keys_ calls,standing.newest⟩
  · exact .inl empty
  · have same : n.keys = OrderedMap.keys s'.settled.outline.content := congrArg _ flat
    have given : ∀ x ∈ n.flatten, x ∈ s'.calls := fun x mem => carried'.kept.given x (.inl (flat ▸ mem))
    refine .inr ⟨n,tree,⟨fun _ mem => same ▸ mem,given⟩,fun m mem => ?_⟩
    rw [same]
    exact (within m mem).keys

theorem Growing.completes (two : 2 ≤ cfg.maxNodeSize) (back : cfg.json.ParsesBack) {s s' : System World}
    {e : Event World} (carried : Carried cfg env R s) (step : Step cfg env s.settled e s'.settled)
    (carried' : Carried cfg env R s') (some_ : s'.calls ≠ []) (clean : ∀ x ∈ s'.calls, Clean StdString.ValidUtf8 x)
    (addressed : Addressed content R s'.world) (growing : Growing cfg content s' ids trees)
    (completed : s'.ended = s.ended ++ [.completed]) :
    ∃ n, RootTree cfg content s' trees n ∧ OrderedMap.keys s'.calls ⊆ n.keys := by
  obtain ⟨_,sound⟩ := carried.sound
  obtain ⟨frame,sound'⟩ := carried'.sound
  obtain ⟨frames,buffer,published,secured⟩ := heldCompletes sound carried.held step completed
  have outline : s'.settled.outline.content = (top s'.settled.tree.root).flatten ∧ s'.settled.outline.batch = [] := by
    rw [System.outline,frames]
    exact ⟨rfl,rfl⟩
  have all : OrderedMap.keys s'.calls ⊆ (top s'.settled.tree.root).keys := fun k mem => by
    rcases carried'.kept.called k mem with here | batch | waits
    · rw [outline.1] at here
      exact here
    · rw [outline.2] at batch
      cases batch
    · rw [show s'.settled.outline.buffer = [] from buffer] at waits
      cases waits
  have given : ∀ x ∈ (top s'.settled.tree.root).flatten, x ∈ s'.calls := fun x mem =>
    carried'.kept.given x (.inl (outline.1 ▸ mem))
  have full : (top s'.settled.tree.root).flatten ≠ [] := fun none_ => by
    obtain ⟨x,rest,same⟩ := List.exists_cons_of_ne_nil some_
    have mem : x.1 ∈ (top s'.settled.tree.root).keys := all (by rw [same]; exact List.mem_cons_self)
    rw [Node.keys,none_] at mem
    cases mem
  obtain rfl : frame = none := by
    have same := sound'.frames
    rw [frames] at same
    cases frame with
    | none => rfl
    | some f => cases same
  have tree := publishedTree two back (show Whole cfg s'.settled.tree.root from sound'.sits).good secured.backed
    published full
    (fun x mem => clean x (given x mem)) addressed
  rw [← rootHashTop,settledHash] at tree
  refine ⟨_,⟨tree,⟨fun k mem => ?_,given⟩,fun m mem k here => ?_⟩,all⟩
  · rw [outline.1]
    exact mem
  · have inside := (growing.within m mem).keys here
    rw [outline.1] at inside
    exact inside

theorem Growing.push {s : System World} (growing : Growing cfg content s ids trees) {n : Node}
    (standing : RootTree cfg content s trees n) :
    Growing cfg content s (ids ++ [s.tree.rootHash]) (trees ++ [n]) := by
  refine ⟨List.rel_append growing.stand (.cons standing.tree .nil),?_,?_,.inr ⟨n,standing.tree,standing.within,?_⟩⟩
  · refine List.pairwise_append.mpr ⟨growing.grows,List.pairwise_singleton ..,fun m mem n' last => ?_⟩
    rw [List.mem_singleton.mp last]
    exact standing.newest m mem
  · exact List.forall_mem_append.mpr ⟨growing.within,List.forall_mem_singleton.mpr standing.within⟩
  · exact List.forall_mem_append.mpr ⟨standing.newest,List.forall_mem_singleton.mpr fun _ => id⟩

theorem Growing.later {s : System World} (growing : Growing cfg content s ids trees) {i j : Nat} (older : i ≤ j)
    {m n : Node} (at_ : trees[i]? = some m) (at' : trees[j]? = some n) : m.keys ⊆ n.keys := by
  obtain ⟨inside,rfl⟩ := List.getElem?_eq_some_iff.mp at_
  obtain ⟨inside',rfl⟩ := List.getElem?_eq_some_iff.mp at'
  rcases older.lt_or_eq with less | rfl
  · exact List.pairwise_iff_getElem.mp growing.grows i j inside inside' less
  · exact fun _ => id

end map

def Finds {σ : Type} (json : JsonLib) (S : Storage σ) (st : σ) (id : Hash) (key : Key)
    (result : Except ErrorCode Value) : Prop :=
  ∃ need, ∀ fuel, need ≤ fuel → ∃ bt st', BTree.findAlone (clientConfig json) S fuel key
    (BTree.load (clientConfig json) S id .fresh st).1 (BTree.load (clientConfig json) S id .fresh st).2 =
      some (result,bt,st')

section clients
variable {σ : Type} {S : Storage σ} {st : σ} {id : Hash} {key : Key}

theorem Finds.one {json : JsonLib} {r r' : Except ErrorCode Value} (finds : Finds json S st id key r)
    (finds' : Finds json S st id key r') : r = r' := by
  obtain ⟨need,run⟩ := finds
  obtain ⟨need',run'⟩ := finds'
  obtain ⟨_,_,same⟩ := run (max need need') (le_max_left ..)
  obtain ⟨_,_,same'⟩ := run' (max need need') (le_max_right ..)
  cases same.symm.trans same'
  rfl

theorem TreeOf.looks {cfg : Config} {content : Hash → Option Value} {n : Node} (tree : TreeOf cfg content id n)
    (back : cfg.json.ParsesBack) (faithful : S.Faithful) (serves : ∀ h x, content h = some x → S.reads st h = .ok x)
    (key : Key) {fuel : Nat} (enough : sizeOf n < fuel) : ∃ bt st', BTree.findAlone (clientConfig cfg.json) S fuel key
      (BTree.load (clientConfig cfg.json) S id .fresh st).1 (BTree.load (clientConfig cfg.json) S id .fresh st).2 =
        some (answer (OrderedMap.find key n.flatten),bt,st') ∧ S.Keeps st st' := by
  obtain ⟨client,load,opened⟩ := @loadOpens _ (clientConfig cfg.json) S st id n fun empty => by
    rw [tree.proper] at empty
    cases empty
  have stored := @Stored.config cfg (clientConfig cfg.json) rfl _ _ tree.stored
  have readable : Readable (clientConfig cfg.json) S st id n := fun _ =>
    ⟨⟨serves _ _ tree.own,tree.text⟩,stored.mono fun g y told => ⟨serves g y told.1,told.2⟩⟩
  rw [load]
  obtain ⟨bt,st',run,_,keeps⟩ :=
    @Opened.find _ (clientConfig cfg.json) _ _ _ key faithful back utf8Usable tree.tree _ opened _ readable _ enough
  exact ⟨bt,st',run,keeps⟩

theorem TreeOf.finds {cfg : Config} {content : Hash → Option Value} {n : Node} (tree : TreeOf cfg content id n)
    (back : cfg.json.ParsesBack) (faithful : S.Faithful) (serves : ∀ h x, content h = some x → S.reads st h = .ok x)
    (key : Key) : Finds cfg.json S st id key (answer (OrderedMap.find key n.flatten)) :=
  ⟨sizeOf n + 1,fun _ enough =>
    have ⟨bt,st',run,_⟩ := tree.looks back faithful serves key enough
    ⟨bt,st',run⟩⟩

theorem TreeOf.findsKey {cfg : Config} {content : Hash → Option Value} {n : Node} (tree : TreeOf cfg content id n)
    (back : cfg.json.ParsesBack) (faithful : S.Faithful) (serves : ∀ h x, content h = some x → S.reads st h = .ok x)
    (mem : key ∈ n.keys) : ∃ v, (key,v) ∈ n.flatten ∧ Finds cfg.json S st id key (.ok v) := by
  have finds := tree.finds back faithful serves key
  cases found : OrderedMap.find key n.flatten with
  | none => exact absurd mem ((OrderedMap.findNone tree.tree.sorted).mp found)
  | some v =>
    rw [found] at finds
    exact ⟨v,(OrderedMap.findSome tree.tree.sorted).mp found,finds⟩

end clients

namespace InjectorDb
variable {World : Type} {cfg : Config} {ipfs : Ipfs World} {R : World → Hash → Value → Prop}
  {content : Hash → Option Value} {first : Hash}

def published (db : InjectorDb World) : List Hash := db.republisher.calls.map Prod.fst

theorem uploadPublished (u : Nat) (db : InjectorDb World) : (db.uploadDatabase u).published =
    db.published ++ if db.map.tree.rootHash.isEmpty then [] else [db.map.tree.rootHash] := by
  unfold uploadDatabase
  dsimp only
  split
  · exact (List.append_nil _).symm
  · change (db.republisher.publish db.map.tree.rootHash true).calls.map Prod.fst = _
    rw [Republisher.publishCalls,List.map_append]
    rfl

def Shown (trees : List Node) (call : Nat) (key : Key) : Prop := ∃ n, trees[call]? = some n ∧ key ∈ n.keys

def Watched (db : InjectorDb World) (trees : List Node) (u : Nat) (key : Key) : Prop :=
  ∃ up, db.updates[u]? = some up ∧ up.key = key ∧
    match up.stage with
    | .inserting => db.owners = [u]
    | .publishing call => Shown trees call key
    | .returned (.ok ()) => ∃ x ∈ db.republisher.invoked, x.status = .ok () ∧ Shown trees x.call key
    | _ => True

theorem Watched.grow {db db' : InjectorDb World} {trees trees' : List Node} {u : Nat} {key : Key}
    (watched : Watched db trees u key) (same : db'.updates[u]? = db.updates[u]?)
    (owners : (db.updates[u]?).map Update.stage = some .inserting → db.owners = [u] → db'.owners = [u])
    (invoked : db.republisher.invoked ⊆ db'.republisher.invoked) (more : trees <+: trees') :
    Watched db' trees' u key := by
  obtain ⟨up,here,key_,known⟩ := watched
  have older {call : Nat} : Shown trees call key → Shown trees' call key := by
    rintro ⟨n,at_,mem⟩
    obtain ⟨rest,rfl⟩ := more
    exact ⟨n,(List.getElem?_append_left (List.getElem?_eq_some_iff.mp at_).1).trans at_,mem⟩
  refine ⟨up,same.trans here,key_,?_⟩
  rw [here] at owners
  generalize stage : up.stage = s at known
  cases s with
  | inserting => exact owners (congrArg some stage) known
  | publishing call => exact older known
  | returned status =>
    cases status with
    | error => trivial
    | ok =>
      obtain ⟨x,mem,ok,shown⟩ := known
      exact ⟨x,invoked mem,ok,older shown⟩
  | threw => trivial

theorem publishedLong {db : InjectorDb World} {trees : List Node}
    (growing : Growing cfg content db.map db.published trees) : trees.length = db.republisher.calls.length :=
  growing.stand.length_eq.symm.trans (List.length_map _)

theorem growingUpload {db : InjectorDb World} {trees : List Node} {P : Node → Prop}
    (growing : Growing cfg content db.map db.published trees)
    (standing : db.map.tree.rootHash.isEmpty = false → ∃ n, RootTree cfg content db.map trees n ∧ P n) (u : Nat) :
    ∃ trees', trees <+: trees' ∧
      Growing cfg content (db.uploadDatabase u).map (db.uploadDatabase u).published trees' ∧
      (db.map.tree.rootHash.isEmpty = false → ∃ n, trees'[db.republisher.calls.length]? = some n ∧ P n) := by
  rw [(uploadDatabaseAlong u db).map,uploadPublished]
  cases proper : db.map.tree.rootHash.isEmpty with
  | true => exact ⟨trees,List.prefix_rfl,by simpa using growing,fun empty => (by cases empty)⟩
  | false =>
    obtain ⟨n,stands,own⟩ := standing proper
    have long := publishedLong growing
    exact ⟨trees ++ [n],List.prefix_append _ _,by simpa using growing.push stands,
      fun _ => ⟨n,by rw [← long]; exact List.getElem?_concat_length,own⟩⟩

theorem answeredCases (r : Republisher) {db : InjectorDb World} {u : Nat} {up : Update}
    (at_ : db.updates[u]? = some up) : ∃ up', (db.answered r).updates[u]? = some up' ∧ up'.key = up.key ∧
      (up'.stage = up.stage ∨ ∃ x ∈ r.invoked, up.stage = .publishing x.call ∧ up'.stage = .returned x.status) := by
  unfold answered
  dsimp only
  have inside : ∀ x ∈ r.invoked.drop db.republisher.invoked.length, x ∈ r.invoked := fun x => List.mem_of_mem_drop
  generalize r.invoked.drop db.republisher.invoked.length = xs at inside
  generalize db.updates = us at at_
  induction xs generalizing us up with
  | nil => exact ⟨up,at_,rfl,.inl rfl⟩
  | cons x xs ih =>
    have next : (us.map (·.answer x))[u]? = some (up.answer x) := by rw [List.getElem?_map,at_]; rfl
    obtain ⟨up',here,key,stage⟩ := ih (fun y mem => inside y (List.mem_cons_of_mem _ mem)) _ next
    refine ⟨up',here,?_⟩
    unfold Update.answer at key stage
    split at stage
    · rename_i waits
      rw [if_pos waits] at key
      refine ⟨key,.inr ⟨x,inside x List.mem_cons_self,waits,?_⟩⟩
      rcases stage with same | ⟨y,_,publishing,_⟩
      · exact same
      · cases publishing
    · rename_i other
      rw [if_neg other] at key
      exact ⟨key,stage⟩

theorem Watched.answered {db : InjectorDb World} {trees : List Node} {u : Nat} {key : Key} {e : Happening}
    {r : Republisher} (step : db.republisher.Step e r) (watched : Watched db trees u key) :
    Watched (db.answered r) trees u key := by
  have grown := (Republisher.stepGrows step).2
  obtain ⟨old,there,rfl,known⟩ := watched
  obtain ⟨up,here,key_,stage⟩ := answeredCases r there
  refine ⟨up,here,key_,?_⟩
  rcases stage with same | ⟨x,mem,publishing,returned⟩
  · rw [same]
    generalize old.stage = s at known
    cases s with
    | inserting => exact known
    | publishing call => exact known
    | returned status =>
      cases status with
      | error => trivial
      | ok =>
        obtain ⟨x,mem,ok,shown⟩ := known
        exact ⟨x,grown.subset mem,ok,shown⟩
    | threw => trivial
  · rw [publishing] at known
    rw [returned]
    cases ok : x.status with
    | error => trivial
    | ok => exact ⟨x,mem,ok,known⟩

theorem Watched.upload {db : InjectorDb World} {trees trees' : List Node} {u v : Nat} {key : Key}
    (watched : Watched db trees u key) (other : u ≠ v) (more : trees <+: trees') :
    Watched (db.uploadDatabase v) trees' u key := by
  have invoked : db.republisher.invoked ⊆ (db.uploadDatabase v).republisher.invoked := by
    unfold uploadDatabase
    dsimp only
    split
    · exact fun _ => id
    · have grown := @Republisher.stepGrows db.republisher _ (.publish db.map.tree.rootHash true) rfl
      exact grown.2.subset
  exact watched.grow (uploadDatabaseOthers other db) (fun _ own => (uploadDatabaseAlong v db).owners.trans own)
    invoked more

theorem Watched.inserted {db : InjectorDb World} {trees trees' : List Node} {u v : Nat} {key : Key}
    {outcome : InsertOutcome} (watched : Watched db trees u key) (other : u ≠ v) (more : trees <+: trees') :
    Watched (db.inserted v outcome) trees' u key := by
  have gone (stage : Stage) : Watched (db.goes v stage) trees' u key :=
    watched.grow (by simp [goes,other.symm]) (fun _ => id) (fun _ => id) more
  cases outcome with
  | completed => exact watched.upload other more
  | buffered => exact watched.upload other more
  | error ec => exact gone _
  | exception => exact gone _

theorem growingInserted (db : InjectorDb World) {trees : List Node} {u : Nat} {outcome : InsertOutcome} {up : Update}
    (growing : Growing cfg content db.map db.published trees) (other : outcome ≠ .buffered)
    (here : db.updates[u]? = some up)
    (completed : outcome = .completed → db.map.tree.rootHash.isEmpty = false ∧
      ∃ n, RootTree cfg content db.map trees n ∧ up.key ∈ n.keys) :
    ∃ trees', trees <+: trees' ∧
      Growing cfg content (db.inserted u outcome).map (db.inserted u outcome).published trees' ∧
      Watched (db.inserted u outcome) trees' u up.key := by
  have gone (stage : Stage) (ends : stage = .threw ∨ ∃ ec, stage = .returned (.error ec)) :
      Watched (db.goes u stage) trees u up.key := by
    refine ⟨{ up with stage := stage },by simp [goes,here],rfl,?_⟩
    rcases ends with rfl | ⟨ec,rfl⟩ <;> trivial
  cases outcome with
  | buffered => exact absurd rfl other
  | error ec => exact ⟨trees,List.prefix_rfl,growing,gone _ (.inr ⟨ec,rfl⟩)⟩
  | exception => exact ⟨trees,List.prefix_rfl,growing,gone _ (.inl rfl)⟩
  | completed =>
    obtain ⟨proper,standing⟩ := completed rfl
    obtain ⟨trees',more,growing',shown⟩ := growingUpload growing (fun _ => standing) u
    refine ⟨trees',more,growing',{ up with stage := .publishing db.republisher.calls.length },?_,rfl,shown proper⟩
    simp [inserted,uploadDatabase,proper,goes,saveDb,here]

def Goes (cfg : Config) (content : Hash → Option Value) (trees : List Node) (db db' : InjectorDb World) : Prop :=
  ∃ trees', trees <+: trees' ∧ Growing cfg content db'.map db'.published trees' ∧
    ∀ u key, Watched db trees u key → Watched db' trees' u key

section steps
variable {db : InjectorDb World} {trees : List Node}

theorem Sending.growingCalled (two : 2 ≤ cfg.maxNodeSize) (here : cfg.addOp = true) (back : cfg.json.ParsesBack)
    (custody : Custody cfg ipfs.env R (fun _ _ => True) NoDouble (Clean fun _ => True))
    (sending : Sending cfg ipfs R content first db) {key : Key} {value : Value}
    (clean : Clean StdString.ValidUtf8 (key,value)) (waits : db.map.frames.all Frame.waits = true)
    (addressed : Addressed content R db.map.world)
    (growing : Growing cfg content db.map db.published trees) :
    Growing cfg content (db.called key value).map (db.called key value).published trees := by
  have step : FitStep cfg ipfs.env (Clean fun _ => True) db.map (.call key value) (db.called key value).map :=
    ⟨⟨trivial,if_pos waits⟩,fun _ _ same => by cases same; exact ⟨clean.1,trivial,trivial⟩⟩
  obtain ⟨settled,carried⟩ := sending.carried.step two here custody step
  refine growing.step two back custody sending.carried sending.fed settled carried (fun x mem => ?_)
    ((callWorld key value db.map).symm ▸ addressed)
  rw [show (db.called key value).map.calls = _ from (callLogs db.map key value).1,sending.pairs] at mem
  rcases List.mem_append.mp mem with old | new
  · exact sending.clean x old
  · exact List.mem_singleton.mp new ▸ clean

theorem Sending.growingResumed (two : 2 ≤ cfg.maxNodeSize) (here : cfg.addOp = true) (back : cfg.json.ParsesBack)
    (custody : Custody cfg ipfs.env R (fun _ _ => True) NoDouble (Clean fun _ => True))
    (sending : Sending cfg ipfs R content first db) {e : DbEvent World} {by_ : Resumption} {map : System World}
    (resumed : Resumed cfg ipfs db e by_ map) (addressed : Addressed content R map.world)
    (growing : Growing cfg content db.map db.published trees) :
    Growing cfg content map db.published trees ∧ ∀ u, db.owners = [u] → map.ended = db.map.ended ++ [.completed] →
      map.tree.rootHash.isEmpty = false ∧ ∃ n, RootTree cfg content map trees n ∧
        OrderedMap.keys db.pairs ⊆ n.keys := by
  obtain ⟨settled,carried⟩ := resumed.carried two here custody sending.carried
  have calls : map.calls = db.pairs := resumed.calls.trans sending.pairs
  have clean : ∀ x ∈ map.calls, Clean StdString.ValidUtf8 x := calls ▸ sending.clean
  have growing' := growing.step two back custody sending.carried sending.fed settled carried clean addressed
  refine ⟨growing',fun u owner completed => ?_⟩
  obtain ⟨_,_,some_⟩ := sending.running.owner owner
  obtain ⟨n,standing,all⟩ := growing'.completes two back sending.carried settled carried (resumed.calls ▸ some_) clean
    addressed completed
  obtain ⟨_,proper,_⟩ := sending.carried.completes settled carried clean completed
  exact ⟨proper,n,standing,calls ▸ all⟩

theorem Sending.goes (two : 2 ≤ cfg.maxNodeSize) (here : cfg.addOp = true) (retains : Retains ipfs.env R)
    (injective : cfg.json.DumpInjective fun _ => True) (back : cfg.json.ParsesBack)
    (sending : Sending cfg ipfs R content first db) {db' : InjectorDb World} {e : DbEvent World}
    (step : AddressedStep cfg ipfs R content db e db') (after : Addressed content R db'.map.world)
    (growing : Growing cfg content db.map db.published trees) : Goes cfg content trees db db' := by
  obtain ⟨step,clean,before⟩ := step
  have legible (w : World) : Legible cfg (fun _ => True) (R w) :=
    ⟨two,⟨trivial,trivial,trivial⟩,injective,retains.one,fun _ => trivial⟩
  have custody := retains.custody legible
  obtain ⟨moved,running⟩ := moves sending.running step
  have older {key : Key} {value : Value} {u : Nat} (inside : u < db.updates.length) :
      (db.called key value).updates[u]? = db.updates[u]? := List.getElem?_append_left inside
  cases moved with
  | @called key value idle flag =>
    refine ⟨trees,List.prefix_rfl,sending.growingCalled two here back custody (clean _ _ rfl) (by rw [idle]; rfl)
      before growing,fun u k watched => ?_⟩
    have none_ : db.owners = [] := by
      cases sending.running with
      | idle _ owners => exact owners
      | busy frames => rw [idle] at frames; cases frames
    obtain ⟨up,there,_⟩ := id watched
    refine watched.grow (older (List.getElem?_eq_some_iff.mp there).1) (fun _ own => ?_) (fun _ => id) List.prefix_rfl
    rw [none_] at own
    cases own
  | @buffered key value frame busy waits flag =>
    have along := uploadDatabaseAlong db.updates.length (db.called key value)
    have called := sending.growingCalled two here back custody (clean _ _ rfl) (by simp [busy,waits])
      before growing
    have root (proper : (db.called key value).map.tree.rootHash.isEmpty = false) :
        ∃ n, RootTree cfg content (db.called key value).map trees n ∧ True :=
      (called.root.resolve_left (by simpa using proper)).imp fun n standing => ⟨standing,trivial⟩
    obtain ⟨trees',more,growing',_⟩ := growingUpload called root db.updates.length
    refine ⟨trees',more,growing',fun u k watched => ?_⟩
    obtain ⟨up,there,_⟩ := id watched
    have inside := (List.getElem?_eq_some_iff.mp there).1
    have kept : Watched (db.called key value) trees u k :=
      watched.grow (older inside) (fun _ => id) (fun _ => id) List.prefix_rfl
    exact kept.upload inside.ne more
  | added => exact ⟨trees,List.prefix_rfl,growing,fun _ _ => id⟩
  | @republished e r gone other =>
    have calls : (db.answered r).published = db.published :=
      congrArg (List.map Prod.fst) (Republisher.stepCalls gone other)
    exact ⟨trees,List.prefix_rfl,calls ▸ growing,fun _ _ => Watched.answered gone⟩
  | @went _ by_ map resumed same =>
    exact ⟨trees,List.prefix_rfl,(sending.growingResumed two here back custody resumed after growing).1,fun _ _ => id⟩
  | @ended _ _ map u outcome resumed owner idle ended other =>
    have along := insertedAlong u outcome { db with map := map, owners := [], midway := none }
    obtain ⟨growing',completes⟩ := sending.growingResumed two here back custody resumed
      (by rw [along.map] at after; exact after) growing
    obtain ⟨up,there,_⟩ := sending.running.owner owner
    obtain ⟨trees',more,growing'',watched'⟩ :=
      growingInserted { db with map := map, owners := [], midway := none } growing' other there fun done => by
        obtain ⟨proper,n,standing,all⟩ := completes u owner (done ▸ ended)
        exact ⟨proper,n,standing,all (List.mem_map_of_mem (List.mem_map_of_mem (List.mem_of_getElem? there)))⟩
    refine ⟨trees',more,growing'',fun v k watched => ?_⟩
    by_cases own : v = u
    · subst own
      obtain ⟨_,here',rfl,_⟩ := watched
      cases here'.symm.trans there
      exact watched'
    · have paused : Watched { db with map := map, owners := [], midway := none } trees v k := by
        refine watched.grow rfl (fun _ mine => ?_) (fun _ => id) List.prefix_rfl
        rw [owner] at mine
        exact absurd (List.cons.inj mine).1.symm own
      exact paused.inserted own more

end steps

theorem runGoes (two : 2 ≤ cfg.maxNodeSize) (here : cfg.addOp = true) (retains : Retains ipfs.env R)
    (injective : cfg.json.DumpInjective fun _ => True) (back : cfg.json.ParsesBack) {db₁ db : InjectorDb World}
    (sending : Sending cfg ipfs R content first db₁) {trees : List Node}
    (growing : Growing cfg content db₁.map db₁.published trees)
    (run : Reach (· = db₁) (AddressedStep cfg ipfs R content) db) (addressed : Addressed content R db.map.world) :
    Sending cfg ipfs R content first db ∧ Goes cfg content trees db₁ db := by
  have kept := run.invariant (I := fun db => Sending cfg ipfs R content first db ∧
    (Addressed content R db.map.world → Goes cfg content trees db₁ db)) (fun db same => ?_) ?_
  · exact kept.imp_right (· addressed)
  · rw [show db = db₁ from same]
    exact ⟨sending,fun _ => ⟨trees,List.prefix_rfl,growing,fun _ _ => id⟩⟩
  · rintro db e db' ⟨sending,goes⟩ step
    refine ⟨sending.step two here retains injective back step,fun after => ?_⟩
    obtain ⟨trees',more,growing',kept⟩ := goes step.2.2
    obtain ⟨trees'',more',growing'',kept'⟩ := sending.goes two here retains injective back step after growing'
    exact ⟨trees'',more.trans more',growing'',fun u key watched => kept' u key (kept u key watched)⟩

theorem startGrowing {db : InjectorDb World} (start : Starts cfg db) (fresh : db.map.tree.rootHash.isEmpty = true) :
    Growing cfg content db.map db.published [] := by
  obtain ⟨S,pathToRepo,ipns,files,world,_,rfl⟩ := start
  exact ⟨.nil,.nil,by simp,.inl fresh⟩

section clients
variable {σ : Type} {S : Storage σ} {st : σ}

theorem callBehind {db : InjectorDb World} {trees : List Node}
    (growing : Growing cfg content db.map db.published trees) {i : Nat} {call : Cid × Bool}
    (at_ : db.republisher.calls[i]? = some call) : ∃ n, trees[i]? = some n ∧ TreeOf cfg content call.1 n := by
  have there : db.published[i]? = some call.1 := by rw [published,List.getElem?_map,at_]; rfl
  have inside := (List.getElem?_eq_some_iff.mp there).1
  have long := growing.stand.length_eq ▸ inside
  refine ⟨trees[i],List.getElem?_eq_getElem long,?_⟩
  rw [← (List.getElem?_eq_some_iff.mp there).2]
  exact growing.stand.get inside long

theorem updateFound {db : InjectorDb World} {trees : List Node} (pairs : db.map.calls = db.pairs)
    (growing : Growing cfg content db.map db.published trees) (back : cfg.json.ParsesBack) (faithful : S.Faithful)
    (serves : ∀ h x, content h = some x → S.reads st h = .ok x) {n : Node} (behind : n ∈ trees) {id : Hash}
    (tree : TreeOf cfg content id n) {key : Key} (mem : key ∈ n.keys) :
    ∃ up ∈ db.updates, up.key = key ∧ Finds cfg.json S st id key (.ok up.value) := by
  obtain ⟨v,pair,found⟩ := tree.findsKey back faithful serves mem
  have given := (growing.within n behind).given _ pair
  rw [pairs] at given
  obtain ⟨up,there,same⟩ := List.mem_map.mp given
  cases same
  exact ⟨up,there,rfl,found⟩

/-- From a fresh database on, in any run: what a client finds with one of the ids handed over
it also finds with each later one, and the string is one that an update was called with. -/
theorem publishedGrows (two : 2 ≤ cfg.maxNodeSize) (here : cfg.addOp = true) (retains : Retains ipfs.env R)
    (injective : cfg.json.DumpInjective fun _ => True) (back : cfg.json.ParsesBack) {db₀ db : InjectorDb World}
    (start : Starts cfg db₀) (fresh : db₀.map.tree.rootHash.isEmpty = true)
    (run : Reach (· = db₀) (AddressedStep cfg ipfs R content) db) (addressed : Addressed content R db.map.world)
    (faithful : S.Faithful) (serves : ∀ h x, content h = some x → S.reads st h = .ok x) {i j : Nat} (older : i ≤ j)
    {call call' : Cid × Bool} (first : db.republisher.calls[i]? = some call)
    (later : db.republisher.calls[j]? = some call') {key : Key} {value : Value}
    (finds : Finds cfg.json S st call.1 key (.ok value)) :
    ∃ up ∈ db.updates, up.key = key ∧ Finds cfg.json S st call'.1 key (.ok up.value) := by
  obtain ⟨sending,trees,_,growing,_⟩ := runGoes two here retains injective back (startSending start)
    (startGrowing start fresh) run addressed
  obtain ⟨m,at_,tree⟩ := callBehind growing first
  obtain ⟨n,at',tree'⟩ := callBehind growing later
  have mem : key ∈ m.keys := by
    by_contra none_
    have found := tree.finds back faithful serves key
    rw [(OrderedMap.findNone tree.tree.sorted).mpr none_] at found
    cases found.one finds
  exact updateFound sending.pairs growing back faithful serves (List.mem_of_getElem? at') tree'
    (growing.later older at_ at' mem)

end clients

def contentStorage (content : Hash → Option Value) : Storage Unit :=
  ⟨fun _ hash => ((content hash).elim (.error .notFound) .ok,()),fun _ _ => (.error .operationAborted,()),
    fun _ _ => ()⟩

theorem contentFaithful (content : Hash → Option Value) : (contentStorage content).Faithful :=
  ⟨fun same => (by cases same),fun _ => id,fun _ => id,id⟩

theorem contentServes (content : Hash → Option Value) :
    ∀ h x, content h = some x → (contentStorage content).reads () h = .ok x := fun h x same => by
  simp [Storage.reads,contentStorage,same]

def pairText : Value :=
  nlohmann.dump (.object [(letter 97,.object [(valueField,.string (letter 49))]),
    (letter 98,.object [(valueField,.string (letter 49))])])

def pairContent (hash : Hash) : Option Value :=
  if hash = StdString.decimal 0 then some leafText else if hash = StdString.decimal 1 then some pairText else none

def bothUpdates : List DbAct :=
  [.go,.go,.go,.go] ++ storeRoot ++ [.republish (.complete 0 (.ok ()))] ++ nextUpdate (letter 98) ++ storeRoot

theorem lettersPlain : ∀ b ∈ ([97,98] : List (Fin 256)), Clean StdString.ValidUtf8 (letter b,letter 49) := by
  simpa using ⟨pairClean (by decide) (by decide),pairClean (by decide) (by decide)⟩

theorem publishedGrowsTwice : ∃ db : InjectorDb MockIpfs,
    db.republisher.calls = [(StdString.decimal 0,true),(StdString.decimal 1,true)] ∧
    ∃ up ∈ db.updates, up.key = letter 97 ∧
      Finds nlohmann (contentStorage pairContent) () (StdString.decimal 1) (letter 97) (.ok up.value) := by
  have run : ((mockDb 2).play (mockConfig 2) (contentStep pairContent [97,98])
      (.update (letter 97) (letter 49) :: bothUpdates)).any (fun db =>
      decide (db.republisher.calls = [(StdString.decimal 0,true),(StdString.decimal 1,true)]) &&
      db.map.world.blocks.blocks.all fun p => pairContent p.1 = some p.2) = true := by
    decide +kernel
  have found : (BTree.findAlone (clientConfig nlohmann) (contentStorage pairContent) 1 (letter 97)
      (BTree.load (clientConfig nlohmann) (contentStorage pairContent) (StdString.decimal 0) .fresh ()).1 ()).any
        (fun out => decide (out.1 = .ok (letter 49))) = true := by
    decide +kernel
  have finds : Finds nlohmann (contentStorage pairContent) () (StdString.decimal 0) (letter 97)
      (.ok (letter 49)) := by
    obtain ⟨⟨result,bt,st⟩,run,same⟩ := Option.any_eq_true _ _ |>.mp found
    cases of_decide_eq_true same
    exact ⟨1,fun fuel enough => ⟨bt,st,findMore enough run⟩⟩
  obtain ⟨db,played,seen⟩ := Option.any_eq_true _ _ |>.mp run
  simp only [Bool.and_eq_true,decide_eq_true_eq] at seen
  have first : db.republisher.calls[0]? = some (StdString.decimal 0,true) := by rw [seen.1]; rfl
  have later : db.republisher.calls[1]? = some (StdString.decimal 1,true) := by rw [seen.1]; rfl
  exact ⟨db,seen.1,publishedGrows (by decide) rfl MockIpfs.pins.retainsKnown nlohmannDumpInjective nlohmannParsesBack
    (mockStarts 2) rfl (contentReach lettersPlain (.start rfl) played) (contentAddressed seen.2) (contentFaithful _)
    (contentServes _) (Nat.zero_le 1) first later finds⟩

end InjectorDb
end IpfsCache
