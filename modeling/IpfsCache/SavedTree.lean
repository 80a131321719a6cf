import IpfsCache.DurableUpdates

/-! How long the saved database stays whole in the storage. When an insert completes, the
block behind the root id and all blocks below it are pinned, and so they are until the next
unpin: the next insert begins by unpinning what it replaces, long before it saves a new root. -/
namespace IpfsCache
open Node Entries

/-- The blocks that can be reached from an id through child hashes, each block read as
Node::restore reads it. -/
inductive Below (cfg : Config) (K : Hash → Value → Prop) (root : Hash) : Hash → Prop
  | refl : Below cfg K root root
  | child {h : Hash} {members : List (StdString × Json)} {es : Entries} {p : NodeId × Entry Node}
      (above : Below cfg K root h) (there : K h (cfg.json.dump (.object members)))
      (document : Json.NodeDocument (fun _ => True) (.object members))
      (restored : restoreLoop members [] = (es,true)) (mem : p ∈ es) (proper : p.2.childHash.isEmpty = false) :
      Below cfg K root p.2.childHash

section written
variable {cfg : Config} {K R : Hash → Value → Prop}

structure Rooted (cfg : Config) (R : Hash → Value → Prop) (h : Hash) (n : Node) : Prop where
  own : OwnBlock cfg R h n
  written : Written cfg (fun _ => True) R n
  full : n.flatten ≠ []

theorem Rooted.child (legible : Legible cfg (fun _ => True) R) {h : Hash} {es : Entries}
    (rooted : Rooted cfg R h ⟨es⟩)
    {p : NodeId × Entry Node} (mem : p ∈ es) (proper : p.2.childHash.isEmpty = false) :
    ∃ c, Rooted cfg R p.2.childHash c := by
  obtain ⟨d,level⟩ := rooted.written.level
  cases d with
  | zero =>
    rw [(level.bare p mem).2] at proper
    cases proper
  | succ d =>
    obtain ⟨c,child,_⟩ := level.2.2 p mem
    obtain ⟨cs⟩ := c
    obtain ⟨written,half⟩ := rooted.written.child mem child
    have two := legible.two
    have some_ : 0 < (Node.mk cs).size := by omega
    obtain ⟨k,own⟩ := ownKey written.tree.ordered.here some_
    refine ⟨⟨cs⟩,rooted.written.backed.here mem child proper,written,fun none_ => ?_⟩
    have inside := (keysParts cs).subset (List.mem_append_right _ own)
    rw [Node.keys,none_] at inside
    cases inside

theorem Rooted.below (legible : Legible cfg (fun _ => True) R) (one : ∀ {h x y}, K h x → K h y → x = y)
    (sub : ∀ h x, R h x → K h x) {root g : Hash} {n : Node} (rooted : Rooted cfg R root n)
    (below : Below cfg K root g) : ∃ n', Rooted cfg R g n' := by
  induction below with
  | refl => exact ⟨n,rooted⟩
  | @child h members es p above there document restored mem proper ih =>
    obtain ⟨⟨es'⟩,node⟩ := ih
    have doc := node.written.printable legible node.own.2 node.full
    obtain ⟨same,document'⟩ := nodeDocument legible.usable doc
    rw [same] at document'
    have block_ : block cfg ⟨es'⟩ = cfg.json.dump (.object (filed es')) := congrArg cfg.json.dump same
    have equal := legible.injective _ _ document document' ((one there (sub _ _ node.own.1)).trans block_)
    have members_ : members = filed es' := Json.object.inj equal
    rw [members_,restoreFiled doc.keyed] at restored
    obtain rfl : stubs es' = es := congrArg Prod.fst restored
    obtain ⟨q,inside,rfl⟩ := List.mem_map.mp mem
    exact node.child (p := q) legible (keptMem inside) proper

end written

theorem Republisher.stepCalls {r r' : Republisher} {e : Happening} (h : r.Step e r')
    (other : ∀ cid present, e ≠ .publish cid present) : r'.calls = r.calls := by
  have answered {r r' : Republisher} {f : Flight} {status : Status} (h : r.answer f status = some r') :
      r'.calls = r.calls := by
    unfold answer at h
    split at h <;> cases h
    rfl
  cases e with
  | publish cid present => exact absurd rfl (other cid present)
  | expire => cases h; rfl
  | go =>
    simp only [Step,step] at h
    split at h
    · cases h
    · split at h
      · cases h
        exact (startPublishingGrows _).1
      · exact answered h
  | complete i status =>
    simp only [Step,step] at h
    split at h
    · have same := answered h
      exact same
    · cases h
  | timeout i =>
    simp only [Step,step] at h
    split at h
    · cases h
      unfold timeout
      split
      · rfl
      · exact (startPublishingGrows _).1
    · cases h

section
variable {World : Type} {cfg : Config} {ipfs : Ipfs World} {R : World → Hash → Value → Prop}

def Frame.calm (id : Hash) (tree : BTree) : Frame → Prop
  | .loop | .batch _ | .inserting .. => tree.rootHash = id
  | .unhooking _ => tree.rootHash.isEmpty = true
  | _ => False

theorem pauseOnHash {tree : BTree} {after : Root} {buf : List (Key × Value)} {ps : List Pause} :
    ∃ tree' frame, pauseOn tree after buf ps = .goes tree' frame ∧ tree'.rootHash = after.hash ∧
      ((∃ p ps', frame = .inserting p ps' after buf) ∨ frame = .batch buf) := by
  cases ps with
  | nil => exact ⟨_,_,rfl,rfl,.inr rfl⟩
  | cons p ps => exact ⟨_,_,rfl,rfl,.inl ⟨p,ps,rfl⟩⟩

theorem calmAdvance (remove : cfg.removeOp = true) {id : Hash} (proper : id.isEmpty = false) {tree : BTree}
    {frame : Frame} {by_ : Resumption} {a : Advance} (calm : frame.calm id tree) (quiet : by_ ≠ .removed)
    (h : Advanced cfg tree frame by_ a) : by_ = .go ∧ frame.waits = false ∧
      ((∃ tree' frame', a = .goes tree' frame' ∧ frame'.calm id tree') ∨
        ∃ tree', a = .ends tree' .completed ∧ tree'.rootHash = id) := by
  cases h with
  | finished => exact ⟨rfl,rfl,.inr ⟨_,rfl,calm⟩⟩
  | drained => exact ⟨rfl,rfl,.inl ⟨_,_,rfl,calm⟩⟩
  | @raw _ k v buf ps after raw =>
    obtain ⟨n,rfl⟩ := rawInsertNode raw
    have same : topHash tree.root = id := (rootHashTop tree).symm.trans calm
    obtain ⟨tree',frame',goes,hash,at_⟩ := @pauseOnHash tree ⟨some n,topHash tree.root⟩ buf ps
    refine ⟨rfl,rfl,.inl ⟨tree',frame',goes,?_⟩⟩
    rcases at_ with ⟨p,ps',rfl⟩ | rfl <;> exact hash.trans same
  | removed => exact absurd rfl quiet
  | unhooked => exact absurd rfl quiet
  | rootless =>
    rw [← show noHash = id from calm] at proper
    cases proper
  | forgotten none_ =>
    rcases none_ with empty | absent
    · rw [← show _ = id from calm] at proper
      rw [BTree.rootHash,empty] at proper
      cases proper
    · rw [remove] at absent
      cases absent
  | unhooks => exact ⟨rfl,rfl,.inl ⟨_,_,rfl,rfl⟩⟩
  | skipped => exact calm.elim
  | stores => exact calm.elim
  | added => exact calm.elim

theorem computedWorld {env : Env World} {frame : Frame} {w w' : World} (answers : env.Answers w frame .go w') :
    w' = w := by
  cases frame <;> exact answers

namespace InjectorDb

structure Latest (db : InjectorDb World) (id : Hash) : Prop where
  saved : ∃ w, db.saved.getLast? = some (id,w)
  file : db.files.content (pathToDb db.pathToRepo db.ipns) = some id
  published : db.republisher.calls.getLast? = some (id,true)

structure Calm (cfg : Config) (R : World → Hash → Value → Prop) (db : InjectorDb World) (id : Hash) : Prop where
  proper : id.isEmpty = false
  tree : ∃ n, Rooted cfg (R db.now) id n
  still : db.map.frames = [] → db.map.tree.rootHash = id
  frames : ∀ frame ∈ db.map.frames, frame.calm id db.map.tree
  latest : Latest db id

theorem uploadLatest (db : InjectorDb World) (writable : db.files.writable (pathToDb db.pathToRepo db.ipns) = true)
    (proper : db.map.tree.rootHash.isEmpty = false) (u : Nat) :
    Latest (db.uploadDatabase u) db.map.tree.rootHash := by
  have upload : db.uploadDatabase u = { db.saveDb db.map.tree.rootHash with
      republisher := db.republisher.publish db.map.tree.rootHash true }.goes u
        (.publishing db.republisher.calls.length) := if_neg (by simp [proper])
  rw [upload]
  refine ⟨⟨db.now,?_⟩,(IpfsCache.saved _ writable).1,?_⟩
  · change (db.saveDb _).saved.getLast? = _
    rw [show (db.saveDb db.map.tree.rootHash).saved =
      db.saved ++ [(db.map.tree.rootHash,db.now)] from if_pos writable]
    simp
  · change (db.republisher.publish _ true).calls.getLast? = _
    rw [Republisher.publishCalls]
    simp

theorem uploadKeepsLatest {db : InjectorDb World} (empty : db.map.tree.rootHash.isEmpty = true) (u : Nat) {id : Hash}
    (latest : Latest db id) : Latest (db.uploadDatabase u) id := by
  rw [show db.uploadDatabase u = db.goes u (.returned (.ok ())) from if_pos empty]
  exact ⟨latest.saved,latest.file,latest.published⟩

theorem Calm.now {db : InjectorDb World} {id : Hash} (running : Running ipfs db) (calm : Calm cfg R db id) :
    db.now = db.map.world := by
  unfold InjectorDb.now
  cases here : db.midway with
  | none => rfl
  | some m =>
    cases running with
    | idle _ _ _ midway =>
      rw [midway] at here
      cases here
    | busy frames _ _ _ _ midway =>
      obtain ⟨x,next,rfl,_⟩ := midway m.1 m.2 here
      have inside := calm.frames (.storing x next) (by rw [frames]; exact List.mem_singleton_self _)
      cases inside

theorem Calm.called {db : InjectorDb World} {id : Hash} (calm : Calm cfg R db id) (idle : db.map.frames = [])
    (flag : db.map.tree.isInserting = false) (key : Key) (value : Value) :
    Calm cfg R { db.called key value with owners := [db.updates.length] } id := by
  have kept := calledKeeps key value db
  refine ⟨calm.proper,?_,fun _ => kept.1.trans (calm.still idle),fun frame mem => ?_,calm.latest.saved,
    calm.latest.file,calm.latest.published⟩
  · change ∃ n, Rooted cfg (R (db.called key value).now) id n
    rw [kept.2]
    exact calm.tree
  · have loop : frame = .loop := by
      simpa [InjectorDb.called,System.call,flag,idle] using mem
    subst loop
    exact kept.1.trans (calm.still idle)

theorem Calm.buffered {db : InjectorDb World} {id : Hash} (calm : Calm cfg R db id)
    (writable : db.files.writable (pathToDb db.pathToRepo db.ipns) = true) {frame : Frame}
    (busy : db.map.frames = [frame]) (waits : frame.waits = true) (flag : db.map.tree.isInserting = true) (key : Key)
    (value : Value) : Calm cfg R ((db.called key value).uploadDatabase db.updates.length) id := by
  have kept := calledKeeps key value db
  have along := uploadDatabaseAlong db.updates.length (db.called key value)
  have inside := calm.frames frame (by simp [busy])
  have frames : (db.called key value).map.frames = [frame] := by simp [InjectorDb.called,System.call,flag,busy]
  have latest : Latest ((db.called key value).uploadDatabase db.updates.length) id := by
    have before : Latest (db.called key value) id := ⟨calm.latest.saved,calm.latest.file,calm.latest.published⟩
    have full (same : db.map.tree.rootHash = id) :
        Latest ((db.called key value).uploadDatabase db.updates.length) id := by
      have upload := uploadLatest (db.called key value) writable
        (by rw [kept.1,same]; exact calm.proper) db.updates.length
      rwa [kept.1,same] at upload
    cases frame with
    | inserting => exact full inside
    | unhooking => exact uploadKeepsLatest (by rw [kept.1]; exact inside) _ before
    | loop => cases waits
    | batch => cases waits
    | unhooked => cases waits
    | storing => cases inside
  refine ⟨calm.proper,?_,?_,?_,latest⟩
  · rw [along.now,kept.2]
    exact calm.tree
  · rw [along.map,frames]
    simp
  · rw [along.map,frames]
    intro frame' mem
    obtain rfl := List.mem_singleton.mp mem
    cases frame' with
    | inserting => exact kept.1.trans inside
    | unhooking => exact (congrArg StdString.isEmpty kept.1).trans inside
    | loop => exact kept.1.trans inside
    | batch => exact kept.1.trans inside
    | unhooked => exact inside
    | storing => exact inside

section resumed
variable {db : InjectorDb World} {e : DbEvent World} {by_ : Resumption} {map : System World} {id : Hash}

theorem Calm.computes (remove : cfg.removeOp = true) (calm : Calm cfg R db id)
    (resumed : Resumed cfg ipfs db e by_ map) (quiet : e.unpins = false) : map.world = db.map.world ∧
      ((∃ frame, map.frames = [frame] ∧ map.ended = db.map.ended ∧ frame.calm id map.tree) ∨
        (map.ended = db.map.ended ++ [.completed] ∧ map.tree.rootHash = id)) := by
  obtain ⟨frame,a,one,advanced,answers,after⟩ := resumed.advanced
  have inside := calm.frames frame (by simp [one])
  obtain ⟨rfl,_,⟨tree',frame',rfl,calm'⟩ | ⟨tree',rfl,hash⟩⟩ :=
    calmAdvance remove calm.proper inside (resumed.quiet quiet) advanced
  · refine ⟨computedWorld answers,.inl ⟨frame',?_,?_,?_⟩⟩
    · rw [after,System.after,one]
      rfl
    · rw [after]
      rfl
    · rw [after]
      exact calm'
  · refine ⟨computedWorld answers,.inr ⟨?_,?_⟩⟩
    · rw [after]
      rfl
    · rw [after]
      exact hash

theorem Calm.went (remove : cfg.removeOp = true) (calm : Calm cfg R db id) (now_ : db.now = db.map.world)
    (resumed : Resumed cfg ipfs db e by_ map) (quiet : e.unpins = false) (same : map.ended = db.map.ended) :
    Calm cfg R { db with map := map, midway := none } id := by
  obtain ⟨world,⟨frame,one,_,calm'⟩ | ⟨ended,_⟩⟩ := calm.computes remove resumed quiet
  · refine ⟨calm.proper,?_,fun none_ => ?_,fun f mem => ?_,calm.latest.saved,calm.latest.file,calm.latest.published⟩
    · change ∃ n, Rooted cfg (R map.world) id n
      rw [world,← now_]
      exact calm.tree
    · cases one.symm.trans none_
    · change f ∈ map.frames at mem
      rw [one] at mem
      rw [List.mem_singleton.mp mem]
      exact calm'
  · simp [ended] at same

theorem Calm.ended (remove : cfg.removeOp = true) (calm : Calm cfg R db id) (now_ : db.now = db.map.world)
    (writable : db.files.writable (pathToDb db.pathToRepo db.ipns) = true)
    (resumed : Resumed cfg ipfs db e by_ map) (quiet : e.unpins = false) {u : Nat} {outcome : InsertOutcome}
    (idle : map.frames = []) (ended : map.ended = db.map.ended ++ [outcome]) :
    Calm cfg R ({ db with map := map, owners := [], midway := none }.inserted u outcome) id := by
  obtain ⟨world,⟨frame,one,_⟩ | ⟨completed,rootHash⟩⟩ := calm.computes remove resumed quiet
  · cases one.symm.trans idle
  · obtain rfl : outcome = .completed := by simpa [ended] using completed
    have along := uploadDatabaseAlong u { db with map := map, owners := [], midway := none }
    have upload := uploadLatest { db with map := map, owners := [], midway := none } writable
      (by change map.tree.rootHash.isEmpty = false; rw [rootHash]; exact calm.proper) u
    refine ⟨calm.proper,?_,fun _ => ?_,fun f mem => ?_,rootHash ▸ upload⟩
    · change ∃ n, Rooted cfg (R (uploadDatabase u { db with map := map, owners := [], midway := none }).now) id n
      rw [along.now]
      change ∃ n, Rooted cfg (R map.world) id n
      rw [world,← now_]
      exact calm.tree
    · exact (congrArg (fun m => m.tree.rootHash) along.map).trans rootHash
    · rw [show (inserted u .completed { db with map := map, owners := [], midway := none }).map = map from along.map,
        idle] at mem
      cases mem

end resumed

theorem calmKept (remove : cfg.removeOp = true) {db db' : InjectorDb World} {e : DbEvent World} {id : Hash}
    (running : Running ipfs db) (writable : db.files.writable (pathToDb db.pathToRepo db.ipns) = true)
    (calm : Calm cfg R db id) (h : InjectorDb.Step cfg ipfs db e db') (quiet : e.unpins = false) :
    Calm cfg R db' id := by
  have now_ := calm.now running
  cases (moves running h).1 with
  | called idle flag => exact calm.called idle flag _ _
  | buffered busy waits flag => exact calm.buffered writable busy waits flag _ _
  | added frames =>
    have inside := calm.frames _ (by rw [frames]; exact List.mem_singleton_self _)
    cases inside
  | @republished e r step other =>
    refine ⟨calm.proper,calm.tree,calm.still,calm.frames,calm.latest.saved,calm.latest.file,?_⟩
    change r.calls.getLast? = _
    rw [Republisher.stepCalls step other]
    exact calm.latest.published
  | went resumed same => exact calm.went remove now_ resumed quiet same
  | ended resumed _ idle ended _ => exact calm.ended remove now_ writable resumed quiet idle ended

theorem completedCalm (two : 2 ≤ cfg.maxNodeSize) (here : cfg.addOp = true) (retains : Retains ipfs.env R)
    (injective : cfg.json.DumpInjective fun _ => True) {db db' : InjectorDb World} {e : DbEvent World}
    (running : Running ipfs db) (carried : Carried cfg ipfs.env R db.map)
    (writable : db.files.writable (pathToDb db.pathToRepo db.ipns) = true) (h : InjectorDb.Step cfg ipfs db e db')
    (completed : db'.map.ended = db.map.ended ++ [.completed]) : ∃ id, Calm cfg R db' id := by
  have never (key : Key) (value : Value) : (db.map.call key value).ended ≠ db.map.ended ++ [.completed] := by
    rcases (callLogs db.map key value).2 with same | same <;> simp [same]
  cases (moves running h).1 with
  | called => exact absurd completed (never _ _)
  | buffered =>
    rw [(uploadDatabaseAlong _ _).map] at completed
    exact absurd completed (never _ _)
  | added => simp at completed
  | republished => simp [answered] at completed
  | went resumed same => simp [same] at completed
  | @ended _ by_ map u outcome resumed owner idle ended other =>
    have along := insertedAlong u outcome { db with map := map, owners := [], midway := none }
    rw [along.map] at completed
    obtain rfl : outcome = .completed := by simpa [ended] using completed
    have legible (w : World) : Legible cfg (fun _ => True) (R w) :=
      ⟨two,⟨trivial,trivial,trivial⟩,injective,retains.one,fun _ => trivial⟩
    obtain ⟨settled,carried'⟩ := resumed.carried two here (retains.custody legible) carried
    obtain ⟨n,proper,own,written,keys_⟩ := carried.completes settled carried' carried'.fit ended
    obtain ⟨_,_,given⟩ := running.owner owner
    obtain ⟨x,rest,calls⟩ := List.exists_cons_of_ne_nil given
    have full : n.flatten ≠ [] := fun none_ => by
      have inside := keys_ x.1 (by rw [resumed.calls,calls]; exact List.mem_cons_self)
      rw [Node.keys,none_] at inside
      cases inside
    refine ⟨map.tree.rootHash,proper,⟨n,?_⟩,fun _ => ?_,fun f mem => ?_,
      uploadLatest { db with map := map, owners := [], midway := none } writable proper u⟩
    · rw [along.now]
      exact ⟨own,written,full⟩
    · rw [along.map]
    · rw [along.map] at mem
      change f ∈ map.frames at mem
      rw [idle] at mem
      cases mem

def QuietStep (cfg : Config) (ipfs : Ipfs World) (db : InjectorDb World) (e : DbEvent World)
    (db' : InjectorDb World) : Prop :=
  ProperStep cfg ipfs db e db' ∧ e.unpins = false

def Intact (cfg : Config) (Known : World → Hash → Value → Prop) (Pinned : World → Hash → Prop) (db : InjectorDb World)
    (id : Hash) : Prop :=
  ∀ g, Below cfg (Known db.now) id g → Pinned db.now g ∧ ∃ x, Known db.now g x

/-- From the completion of an insert up to the next return of an unpin, the database saved
and published last is intact at every point, in storage operations and between them. -/
theorem savedTreeIntact (two : 2 ≤ cfg.maxNodeSize) (here : cfg.addOp = true) (remove : cfg.removeOp = true)
    {Known : World → Hash → Value → Prop} {Pinned : World → Hash → Prop} (pins : ipfs.Pins Known Pinned)
    (injective : cfg.json.DumpInjective fun _ => True) {db₀ db₁ db : InjectorDb World} {e : DbEvent World}
    (h : Reach (Starts cfg) (ProperStep cfg ipfs) db₀) (step : ProperStep cfg ipfs db₀ e db₁)
    (completed : db₁.map.ended = db₀.map.ended ++ [.completed]) (quiet : Reach (· = db₁) (QuietStep cfg ipfs) db) :
    ∃ id, Latest db id ∧ Intact cfg Known Pinned db id := by
  obtain ⟨running,carried,writable⟩ := reachCarried two here pins.retains injective h
  obtain ⟨id,calm⟩ := completedCalm two here pins.retains injective running carried writable step.1 completed
  have reached {db : InjectorDb World} (quiet : Reach (· = db₁) (QuietStep cfg ipfs) db) :
      Reach (Starts cfg) (ProperStep cfg ipfs) db := by
    induction quiet with
    | start same => exact same ▸ h.step e step
    | step e _ next before => exact before.step e next.1
  have calm' : Calm cfg (fun w h x => Known w h x ∧ Pinned w h) db id := by
    refine quiet.invariantOver (I := fun db => Calm cfg (fun w h x => Known w h x ∧ Pinned w h) db id)
      (fun _ quiet => reachCarried two here pins.retains injective (reached quiet)) (fun _ same => same ▸ calm)
      fun _ _ _ known calm next => calmKept remove known.1 known.2.2 calm next.1.1 next.2
  have legible : Legible cfg (fun _ => True) fun h x => Known db.now h x ∧ Pinned db.now h :=
    ⟨two,⟨trivial,trivial,trivial⟩,injective,pins.retains.one,fun _ => trivial⟩
  obtain ⟨n,rooted⟩ := calm'.tree
  refine ⟨id,calm'.latest,fun g below => ?_⟩
  obtain ⟨n',node⟩ := rooted.below (K := Known db.now) legible pins.one (fun _ _ => And.left) below
  exact ⟨node.own.1.2,_,node.own.1.1⟩

end InjectorDb

end

namespace InjectorDb

def properUpdate (_ : InjectorDb MockIpfs) : DbEvent MockIpfs → Bool
  | .update key _ => decide (ProperKey key)
  | _ => true

def quietEvent (db : InjectorDb MockIpfs) (e : DbEvent MockIpfs) : Bool := properUpdate db e && !e.unpins

theorem properReach {Start : InjectorDb MockIpfs → Prop} {acts : List DbAct} {db db' : InjectorDb MockIpfs} {m : Nat}
    (start : Start db) (h : db.play (mockConfig m) properUpdate acts = some db') :
    Reach Start (ProperStep (mockConfig m) MockIpfs.ipfs) db' :=
  playReach (P := fun _ e => ∀ key value, e = .update key value → ProperKey key)
    (fun _ _ ok _ _ same => by subst same; exact of_decide_eq_true ok) (.start start) h

theorem quietReach {acts : List DbAct} {db db' : InjectorDb MockIpfs} {m : Nat}
    (h : db.play (mockConfig m) quietEvent acts = some db') :
    Reach (· = db) (QuietStep (mockConfig m) MockIpfs.ipfs) db' := by
  have run : Reach (· = db) (fun db e db' => Step (mockConfig m) MockIpfs.ipfs db e db' ∧
      (∀ key value, e = .update key value → ProperKey key) ∧ e.unpins = false) db' := by
    refine playReach (fun db e ok => ?_) (.start rfl) h
    simp only [quietEvent,Bool.and_eq_true,Bool.not_eq_true'] at ok
    exact ⟨fun _ _ same => by subst same; exact of_decide_eq_true ok.1,ok.2⟩
  exact run.mono (fun _ => id) fun _ _ _ step => ⟨⟨step.1,step.2.1⟩,step.2.2⟩

theorem savedTreeIntactFourth : ∃ db : InjectorDb MockIpfs, db.updates.length = 4 ∧
    db.now.pinned.length = 3 ∧ ∃ id, Latest db id ∧
    Intact (mockConfig 2) MockIpfs.Known (fun w hash => hash ∈ w.pinned) db id := by
  have run : ((mockDb 2).play (mockConfig 2) properUpdate (threeUpdates ++ [.added none,.pinned none])).any
      (fun db => (DbAct.go.event db).any fun e => (db.step (mockConfig 2) e).any fun db₁ =>
        decide (db₁.map.ended = db.map.ended ++ [.completed]) && properUpdate db e &&
          (db₁.play (mockConfig 2) quietEvent [.update (letter 100) (letter 49),.go,.go]).any
          fun db => decide (db.updates.length = 4) && decide (db.now.pinned.length = 3)) = true := by
    decide +kernel
  obtain ⟨db₀,played,next⟩ := Option.any_eq_true _ _ |>.mp run
  obtain ⟨e,event,next⟩ := Option.any_eq_true _ _ |>.mp next
  obtain ⟨db₁,step,seen⟩ := Option.any_eq_true _ _ |>.mp next
  simp only [Bool.and_eq_true,decide_eq_true_eq] at seen
  obtain ⟨⟨completed,proper⟩,rest⟩ := seen
  obtain ⟨db,quiet,last⟩ := Option.any_eq_true _ _ |>.mp rest
  rw [Bool.and_eq_true,decide_eq_true_eq,decide_eq_true_eq] at last
  have stepped : ProperStep (mockConfig 2) MockIpfs.ipfs db₀ e db₁ :=
    ⟨⟨eventAllowed event,step⟩,fun _ _ same => by subst same; exact of_decide_eq_true proper⟩
  exact ⟨db,last.1,last.2,savedTreeIntact (by decide) rfl rfl MockIpfs.pins nlohmannDumpInjective
    (properReach (mockStarts 2) played) stepped completed (quietReach quiet)⟩

theorem savedTreeGone : ∃ db : InjectorDb MockIpfs,
    Reach (Starts (mockConfig 2)) (ProperStep (mockConfig 2) MockIpfs.ipfs) db ∧
    (∀ frame ∈ db.map.frames, frame.waits = true) ∧ ∃ id, Latest db id ∧
    ¬ Intact (mockConfig 2) MockIpfs.Known (fun w hash => hash ∈ w.pinned) db id := by
  have run : ((mockDb 2).play (mockConfig 2) properUpdate (firstUpdate (letter 97) ++ storeRoot ++
      nextUpdate (letter 98))).any (fun db => db.map.frames.all Frame.waits &&
        decide (db.saved.getLast?.map Prod.fst = some (StdString.decimal 0)) &&
        decide (db.files.content (pathToDb db.pathToRepo db.ipns) = some (StdString.decimal 0)) &&
        decide (db.republisher.calls.getLast? = some (StdString.decimal 0,true)) &&
        decide (StdString.decimal 0 ∉ db.now.pinned)) = true := by
    decide +kernel
  obtain ⟨db,played,seen⟩ := Option.any_eq_true _ _ |>.mp run
  simp only [Bool.and_eq_true,decide_eq_true_eq,List.all_eq_true] at seen
  obtain ⟨⟨⟨⟨waits,saved⟩,file⟩,published⟩,gone⟩ := seen
  obtain ⟨⟨_,w⟩,last,rfl⟩ := Option.map_eq_some_iff.mp saved
  exact ⟨db,properReach (mockStarts 2) played,waits,_,⟨⟨w,last⟩,file,published⟩,fun intact => gone (intact _ .refl).1⟩

end InjectorDb
end IpfsCache
