import IpfsCache.Reader
import IpfsCache.Finders

/-! Snapshot isolation of a client's lookups. A find goes on in the root object it began to
read, whatever is loaded meanwhile, and load always makes a new one; so each find ends with
the answer of the tree whose hash was the root's when it began. -/
namespace IpfsCache
open OrderedMap (Sorted)
open Node Entries

section snapshots
variable {World : Type} {cfg : Config} {S : Storage World} {trees : Hash → Node}

/-- What is stored under the hash is the tree `trees hash`; no hash stands for the empty tree. -/
structure StandsFor (cfg : Config) (S : Storage World) (trees : Hash → Node) (world : World) (h : Hash) : Prop where
  empty : h.isEmpty = true → trees h = ⟨[]⟩
  tree : SearchTree (trees h)
  readable : Readable cfg S world h (trees h)

def Lookup.snapshot (trees : Hash → Node) (x : Lookup) : Node :=
  match x.began with
  | none => ⟨[]⟩
  | some h => trees h

def Served.Right (trees : Hash → Node) (x : Served) : Prop :=
  x.asked ≤ sizeOf (x.lookup.snapshot trees) ∧
  x.result = answer (OrderedMap.find x.lookup.key (x.lookup.snapshot trees).flatten)

def Reader.Allowed (cfg : Config) (S : Storage World) (trees : Hash → Node) (s : Reader World) :
    ReadEvent World → Prop
  | .find _ => True
  | .load hash => StandsFor cfg S trees s.world hash
  | .block data world => ∀ r, s.reading = some r → (data,world) = S.cat s.world r.hash
  | .elsewhere world => S.Keeps s.world world

def Reader.Step (cfg : Config) (S : Storage World) (trees : Hash → Node) (s : Reader World)
    (e : ReadEvent World) (s' : Reader World) : Prop :=
  s.Allowed cfg S trees e ∧ s.step cfg S e = some s'

theorem StandsFor.keep {w w' : World} {h : Hash} (stands : StandsFor cfg S trees w h) (keeps : S.Keeps w w') :
    StandsFor cfg S trees w' h :=
  ⟨stands.empty,stands.tree,stands.readable.mono keeps⟩

structure Waits (trees : Hash → Node) (h : Hash) (n : Node) (r : Reading) : Prop where
  began : r.lookup.began = some h
  proper : h.isEmpty = false
  way : ∃ c, Way r.lookup.key (trees h) h r.path c r.hash ∧ r.asked + sizeOf c ≤ sizeOf (trees h) + 1
  seen : Seen (fun q => q = r.path) (some n) (trees h)

def Rests (cfg : Config) (S : Storage World) (trees : Hash → Node) (world : World) (bt : BTree) : Prop :=
  bt = .fresh ∨ ∃ h, StandsFor cfg S trees world h ∧ Opened h (trees h) bt

inductive Reads (cfg : Config) (S : Storage World) (trees : Hash → Node) (world : World) :
    BTree → Option Reading → Prop
  | idle {bt : BTree} (rests : Rests cfg S trees world bt) : Reads cfg S trees world bt none
  | inPlace {h : Hash} {n : Node} {r : Reading} (stands : StandsFor cfg S trees world h) (waits : Waits trees h n r)
      (copied : r.copied = none) : Reads cfg S trees world ⟨some ⟨some n,h⟩,[],false⟩ (some r)
  | apart {bt : BTree} {h hash : Hash} {n : Node} {r : Reading} (rests : Rests cfg S trees world bt)
      (stands : StandsFor cfg S trees world h) (waits : Waits trees h n r) (copied : r.copied = some ⟨some n,hash⟩) :
      Reads cfg S trees world bt (some r)

structure Isolated (cfg : Config) (S : Storage World) (trees : Hash → Node) (s : Reader World) : Prop where
  reads : Reads cfg S trees s.world s.tree s.reading
  right : ∀ x ∈ s.served, x.Right trees
  accounted : s.begun = s.served.map Served.lookup ++ s.reading.toList.map Reading.lookup

theorem Rests.keep {w w' : World} {bt : BTree} (rests : Rests cfg S trees w bt) (keeps : S.Keeps w w') :
    Rests cfg S trees w' bt :=
  rests.imp id fun ⟨h,stands,opened⟩ => ⟨h,stands.keep keeps,opened⟩

theorem Reads.keep {w w' : World} {bt : BTree} {reading : Option Reading} (reads : Reads cfg S trees w bt reading)
    (keeps : S.Keeps w w') : Reads cfg S trees w' bt reading := by
  cases reads with
  | idle rests => exact .idle (rests.keep keeps)
  | inPlace stands waits copied => exact .inPlace (stands.keep keeps) waits copied
  | apart rests stands waits copied => exact .apart (rests.keep keeps) (stands.keep keeps) waits copied

theorem Looked.waits {h : Hash} (lookup : Lookup) (asked : Nat) {bound : Nat} {out : Option Node × FindStep}
    (looked : Looked (fun _ => False) lookup.key (trees h) h bound out) (began : lookup.began = some h)
    (proper : h.isEmpty = false) (few : asked + bound ≤ sizeOf (trees h) + 1) (some_ : 0 < bound) :
    (∃ result, out.2 = .done result ∧ Served.Right trees ⟨lookup,asked,result⟩ ∧
      Seen (fun _ => False) out.1 (trees h)) ∨
    ∃ path g n, out = (some n,.cat path g) ∧ ∀ copied, Waits trees h n ⟨lookup,asked + 1,path,g,copied⟩ := by
  have snapshot : lookup.snapshot trees = trees h := by rw [Lookup.snapshot,began]
  cases looked with
  | found seen =>
    refine .inl ⟨_,rfl,⟨?_,?_⟩,seen⟩
    · rw [snapshot]
      dsimp only
      omega
    · rw [snapshot]
  | @asks x path c g way free smaller seen =>
    have here : (fun q => False ∨ q = path) = fun q => q = path := funext fun q => by rw [false_or]
    rw [here] at seen
    obtain ⟨n,rfl⟩ := seen.there rfl
    exact .inr ⟨path,g,n,rfl,fun copied => ⟨began,proper,⟨c,way,by dsimp only; omega⟩,seen⟩⟩

theorem Waits.resume (back : cfg.json.ParsesBack) {world : World} {h : Hash} {n : Node} {r : Reading}
    (waits : Waits trees h n r) (stands : StandsFor cfg S trees world h) :
    ∃ n' step, n.resume cfg r.lookup.key (S.reads world r.hash) r.path = (n',step) ∧
      ((∃ result, step = .done result ∧ Served.Right trees ⟨r.lookup,r.asked,result⟩ ∧
        Seen (fun _ => False) (some n') (trees h)) ∨
      ∃ path g, step = .cat path g ∧ ∀ copied, Waits trees h n' ⟨r.lookup,r.asked + 1,path,g,copied⟩) := by
  obtain ⟨began,proper,⟨c,way,few⟩,seen⟩ := waits
  obtain ⟨own,stored⟩ := stands.readable proper
  have data : S.reads world r.hash = .ok (block cfg c) := (stored.way way own).1
  have next := resumeLooks back utf8Usable way _ n stands.tree stored seen rfl
  have none_ : (fun q => q = r.path ∧ q ≠ r.path) = fun _ => False := funext fun q => by simp
  rw [none_] at next
  refine ⟨_,_,rfl,?_⟩
  rw [data]
  rcases Looked.waits r.lookup r.asked next began proper few (sizePos c) with done | ⟨path,g,m,same,waits⟩
  · exact .inl done
  · obtain ⟨here,step⟩ := Prod.mk.inj same
    cases here
    exact .inr ⟨path,g,step,waits⟩

theorem Isolated.find {s : Reader World} (isolated : Isolated cfg S trees s) (waits : s.reading = none) (key : Key) :
    Isolated cfg S trees (s.find key) := by
  obtain ⟨bt,world,begun,reading,served⟩ := s
  obtain ⟨reads,right,accounted⟩ := isolated
  cases waits
  cases reads with
  | idle rests =>
    have accounted' (lookup : Lookup) : begun ++ [lookup] = served.map Served.lookup ++ [lookup] := by
      rw [show begun = served.map Served.lookup ++ [] from accounted,List.append_nil]
    have ends {lookup : Lookup} {tree : BTree} (result : Except ErrorCode Value)
        (rests : Rests cfg S trees world tree) (own : Served.Right trees ⟨lookup,0,result⟩) :
        Isolated cfg S trees ⟨tree,world,begun ++ [lookup],none,served ++ [⟨lookup,0,result⟩]⟩ := by
      refine ⟨.idle rests,List.forall_mem_append.mpr ⟨right,by simpa using own⟩,?_⟩
      simpa using accounted' lookup
    have missing (began : Option Hash) (empty : (Lookup.mk key began).snapshot trees = ⟨[]⟩) :
        Served.Right trees ⟨⟨key,began⟩,0,.error .notFound⟩ := by
      refine ⟨Nat.zero_le _,?_⟩
      rw [empty]
      rfl
    rcases rests with rfl | ⟨h,stands,opened⟩
    · exact ends _ (.inl rfl) (missing none rfl)
    · obtain ⟨root,buffer,flag⟩ := bt
      obtain ⟨buffer_,flag_,x,root_,cases_⟩ := opened
      cases buffer_
      cases flag_
      cases root_
      rcases cases_ with ⟨empty,nothing,rfl⟩ | ⟨proper,seen⟩
      · have out : BTree.find key ⟨some ⟨none,h⟩,[],false⟩ = (⟨some ⟨none,h⟩,[],false⟩,.done (.error .notFound)) := by
          rw [findLooked,BTree.lazyFind,if_pos empty]
        rw [Reader.find,out]
        exact ends _ (.inr ⟨h,stands,rfl,rfl,none,rfl,.inl ⟨empty,nothing,rfl⟩⟩) (missing (some h) nothing)
      · rcases lazyFindLooks key (trees h) (fun _ => False) h x (sizeOf (trees h) + 1) stands.tree
          (fun _ => proper) seen
          (by omega) (fun _ => by omega) with looked | ⟨_,_,_,_,held,_⟩
        · rw [Reader.find,findLooked]
          rcases Looked.waits ⟨key,some h⟩ 0 looked rfl proper (by omega) (by omega) with
            ⟨result,done,own,seen⟩ | ⟨path,g,n,out,waits⟩
          · rw [done]
            exact ends result (.inr ⟨h,stands,rfl,rfl,_,rfl,.inr ⟨proper,seen⟩⟩) own
          · rw [out]
            exact ⟨.inPlace stands (waits none) rfl,right,accounted' _⟩
        · exact held.elim

theorem keepLookup (root : Option Root) (r : Reading) : (r.keep root).lookup = r.lookup := by
  rw [Reading.keep]
  split <;> rfl

theorem loadReplaces (none_ : cfg.removeOp = false) {h : Hash} {bt : BTree} (other : bt.root.map Root.hash ≠ some h)
    (world : World) : BTree.load cfg S h bt world = (⟨some ⟨none,h⟩,[],bt.isInserting⟩,world) := by
  obtain ⟨root,buffer,flag⟩ := bt
  cases root with
  | none => rfl
  | some r =>
    have removed : BTree.removeAll S (Node.tryRemove cfg r.hash ⟨[]⟩ none) world = world := by
      simp [Node.tryRemove,none_,BTree.removeAll]
    rw [BTree.load]
    dsimp only
    rw [if_neg fun same => other (congrArg some same),removed]

theorem Isolated.load {s : Reader World} (isolated : Isolated cfg S trees s) (none_ : cfg.removeOp = false) {h : Hash}
    (stands : StandsFor cfg S trees s.world h) : Isolated cfg S trees (s.load cfg S h) := by
  obtain ⟨bt,world,begun,reading,served⟩ := s
  obtain ⟨reads,right,accounted⟩ := isolated
  rw [Reader.load]
  split
  · exact ⟨reads,right,accounted⟩
  · rename_i other
    have loaded : Rests cfg S trees world ⟨some ⟨none,h⟩,[],false⟩ := by
      refine .inr ⟨h,stands,rfl,rfl,none,rfl,?_⟩
      cases proper : h.isEmpty with
      | true => exact .inl ⟨rfl,stands.empty proper,rfl⟩
      | false => exact .inr ⟨rfl,.unread fun _ => id⟩
    have flag : bt.isInserting = false := by
      cases reads with
      | idle rests | apart rests =>
        rcases rests with rfl | ⟨_,_,opened⟩
        · rfl
        · exact opened.flag
      | inPlace => rfl
    rw [loadReplaces none_ other,flag]
    refine ⟨?_,right,?_⟩
    · cases reads with
      | idle => exact .idle loaded
      | @inPlace h' n r stands' waits copied =>
        -- the object that was `_root`'s is the find's own now
        have kept : Reading.keep (some ⟨some n,h'⟩) r = { r with copied := some ⟨some n,noHash⟩ } := by
          rw [Reading.keep,copied]
          rfl
        rw [Option.map_some,kept]
        exact .apart loaded stands' ⟨waits.began,waits.proper,waits.way,waits.seen⟩ rfl
      | @apart _ h' hash n r rests stands' waits copied =>
        have kept : Reading.keep bt.root r = r := by rw [Reading.keep,copied]
        rw [Option.map_some,kept]
        exact .apart loaded stands' waits copied
    · rw [accounted]
      cases reading with
      | none => rfl
      | some r => simp [keepLookup]

theorem Isolated.block {s : Reader World} (isolated : Isolated cfg S trees s) (back : cfg.json.ParsesBack)
    {r : Reading} (reading_ : s.reading = some r) {world : World} (keeps : S.Keeps s.world world) :
    Isolated cfg S trees ({ s with world := world }.block cfg (S.reads s.world r.hash) r) := by
  obtain ⟨bt,w,begun,reading,served⟩ := s
  obtain ⟨reads,right,accounted⟩ := isolated
  cases reading_
  have ends {tree : BTree} (result : Except ErrorCode Value) (rests : Rests cfg S trees w tree)
      (own : Served.Right trees ⟨r.lookup,r.asked,result⟩) :
      Isolated cfg S trees ⟨tree,world,begun,none,served ++ [⟨r.lookup,r.asked,result⟩]⟩ := by
    refine ⟨.idle (rests.keep keeps),List.forall_mem_append.mpr ⟨right,by simpa using own⟩,?_⟩
    simpa using accounted
  cases reads with
  | @inPlace h n _ stands waits copied =>
    obtain ⟨n',step,out,cases_⟩ := waits.resume back stands
    simp only [Reader.block,copied,resumeLooked,out]
    rcases cases_ with ⟨result,rfl,own,seen⟩ | ⟨path,g,rfl,waits'⟩
    · exact ends result (.inr ⟨h,stands,rfl,rfl,_,rfl,.inr ⟨waits.proper,seen⟩⟩) own
    · exact ⟨.inPlace (stands.keep keeps) (waits' none) rfl,right,accounted⟩
  | @apart _ h hash n _ rests stands waits copied =>
    obtain ⟨n',step,out,cases_⟩ := waits.resume back stands
    simp only [Reader.block,copied,resumeLooked,out]
    rcases cases_ with ⟨result,rfl,own,_⟩ | ⟨path,g,rfl,waits'⟩
    · exact ends result rests own
    · exact ⟨.apart (rests.keep keeps) (stands.keep keeps) (waits' _) rfl,right,accounted⟩

theorem Isolated.step (back : cfg.json.ParsesBack) (none_ : cfg.removeOp = false)
    (catKeeps : ∀ w g, S.Keeps w (S.cat w g).2) {s s' : Reader World} {e : ReadEvent World}
    (isolated : Isolated cfg S trees s) (step : Reader.Step cfg S trees s e s') : Isolated cfg S trees s' := by
  obtain ⟨allowed,step⟩ := step
  cases e with
  | find key =>
    simp only [Reader.step] at step
    split at step
    · cases step
    · rename_i idle
      cases step
      exact isolated.find (by simpa using idle) key
  | load h =>
    cases step
    exact isolated.load none_ allowed
  | block data world =>
    obtain ⟨r,reading,rfl⟩ := Option.map_eq_some_iff.mp step
    obtain ⟨rfl,rfl⟩ := Prod.mk.inj (allowed r reading)
    exact isolated.block back reading (catKeeps s.world r.hash)
  | elsewhere world =>
    cases step
    exact ⟨isolated.reads.keep allowed,isolated.right,isolated.accounted⟩

theorem reachIsolated (back : cfg.json.ParsesBack) (none_ : cfg.removeOp = false)
    (catKeeps : ∀ w g, S.Keeps w (S.cat w g).2) {world : World} {s : Reader World}
    (run : Reach (fun s => s = .fresh world) (Reader.Step cfg S trees) s) : Isolated cfg S trees s := by
  refine run.invariant (fun s same => ?_) fun _ _ _ isolated step => isolated.step back none_ catKeeps step
  subst same
  exact ⟨.idle (.inl rfl),by simp [Reader.fresh],rfl⟩

/-- Each find returns the lookup of its key in the stored tree whose hash was the current
root when it began, whatever roots are loaded before it ends, after a bounded number of
blocks; and the block it waits for is always there. -/
theorem snapshotLookups (back : cfg.json.ParsesBack) (none_ : cfg.removeOp = false)
    (catKeeps : ∀ w g, S.Keeps w (S.cat w g).2) {world : World} {s : Reader World}
    (run : Reach (fun s => s = .fresh world) (Reader.Step cfg S trees) s) :
    s.begun = s.served.map Served.lookup ++ s.reading.toList.map Reading.lookup ∧
    (∀ r, s.reading = some r → r.asked ≤ sizeOf (r.lookup.snapshot trees) ∧ ∃ x, S.reads s.world r.hash = .ok x) ∧
    ∀ x ∈ s.served, x.asked ≤ sizeOf (x.lookup.snapshot trees) ∧
      x.result = answer (OrderedMap.find x.lookup.key (x.lookup.snapshot trees).flatten) := by
  obtain ⟨reads,right,accounted⟩ := reachIsolated back none_ catKeeps run
  refine ⟨accounted,fun r here => ?_,right⟩
  have waits : ∃ h n, StandsFor cfg S trees s.world h ∧ Waits trees h n r := by
    obtain ⟨bt,world,begun,reading,served⟩ := s
    cases here
    cases reads with
    | inPlace stands waits => exact ⟨_,_,stands,waits⟩
    | apart _ stands waits => exact ⟨_,_,stands,waits⟩
  obtain ⟨h,n,stands,began,proper,⟨c,way,few⟩,_⟩ := waits
  obtain ⟨own,stored⟩ := stands.readable proper
  have some_ := sizePos c
  refine ⟨?_,_,(stored.way way own).1⟩
  rw [Lookup.snapshot,began]
  dsimp only
  omega

end snapshots

inductive ReadOp where
  | find (key : Key)
  | load (hash : Hash)
  | fetch

def ReadOp.event (s : Reader MockStorage) : ReadOp → ReadEvent MockStorage
  | .find key => .find key
  | .load hash => .load hash
  | .fetch =>
    match s.reading with
    | some r => .block (s.world.cat r.hash) s.world
    | none => .elsewhere s.world

def ReadOp.play (cfg : Config) : List ReadOp → Reader MockStorage → Option (Reader MockStorage)
  | [],s => some s
  | op :: ops,s => (s.step cfg MockStorage.storage (op.event s)).bind (play cfg ops)

theorem ReadOp.stepWorld {cfg : Config} (none_ : cfg.removeOp = false) {s s' : Reader MockStorage} {op : ReadOp}
    (step : s.step cfg MockStorage.storage (op.event s) = some s') : s'.world = s.world := by
  cases op with
  | find key =>
    simp only [event,Reader.step] at step
    split at step <;> cases step
    exact Reader.goesOnWorld _ _ _ _ _
  | load h =>
    cases step
    rw [Reader.load]
    split
    · rfl
    · rename_i other
      rw [loadReplaces none_ other]
  | fetch =>
    cases reading : s.reading with
    | none =>
      simp only [event,reading] at step
      cases step
      rfl
    | some r =>
      simp only [event,reading] at step
      obtain ⟨r,_,rfl⟩ := Option.map_eq_some_iff.mp step
      exact Reader.blockWorld _ _ _ _

theorem readsReach {cfg : Config} (none_ : cfg.removeOp = false) {trees : Hash → Node} {w : MockStorage}
    {Start : Reader MockStorage → Prop} {ops : List ReadOp}
    (stands : ∀ h, .load h ∈ ops → StandsFor cfg MockStorage.storage trees w h) {s s' : Reader MockStorage}
    (world : s.world = w) (before : Reach Start (Reader.Step cfg MockStorage.storage trees) s)
    (played : ReadOp.play cfg ops s = some s') :
    Reach Start (Reader.Step cfg MockStorage.storage trees) s' := by
  refine before.schedule (ReadOp.play cfg)
    (fun ops s => s.world = w ∧ ∀ h, .load h ∈ ops → StandsFor cfg MockStorage.storage trees w h) played
    ⟨world,stands⟩ (fun _ => rfl) fun op ops s s' ⟨world,stands⟩ played => ?_
  obtain ⟨s₁,step,rest⟩ := Option.bind_eq_some_iff.mp played
  refine ⟨op.event s,s₁,⟨?_,step⟩,⟨(ReadOp.stepWorld none_ step).trans world,fun h mem =>
    stands h (List.mem_cons_of_mem _ mem)⟩,rest⟩
  cases op with
  | find => exact trivial
  | load h =>
    change StandsFor cfg MockStorage.storage trees s.world h
    rw [world]
    exact stands h List.mem_cons_self
  | fetch =>
    rw [ReadOp.event]
    split
    · rename_i r reading
      intro r' reading'
      cases reading.symm.trans reading'
      rfl
    · exact fun _ _ => id

def keepingConfig : Config := ⟨2,true,false,nlohmann⟩

theorem mockKeeps {w w' : MockStorage} (kept : w.blocks.all (fun p => decide (w'.cat p.1 = .ok p.2)) = true) :
    MockStorage.storage.Keeps w w' := by
  rintro g y ⟨there,valid⟩
  have inside := (OrderedMap.findSome w.sorted).mp (MockStorage.catSome.mp there)
  exact ⟨of_decide_eq_true (List.all_eq_true.mp kept _ inside),valid⟩

def switching (h h' : Hash) : List ReadOp :=
  [.load h,.find (letter 99),.load h',.fetch,.load h,.fetch,.find (letter 99),.fetch,.load h',.fetch,
    .find (letter 99),.fetch]

theorem snapshotLookupsSwitching : ∃ (bt bt' : BTree) (st st' : MockStorage) (trees : Hash → Node)
    (s : Reader MockStorage),
    BTree.insertEach keepingConfig MockStorage.storage ([97,98,99].map fun b => (letter b,letter b)) .fresh .empty =
      some (bt,st) ∧
    BTree.insertEach keepingConfig MockStorage.storage [(letter 99,letter 49)] .fresh st = some (bt',st') ∧
    trees bt.rootHash = top bt.root ∧ trees bt'.rootHash = top bt'.root ∧
    s.served.map (fun x => (x.lookup.began,x.result)) = [(some bt.rootHash,.ok (letter 99)),
      (some bt.rootHash,.ok (letter 99)),(some bt'.rootHash,.ok (letter 49))] ∧
    ∀ x ∈ s.served, x.asked ≤ sizeOf (x.lookup.snapshot trees) ∧
      x.result = answer (OrderedMap.find x.lookup.key (x.lookup.snapshot trees).flatten) := by
  have run : (BTree.insertEach keepingConfig MockStorage.storage
      ([97,98,99].map fun b => (letter b,letter b)) .fresh .empty).any (fun out =>
      (BTree.insertEach keepingConfig MockStorage.storage [(letter 99,letter 49)] .fresh out.2).any fun out' =>
        !decide (out'.1.rootHash = out.1.rootHash) &&
        out.2.blocks.all (fun p => decide (out'.2.cat p.1 = .ok p.2)) &&
        (ReadOp.play keepingConfig (switching out.1.rootHash out'.1.rootHash) (.fresh out'.2)).any fun s =>
          decide (s.served.map (fun x => (x.lookup.began,x.result)) = [(some out.1.rootHash,.ok (letter 99)),
            (some out.1.rootHash,.ok (letter 99)),(some out'.1.rootHash,.ok (letter 49))])) = true := by
    decide +kernel
  have clean := lettersClean [97,98,99] (by decide +kernel)
  have clean' : ∀ x ∈ [(letter 99,letter 49)], Clean StdString.ValidUtf8 x := by
    simpa using pairClean (by decide) (by decide)
  obtain ⟨bt,st,stored,anchored⟩ := insertEachAnchors (show 2 ≤ keepingConfig.maxNodeSize by decide) rfl
    (MockStorage.addsSucceed _) MockStorage.faithful nlohmannParsesBack _ clean MockStorage.empty
  obtain ⟨bt',st',stored',anchored'⟩ := insertEachAnchors (show 2 ≤ keepingConfig.maxNodeSize by decide) rfl
    (MockStorage.addsSucceed _) MockStorage.faithful nlohmannParsesBack _ clean' st
  simp only [stored,stored',Option.any_some,Bool.and_eq_true,Bool.not_eq_true',decide_eq_false_iff_not] at run
  obtain ⟨⟨other,kept⟩,played⟩ := run
  obtain ⟨s,played,seen⟩ := Option.any_eq_true _ _ |>.mp played
  let trees : Hash → Node := fun h => if h = bt.rootHash then top bt.root else top bt'.root
  have first : trees bt.rootHash = top bt.root := if_pos rfl
  have second : trees bt'.rootHash = top bt'.root := if_neg other
  have stands : StandsFor keepingConfig MockStorage.storage trees st' bt.rootHash := by
    obtain ⟨empty,readable⟩ := anchored.readable (by decide) MockStorage.faithful nlohmannParsesBack clean
    refine ⟨?_,?_,?_⟩ <;> rw [first]
    exacts [empty,anchored.rest.good.tree,readable.mono (mockKeeps kept)]
  have stands' : StandsFor keepingConfig MockStorage.storage trees st' bt'.rootHash := by
    obtain ⟨empty,readable⟩ := anchored'.readable (by decide) MockStorage.faithful nlohmannParsesBack clean'
    refine ⟨?_,?_,?_⟩ <;> rw [second]
    exacts [empty,anchored'.rest.good.tree,readable]
  have each (h : Hash) (mem : .load h ∈ switching bt.rootHash bt'.rootHash) :
      StandsFor keepingConfig MockStorage.storage trees st' h := by
    have named : h = bt.rootHash ∨ h = bt'.rootHash := by
      simp only [switching,List.mem_cons,List.not_mem_nil,ReadOp.load.injEq,reduceCtorEq,or_false,false_or] at mem
      tauto
    rcases named with rfl | rfl
    exacts [stands,stands']
  exact ⟨bt,bt',st,st',trees,s,stored,stored',first,second,of_decide_eq_true seen,
    (snapshotLookups nlohmannParsesBack rfl (fun _ _ _ _ => id) (readsReach rfl each rfl (.start rfl) played)).2.2⟩

end IpfsCache
