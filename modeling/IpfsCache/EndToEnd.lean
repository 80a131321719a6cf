import IpfsCache.Answers
import IpfsCache.ClientDb
import IpfsCache.LoadRaces
import IpfsCache.SavedTree

/-! From the updates of an injector to the answers of a client. An id that is published stands
for a tree of pairs that updates were called with; below it there is nothing else, and the
client has it all from blocks that are the content of their ids. -/
namespace IpfsCache
open OrderedMap (Sorted)
open Node Entries

section blocks
variable {cfg : Config} {content : Hash → Option Value} {pairs : List (Key × Value)}

def BlockOf (cfg : Config) (content : Hash → Option Value) (pairs : List (Key × Value)) (hash : Hash) : Prop :=
  ∃ n : Node, content hash = some (block cfg n) ∧ Stored cfg (fun g y => content g = some y) n ∧
    ∀ x ∈ n.flatten, x ∈ pairs

theorem BlockOf.mono {pairs' : List (Key × Value)} {hash : Hash} (block_ : BlockOf cfg content pairs hash)
    (more : ∀ x ∈ pairs, x ∈ pairs') : BlockOf cfg content pairs' hash := by
  obtain ⟨n,at_,stored,inside⟩ := block_
  exact ⟨n,at_,stored,fun x mem => more x (inside x mem)⟩

structure TreeOf (cfg : Config) (content : Hash → Option Value) (hash : Hash) (n : Node) : Prop where
  proper : hash.isEmpty = false
  text : hash.ValidUtf8
  own : content hash = some (block cfg n)
  stored : Stored cfg (fun g y => content g = some y ∧ g.ValidUtf8) n
  tree : SearchTree n

theorem TreeOf.blockOf {hash : Hash} {n : Node} (tree : TreeOf cfg content hash n)
    (given : ∀ x ∈ n.flatten, x ∈ pairs) : BlockOf cfg content pairs hash :=
  ⟨n,tree.own,tree.stored.mono fun _ _ told => told.1,given⟩

theorem blockMembers (back : cfg.json.ParsesBack) {n : Node} {hash : Hash}
    (stored : Stored cfg (fun g y => content g = some y) n) (at_ : content hash = some (block cfg n)) {k : StdString}
    {v : Json} (member_ : BlockMember cfg content hash k v) : ∃ p ∈ n.entries, member p = (k,v) := by
  obtain ⟨text,members,block_,parsed,mem⟩ := member_
  cases stored with
  | @mk es doc _ _ _ =>
    obtain ⟨same,document⟩ := nodeDocument utf8Usable doc
    have text_ : text = cfg.json.dump (nodeJson es) := (Option.some.inj (at_.symm.trans block_)).symm
    rw [text_,back _ document,same] at parsed
    cases parsed
    obtain ⟨p,here,whole⟩ := memFiled.mp mem
    exact ⟨p,keptMem here,whole⟩

theorem BlockOf.child (back : cfg.json.ParsesBack) {hash child : Hash} (block_ : BlockOf cfg content pairs hash)
    (refers : Refers cfg content child hash) : BlockOf cfg content pairs child := by
  obtain ⟨n,at_,stored,inside⟩ := block_
  obtain ⟨k,v,member_,child_,proper⟩ := refers
  obtain ⟨p,mem,same⟩ := blockMembers back stored at_ member_
  have hash_ := childBack p
  rw [same] at hash_
  cases hash_.symm.trans child_
  cases stored with
  | mk _ bound blocks below =>
    cases null : p.2.child with
    | none =>
      rw [bound.leaf p mem null] at proper
      cases proper
    | some c => exact ⟨c,blocks p mem c null,below p mem c null,fun x here => inside x (belowInside mem null here)⟩

theorem BlockOf.reach (back : cfg.json.ParsesBack) {root hash : Hash} (block_ : BlockOf cfg content pairs root)
    (reach : BlockReach cfg content root hash) : BlockOf cfg content pairs hash := by
  induction reach with
  | refl => exact block_
  | tail _ refers ih => exact ih.child back refers

theorem BlockOf.stored (back : cfg.json.ParsesBack) {root : Hash} (block_ : BlockOf cfg content pairs root)
    {key : Key} {value : Value} (proper : key.isEmpty = false) (stored : StoredBelow cfg content root key value) :
    (key,value) ∈ pairs := by
  obtain ⟨hash,v,reach,member_,value_⟩ := stored
  obtain ⟨n,at_,stored,inside⟩ := block_.reach back reach
  obtain ⟨⟨i,e⟩,mem,same⟩ := blockMembers back stored at_ member_
  cases stored with
  | @mk es doc _ _ _ =>
    refine inside _ ?_
    have key_ : jsonKey i = key := congrArg Prod.fst same
    have own := valueBack (i,e)
    rw [same,value_] at own
    cases i using WithTop.recTopCoe with
    | top =>
      have empty : (jsonKey ⊤).isEmpty = true := rfl
      rw [key_,proper] at empty
      cases empty
    | coe k =>
      rw [jsonKeyReal (doc.keyed.proper _ mem k rfl)] at key_
      cases Option.some.inj own
      rw [if_neg WithTop.coe_ne_top,← key_]
      exact ownInside mem rfl

end blocks

section hashes
variable {World : Type} {cfg : Config} {env : Env World} {R : World → Hash → Value → Prop} {Fit : Key × Value → Prop}

theorem storeOnPublishes {Post : World → Node × StoreOutcome → Prop} {Shown : World → Node → Prop} {n : Node}
    {w₀ w : World}
    (post : ∀ w' out, Post w' out → StorePost cfg R (fun _ _ => True) n w₀ w' out) (tree : BTree) {p : StoreProgram}
    (wp : p.Wp env.adds Shown Post w) :
    (∃ tree' frame, storeOn tree noHash p = .goes tree' frame ∧
      ((topHash tree'.root).isEmpty = true ∨ frame = .loop ∧ Published cfg R w tree'.root)) ∨
    ∃ tree' outcome, storeOn tree noHash p = .ends tree' outcome ∧ (topHash tree'.root).isEmpty = true := by
  cases p with
  | await x view next => exact .inl ⟨_,_,rfl,.inl rfl⟩
  | done out =>
    obtain ⟨n',outcome⟩ := out
    cases outcome with
    | stored hash =>
      obtain ⟨proper,own⟩ := (post _ _ wp).stored hash rfl
      exact .inl ⟨_,_,rfl,.inr ⟨rfl,n',hash,rfl,proper,own⟩⟩
    | error ec => exact .inr ⟨_,_,rfl,rfl⟩
    | exception => exact .inr ⟨_,_,rfl,rfl⟩

theorem hashAdvance (custody : Custody cfg env R (fun _ _ => True) NoDouble Fit) {s : System World} {f : Frame}
    (sound : Sound cfg env s (some f))
    (held : IpfsCache.Held cfg env R (fun _ _ => True) NoDouble Fit s.world s.tree (some f))
    {by_ : Resumption} {world : World} {a : Advance} (answers : env.Answers s.world f by_ world)
    (advanced : Advanced cfg s.tree f by_ a) :
    topHash (s.after 0 f world a).tree.root = topHash s.tree.root ∨
    (topHash (s.after 0 f world a).tree.root).isEmpty = true ∨
    (s.after 0 f world a).frames = [.loop] ∧ Published cfg R world (s.after 0 f world a).tree.root ∧
      batchOf (some f) = [] ∧ f ≠ .loop := by
  have sits := sound.sits
  have frames := sound.frames
  obtain ⟨⟨root,buffer,inserting⟩,frames',w,calls,handed,ended⟩ := s
  cases frames
  cases advanced with
  | finished => exact .inl rfl
  | drained => exact .inl rfl
  | @raw _ k v buf ps after raw =>
    obtain ⟨n,rfl⟩ := rawInsertNode raw
    obtain ⟨tree',frame',goes,hash,_⟩ := @pauseOnHash ⟨root,buffer,inserting⟩ ⟨some n,topHash root⟩ buf ps
    rw [goes]
    exact .inl ((rootHashTop tree').symm.trans hash)
  | @removed _ p ps after buf =>
    obtain ⟨_,n,hash,rfl,rfl,_⟩ := sits
    obtain ⟨tree',frame',goes,hash_,_⟩ := @pauseOnHash ⟨some ⟨some p.tree,hash⟩,buffer,inserting⟩ ⟨some n,hash⟩ buf ps
    rw [goes]
    exact .inl ((rootHashTop tree').symm.trans hash_)
  | rootless => exact .inl rfl
  | forgotten => exact .inr (.inl rfl)
  | unhooks => exact .inr (.inl rfl)
  | unhooked => exact .inl rfl
  | skipped => exact .inl rfl
  | @stores n hash =>
    obtain rfl : hash = noHash := sits.2
    obtain ⟨n',root_,secured⟩ := held
    cases root_
    cases answers
    have wp := storeWp custody.add n w secured.backed
    rcases storeOnPublishes (fun _ _ => id) ⟨some ⟨some n,noHash⟩,buffer,inserting⟩ wp with
      ⟨tree',frame',same,cases_⟩ | ⟨tree',outcome,same,empty⟩
    · rw [same]
      rcases cases_ with empty | ⟨rfl,published⟩
      · exact .inr (.inl empty)
      · exact .inr (.inr ⟨rfl,published,rfl,by simp⟩)
    · rw [same]
      exact .inr (.inl empty)
  | @added _ x next reply =>
    obtain ⟨n,view,w₀,root_,_,_,_,wp⟩ := held
    cases root_
    rcases storeOnPublishes (fun _ _ both => And.right both) ⟨some ⟨some view,noHash⟩,buffer,inserting⟩
        (wp.2 reply world answers) with ⟨tree',frame',same,cases_⟩ | ⟨tree',outcome,same,empty⟩
    · dsimp only [BTree.rootHash]
      rw [same]
      rcases cases_ with empty | ⟨rfl,published⟩
      · exact .inr (.inl empty)
      · exact .inr (.inr ⟨rfl,published,rfl,by simp⟩)
    · dsimp only [BTree.rootHash]
      rw [same]
      exact .inr (.inl empty)

def Fed (s : System World) : Prop :=
  ∀ f, s.frames = [f] → s.outline.content ≠ [] ∨ batchOf (some f) ≠ [] ∨ f = .loop ∧ s.tree.insertBuffer ≠ []

theorem Fed.step (two : 2 ≤ cfg.maxNodeSize) {s s' : System World} {e : Event World} {frame : Option Frame}
    (sound : Sound cfg env s frame) (fed : Fed s) (step : Step cfg env s e s') : Fed s' := by
  have effect := (stepSound two sound step).2
  by_cases some_ : s.outline.content ≠ []
  · exact fun f _ => .inl (effectSome some_ effect)
  · rw [not_not] at some_
    have frames := sound.frames
    have flag := sound.flag
    rcases stepCases sound.frames step with ⟨key,value,rfl,wait,rfl⟩ | ⟨f,by_,world,a,rfl,rfl,_,advanced,rfl⟩
    · obtain ⟨⟨root,buffer,inserting⟩,frames',w,calls,handed,ended⟩ := s
      cases frames
      cases flag
      cases frame with
      | none =>
        rintro f ⟨⟩
        exact .inr (.inr ⟨rfl,OrderedMap.insertNotEmpty _ _ _⟩)
      | some g =>
        rintro f ⟨⟩
        rcases fed g rfl with full | batch | ⟨rfl,_⟩
        · exact absurd some_ full
        · exact .inr (.inl batch)
        · cases wait _ rfl
    · have busy := (fed f frames).resolve_left (absurd some_)
      have sits := sound.sits
      obtain ⟨⟨root,buffer,inserting⟩,frames',w,calls,handed,ended⟩ := s
      cases frames
      cases flag
      cases advanced with
      | finished => simp [batchOf] at busy
      | drained =>
        rintro f ⟨⟩
        exact .inr (.inl (by simp [batchOf]))
      | @raw _ k v buf ps after raw =>
        obtain ⟨whole,sortedBatch⟩ := sits
        obtain ⟨ps',n,raw',inserted⟩ := rawInserts two whole.good k v
        cases raw.symm.trans raw'
        obtain ⟨root',frame',same,_,map,_⟩ := pauseOnSits env world ⟨root,buffer,true⟩ (topHash root)
          inserted.good (OrderedMap.sortedCons.mp sortedBatch).2 inserted.shows
        obtain ⟨value,_,assigned⟩ := inserted.assigns
        rw [same]
        rintro f ⟨⟩
        refine .inl ?_
        change mapOf root' (some frame') ≠ []
        rw [map,assigned]
        exact OrderedMap.assignNotEmpty _ _ _
      | @removed _ p ps after buf =>
        obtain ⟨sortedBatch,n,hash,rfl,rfl,good,shows_⟩ := sits
        obtain ⟨root',frame',same,_,_,batch⟩ := pauseOnSits env world ⟨some ⟨some p.tree,hash⟩,buffer,true⟩ hash
          good sortedBatch fun q mem => shows_ q (List.mem_cons_of_mem _ mem)
        rw [same]
        rintro f ⟨⟩
        exact .inr (.inl (by rw [batch]; simpa [batchOf] using busy))
      | _ => simp [batchOf] at busy

def Addressed (content : Hash → Option Value) (R : World → Hash → Value → Prop) (world : World) : Prop :=
  ∀ h x, R world h x → content h = some x ∧ h.ValidUtf8

theorem publishedTree {content : Hash → Option Value} (two : 2 ≤ cfg.maxNodeSize) (back : cfg.json.ParsesBack)
    {root : Option Root} {world : World} (good : Good cfg.maxNodeSize (top root))
    (backed : Backed (OwnBlock cfg (R world)) (top root)) (published : Published cfg R world root)
    (some_ : (top root).flatten ≠ []) (clean : ∀ x ∈ (top root).flatten, Clean StdString.ValidUtf8 x)
    (addressed : Addressed content R world) : TreeOf cfg content (topHash root) (top root) := by
  obtain ⟨n,hash,rfl,proper,own⟩ := published
  let Told (h : Hash) (x : Value) : Prop := content h = some x ∧ h.ValidUtf8
  have legible : Legible cfg StdString.ValidUtf8 Told :=
    ⟨two,utf8Usable,back.injective,fun h h' => Option.some.inj (h.1.symm.trans h'.1),fun told => told.2⟩
  have written : Written cfg StdString.ValidUtf8 Told n :=
    ⟨good.tree,good.level,backed.mono fun g _ c block_ => ⟨addressed _ _ block_.1,block_.2⟩,clean⟩
  exact ⟨proper,(addressed _ _ own.1).2,(addressed _ _ own.1).1,written.stored legible n own.2 some_,good.tree⟩

theorem Carried.told {content : Hash → Option Value} (two : 2 ≤ cfg.maxNodeSize) (back : cfg.json.ParsesBack)
    (custody : Custody cfg env R (fun _ _ => True) NoDouble (Clean fun _ => True)) {s s' : System World}
    {e : Event World} (carried : Carried cfg env R s) (fed : Fed s.settled)
    (step : Step cfg env s.settled e s'.settled)
    (carried' : Carried cfg env R s') (clean : ∀ x ∈ s'.calls, Clean StdString.ValidUtf8 x)
    (addressed : Addressed content R s'.world) :
    s'.tree.rootHash = s.tree.rootHash ∨ s'.tree.rootHash.isEmpty = true ∨
    ∃ n, TreeOf cfg content s'.tree.rootHash n ∧ n.flatten = s'.settled.outline.content := by
  obtain ⟨frame,sound⟩ := carried.sound
  obtain ⟨frame',sound'⟩ := carried'.sound
  have held' := carried'.held
  have effect := (stepSound two sound step).2
  rw [← settledHash s',← settledHash s,rootHashTop,rootHashTop]
  rcases stepCases sound.frames step with ⟨key,value,_,_,same⟩ | ⟨f,by_,world,a,rfl,_,answers,advanced,same⟩
  · left
    rw [same,System.call]
    dsimp only
    split <;> rfl
  · have held : IpfsCache.Held cfg env R (fun _ _ => True) NoDouble (Clean fun _ => True) s.settled.world
        s.settled.tree (some f) := by
      have held := carried.held
      rwa [System.Held,sound.frames] at held
    have world_ : world = s'.settled.world := by
      rw [same]
      cases a <;> rfl
    have after := hashAdvance custody sound held answers advanced
    rw [← same,world_] at after
    rcases after with stays | empty | ⟨loop,published,batch,busy⟩
    · exact .inl stays
    · exact .inr (.inl empty)
    · refine .inr (.inr ?_)
      have some_ := effectSome ((fed f sound.frames).resolve_right fun none_ =>
        none_.elim (absurd batch) fun at_ => busy at_.1) effect
      obtain rfl : frame' = some .loop := by
        have frames := sound'.frames
        rw [loop] at frames
        cases frame' with
        | none => cases frames
        | some g => cases frames; rfl
      rw [System.Held,sound'.frames] at held'
      have content_ : s'.settled.outline.content = (top s'.settled.tree.root).flatten := by
        rw [System.outline,loop]
        rfl
      exact ⟨_,publishedTree two back (show Whole cfg s'.settled.tree.root from sound'.sits).good held'.1.backed
        published (content_ ▸ some_) (fun x mem => clean x (carried'.kept.given x (.inl (content_ ▸ mem)))) addressed,
        content_.symm⟩

end hashes

namespace InjectorDb

section told
variable {World : Type} {cfg : Config} {ipfs : Ipfs World} {R : World → Hash → Value → Prop}
  {content : Hash → Option Value} {first : Hash}

def pairs (db : InjectorDb World) : List (Key × Value) := db.updates.map fun up => (up.key,up.value)

theorem goesPairs (u : Nat) (stage : Stage) (db : InjectorDb World) : (db.goes u stage).pairs = db.pairs := by
  unfold goes pairs
  dsimp only
  generalize db.updates = us
  induction us generalizing u with
  | nil => simp
  | cons x us ih =>
    cases u with
    | zero => simp
    | succ u => simpa using ih u

theorem answeredPairs (r : Republisher) (db : InjectorDb World) : (db.answered r).pairs = db.pairs := by
  unfold answered pairs
  dsimp only
  generalize r.invoked.drop db.republisher.invoked.length = xs
  generalize db.updates = us
  induction xs generalizing us with
  | nil => rfl
  | cons x xs ih =>
    refine (ih _).trans ?_
    rw [List.map_map]
    refine List.map_congr_left fun up _ => ?_
    simp only [Function.comp,Update.answer]
    split <;> rfl

def Honest (cfg : Config) (content : Hash → Option Value) (first : Hash) (db : InjectorDb World) (id : Hash) : Prop :=
  id = first ∨ BlockOf cfg content db.pairs id

structure Told (cfg : Config) (content : Hash → Option Value) (first : Hash) (db : InjectorDb World) : Prop where
  root : db.map.tree.rootHash.isEmpty = true ∨ Honest cfg content first db db.map.tree.rootHash
  published : ∀ x ∈ db.republisher.calls, Honest cfg content first db x.1

theorem Honest.mono {db db' : InjectorDb World} {id : Hash} (more : ∀ x ∈ db.pairs, x ∈ db'.pairs)
    (honest : Honest cfg content first db id) : Honest cfg content first db' id :=
  honest.imp_right fun block_ => block_.mono more

theorem Told.upload {db : InjectorDb World} (told : Told cfg content first db) (u : Nat) :
    Told cfg content first (db.uploadDatabase u) := by
  unfold uploadDatabase
  dsimp only
  split
  · have same := goesPairs u (.returned (.ok ())) db
    exact ⟨told.root.imp_right (Honest.mono fun x mem => same.symm ▸ mem),
      fun x mem => (told.published x mem).mono fun x mem => same.symm ▸ mem⟩
  · rename_i proper
    have same := goesPairs u (.publishing db.republisher.calls.length)
      { db.saveDb db.map.tree.rootHash with republisher := db.republisher.publish db.map.tree.rootHash true }
    have more : ∀ x ∈ db.pairs, x ∈ (goes u (.publishing db.republisher.calls.length)
      { db.saveDb db.map.tree.rootHash with
        republisher := db.republisher.publish db.map.tree.rootHash true }).pairs := fun x mem => same.symm ▸ mem
    refine ⟨told.root.imp_right (Honest.mono more),fun x mem => ?_⟩
    change x ∈ (db.republisher.publish db.map.tree.rootHash true).calls at mem
    rw [Republisher.publishCalls] at mem
    rcases List.mem_append.mp mem with old | new
    · exact (told.published x old).mono more
    · rw [List.mem_singleton.mp new]
      exact (told.root.resolve_left (by simpa using proper)).mono more

theorem Told.inserted {db : InjectorDb World} (told : Told cfg content first db) (u : Nat) (outcome : InsertOutcome) :
    Told cfg content first (db.inserted u outcome) := by
  have goes (stage : Stage) : Told cfg content first (db.goes u stage) := by
    have same := goesPairs u stage db
    exact ⟨told.root.imp_right (Honest.mono fun x mem => same.symm ▸ mem),
      fun x mem => (told.published x mem).mono fun x mem => same.symm ▸ mem⟩
  cases outcome with
  | completed => exact told.upload u
  | buffered => exact told.upload u
  | error ec => exact goes _
  | exception => exact goes _

theorem calledPairs (key : Key) (value : Value) (db : InjectorDb World) :
    (db.called key value).pairs = db.pairs ++ [(key,value)] := by simp [pairs,called]

theorem Told.called {db : InjectorDb World} (told : Told cfg content first db) (key : Key) (value : Value) :
    Told cfg content first (db.called key value) := by
  have more : ∀ x ∈ db.pairs, x ∈ (db.called key value).pairs := fun x mem =>
    (calledPairs key value db).symm ▸ List.mem_append_left _ mem
  have root := told.root.imp_right (Honest.mono more)
  rw [← (calledKeeps key value db).1] at root
  exact ⟨root,fun x mem => (told.published x mem).mono more⟩

theorem uploadPairs (u : Nat) (db : InjectorDb World) : (db.uploadDatabase u).pairs = db.pairs := by
  unfold uploadDatabase
  dsimp only
  split <;> exact goesPairs _ _ _

theorem insertedPairs (u : Nat) (outcome : InsertOutcome) (db : InjectorDb World) :
    (db.inserted u outcome).pairs = db.pairs := by
  cases outcome with
  | completed => exact uploadPairs u db
  | buffered => exact uploadPairs u db
  | error ec => exact goesPairs _ _ _
  | exception => exact goesPairs _ _ _

def AddressedStep (cfg : Config) (ipfs : Ipfs World) (R : World → Hash → Value → Prop) (content : Hash → Option Value)
    (db : InjectorDb World) (e : DbEvent World) (db' : InjectorDb World) : Prop :=
  Step cfg ipfs db e db' ∧ (∀ key value, e = .update key value → Clean StdString.ValidUtf8 (key,value)) ∧
    Addressed content R db.map.world

structure Sending (cfg : Config) (ipfs : Ipfs World) (R : World → Hash → Value → Prop) (content : Hash → Option Value)
    (first : Hash) (db : InjectorDb World) : Prop where
  running : Running ipfs db
  carried : Carried cfg ipfs.env R db.map
  fed : Fed db.map.settled
  pairs : db.map.calls = db.pairs
  clean : ∀ x ∈ db.pairs, Clean StdString.ValidUtf8 x
  told : Addressed content R db.map.world → Told cfg content first db

theorem callWorld (key : Key) (value : Value) (s : System World) : (s.call key value).world = s.world := by
  unfold System.call
  dsimp only
  split <;> rfl

theorem Sending.update (two : 2 ≤ cfg.maxNodeSize) (here : cfg.addOp = true)
    (custody : Custody cfg ipfs.env R (fun _ _ => True) NoDouble (Clean fun _ => True)) {db : InjectorDb World}
    (sending : Sending cfg ipfs R content first db) {key : Key} {value : Value}
    (clean : Clean StdString.ValidUtf8 (key,value)) (waits : db.map.frames.all Frame.waits = true) :
    Carried cfg ipfs.env R (db.called key value).map ∧ Fed (db.called key value).map.settled ∧
    (db.called key value).map.calls = (db.called key value).pairs ∧
    (∀ x ∈ (db.called key value).pairs, Clean StdString.ValidUtf8 x) ∧
    (Addressed content R (db.called key value).map.world → Told cfg content first (db.called key value)) := by
  have step : FitStep cfg ipfs.env (Clean fun _ => True) db.map (.call key value) (db.called key value).map :=
    ⟨⟨trivial,if_pos waits⟩,fun _ _ same => by cases same; exact ⟨clean.1,trivial,trivial⟩⟩
  obtain ⟨settled,carried⟩ := sending.carried.step two here custody step
  obtain ⟨_,sound⟩ := sending.carried.sound
  refine ⟨carried,sending.fed.step two sound settled,?_,?_,fun addressed => ?_⟩
  · rw [calledPairs,← sending.pairs]
    exact (callLogs db.map key value).1
  · rw [calledPairs]
    exact List.forall_mem_append.mpr ⟨sending.clean,by simpa using clean⟩
  · exact (sending.told (callWorld key value db.map ▸ addressed)).called key value

theorem Sending.resumed (two : 2 ≤ cfg.maxNodeSize) (here : cfg.addOp = true) (back : cfg.json.ParsesBack)
    (custody : Custody cfg ipfs.env R (fun _ _ => True) NoDouble (Clean fun _ => True)) {db : InjectorDb World}
    (sending : Sending cfg ipfs R content first db) (before : Addressed content R db.map.world) {e : DbEvent World}
    {by_ : Resumption} {map : System World} (resumed : Resumed cfg ipfs db e by_ map) (owners : List Nat) :
    Carried cfg ipfs.env R map ∧ Fed map.settled ∧
    (Addressed content R map.world →
      Told cfg content first { db with map := map, owners := owners, midway := none }) := by
  obtain ⟨settled,carried⟩ := resumed.carried two here custody sending.carried
  obtain ⟨_,sound⟩ := sending.carried.sound
  refine ⟨carried,sending.fed.step two sound settled,fun addressed => ?_⟩
  have told := sending.told before
  have calls : map.calls = db.pairs := resumed.calls.trans sending.pairs
  refine ⟨?_,told.published⟩
  rcases sending.carried.told two back custody sending.fed settled carried (calls ▸ sending.clean) addressed with
    stays | empty | tree_
  · change map.tree.rootHash.isEmpty = true ∨ Honest cfg content first _ map.tree.rootHash
    rw [stays]
    exact told.root
  · exact .inl empty
  · obtain ⟨n,tree,flat⟩ := tree_
    exact .inr (.inr (tree.blockOf fun x mem => calls ▸ carried.kept.given x (.inl (flat ▸ mem))))

theorem Sending.step (two : 2 ≤ cfg.maxNodeSize) (here : cfg.addOp = true) (retains : Retains ipfs.env R)
    (injective : cfg.json.DumpInjective fun _ => True) (back : cfg.json.ParsesBack) {db db' : InjectorDb World}
    {e : DbEvent World} (sending : Sending cfg ipfs R content first db)
    (step : AddressedStep cfg ipfs R content db e db') : Sending cfg ipfs R content first db' := by
  obtain ⟨step,clean,before⟩ := step
  have legible (w : World) : Legible cfg (fun _ => True) (R w) :=
    ⟨two,⟨trivial,trivial,trivial⟩,injective,retains.one,fun _ => trivial⟩
  have custody := retains.custody legible
  obtain ⟨moved,running⟩ := moves sending.running step
  cases moved with
  | @called key value idle flag =>
    obtain ⟨carried,fed,calls,clean',told⟩ := sending.update two here custody (clean _ _ rfl) (by rw [idle]; rfl)
    exact ⟨running,carried,fed,calls,clean',fun addressed =>
      have told := told addressed
      ⟨told.root,told.published⟩⟩
  | @buffered key value frame busy waits flag =>
    obtain ⟨carried,fed,calls,clean',told⟩ := sending.update two here custody (clean _ _ rfl) (by simp [busy,waits])
    have along := uploadDatabaseAlong db.updates.length (db.called key value)
    have same := uploadPairs db.updates.length (db.called key value)
    exact ⟨running,along.map ▸ carried,along.map ▸ fed,along.map ▸ same ▸ calls,same ▸ clean',
      fun addressed => (told (along.map ▸ addressed)).upload _⟩
  | added => exact ⟨running,sending.carried,sending.fed,sending.pairs,sending.clean,fun addressed =>
      have told := sending.told addressed
      ⟨told.root,told.published⟩⟩
  | @republished e r gone other =>
    have same := answeredPairs r db
    refine ⟨running,sending.carried,sending.fed,sending.pairs.trans same.symm,same ▸ sending.clean,
      fun addressed => ?_⟩
    have told := sending.told addressed
    have more : ∀ x ∈ db.pairs, x ∈ (db.answered r).pairs := fun x mem => same.symm ▸ mem
    refine ⟨told.root.imp_right (Honest.mono more),fun x mem => ?_⟩
    change x ∈ r.calls at mem
    rw [Republisher.stepCalls gone other] at mem
    exact (told.published x mem).mono more
  | @went _ by_ map resumed same =>
    obtain ⟨carried,fed,told⟩ := sending.resumed two here back custody before resumed db.owners
    exact ⟨running,carried,fed,resumed.calls.trans sending.pairs,sending.clean,told⟩
  | @ended _ _ map u outcome resumed owner idle ended other =>
    obtain ⟨carried,fed,told⟩ := sending.resumed two here back custody before resumed []
    have along := insertedAlong u outcome { db with map := map, owners := [], midway := none }
    have same := insertedPairs u outcome { db with map := map, owners := [], midway := none }
    exact ⟨running,along.map ▸ carried,along.map ▸ fed,
      along.map ▸ same ▸ resumed.calls.trans sending.pairs,same ▸ sending.clean,
      fun addressed => (told (by rw [along.map] at addressed; exact addressed)).inserted _ _⟩

theorem initialSending (S : Storage World) (pathToRepo ipns : StdString) (files : Files) (world : World) :
    Sending cfg ipfs R content (initial cfg S pathToRepo ipns files world).map.tree.rootHash
      (initial cfg S pathToRepo ipns files world) := by
  obtain ⟨frames,owners,flag,midway⟩ := initialIdle cfg S pathToRepo ipns files world
  obtain ⟨root,map,_⟩ := initialMap cfg S pathToRepo ipns files world
  refine ⟨.idle frames owners flag midway,initialCarried S pathToRepo ipns files world,?_,?_,
    fun x mem => (by cases mem),fun _ => ⟨.inr (.inl rfl),fun x mem => (by cases mem)⟩⟩
  · rw [map]
    rintro f ⟨⟩
  · rw [map]
    rfl

theorem startSending {db : InjectorDb World} (start : Starts cfg db) :
    Sending cfg ipfs R content db.map.tree.rootHash db := by
  obtain ⟨S,pathToRepo,ipns,files,world,_,rfl⟩ := start
  exact initialSending S pathToRepo ipns files world

theorem runSending (two : 2 ≤ cfg.maxNodeSize) (here : cfg.addOp = true) (retains : Retains ipfs.env R)
    (injective : cfg.json.DumpInjective fun _ => True) (back : cfg.json.ParsesBack) {db₀ db : InjectorDb World}
    (start : Starts cfg db₀) (run : Reach (· = db₀) (AddressedStep cfg ipfs R content) db) :
    Sending cfg ipfs R content db₀.map.tree.rootHash db := by
  refine run.invariant (fun db same => ?_) fun _ _ _ sending step =>
    sending.step two here retains injective back step
  rw [show db = db₀ from same]
  exact startSending start

theorem Told.stored (back : cfg.json.ParsesBack) {db : InjectorDb World} (told : Told cfg content first db) {id : Hash}
    (published : id ∈ db.republisher.calls.map Prod.fst) (new : id ≠ first) {key : Key} (proper : key.isEmpty = false)
    {value : Value} (stored : StoredBelow (clientConfig cfg.json) content id key value) : (key,value) ∈ db.pairs := by
  obtain ⟨x,inside,rfl⟩ := List.mem_map.mp published
  exact ((told.published x inside).resolve_left new).stored back proper stored

theorem Told.reply (back : cfg.json.ParsesBack) {db : InjectorDb World} (told : Told cfg content first db)
    {s : Traffic} (traffic : s.Reached (clientConfig cfg.json) content) {r : Reply} (mem : r ∈ s.served) {id : Hash}
    (began : r.lookup.began = some id) (published : id ∈ db.republisher.calls.map Prod.fst) (new : id ≠ first)
    {value : Value} (found : r.result = .ok value) : (r.lookup.key,value) ∈ db.pairs := by
  obtain ⟨proper,H,began',stored⟩ := (Traffic.reachedKept traffic).sound r mem value found
  cases began.symm.trans began'
  exact told.stored back published new proper stored

/-- Updates overlap, storage operations and publications fail, any number of finds is under way
in a client that loads what has been published: a string that it is answered with is one that an
update was called with, under the same key. -/
theorem clientsGetUpdates (two : 2 ≤ cfg.maxNodeSize) (here : cfg.addOp = true) (retains : Retains ipfs.env R)
    (injective : cfg.json.DumpInjective fun _ => True) (back : cfg.json.ParsesBack) {db₀ db : InjectorDb World}
    (start : Starts cfg db₀) (run : Reach (· = db₀) (AddressedStep cfg ipfs R content) db)
    (addressed : Addressed content R db.map.world) {s : Traffic} (traffic : s.Reached (clientConfig cfg.json) content)
    {r : Reply} (mem : r ∈ s.served) {id : Hash} (began : r.lookup.began = some id)
    (published : id ∈ db.republisher.calls.map Prod.fst) (new : id ≠ db₀.map.tree.rootHash) {value : Value}
    (found : r.result = .ok value) : ∃ up ∈ db.updates, up.key = r.lookup.key ∧ up.value = value := by
  have sending := runSending two here retains injective back start run
  have given := (sending.told addressed).reply back traffic mem began published new found
  obtain ⟨up,there,same⟩ := List.mem_map.mp given
  exact ⟨up,there,congrArg Prod.fst same,congrArg Prod.snd same⟩

end told

def leafText : Value := nlohmann.dump (.object [(letter 97,.object [(valueField,.string (letter 49))])])
def leafContent (hash : Hash) : Option Value := if hash = StdString.decimal 0 then some leafText else none
def leafClient : Traffic := (Traffic.fresh.load (StdString.decimal 0)).find (letter 97)
def leafFetch : Fetch := ⟨⟨letter 97,some (StdString.decimal 0)⟩,0,[],StdString.decimal 0⟩

theorem leafReached {json : JsonLib} {content : Hash → Option Value} {text : Value}
    (there : content (StdString.decimal 0) = some text) :
    (Traffic.block (clientConfig json) (.ok text) leafFetch { leafClient with fetching := [] }).Reached
      (clientConfig json) content := by
  have going : leafClient.Going (clientConfig json) content :=
    Traffic.Going.find (Traffic.Going.load ⟨.start rfl,rfl⟩ _) _
  have waits : leafClient.fetching = [leafFetch] := rfl
  refine going.1.step (.block 0 (.ok text)) ⟨fun f data at_ ok => ?_,?_⟩
  · rw [waits] at at_
    cases at_
    cases ok
    exact there
  · rw [Traffic.step,waits]
    rfl

def contentStep (content : Hash → Option Value) (keys : List (Fin 256)) (db : InjectorDb MockIpfs)
    (e : DbEvent MockIpfs) : Bool :=
  (match e with
    | .update key value => (keys.map letter).contains key && value = letter 49
    | _ => true) && db.map.world.blocks.blocks.all fun p => content p.1 = some p.2

theorem contentAddressed {content : Hash → Option Value} {world : MockIpfs}
    (all : (world.blocks.blocks.all fun p => decide (content p.1 = some p.2)) = true) :
    Addressed content MockIpfs.Known world := by
  intro h x known
  have mem := (OrderedMap.findSome world.blocks.sorted).mp (MockStorage.catSome.mp known)
  exact ⟨of_decide_eq_true (List.all_eq_true.mp all _ mem),MockIpfs.knownText world h x known⟩

theorem contentReach {content : Hash → Option Value} {keys : List (Fin 256)}
    (plain : ∀ b ∈ keys, Clean StdString.ValidUtf8 (letter b,letter 49)) {m : Nat} {acts : List DbAct}
    {db₀ db db' : InjectorDb MockIpfs}
    (start : Reach (· = db₀) (AddressedStep (mockConfig m) MockIpfs.ipfs MockIpfs.Known content) db)
    (played : db.play (mockConfig m) (contentStep content keys) acts = some db') :
    Reach (· = db₀) (AddressedStep (mockConfig m) MockIpfs.ipfs MockIpfs.Known content) db' := by
  refine playReach (P := fun db e => (∀ key value, e = .update key value → Clean StdString.ValidUtf8 (key,value)) ∧
    Addressed content MockIpfs.Known db.map.world) (fun db e ok => ?_) start played
  simp only [contentStep,Bool.and_eq_true] at ok
  refine ⟨fun key value same => ?_,contentAddressed ok.2⟩
  subst same
  obtain ⟨⟨known,string⟩,_⟩ : ((keys.map letter).contains key = true ∧ decide (value = letter 49) = true) ∧ _ := by
    simpa only [Bool.and_eq_true] using ok
  obtain ⟨b,mem,rfl⟩ := List.mem_map.mp (List.contains_iff_mem.mp known)
  rw [of_decide_eq_true string]
  exact plain b mem

theorem clientsGetUpdatesOnce : ∃ (db : InjectorDb MockIpfs) (s : Traffic),
    s.Reached (clientConfig nlohmann) leafContent ∧
    ∃ r ∈ s.served, r.result = .ok (letter 49) ∧ ∃ up ∈ db.updates, up.key = r.lookup.key ∧ up.value = letter 49 := by
  have published : ((mockDb 2).play (mockConfig 2) (contentStep leafContent [97])
      (firstUpdate (letter 97) ++ storeRoot)).any (fun db =>
      decide (StdString.decimal 0 ∈ db.republisher.calls.map Prod.fst) &&
      db.map.world.blocks.blocks.all fun p => leafContent p.1 = some p.2) = true := by
    decide +kernel
  have found : ((Traffic.block (clientConfig nlohmann) (.ok leafText) leafFetch
      { leafClient with fetching := [] }).served) = [⟨leafFetch.lookup,.ok (letter 49)⟩] := by
    decide +kernel
  have reached := @leafReached nlohmann leafContent leafText rfl
  obtain ⟨db,played,seen⟩ := Option.any_eq_true _ _ |>.mp published
  simp only [Bool.and_eq_true,decide_eq_true_eq] at seen
  have run := contentReach (by simpa using pairClean (by decide) (by decide)) (.start rfl) played
  refine ⟨db,_,reached,⟨leafFetch.lookup,.ok (letter 49)⟩,by rw [found]; simp,rfl,?_⟩
  exact clientsGetUpdates (by decide) rfl MockIpfs.pins.retainsKnown nlohmannDumpInjective nlohmannParsesBack
    (mockStarts 2) run (contentAddressed seen.2) reached (by rw [found]; simp) rfl seen.1 (by decide) rfl

end InjectorDb
end IpfsCache
