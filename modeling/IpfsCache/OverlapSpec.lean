import IpfsCache.Lib.Reach
import IpfsCache.Overlap
import IpfsCache.RawInsert
import IpfsCache.StoreSpec

/-! What every run of overlapping inserts keeps: one call at most is past the guard, and
the tree it works on is a good one at every point. Each step is one of five effects on
the map, the buffer and the local batch. -/
namespace IpfsCache
open OrderedMap (Sorted)
open Node Entries

inductive Advanced (cfg : Config) : BTree → Frame → Resumption → Advance → Prop
  | finished {root : Option Root} {flag : Bool} :
      Advanced cfg ⟨root,[],flag⟩ .loop .go (.ends ⟨root,[],false⟩ .completed)
  | drained {root : Option Root} {kv : Key × Value} {buf : List (Key × Value)} {flag : Bool} :
      Advanced cfg ⟨root,kv :: buf,flag⟩ .loop .go (.goes ⟨root,[],flag⟩ (.batch (kv :: buf)))
  | raw {tree : BTree} {k : Key} {v : Value} {buf : List (Key × Value)} {ps : List Pause} {after : Root}
      (h : BTree.rawInsert cfg k v tree.root = some (ps,after)) :
      Advanced cfg tree (.batch ((k,v) :: buf)) .go (pauseOn tree after buf ps)
  | removed {tree : BTree} {p : Pause} {ps : List Pause} {after : Root} {buf : List (Key × Value)} :
      Advanced cfg tree (.inserting p ps after buf) .removed (pauseOn tree after buf ps)
  | rootless {buffer : List (Key × Value)} {flag : Bool} :
      Advanced cfg ⟨none,buffer,flag⟩ (.batch []) .go (.goes ⟨none,buffer,flag⟩ .unhooked)
  | forgotten {node : Option Node} {hash : Hash} {buffer : List (Key × Value)} {flag : Bool}
      (h : hash.isEmpty = true ∨ cfg.removeOp = false) :
      Advanced cfg ⟨some ⟨node,hash⟩,buffer,flag⟩ (.batch []) .go (.goes ⟨some ⟨node,noHash⟩,buffer,flag⟩ .unhooked)
  | unhooks {node : Option Node} {hash : Hash} {buffer : List (Key × Value)} {flag : Bool}
      (proper : hash.isEmpty = false) (here : cfg.removeOp = true) :
      Advanced cfg ⟨some ⟨node,hash⟩,buffer,flag⟩ (.batch []) .go
        (.goes ⟨some ⟨node,noHash⟩,buffer,flag⟩ (.unhooking hash))
  | unhooked {tree : BTree} {hash : Hash} : Advanced cfg tree (.unhooking hash) .removed (.goes tree .unhooked)
  | skipped {tree : BTree} (h : cfg.addOp = false ∨ ∀ n hash, tree.root ≠ some ⟨some n,hash⟩) :
      Advanced cfg tree .unhooked .go (.goes tree .loop)
  | stores {n : Node} {hash : Hash} {buffer : List (Key × Value)} {flag : Bool} (here : cfg.addOp = true) :
      Advanced cfg ⟨some ⟨some n,hash⟩,buffer,flag⟩ .unhooked .go
        (storeOn ⟨some ⟨some n,hash⟩,buffer,flag⟩ hash (n.store cfg))
  | added {tree : BTree} {x : Value} {next : Except ErrorCode Hash → StoreProgram} {reply : Except ErrorCode Hash} :
      Advanced cfg tree (.storing x next) (.added reply) (storeOn tree tree.rootHash (next reply))

theorem advances {cfg : Config} {tree : BTree} {frame : Frame} {by_ : Resumption} {a : Advance}
    (h : advance cfg tree frame by_ = some a) : Advanced cfg tree frame by_ a := by
  obtain ⟨root,buffer,flag⟩ := tree
  cases frame with
  | loop =>
    cases by_ <;> try cases h
    cases buffer <;> cases h
    · exact .finished
    · exact .drained
  | batch buf =>
    cases by_ <;> try (cases buf <;> cases h)
    cases buf with
    | nil =>
      cases root with
      | none => cases h; exact .rootless
      | some r =>
        obtain ⟨node,hash⟩ := r
        by_cases empty : hash.isEmpty = true
        · simp only [advance,tryRemove,empty,if_true] at h
          cases h
          exact .forgotten (.inl empty)
        · by_cases here : cfg.removeOp = true
          · simp only [advance,tryRemove,empty,here,if_true,if_false,Bool.false_eq_true] at h
            cases h
            exact .unhooks (by simpa using empty) here
          · simp only [advance,tryRemove,empty,here,if_false,Bool.false_eq_true] at h
            cases h
            exact .forgotten (.inr (by simpa using here))
    | cons kv buf =>
      obtain ⟨k,v⟩ := kv
      obtain ⟨⟨ps,after⟩,raw,rfl⟩ := Option.map_eq_some_iff.mp h
      exact .raw raw
  | inserting p ps after buf =>
    cases by_ <;> cases h
    exact .removed
  | unhooking hash =>
    cases by_ <;> cases h
    exact .unhooked
  | unhooked =>
    cases by_ <;> try cases h
    rcases root with _ | ⟨_ | n,hash⟩
    · cases h
      exact .skipped (.inr (by simp))
    · cases h
      exact .skipped (.inr (by simp))
    · by_cases here : cfg.addOp = true
      · simp only [advance,here,if_true] at h
        cases h
        exact .stores here
      · simp only [advance,here,if_false,Bool.false_eq_true] at h
        cases h
        exact .skipped (.inl (by simpa using here))
  | storing x next =>
    cases by_ <;> cases h
    exact .added

def mapOf (root : Option Root) : Option Frame → List (Key × Value)
  | some (.inserting _ _ after _) => (after.node.getD ⟨[]⟩).flatten
  | _ => (top root).flatten

def batchOf : Option Frame → List (Key × Value)
  | some (.batch buf) => buf
  | some (.inserting _ _ _ buf) => buf
  | _ => []

structure Outline where
  content : List (Key × Value)
  batch : List (Key × Value)
  buffer : List (Key × Value)
  calls : List (Key × Value)
  handed : List Key
  ended : List InsertOutcome

section
variable {World : Type} {cfg : Config} {env : Env World}

def System.outline (s : System World) : Outline :=
  ⟨mapOf s.tree.root s.frames.head?,batchOf s.frames.head?,s.tree.insertBuffer,s.calls,s.handed,s.ended⟩

structure Whole (cfg : Config) (root : Option Root) : Prop where
  inMemory : InMemory root
  good : Good cfg.maxNodeSize (top root)

def Sits (cfg : Config) (env : Env World) (world : World) (root : Option Root) : Option Frame → Prop
  | none => Whole cfg root
  | some .loop => Whole cfg root
  | some (.batch buf) => Whole cfg root ∧ Sorted buf
  | some (.inserting p ps after buf) => Sorted buf ∧ ∃ n hash, after = ⟨some n,hash⟩ ∧
      root = some ⟨some p.tree,hash⟩ ∧
      Good cfg.maxNodeSize n ∧ ∀ q ∈ p :: ps, q.Shows n.flatten
  | some (.unhooking _) => Whole cfg root ∧ topHash root = noHash
  | some .unhooked => Whole cfg root ∧ topHash root = noHash
  | some (.storing x next) => ∃ n view, root = some ⟨some view,noHash⟩ ∧ Good cfg.maxNodeSize n ∧
      (Program.await x view next).Wp env.adds (fun _ => Alike n) (fun _ => StoreKeeps env.adds n) world

structure Sound (cfg : Config) (env : Env World) (s : System World) (frame : Option Frame) : Prop where
  frames : s.frames = frame.toList
  flag : s.tree.isInserting = frame.isSome
  sorted : Sorted s.tree.insertBuffer
  sits : Sits cfg env s.world s.tree.root frame

inductive Effect (cfg : Config) (s : System World) (e : Event World) : Outline → Prop
  | called {key : Key} {value : Value} {ended : List InsertOutcome} (h : e = .call key value)
      (same : ended = s.ended ∨ ended = s.ended ++ [.buffered]) :
      Effect cfg s e { s.outline with
        buffer := OrderedMap.insert key value s.tree.insertBuffer, calls := s.calls ++ [(key,value)],
          ended := ended }
  | drained (h : s.frames = [.loop]) : Effect cfg s e { s.outline with buffer := [], batch := s.tree.insertBuffer }
  | inserted {key : Key} {value : Value} {buf : List (Key × Value)} {ps : List Pause} {n : Node} {by_ : Resumption}
      {world : World} (event : e = .resume 0 by_ world) (h : s.frames = [.batch ((key,value) :: buf)])
        (raw : RawInserted cfg key value (top s.tree.root) ps n) :
      Effect cfg s e { s.outline with content := n.flatten, batch := buf, handed := s.handed ++ [key] }
  | quiet : Effect cfg s e s.outline
  | ended {outcome : InsertOutcome} (batch : s.outline.batch = []) (other : outcome ≠ .buffered)
      (empty : outcome = .completed → s.tree.insertBuffer = []) :
      Effect cfg s e { s.outline with ended := s.ended ++ [outcome] }

theorem storeOnSits (tree : BTree) {p : StoreProgram} {n : Node} {world : World} (good : Good cfg.maxNodeSize n)
    (wp : p.Wp env.adds (fun _ => Alike n) (fun _ => StoreKeeps env.adds n) world) :
    (∃ root frame, storeOn tree noHash p = .goes { tree with root := root } frame ∧
    Sits cfg env world root (some frame) ∧ mapOf root (some frame) = n.flatten ∧ batchOf (some frame) = []) ∨
    (∃ root outcome, storeOn tree noHash p = .ends { tree with root := root, isInserting := false } outcome ∧
      Sits cfg env world root none ∧ mapOf root none = n.flatten ∧ outcome ≠ .completed ∧ outcome ≠ .buffered) := by
  cases p with
  | await x view next => exact .inl ⟨_,_,rfl,⟨n,view,rfl,good,wp⟩,wp.1.flat,rfl⟩
  | done out =>
    obtain ⟨n',outcome⟩ := out
    have alike : Alike n n' := wp.1
    have whole (hash : Hash) : Whole cfg (some ⟨some n',hash⟩) := ⟨.inr ⟨_,_,rfl⟩,good.alike alike⟩
    cases outcome with
    | stored hash => exact .inl ⟨_,_,rfl,whole hash,alike.flat,rfl⟩
    | error ec => exact .inr ⟨_,_,rfl,whole noHash,alike.flat,by simp,by simp⟩
    | exception => exact .inr ⟨_,_,rfl,whole noHash,alike.flat,by simp,by simp⟩

theorem pauseOnSits (env : Env World) (world : World) (tree : BTree) (hash : Hash) {n : Node}
    {buf : List (Key × Value)} {ps : List Pause}
    (good : Good cfg.maxNodeSize n) (sorted : Sorted buf) (shows_ : ∀ p ∈ ps, p.Shows n.flatten) :
    ∃ root frame, pauseOn tree ⟨some n,hash⟩ buf ps = .goes { tree with root := root } frame ∧
      Sits cfg env world root (some frame) ∧ mapOf root (some frame) = n.flatten ∧ batchOf (some frame) = buf := by
  cases ps with
  | nil => exact ⟨_,_,rfl,⟨⟨.inr ⟨_,_,rfl⟩,good⟩,sorted⟩,rfl,rfl⟩
  | cons p ps => exact ⟨_,_,rfl,⟨sorted,n,hash,rfl,rfl,good,shows_⟩,rfl,rfl⟩

theorem advanceSound (two : 2 ≤ cfg.maxNodeSize) {s : System World} {frame : Frame}
    (sound : Sound cfg env s (some frame))
    {by_ : Resumption} {world : World} {a : Advance} (answers : env.Answers s.world frame by_ world)
    (h : Advanced cfg s.tree frame by_ a) :
    (∃ frame', Sound cfg env (s.after 0 frame world a) frame') ∧
      Effect cfg s (.resume 0 by_ world) (s.after 0 frame world a).outline := by
  obtain ⟨⟨root,buffer,flag⟩,frames,w,calls,handed,ended⟩ := s
  obtain ⟨here,flag_,sorted,sits⟩ := sound
  cases here
  cases flag_
  have goes {root' : Option Root} {buffer' : List (Key × Value)} {frame' : Frame} (sorted' : Sorted buffer')
      (sits' : Sits cfg env world root' (some frame')) :
      ∃ f, Sound cfg env (System.after ⟨⟨root,buffer,true⟩,[frame],w,calls,handed,ended⟩ 0 frame world
        (.goes ⟨root',buffer',true⟩ frame')) f := ⟨some frame',rfl,rfl,sorted',sits'⟩
  have ends {root' : Option Root} {outcome : InsertOutcome} (sits' : Sits cfg env world root' none) :
      ∃ f, Sound cfg env (System.after ⟨⟨root,buffer,true⟩,[frame],w,calls,handed,ended⟩ 0 frame world
        (.ends ⟨root',buffer,false⟩ outcome)) f := ⟨none,rfl,rfl,sorted,sits'⟩
  have still {root' : Option Root} {frame' : Frame} (none_ : frame.handing = [])
      (map : mapOf root' (some frame') = mapOf root (some frame))
        (batch : batchOf (some frame') = batchOf (some frame)) :
      Effect cfg ⟨⟨root,buffer,true⟩,[frame],w,calls,handed,ended⟩ (.resume 0 by_ world)
        (System.after ⟨⟨root,buffer,true⟩,[frame],w,calls,handed,ended⟩ 0 frame world
          (.goes ⟨root',buffer,true⟩ frame')).outline := by
    have outline : (System.after ⟨⟨root,buffer,true⟩,[frame],w,calls,handed,ended⟩ 0 frame world
        (.goes ⟨root',buffer,true⟩ frame')).outline =
        System.outline ⟨⟨root,buffer,true⟩,[frame],w,calls,handed,ended⟩ := by
      simp [System.outline,System.after,OrderedMap.keys,none_,map,batch]
    rw [outline]
    exact .quiet
  have stop {root' : Option Root} {outcome : InsertOutcome} (none_ : frame.handing = [])
      (map : mapOf root' none = mapOf root (some frame)) (batch : batchOf (some frame) = [])
        (other : outcome ≠ .buffered)
      (empty : outcome = .completed → buffer = []) :
      Effect cfg ⟨⟨root,buffer,true⟩,[frame],w,calls,handed,ended⟩ (.resume 0 by_ world)
        (System.after ⟨⟨root,buffer,true⟩,[frame],w,calls,handed,ended⟩ 0 frame world
          (.ends ⟨root',buffer,false⟩ outcome)).outline := by
    have outline : (System.after ⟨⟨root,buffer,true⟩,[frame],w,calls,handed,ended⟩ 0 frame world
        (.ends ⟨root',buffer,false⟩ outcome)).outline =
        { System.outline ⟨⟨root,buffer,true⟩,[frame],w,calls,handed,ended⟩ with ended := ended ++ [outcome] } := by
      simp [System.outline,System.after,OrderedMap.keys,none_,map,batch]
      rfl
    rw [outline]
    exact .ended batch other empty
  have emptied (node : Option Node) (hash : Hash) (whole : Whole cfg (some ⟨node,hash⟩)) :
      Whole cfg (some ⟨node,noHash⟩) ∧ topHash (some ⟨node,noHash⟩) = noHash := by
    refine ⟨⟨?_,whole.good⟩,rfl⟩
    rcases whole.inMemory with h | ⟨n,hash',h⟩ <;> cases h
    exact .inr ⟨n,noHash,rfl⟩
  cases h with
  | finished =>
    cases answers
    exact ⟨ends sits,stop rfl rfl rfl (by simp) fun _ => rfl⟩
  | @drained _ kv buf =>
    cases answers
    have effect : Effect cfg (⟨⟨root,kv :: buf,true⟩,[.loop],w,calls,handed,ended⟩ : System World)
        (.resume 0 .go w) _ :=
      .drained rfl
    refine ⟨goes List.Pairwise.nil ⟨sits,sorted⟩,?_⟩
    simpa [System.outline,System.after,Frame.handing,OrderedMap.keys,mapOf,batchOf] using effect
  | @raw _ k v buf ps after raw =>
    cases answers
    obtain ⟨whole,sortedBatch⟩ := sits
    obtain ⟨ps',n,raw',inserted⟩ := rawInserts two whole.good k v
    cases raw.symm.trans raw'
    obtain ⟨root',frame',same,sits',map,batch⟩ := pauseOnSits env w ⟨root,buffer,true⟩ (topHash root)
      inserted.good (OrderedMap.sortedCons.mp sortedBatch).2 inserted.shows
    rw [same]
    refine ⟨goes sorted sits',?_⟩
    have effect := Effect.inserted (s := (⟨⟨root,buffer,true⟩,[.batch ((k,v) :: buf)],w,calls,handed,
        ended⟩ : System World)) (e := .resume 0 .go w) rfl rfl inserted
    have outline : (System.after ⟨⟨root,buffer,true⟩,[.batch ((k,v) :: buf)],w,calls,handed,ended⟩ 0
        (.batch ((k,v) :: buf)) w (.goes ⟨root',buffer,true⟩ frame')).outline =
        { System.outline ⟨⟨root,buffer,true⟩,[.batch ((k,v) :: buf)],w,calls,handed,ended⟩ with
          content := n.flatten, batch := buf, handed := handed ++ [k] } := by
      simp [System.outline,System.after,Frame.handing,OrderedMap.keys,map,batch]
    exact outline ▸ effect
  | @removed _ p ps after buf =>
    obtain ⟨sortedBatch,n,hash,rfl,rfl,good,shows_⟩ := sits
    obtain ⟨root',frame',same,sits',map,batch⟩ := pauseOnSits env world ⟨some ⟨some p.tree,hash⟩,buffer,true⟩ hash
      good sortedBatch fun q mem => shows_ q (List.mem_cons_of_mem _ mem)
    rw [same]
    exact ⟨goes sorted sits',still rfl map batch⟩
  | rootless =>
    cases answers
    exact ⟨goes sorted ⟨sits.1,rfl⟩,still rfl rfl rfl⟩
  | @forgotten node hash =>
    cases answers
    exact ⟨goes sorted (emptied node hash sits.1),still rfl rfl rfl⟩
  | @unhooks node hash =>
    cases answers
    exact ⟨goes sorted (emptied node hash sits.1),still rfl rfl rfl⟩
  | unhooked =>
    exact ⟨goes sorted sits,still rfl rfl rfl⟩
  | skipped =>
    cases answers
    exact ⟨goes sorted sits.1,still rfl rfl rfl⟩
  | @stores n hash =>
    cases answers
    obtain ⟨whole,none_⟩ := sits
    obtain rfl : hash = noHash := none_
    have wp : (n.store cfg).Wp env.adds (fun _ => Alike n) (fun _ => StoreKeeps env.adds n) w := storeKeeps n w
    rcases storeOnSits ⟨some ⟨some n,noHash⟩,buffer,true⟩ whole.good wp with
      ⟨root',frame',same,sits',map,batch⟩ | ⟨root',outcome,same,sits',map,failed,other⟩
    · rw [same]
      exact ⟨goes sorted sits',still rfl map batch⟩
    · rw [same]
      exact ⟨ends sits',stop rfl map rfl other fun h => absurd h failed⟩
  | @added _ x next reply =>
    obtain ⟨n,view,rfl,good,wp⟩ := sits
    rcases storeOnSits ⟨some ⟨some view,noHash⟩,buffer,true⟩ good (wp.2 reply world answers) with
      ⟨root',frame',same,sits',map,batch⟩ | ⟨root',outcome,same,sits',map,failed,other⟩
    · dsimp only [BTree.rootHash]
      rw [same]
      exact ⟨goes sorted sits',still rfl (map.trans wp.1.flat.symm) batch⟩
    · dsimp only [BTree.rootHash]
      rw [same]
      exact ⟨ends sits',stop rfl (map.trans wp.1.flat.symm) rfl other fun h => absurd h failed⟩

theorem stepCases {s s' : System World} {e : Event World} {frame : Option Frame} (one : s.frames = frame.toList)
    (h : Step cfg env s e s') :
    (∃ key value, e = .call key value ∧ (∀ f, frame = some f → f.waits = true) ∧ s' = s.call key value) ∨
    (∃ f by_ world a, frame = some f ∧ e = .resume 0 by_ world ∧ env.Answers s.world f by_ world ∧
      Advanced cfg s.tree f by_ a ∧ s' = s.after 0 f world a) := by
  obtain ⟨allowed,step⟩ := h
  cases e with
  | call key value =>
    simp only [System.step] at step
    split at step
    · rename_i wait
      refine .inl ⟨key,value,rfl,fun f same => ?_,(Option.some.inj step).symm⟩
      rw [one,same] at wait
      simpa using wait
    · cases step
  | resume i by_ world =>
    simp only [System.step] at step
    split at step
    · cases step
    · rename_i f there
      split at step
      · obtain ⟨a,adv,rfl⟩ := Option.map_eq_some_iff.mp step
        have answers := allowed f there
        rw [one] at there
        obtain ⟨inside,same⟩ := List.getElem?_eq_some_iff.mp there
        cases frame with
        | none => simp at inside
        | some g =>
          have first : i = 0 := by simpa using inside
          subst first
          cases same
          exact .inr ⟨_,by_,world,a,rfl,rfl,answers,advances adv,rfl⟩
      · cases step

theorem callSound {s : System World} {frame : Option Frame} (sound : Sound cfg env s frame) (key : Key)
    (value : Value) :
    (∃ frame', Sound cfg env (s.call key value) frame') ∧ Effect cfg s (.call key value)
    (s.call key value).outline := by
  obtain ⟨⟨root,buffer,flag⟩,frames,w,calls,handed,ended⟩ := s
  obtain ⟨here,flag_,sorted,sits⟩ := sound
  cases here
  cases flag_
  have sorted' := OrderedMap.insertSorted key value sorted
  cases frame with
  | none =>
    have effect : Effect cfg (⟨⟨root,buffer,false⟩,[],w,calls,handed,ended⟩ : System World) (.call key value) _ :=
      .called rfl (.inl rfl)
    exact ⟨⟨some .loop,rfl,rfl,sorted',sits⟩,effect⟩
  | some f =>
    have effect : Effect cfg (⟨⟨root,buffer,true⟩,[f],w,calls,handed,ended⟩ : System World) (.call key value) _ :=
      .called rfl (.inr rfl)
    exact ⟨⟨some f,rfl,rfl,sorted',sits⟩,effect⟩

theorem stepSound (two : 2 ≤ cfg.maxNodeSize) {s s' : System World} {e : Event World} {frame : Option Frame}
    (sound : Sound cfg env s frame) (h : Step cfg env s e s') :
    (∃ frame', Sound cfg env s' frame') ∧ Effect cfg s e s'.outline := by
  rcases stepCases sound.frames h with ⟨key,value,rfl,_,rfl⟩ | ⟨f,by_,world,a,rfl,rfl,answers,advanced,rfl⟩
  · exact callSound sound key value
  · exact advanceSound two sound answers advanced

theorem startSound {s : System World} (h : Starts s) : Sound cfg env s none := by
  obtain ⟨world,rfl⟩ := h
  exact ⟨rfl,rfl,List.Pairwise.nil,.inl rfl,goodEmpty _⟩

theorem reachSound (two : 2 ≤ cfg.maxNodeSize) {s : System World} (h : Reach Starts (Step cfg env) s) :
    ∃ frame, Sound cfg env s frame :=
  h.invariant (I := fun s => ∃ frame, Sound cfg env s frame) (fun _ start => ⟨none,startSound start⟩)
    fun _ _ _ ⟨_,sound⟩ step => (stepSound two sound step).1

theorem Sound.whole {s : System World} {frame : Option Frame} (sound : Sound cfg env s frame) :
    InMemory s.tree.root ∧ SearchTree (top s.tree.root) ∧ Loaded (top s.tree.root) := by
  have sits := sound.sits
  have of (whole : Whole cfg s.tree.root) : InMemory s.tree.root ∧ SearchTree (top s.tree.root) ∧
      Loaded (top s.tree.root) :=
    ⟨whole.inMemory,whole.good.tree,whole.good.loaded⟩
  cases frame with
  | none => exact of sits
  | some f =>
    cases f with
    | loop => exact of sits
    | batch buf => exact of sits.1
    | unhooking hash => exact of sits.1
    | unhooked => exact of sits.1
    | inserting p ps after buf =>
      obtain ⟨_,n,hash,_,root,good,shows_⟩ := sits
      have mine := shows_ p (by simp)
      rw [root]
      exact ⟨.inr ⟨_,_,rfl⟩,mine.tree good.tree.sorted,mine.loaded⟩
    | storing x next =>
      obtain ⟨n,view,root,good,wp⟩ := sits
      have seen := good.alike wp.1
      rw [root]
      exact ⟨.inr ⟨_,_,rfl⟩,seen.tree,seen.loaded⟩

theorem Sound.find {s : System World} {frame : Option Frame} (sound : Sound cfg env s frame) (key : Key) :
    s.tree.find key = (s.tree,.done (answer
      ((OrderedMap.find key s.tree.insertBuffer).or (OrderedMap.find key (top s.tree.root).flatten)))) :=
  findInMemory sound.whole.1 sound.whole.2.1 sound.whole.2.2 key

structure Outline.Sorted (o : Outline) : Prop where
  content : OrderedMap.Sorted o.content
  batch : OrderedMap.Sorted o.batch
  buffer : OrderedMap.Sorted o.buffer

theorem Sound.outlineSorted {s : System World} {frame : Option Frame} (sound : Sound cfg env s frame) :
    s.outline.Sorted := by
  have sits := sound.sits
  have head : s.frames.head? = frame := by
    rw [sound.frames]
    cases frame <;> rfl
  suffices both : OrderedMap.Sorted (mapOf s.tree.root frame) ∧ OrderedMap.Sorted (batchOf frame) by
    rw [← head] at both
    exact ⟨both.1,both.2,sound.sorted⟩
  have seen : OrderedMap.Sorted (top s.tree.root).flatten := sound.whole.2.1.sorted
  cases frame with
  | none => exact ⟨seen,List.Pairwise.nil⟩
  | some f =>
    cases f with
    | batch buf => exact ⟨seen,sits.2⟩
    | inserting p ps after buf =>
      obtain ⟨sorted,n,hash,rfl,_,good,_⟩ := sits
      exact ⟨good.tree.sorted,sorted⟩
    | _ => exact ⟨seen,List.Pairwise.nil⟩

theorem storageAnswers (S : Storage World) (frame : Frame) (world : World) :
    S.env.Answers world frame (S.answer world frame).1 (S.answer world frame).2 := by
  cases frame <;> rfl

theorem playReach {S : Storage World} {ok : System World → Event World → Bool}
    {P : System World → Event World → Prop}
    {Start : System World → Prop} (sound : ∀ s e, ok s e = true → P s e) {acts : List Act} {s s' : System World}
    (start : Reach Start (fun s e s' => Step cfg S.env s e s' ∧ P s e) s) (h : s.play cfg S ok acts = some s') :
    Reach Start (fun s e s' => Step cfg S.env s e s' ∧ P s e) s' := by
  refine start.schedule (fun acts s => s.play cfg S ok acts) (fun _ _ => True) h trivial
    (fun _ => rfl) fun a acts s s' _ h => ?_
  rw [System.play] at h
  split at h
  · cases h
  · rename_i e event
    split at h
    · rename_i meets
      obtain ⟨s₁,step,rest⟩ := Option.bind_eq_some_iff.mp h
      refine ⟨e,s₁,⟨⟨?_,step⟩,sound s e meets⟩,trivial,rest⟩
      cases a with
      | call key value =>
        cases event
        trivial
      | resume i =>
        simp only [Act.event] at event
        split at event
        · cases event
        · rename_i f there
          cases event
          intro f' there'
          cases there.symm.trans there'
          exact storageAnswers S f s.world
    · cases h

theorem playReaches {S : Storage World} {acts : List Act} {world : World} {s : System World}
    (h : (System.fresh world).play cfg S (fun _ _ => true) acts = some s) : Reach Starts (Step cfg S.env) s :=
  (playReach (P := fun _ _ => True) (fun _ _ _ => trivial) (.start ⟨world,rfl⟩) h).mono
    (fun _ => id) fun _ _ _ => And.left

end
end IpfsCache
