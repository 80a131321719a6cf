import IpfsCache.Loading
import IpfsCache.RoundTrip
import IpfsCache.StoreFailure

/-! Loads that change `_root` while inserts run. After each of them the map is vacant: its root has
no node, and the insert, if there is one, has still to come to it or is astray in the tree that was
behind `_root` before. From the next raw_insert on it is at work as any map is. An insert that is
astray does no harm until it gets to `_root` again: a store that fails ends before that. -/
namespace IpfsCache
open OrderedMap (Sorted)
open Node Entries

section races
variable {World : Type} {cfg : Config} {env : Env World} {R : World → Hash → Value → Prop} {Fit : Key × Value → Prop}

abbrev NoDouble (_ : World) (ids : Multiset Hash) : Prop := ids.Nodup

inductive Outside : Option Frame → Prop
  | idle : Outside none
  | loop : Outside (some .loop)
  | batch {kv : Key × Value} {buf : List (Key × Value)} (sorted : Sorted (kv :: buf)) :
      Outside (some (.batch (kv :: buf)))
  | unhooking {hash : Hash} : Outside (some (.unhooking hash))
  | unhooked : Outside (some .unhooked)

structure Vacant (s : System World) (frame : Option Frame) : Prop where
  frames : s.frames = frame.toList
  flag : s.tree.isInserting = frame.isSome
  sorted : Sorted s.tree.insertBuffer
  root : ∀ r, s.tree.root = some r → r.node = none
  outside : Outside frame

structure Working (cfg : Config) (env : Env World) (R : World → Hash → Value → Prop) (Fit : Key × Value → Prop)
    (s : System World) (frame : Option Frame) : Prop where
  sound : Sound cfg env s frame
  held : s.Held cfg env R (fun _ _ => True) NoDouble Fit
  some_ : s.outline.content ≠ []
  rests : frame = none → (topHash s.tree.root).isEmpty = true ∨ Published cfg R s.world s.tree.root

def Pairs (Fit : Key × Value → Prop) (o : Outline) : Prop := ∀ x, x ∈ o.content ∨ x ∈ o.batch ∨ x ∈ o.buffer → Fit x

theorem storeOnEnds {tree tree' : BTree} {hash : Hash} {p : StoreProgram} {outcome : InsertOutcome}
    (same : storeOn tree hash p = .ends tree' outcome) : topHash tree'.root = hash := by
  rcases p with ⟨n,_ | _ | _⟩ | _ <;> simp only [storeOn,BTree.afterStore] at same <;> cases same <;> rfl

theorem stepRests {s s' : System World} {e : Event World} {frame : Option Frame} (sound : Sound cfg env s frame)
    (held : s.Held cfg env R (fun _ _ => True) NoDouble Fit) (step : Step cfg env s e s') (idle : s'.frames = []) :
    (topHash s'.tree.root).isEmpty = true ∨ Published cfg R s'.world s'.tree.root := by
  rcases stepCases sound.frames step with ⟨key,value,_,_,rfl⟩ | ⟨f,by_,world,a,rfl,rfl,_,advanced,rfl⟩
  · -- a call past the guard is at the while loop, and one that is not has found another
    have frames := sound.frames
    have flag := sound.flag
    cases frame <;> simp [System.call,flag,frames] at idle
  · cases a with
    | goes tree frame' => simp [System.after,sound.frames] at idle
    | ends tree outcome =>
      by_cases completed : outcome = .completed
      · subst completed
        exact .inr (heldCompletes sound held step rfl).2.2.1
      · have sits := sound.sits
        change (topHash tree.root).isEmpty = true ∨ _
        generalize same : Advance.ends tree outcome = a at advanced
        generalize tree_ : s.tree = bt at advanced
        cases advanced with
        | finished =>
          cases same
          exact absurd rfl completed
        | raw => exact absurd same (by obtain ⟨_,_,goes⟩ := pauseOnGoes _ _ _ _; rw [goes]; simp)
        | removed => exact absurd same (by obtain ⟨_,_,goes⟩ := pauseOnGoes _ _ _ _; rw [goes]; simp)
        | @stores n hash =>
          have root : topHash s.tree.root = noHash := sits.2
          rw [tree_] at root
          left
          rw [storeOnEnds same.symm,show hash = noHash from root]
          rfl
        | added =>
          obtain ⟨n,view,root,_⟩ := sits
          have hash : bt.rootHash = noHash := by rw [← tree_,BTree.rootHash,root]
          left
          rw [storeOnEnds same.symm,hash]
          rfl
        | _ => cases same

theorem effectSome {s : System World} {e : Event World} {o : Outline} (some_ : s.outline.content ≠ [])
    (effect : Effect cfg s e o) : o.content ≠ [] := by
  cases effect with
  | inserted _ _ raw =>
    obtain ⟨w,_,assigned⟩ := raw.assigns
    exact assigned ▸ OrderedMap.assignNotEmpty _ _ _
  | _ => exact some_

theorem Working.step (two : 2 ≤ cfg.maxNodeSize) (here : cfg.addOp = true)
    (custody : Custody cfg env R (fun _ _ => True) NoDouble Fit) {s s' : System World} {e : Event World}
    {frame : Option Frame} (working : Working cfg env R Fit s frame) (pairs : Pairs Fit s.outline)
    (fit : ∀ key value, e = .call key value → Fit (key,value)) (step : Step cfg env s e s') :
    (∃ frame', Working cfg env R Fit s' frame') ∧ Pairs Fit s'.outline := by
  obtain ⟨sound,held,some_,rests⟩ := working
  obtain ⟨⟨frame',sound'⟩,effect⟩ := stepSound two sound step
  have held' := heldKept two here custody sound (fun x mem => pairs x (.inl mem)) held step
  refine ⟨⟨frame',sound',held',?_,fun idle => ?_⟩,effectPairs sound pairs (fun x call => ?_) effect⟩
  · exact effectSome some_ effect
  · subst idle
    exact stepRests sound held step (by rw [sound'.frames]; rfl)
  · rcases stepCases sound.frames step with ⟨key,value,rfl,_,rfl⟩ | ⟨f,by_,world,a,_,_,_,_,rfl⟩
    · have same : s.calls ++ [(key,value)] = s.calls ++ [x] := (callLogs s key value).1.symm.trans call
      cases List.append_cancel_left same
      exact fit key value rfl
    · have same : s.calls = s.calls ++ [x] := by cases a <;> exact call
      simp at same

theorem Vacant.top {s : System World} {frame : Option Frame} (vacant : Vacant s frame) : top s.tree.root = ⟨[]⟩ := by
  cases here : s.tree.root with
  | none => rfl
  | some r =>
    obtain ⟨node,hash⟩ := r
    cases vacant.root _ here
    rfl

theorem Vacant.content {s : System World} {frame : Option Frame} (vacant : Vacant s frame) :
    s.outline.content = [] := by
  have outside := vacant.outside
  rw [System.outline,vacant.frames]
  dsimp only
  cases outside <;> exact congrArg Node.flatten vacant.top

theorem Vacant.pairs {s : System World} {frame : Option Frame} (vacant : Vacant s frame)
    (batch : ∀ x ∈ batchOf frame, Fit x) (buffer : ∀ x ∈ s.tree.insertBuffer, Fit x) : Pairs Fit s.outline := by
  have head : s.frames.head? = frame := by
    rw [vacant.frames]
    cases frame <;> rfl
  rintro x (mem | mem | mem)
  · rw [vacant.content] at mem
    cases mem
  · exact batch x (by rwa [System.outline,head] at mem)
  · exact buffer x mem

theorem Vacant.raw (two : 2 ≤ cfg.maxNodeSize) (custody : Custody cfg env R (fun _ _ => True) NoDouble Fit)
    {s : System World} {k : Key} {v : Value} {buf : List (Key × Value)}
    (vacant : Vacant s (some (.batch ((k,v) :: buf)))) (pairs : Pairs Fit s.outline) {ps : List Pause} {after : Root}
    (raw : BTree.rawInsert cfg k v s.tree.root = some (ps,after)) :
    (∃ frame', Working cfg env R Fit
      (s.after 0 (.batch ((k,v) :: buf)) s.world (pauseOn s.tree after buf ps)) frame') ∧
      Pairs Fit (s.after 0 (.batch ((k,v) :: buf)) s.world (pauseOn s.tree after buf ps)).outline := by
  have top_ := vacant.top
  obtain ⟨frames,flag,sorted,root_,outside⟩ := vacant
  obtain ⟨⟨root,buffer,inserting⟩,frames',w,calls,handed,ended⟩ := s
  cases frames
  cases flag
  cases outside with
  | batch sortedBatch =>
    have good : Good cfg.maxNodeSize (IpfsCache.top root) := by
      rw [show IpfsCache.top root = ⟨[]⟩ from top_]
      exact goodEmpty _
    obtain ⟨ps',n,raw',inserted⟩ := rawInserts two good k v
    cases raw.symm.trans raw'
    have secured : Secured cfg R NoDouble w (ownId (topHash root)) (IpfsCache.top root) := by
      rw [show IpfsCache.top root = ⟨[]⟩ from top_]
      refine ⟨?_,.bare (by simp [Bare])⟩
      change (ownId (topHash root) + 0).Nodup
      unfold ownId
      split <;> simp
    obtain ⟨root',frame',same,sits,map,batch⟩ := pauseOnSits env w ⟨root,buffer,true⟩ (topHash root) inserted.good
      (OrderedMap.sortedCons.mp sortedBatch).2 inserted.shows
    have held : IpfsCache.Held cfg env R (fun _ _ => True) NoDouble Fit w ⟨root',buffer,true⟩ (some frame') :=
      pauseOnHeld (secured.insert custody inserted) same
    obtain ⟨value,value_,assigned⟩ := inserted.assigns
    rw [show (IpfsCache.top root).flatten = [] from congrArg Node.flatten top_] at assigned value_
    have here : (System.mk ⟨root',buffer,true⟩ [frame'] w calls (handed ++ [k]) ended).outline =
        ⟨n.flatten,buf,buffer,calls,handed ++ [k],ended⟩ := by
      simp [System.outline,map,batch]
    have after : System.after ⟨⟨root,buffer,true⟩,[.batch ((k,v) :: buf)],w,calls,handed,ended⟩ 0
        (.batch ((k,v) :: buf)) w (pauseOn ⟨root,buffer,true⟩ ⟨some n,topHash root⟩ buf ps) =
        ⟨⟨root',buffer,true⟩,[frame'],w,calls,handed ++ [k],ended⟩ := by
      rw [same]
      rfl
    rw [after]
    refine ⟨⟨some frame',⟨rfl,rfl,sorted,sits⟩,held,?_,fun none_ => by cases none_⟩,?_⟩
    · rw [here]
      change n.flatten ≠ []
      rw [assigned]
      exact OrderedMap.assignNotEmpty _ _ _
    · rw [here]
      have own : Fit (k,v) := pairs _ (.inr (.inl List.mem_cons_self))
      rintro x (mem | mem | mem)
      · have one : n.flatten = [(k,v)] := by
          rcases value_ with rfl | found
          · exact assigned
          · cases found
        rw [one] at mem
        rw [List.mem_singleton.mp mem]
        exact own
      · exact pairs x (.inr (.inl (List.mem_cons_of_mem _ mem)))
      · exact pairs x (.inr (.inr mem))

theorem Vacant.called {s : System World} {frame : Option Frame} (vacant : Vacant s frame)
    (pairs : Pairs Fit s.outline) {key : Key} {value : Value} (fit : Fit (key,value)) :
    (∃ frame', Vacant (s.call key value) frame') ∧ Pairs Fit (s.call key value).outline := by
  obtain ⟨frames,flag,sorted,root_,outside⟩ := vacant
  obtain ⟨⟨root,buffer,inserting⟩,frames',w,calls,handed,ended⟩ := s
  have sorted' : Sorted (OrderedMap.insert key value buffer) := OrderedMap.insertSorted key value sorted
  have given (x : Key × Value) (mem : x ∈ OrderedMap.insert key value buffer) : Fit x := by
    rcases OrderedMap.memInsert mem with rfl | old
    · exact fit
    · exact pairs x (.inr (.inr old))
  cases frames
  cases flag
  cases frame with
  | none =>
    have next : Vacant ((System.mk ⟨root,buffer,false⟩ [] w calls handed ended).call key value) (some .loop) :=
      ⟨rfl,rfl,sorted',root_,.loop⟩
    exact ⟨⟨_,next⟩,next.pairs (fun x mem => by cases mem) given⟩
  | some f =>
    have next : Vacant ((System.mk ⟨root,buffer,true⟩ [f] w calls handed ended).call key value) (some f) :=
      ⟨rfl,rfl,sorted',root_,outside⟩
    exact ⟨⟨_,next⟩,next.pairs (fun x mem => pairs x (.inr (.inl mem))) given⟩

theorem Vacant.advances (two : 2 ≤ cfg.maxNodeSize) (custody : Custody cfg env R (fun _ _ => True) NoDouble Fit)
    {s : System World} {f : Frame} (vacant : Vacant s (some f)) (pairs : Pairs Fit s.outline) {by_ : Resumption}
    {world : World} {a : Advance} (answers : env.Answers s.world f by_ world)
    (advanced : Advanced cfg s.tree f by_ a) :
    (∃ frame', Vacant (s.after 0 f world a) frame' ∨ Working cfg env R Fit (s.after 0 f world a) frame') ∧
      Pairs Fit (s.after 0 f world a).outline := by
  obtain ⟨frames,flag,sorted,root_,outside⟩ := vacant
  obtain ⟨⟨root,buffer,inserting⟩,frames',w,calls,handed,ended⟩ := s
  cases frames
  cases flag
  have given (x : Key × Value) (mem : x ∈ buffer) : Fit x := pairs x (.inr (.inr mem))
  have moves (frame' : Option Frame) {buffer' : List (Key × Value)} {inserting : Bool}
      {handed' : List Key} {ended' : List InsertOutcome} {world' : World}
      (flag : inserting = frame'.isSome) (sorted' : Sorted buffer') (outside' : Outside frame')
      (batch : ∀ x ∈ batchOf frame', Fit x) (buffer_ : ∀ x ∈ buffer', Fit x) :
      (∃ g, Vacant ⟨⟨root,buffer',inserting⟩,frame'.toList,world',calls,handed',ended'⟩ g ∨
        Working cfg env R Fit ⟨⟨root,buffer',inserting⟩,frame'.toList,world',calls,handed',ended'⟩ g) ∧
      Pairs Fit (System.outline ⟨⟨root,buffer',inserting⟩,frame'.toList,world',calls,handed',ended'⟩) := by
    have next : Vacant ⟨⟨root,buffer',inserting⟩,frame'.toList,world',calls,handed',ended'⟩ frame' :=
      ⟨rfl,flag,sorted',root_,outside'⟩
    exact ⟨⟨_,.inl next⟩,next.pairs batch buffer_⟩
  cases outside with
  | loop =>
    cases advanced with
    | finished => exact moves none rfl sorted .idle (fun x mem => by cases mem) given
    | drained => exact moves (some (.batch _)) rfl List.Pairwise.nil (.batch sorted) given (fun x mem => by cases mem)
  | @batch kv buf sortedBatch =>
    obtain ⟨k,v⟩ := kv
    cases advanced with
    | raw raw =>
      cases answers
      obtain ⟨working,pairs'⟩ := Vacant.raw two custody ⟨rfl,rfl,sorted,root_,.batch sortedBatch⟩ pairs raw
      exact ⟨working.imp fun _ => .inr,pairs'⟩
  | unhooking =>
    cases advanced with
    | unhooked => exact moves (some .unhooked) rfl sorted .unhooked (fun x mem => by cases mem) given
  | unhooked =>
    cases advanced with
    | skipped => exact moves (some .loop) rfl sorted .loop (fun x mem => by cases mem) given
    | stores => cases root_ _ rfl

/-- An insert that is astray, that is, inside a tree that load has taken away, comes to no
harm while another remove_op follows and a load still holds the tree, and when the store of a
block fails. -/
def Loading.Harmless (s : Loading World) : Frame → Resumption → Prop
  | .inserting _ ps _ _,.removed => ps ≠ [] ∧ ∃ l ∈ s.loads, l.old = s.home
  | .storing .., .added (.error _) => True
  | _,_ => False

def Loading.Undisturbed (Fit : Key × Value → Prop) (s : Loading World) : LoadEvent World → Prop
  | .insert key value => Fit (key,value)
  | .resume i by_ _ => ∀ frame, s.map.frames[i]? = some frame → frame.inTree = true → s.home ≠ s.turn →
      s.Harmless frame by_
  | .load _ => True
  | .removed _ _ => True

structure Raced (cfg : Config) (env : Env World) (R : World → Hash → Value → Prop) (Fit : Key × Value → Prop)
    (s : Loading World) : Prop where
  map : ∃ frame, Vacant s.map frame ∨ Working cfg env R Fit s.map frame
  pairs : Pairs Fit s.map.outline
  home : ∀ f ∈ s.map.frames, f.inTree = true → s.home = s.turn
  turns : s.home ≤ s.turn
  storing : ∀ f ∈ s.map.frames, Storing s.map.tree f
  faults : s.faults = []

structure Astray (Fit : Key × Value → Prop) (s : Loading World) (f : Frame) : Prop where
  frames : s.map.frames = [f]
  inside : f.inTree = true
  behind : s.home < s.turn
  flag : s.map.tree.isInserting = true
  sorted : Sorted s.map.tree.insertBuffer
  fit : ∀ x ∈ s.map.tree.insertBuffer, Fit x
  root : ∀ r, s.map.tree.root = some r → r.node = none
  fails : ∀ x next, f = .storing x next → ∃ view, FailsAs view next
  faults : s.faults = []

theorem Raced.mapStep (two : 2 ≤ cfg.maxNodeSize) (here : cfg.addOp = true)
    (custody : Custody cfg env R (fun _ _ => True) NoDouble Fit) {s : Loading World} (raced : Raced cfg env R Fit s)
    {e : Event World} {map : System World} (fit : ∀ key value, e = .call key value → Fit (key,value))
    (step : Step cfg env s.map e map) :
    (∃ frame, Vacant map frame ∨ Working cfg env R Fit map frame) ∧ Pairs Fit map.outline := by
  obtain ⟨frame,vacant | working⟩ := raced.map
  · rcases stepCases vacant.frames step with ⟨key,value,rfl,_,rfl⟩ | ⟨f,by_,world,a,rfl,rfl,answers,advanced,rfl⟩
    · obtain ⟨⟨frame',vacant'⟩,pairs⟩ := vacant.called raced.pairs (fit key value rfl)
      exact ⟨⟨frame',.inl vacant'⟩,pairs⟩
    · exact vacant.advances two custody raced.pairs answers advanced
  · obtain ⟨⟨frame',working'⟩,pairs⟩ := working.step two here custody raced.pairs fit step
    exact ⟨⟨frame',.inr working'⟩,pairs⟩

theorem callRoot (key : Key) (value : Value) (s : System World) : (s.call key value).tree.root = s.tree.root := by
  unfold System.call
  dsimp only
  split <;> rfl

theorem callFrames (key : Key) (value : Value) (s : System World) :
    (s.call key value).frames = s.frames ∨ (s.call key value).frames = s.frames ++ [.loop] := by
  unfold System.call
  dsimp only
  split
  · exact .inl rfl
  · exact .inr rfl

theorem Raced.frames {s : Loading World} (raced : Raced cfg env R Fit s) : ∃ frame : Option Frame,
    s.map.frames = frame.toList ∧ s.map.tree.isInserting = frame.isSome ∧ Sorted s.map.tree.insertBuffer := by
  obtain ⟨frame,vacant | working⟩ := raced.map
  · exact ⟨frame,vacant.frames,vacant.flag,vacant.sorted⟩
  · exact ⟨frame,working.sound.frames,working.sound.flag,working.sound.sorted⟩

theorem Raced.stores (custody : Custody cfg env R (fun _ _ => True) NoDouble Fit) {s : Loading World}
    (raced : Raced cfg env R Fit s) {e : Event World} {map : System World} (step : Step cfg env s.map e map) :
    ∀ f ∈ map.frames, Storing map.tree f := by
  obtain ⟨frame,frames,_⟩ := raced.frames
  intro f mem
  rcases stepCases frames step with ⟨key,value,rfl,_,rfl⟩ | ⟨g,by_,world,a,rfl,rfl,answers,advanced,rfl⟩
  · have root := callRoot key value s.map
    rcases callFrames key value s.map with same | same
    · exact (raced.storing f (same ▸ mem)).same root
    · rw [same] at mem
      rcases List.mem_append.mp mem with old | new
      · exact (raced.storing f old).same root
      · rw [List.mem_singleton.mp new]
        trivial
  · cases a with
    | ends tree outcome => simp [System.after,frames] at mem
    | goes tree frame' =>
      obtain rfl : f = frame' := by simpa [System.after,frames] using mem
      refine advancedStoring (raced.storing g (by simp [frames])) advanced fun hash same => ?_
      subst same
      obtain ⟨x,next,rfl,_⟩ := advancedAdded advanced
      exact (custody.add.stored answers).1

def Raceable (cfg : Config) (env : Env World) (R : World → Hash → Value → Prop) (Fit : Key × Value → Prop)
    (s : Loading World) : Prop := Raced cfg env R Fit s ∨ ∃ f, Astray Fit s f

theorem waitsOutside {frame : Frame} (waits : frame.waits = true) (free : frame.inTree = false) :
    Outside (some frame) ∧ batchOf (some frame) = [] := by
  cases frame with
  | unhooking => exact ⟨.unhooking,rfl⟩
  | inserting | storing => cases free
  | _ => cases waits

theorem Raced.vacates {s : Loading World} (raced : Raced cfg env R Fit s)
    (waits : s.map.frames.all Frame.waits = true) (root : Option Root) (none_ : ∀ r, root = some r → r.node = none)
    {buffer : List (Key × Value)} (part : buffer = [] ∨ buffer = s.map.tree.insertBuffer) (world : World)
    (loads : List Replacing) :
    Raceable cfg env R Fit { s with
      map := { s.map with tree := { s.map.tree with root := root, insertBuffer := buffer }, world := world },
      turn := s.turn + 1, loads := loads } := by
  obtain ⟨frame,frames,flag,sorted⟩ := raced.frames
  have sorted' : Sorted buffer := by
    rcases part with rfl | rfl
    · exact List.Pairwise.nil
    · exact sorted
  have given (x : Key × Value) (mem : x ∈ buffer) : Fit x := by
    rcases part with rfl | rfl
    · cases mem
    · exact raced.pairs x (.inr (.inr mem))
  by_cases inside : ∃ f, frame = some f ∧ f.inTree = true
  · obtain ⟨f,rfl,inside⟩ := inside
    have mem : f ∈ s.map.frames := by simp [frames]
    have home := raced.home f mem inside
    refine .inr ⟨f,frames,inside,home ▸ Nat.lt_succ_self _,flag,sorted',given,none_,fun x next same => ?_,raced.faults⟩
    subst same
    obtain ⟨view,_,_,asks⟩ := raced.storing _ mem
    exact ⟨view,asks.1⟩
  · have clear : ∀ f ∈ s.map.frames, f.inTree = false := fun f mem => by
      rw [frames,Option.mem_toList] at mem
      exact Bool.eq_false_iff.mpr fun held => inside ⟨f,mem,held⟩
    have outside : Outside frame ∧ batchOf frame = [] := by
      rw [frames] at waits clear
      cases frame with
      | none => exact ⟨.idle,rfl⟩
      | some f => exact waitsOutside (by simpa using waits) (clear f (by simp))
    have vacant : Vacant { s.map with
        tree := { s.map.tree with root := root, insertBuffer := buffer }, world := world } frame :=
      ⟨frames,flag,sorted',none_,outside.1⟩
    refine .inl ⟨⟨frame,.inl vacant⟩,vacant.pairs (fun x mem => ?_) given,fun f mem held => ?_,
      raced.turns.trans (Nat.le_succ _),fun f mem => ?_,raced.faults⟩
    · rw [outside.2] at mem
      cases mem
    · rw [clear f mem] at held
      cases held
    · have free := clear f mem
      cases f with
      | storing => cases free
      | _ => trivial

theorem Astray.vacates {s : Loading World} {f : Frame} (astray : Astray Fit s f) {root : Option Root}
    (none_ : ∀ r, root = some r → r.node = none) {buffer : List (Key × Value)}
    (part : buffer = [] ∨ buffer = s.map.tree.insertBuffer) (world : World) (loads : List Replacing) :
    Astray Fit { s with
      map := { s.map with tree := { s.map.tree with root := root, insertBuffer := buffer }, world := world },
      turn := s.turn + 1, loads := loads } f := by
  obtain ⟨frames,inside,behind,flag,sorted,fit,_,fails,faults⟩ := astray
  have behind' := behind.trans (Nat.lt_succ_self _)
  rcases part with rfl | rfl
  · exact ⟨frames,inside,behind',flag,List.Pairwise.nil,fun x mem => (by cases mem),none_,fails,faults⟩
  · exact ⟨frames,inside,behind',flag,sorted,fit,none_,fails,faults⟩

theorem Raceable.vacates {s : Loading World} (raceable : Raceable cfg env R Fit s)
    (waits : s.map.frames.all Frame.waits = true) (root : Option Root) (none_ : ∀ r, root = some r → r.node = none)
    {buffer : List (Key × Value)} (part : buffer = [] ∨ buffer = s.map.tree.insertBuffer) (world : World)
    (loads : List Replacing) :
    Raceable cfg env R Fit { s with
      map := { s.map with tree := { s.map.tree with root := root, insertBuffer := buffer }, world := world },
      turn := s.turn + 1, loads := loads } :=
  raceable.elim (fun raced => raced.vacates waits root none_ part world loads) fun ⟨f,astray⟩ =>
    .inr ⟨f,astray.vacates none_ part world loads⟩

theorem Raceable.faults {s : Loading World} (raceable : Raceable cfg env R Fit s) : s.faults = [] :=
  raceable.elim Raced.faults fun ⟨_,astray⟩ => astray.faults

theorem Raceable.load {s : Loading World} (raceable : Raceable cfg env R Fit s)
    (waits : s.map.frames.all Frame.waits = true) (hash : Hash) : Raceable cfg env R Fit (s.load cfg hash) := by
  rw [Loading.load]
  split
  · exact raceable
  · dsimp only
    have installed := raceable.vacates waits (some ⟨none,hash⟩) (fun r same => by cases same; rfl) (.inl rfl)
      s.map.world s.loads
    split
    · exact installed
    · split
      · exact installed
      · exact raceable.vacates waits none (fun r same => by cases same) (.inl rfl) s.map.world _

theorem Raced.step (two : 2 ≤ cfg.maxNodeSize) (here : cfg.addOp = true)
    (custody : Custody cfg env R (fun _ _ => True) NoDouble Fit) {s s' : Loading World} {e : LoadEvent World}
    (raced : Raced cfg env R Fit s) (step : s.Step cfg env e s') (calm : s.Undisturbed Fit e) :
    Raceable cfg env R Fit s' := by
  obtain ⟨allowed,step⟩ := step
  unfold Loading.step at step
  rw [if_pos raced.faults] at step
  cases e with
  | insert key value =>
    obtain ⟨map,ran,rfl⟩ := Option.map_eq_some_iff.mp step
    have ran' : Step cfg env s.map (.call key value) map := ⟨trivial,ran⟩
    obtain ⟨next,pairs⟩ := raced.mapStep two here custody (fun _ _ same => by cases same; exact calm) ran'
    refine .inl ⟨next,pairs,fun f mem held => raced.home f ?_ held,raced.turns,raced.stores custody ran',raced.faults⟩
    obtain ⟨_,⟨⟩⟩ := Option.ite_none_right_eq_some.mp ran
    rcases callFrames key value s.map with same | same
    · rwa [same] at mem
    · rw [same] at mem
      rcases List.mem_append.mp mem with old | new
      · exact old
      · rw [List.mem_singleton.mp new] at held
        cases held
  | resume i by_ world =>
    simp only [Loading.resume] at step
    split at step
    · cases step
    · rename_i frame there
      have own : ¬ (frame.inTree = true ∧ s.home ≠ s.turn) := fun stray =>
        stray.2 (raced.home frame (List.mem_of_getElem? there) stray.1)
      rw [if_neg own] at step
      obtain ⟨map,ran,rfl⟩ := Option.map_eq_some_iff.mp step
      have ran' : Step cfg env s.map (.resume i by_ world) map := ⟨allowed,ran⟩
      obtain ⟨next,pairs⟩ := raced.mapStep two here custody (fun _ _ same => by cases same) ran'
      exact .inl ⟨next,pairs,fun _ _ _ => rfl,le_rfl,raced.stores custody ran',raced.faults⟩
  | load hash =>
    obtain ⟨waits,⟨⟩⟩ := Option.ite_none_right_eq_some.mp step
    exact Raceable.load (.inl raced) waits hash
  | removed i world =>
    obtain ⟨waits,step⟩ := Option.ite_none_right_eq_some.mp step
    obtain ⟨l,_,rfl⟩ := Option.map_eq_some_iff.mp step
    exact raced.vacates waits (some ⟨none,l.target⟩) (fun r same => by cases same; rfl) (.inr rfl) world _

theorem Astray.step {s s' : Loading World} {f : Frame} (astray : Astray Fit s f) {e : LoadEvent World}
    (step : s.Step cfg env e s') (calm : s.Undisturbed Fit e) : Raceable cfg env R Fit s' := by
  obtain ⟨frames,inside,behind,flag,sorted,fit,root,fails,faults⟩ := id astray
  obtain ⟨allowed,step⟩ := step
  unfold Loading.step at step
  rw [if_pos faults] at step
  cases e with
  | insert key value =>
    obtain ⟨map,ran,rfl⟩ := Option.map_eq_some_iff.mp step
    obtain ⟨_,⟨⟩⟩ := Option.ite_none_right_eq_some.mp ran
    rw [System.call,if_pos (show s.map.tree.isInserting = true from flag)]
    refine .inr ⟨f,frames,inside,behind,flag,OrderedMap.insertSorted key value sorted,fun x mem => ?_,root,fails,faults⟩
    rcases OrderedMap.memInsert mem with rfl | old
    · exact calm
    · exact fit x old
  | resume i by_ world =>
    simp only [Loading.resume] at step
    split at step
    · cases step
    · rename_i frame there
      have mem := List.mem_of_getElem? there
      rw [frames,List.mem_singleton] at mem
      subst mem
      obtain rfl : i = 0 := by
        have less := (List.getElem?_eq_some_iff.mp there).1
        rw [frames,List.length_singleton] at less
        omega
      rw [if_pos ⟨inside,behind.ne⟩] at step
      have harmless := calm _ there inside behind.ne
      unfold Loading.stray at step
      split at step
      · rename_i at_ ps after buf
        obtain ⟨more,l,mem,old⟩ := harmless
        rw [if_pos (List.any_eq_true.mpr ⟨l,mem,by simpa using old⟩)] at step
        split at step
        · exact absurd rfl more
        · rename_i q ps
          cases step
          refine .inr ⟨.inserting q ps after buf,?_,rfl,behind,flag,sorted,fit,root,fun x next same => (by cases same),faults⟩
          rw [frames]
          rfl
      · rename_i x next reply
        cases reply with
        | ok hash => exact harmless.elim
        | error ec =>
          obtain ⟨view,fails⟩ := fails x next rfl
          obtain ⟨n,failed⟩ := fails ec
          rw [failed] at step
          cases step
          have vacant : Vacant (s.map.after 0 (.storing x next) world
              (.ends { s.map.tree with isInserting := false }
                (BTree.afterStore noHash (n,StoreOutcome.ofFailure view ec)).2)) none :=
            ⟨by simp [System.after,frames],rfl,sorted,root,.idle⟩
          refine .inl ⟨⟨none,.inl vacant⟩,vacant.pairs (fun x mem => by cases mem) fit,fun f mem => ?_,behind.le,
            fun f mem => ?_,faults⟩
          all_goals simp [System.after,frames] at mem
      · cases step
  | load hash =>
    obtain ⟨waits,⟨⟩⟩ := Option.ite_none_right_eq_some.mp step
    exact Raceable.load (.inr ⟨f,astray⟩) waits hash
  | removed i world =>
    obtain ⟨_,step⟩ := Option.ite_none_right_eq_some.mp step
    obtain ⟨l,_,rfl⟩ := Option.map_eq_some_iff.mp step
    exact .inr ⟨f,astray.vacates (fun r same => by cases same; rfl) (.inr rfl) world _⟩

theorem disturbedFaults {s s' : Loading World} {i : Nat} {by_ : Resumption} {world : World}
    (step : s.Step cfg env (.resume i by_ world) s') (disturbed : ¬ s.Undisturbed Fit (.resume i by_ world)) :
    s'.faults ≠ [] := by
  simp only [Loading.Undisturbed,not_forall] at disturbed
  obtain ⟨frame,there,inside,behind,harm⟩ := disturbed
  obtain ⟨_,step⟩ := step
  obtain ⟨_,step⟩ := Option.ite_none_right_eq_some.mp step
  simp only [Loading.resume,there,if_pos (And.intro inside behind)] at step
  unfold Loading.stray at step
  split at step
  · split at step
    · rename_i holds
      obtain ⟨l,mem,old⟩ := List.any_eq_true.mp holds
      split at step
      · cases step
        simp [Loading.fails]
      · exact absurd ⟨by simp,l,mem,by simpa using old⟩ harm
    · cases step
      simp [Loading.fails]
  · split at step
    · cases step
      simp [Loading.fails]
    · exact absurd trivial harm
    · cases step
      simp [Loading.fails]
  · cases step

theorem startRaced {s : Loading World} (start : s.Starts) : Raced cfg env R Fit s := by
  obtain ⟨world,rfl⟩ := start
  have vacant : Vacant (System.fresh world) none :=
    ⟨rfl,rfl,List.Pairwise.nil,(fun r same => by cases same),.idle⟩
  exact ⟨⟨none,.inl vacant⟩,vacant.pairs (fun x mem => by cases mem) (fun x mem => by cases mem),
    (fun f mem => by cases mem),le_rfl,(fun f mem => by cases mem),rfl⟩

end races

section settled
variable {σ : Type} {cfg : Config} {S : Storage σ}

def SameFinds (cfg : Config) (S : Storage σ) (root : Option Root) (hash : Hash) (st : σ) : Prop :=
  ∃ need, ∀ keys fuel, need ≤ fuel →
    (BTree.findEach cfg S fuel keys ⟨root,[],false⟩ st).map Prod.fst =
      (BTree.findEach cfg S fuel keys (BTree.load cfg S hash BTree.fresh st).1
        (BTree.load cfg S hash BTree.fresh st).2).map Prod.fst

theorem Vacant.sameFinds {s : System σ} (vacant : Vacant s none) (proper : s.tree.rootHash.isEmpty = false) :
    SameFinds cfg S s.tree.root s.tree.rootHash s.world := by
  have hash : ∃ h, s.tree.root = some ⟨none,h⟩ := by
    cases root : s.tree.root with
    | none =>
      rw [BTree.rootHash,root] at proper
      cases proper
    | some r =>
      obtain ⟨node,h⟩ := r
      cases vacant.root _ root
      exact ⟨h,rfl⟩
  obtain ⟨h,root⟩ := hash
  rw [BTree.rootHash,root]
  exact ⟨0,fun _ _ _ => rfl⟩

theorem Working.sameFinds (two : 2 ≤ cfg.maxNodeSize) (faithful : S.Faithful) (back : cfg.json.ParsesBack)
    {s : System σ} (working : Working cfg S.env S.holds (Clean StdString.ValidUtf8) s none)
    (pairs : Pairs (Clean StdString.ValidUtf8) s.outline) (proper : s.tree.rootHash.isEmpty = false) :
    SameFinds cfg S s.tree.root s.tree.rootHash s.world := by
  obtain ⟨sound,held,some_,rests⟩ := working
  have frames : s.frames = [] := sound.frames
  rw [System.Held,frames] at held
  have content : s.outline.content = (top s.tree.root).flatten := by
    rw [System.outline,frames]
    rfl
  rw [content] at some_
  have whole : Whole cfg s.tree.root := sound.sits
  have published : Published cfg S.holds s.world s.tree.root :=
    (rests rfl).resolve_left (by rw [← rootHashTop,proper]; exact Bool.false_ne_true)
  obtain ⟨_,readable⟩ := published.readable two faithful back whole.good held.backed some_
    fun x mem => pairs x (.inl (by rwa [content]))
  rw [← rootHashTop] at readable
  have resting : Resting cfg.maxNodeSize ⟨s.tree.root,[],false⟩ := ⟨rfl,rfl,whole.inMemory,whole.good⟩
  obtain ⟨second,load,opened⟩ := loadOpens (T := top s.tree.root) cfg S s.world
    fun empty => by rw [proper] at empty; cases empty
  refine ⟨sizeOf (top s.tree.root) + 1,fun keys fuel enough => ?_⟩
  obtain ⟨bt',st',finds,_⟩ := Opened.findEach faithful back utf8Usable whole.good.tree enough keys second s.world
    opened readable
  rw [resting.findEach,load,finds]
  rfl

/-- In a run in which no insert that is astray is resumed where it comes to harm, none ever
follows a missing root node nor writes the hash of an old tree, and whenever no insert is under
way a root hash that is not empty stands for what find finds. Any other resumption does harm. -/
theorem loadsApart (two : 2 ≤ cfg.maxNodeSize) (here : cfg.addOp = true) (faithful : S.Faithful)
    (back : cfg.json.ParsesBack) {s : Loading σ}
    (run : Reach Loading.Starts (fun s e s' => Loading.Step cfg S.env s e s' ∧
      s.Undisturbed (Clean StdString.ValidUtf8) e) s) :
    s.faults = [] ∧
      (s.map.frames = [] → s.map.tree.rootHash.isEmpty = false →
        SameFinds cfg S s.map.tree.root s.map.tree.rootHash s.map.world) ∧
      ∀ i by_ world s', Loading.Step cfg S.env s (.resume i by_ world) s' →
        (s'.faults = [] ↔ s.Undisturbed (Clean StdString.ValidUtf8) (.resume i by_ world)) := by
  have custody := faithful.retains.custody (holdsLegible two faithful back)
  have goesOn {s s' : Loading σ} {e : LoadEvent σ}
      (raceable : Raceable cfg S.env S.holds (Clean StdString.ValidUtf8) s) (step : Loading.Step cfg S.env s e s')
      (calm : s.Undisturbed (Clean StdString.ValidUtf8) e) :
      Raceable cfg S.env S.holds (Clean StdString.ValidUtf8) s' :=
    raceable.elim (fun raced => raced.step two here custody step calm) fun ⟨_,astray⟩ => astray.step step calm
  have raceable : Raceable cfg S.env S.holds (Clean StdString.ValidUtf8) s :=
    run.invariant (I := Raceable cfg S.env S.holds (Clean StdString.ValidUtf8))
      (fun _ start => .inl (startRaced start)) fun _ _ _ raceable h => goesOn raceable h.1 h.2
  refine ⟨raceable.faults,fun idle proper => ?_,fun i by_ world s' step => ?_⟩
  case refine_2 =>
    refine ⟨fun none_ => by_contra fun disturbed => disturbedFaults step disturbed none_,fun calm => ?_⟩
    exact (goesOn raceable step calm).faults
  have raced : Raced cfg S.env S.holds (Clean StdString.ValidUtf8) s := raceable.resolve_right fun ⟨_,astray⟩ => by
    rw [astray.frames] at idle
    cases idle
  obtain ⟨frame,state⟩ := raced.map
  have none_ : frame = none := by
    have frames : s.map.frames = frame.toList := state.elim Vacant.frames fun working => working.sound.frames
    rw [idle] at frames
    cases frame with
    | none => rfl
    | some f => cases frames
  subst none_
  rcases state with vacant | working
  · exact vacant.sameFinds proper
  · exact working.sameFinds two faithful back raced.pairs proper

end settled

theorem Loading.eventAllowed {World : Type} {S : Storage World} {s : Loading World} {a : LoadAct}
    {e : LoadEvent World} (event : s.event S a = some e) : s.Allowed S.env e := by
  cases a with
  | resume i =>
    obtain ⟨frame,there,rfl⟩ := Option.map_eq_some_iff.mp event
    intro frame' there'
    cases there.symm.trans there'
    exact storageAnswers S frame s.map.world
  | removed i =>
    obtain ⟨l,there,rfl⟩ := Option.map_eq_some_iff.mp event
    intro l' there'
    cases there.symm.trans there'
    rfl
  | _ =>
    cases event
    trivial

theorem Loading.playReach {World : Type} {cfg : Config} {S : Storage World}
    {ok : Loading World → LoadEvent World → Bool}
    {P : Loading World → LoadEvent World → Prop} (sound : ∀ s e, ok s e = true → P s e) {acts : List LoadAct}
    {s s' : Loading World} (before : Reach Starts (fun s e s' => s.Step cfg S.env e s' ∧ P s e) s)
    (played : s.play cfg S ok acts = some s') : Reach Starts (fun s e s' => s.Step cfg S.env e s' ∧ P s e) s' := by
  refine before.schedule (fun acts s => s.play cfg S ok acts) (fun _ _ => True) played trivial
    (fun _ => rfl) fun a acts s s' _ played => ?_
  rw [play] at played
  split at played
  · cases played
  · rename_i e event
    split at played
    · rename_i meets
      obtain ⟨s₁,step,rest⟩ := Option.bind_eq_some_iff.mp played
      exact ⟨e,s₁,⟨⟨eventAllowed event,step⟩,sound s e meets⟩,trivial,rest⟩
    · cases played

def failsStore : Frame → Resumption → Bool
  | .storing ..,.added (.error _) => true
  | _,_ => false

def calmLoad (letters : List (Fin 256)) (s : Loading MockStorage) : LoadEvent MockStorage → Bool
  | .insert key value => letters.any fun b => decide (key = letter b ∧ value = letter b)
  | .resume _ by_ _ => decide (s.home = s.turn) || s.map.frames.all fun f => !f.inTree || failsStore f by_
  | _ => true

theorem calmLoadSound {letters : List (Fin 256)} (ascii : ∀ b ∈ letters, 0 < b ∧ b < 128) (s : Loading MockStorage)
    (e : LoadEvent MockStorage) (ok : calmLoad letters s e = true) :
    s.Undisturbed (Clean StdString.ValidUtf8) e := by
  cases e with
  | insert key value =>
    obtain ⟨b,mem,same⟩ := List.any_eq_true.mp ok
    obtain ⟨rfl,rfl⟩ := of_decide_eq_true same
    exact lettersClean letters ascii _ (List.mem_map_of_mem mem)
  | resume i by_ world =>
    intro frame there inside behind
    simp only [calmLoad,behind,decide_false,Bool.false_or,List.all_eq_true] at ok
    have fails := ok frame (List.mem_of_getElem? there)
    rw [inside,Bool.not_true,Bool.false_or] at fails
    unfold failsStore at fails
    split at fails
    · trivial
    · cases fails
  | load => trivial
  | removed => trivial

namespace MockStorage

def addRefusing (number : Nat) (s : MockStorage) (x : Value) : Except ErrorCode Hash × MockStorage :=
  if s.nextId = number then
    (.error (.storage 0),{ s with
      nextId := s.nextId + 1, given := fun id mem => (s.given id mem).imp fun _ h => h.imp_left Nat.lt_succ_of_lt })
  else s.add x

def refusing (number : Nat) : Storage MockStorage := ⟨fun s h => (s.cat h,s),addRefusing number,remove⟩

theorem faithfulRefusing (number : Nat) : (refusing number).Faithful where
  stores := by
    intro s x h s' step
    change s.addRefusing number x = _ at step
    unfold addRefusing at step
    split at step
    · cases step
    · exact faithful.stores step
  addKeeps := by
    intro s x r s' g y step there
    change s.addRefusing number x = _ at step
    unfold addRefusing at step
    split at step
    · cases step
      exact there
    · exact faithful.addKeeps step there
  removeKeeps := faithful.removeKeeps
  catKeeps := faithful.catKeeps

end MockStorage

def goOn (n : Nat) : List LoadAct := List.replicate n (.resume 0)

theorem loadsApartMock : ∃ s : Loading MockStorage, s.turn = 2 ∧ s.faults = [] ∧
    s.map.ended = [.completed,.error (.storage 0),.completed,.completed] ∧ s.map.tree.rootHash.isEmpty = false ∧
    SameFinds (mockConfig 2) (MockStorage.refusing 1) s.map.tree.root s.map.tree.rootHash s.map.world := by
  have run : ((Loading.fresh MockStorage.empty).play (mockConfig 2) (MockStorage.refusing 1) (calmLoad [97,98,99])
      (.insert (letter 97) (letter 97) :: goOn 6 ++ .insert (letter 98) (letter 98) :: goOn 5 ++
        .load (letter 49) :: goOn 1 ++ .insert (letter 99) (letter 99) :: goOn 3 ++ .load (letter 48) :: goOn 3 ++
        .insert (letter 98) (letter 98) :: goOn 7)).any
      (fun s => decide (s.turn = 2) && decide (s.map.ended =
        [.completed,.error (.storage 0),.completed,.completed]) && s.map.frames.isEmpty &&
        !s.map.tree.rootHash.isEmpty) = true := by
    decide +kernel
  obtain ⟨s,played,seen⟩ := Option.any_eq_true _ _ |>.mp run
  simp only [Bool.and_eq_true,decide_eq_true_eq,List.isEmpty_iff,Bool.not_eq_true'] at seen
  obtain ⟨⟨⟨turns,ended⟩,idle⟩,proper⟩ := seen
  have apart := loadsApart (by decide) rfl (MockStorage.faithfulRefusing 1) nlohmannParsesBack
    (Loading.playReach (calmLoadSound (by decide +kernel)) (.start ⟨_,rfl⟩) played)
  exact ⟨s,turns,apart.1,ended,proper,apart.2.1 idle proper⟩

/-- A load while the insert waits for the block of its root, and one while it waits inside
Node::insert: the old hash is written into the new root, and a missing node is followed. -/
theorem loadDisturbs : (∃ s, Reach Loading.Starts (Loading.Step (mockConfig 2) MockStorage.storage.env) s ∧
      Fault.foreignHash ∈ s.faults) ∧
    ∃ s, Reach Loading.Starts (Loading.Step (mockConfig 2) MockStorage.storage.env) s ∧ s.faults = [.noNode] := by
  have reach {acts : List LoadAct} {s : Loading MockStorage}
      (played : (Loading.fresh MockStorage.empty).play (mockConfig 2)
      MockStorage.storage (fun _ _ => true) acts = some s) :
      Reach Loading.Starts (Loading.Step (mockConfig 2) MockStorage.storage.env) s :=
    (Loading.playReach (P := fun _ _ => True) (fun _ _ _ => trivial) (.start ⟨_,rfl⟩) played).mono
      (fun _ => id) fun _ _ _ => And.left
  have storing : ((Loading.fresh MockStorage.empty).play (mockConfig 2) MockStorage.storage (fun _ _ => true)
      (.insert (letter 97) (letter 97) :: goOn 4 ++ [.load (letter 48),.resume 0])).any
      (fun s => decide (Fault.foreignHash ∈ s.faults)) = true := by
    decide +kernel
  have inserting : ((Loading.fresh MockStorage.empty).play (mockConfig 2) MockStorage.storage (fun _ _ => true)
      (.insert (letter 97) (letter 97) :: goOn 6 ++ .insert (letter 98) (letter 98) :: goOn 7 ++
        .insert (letter 99) (letter 99) :: goOn 9 ++ .insert (letter 100) (letter 100) :: goOn 2 ++
        [.load (letter 48),.resume 0])).any
      (fun s => decide (s.faults = [.noNode])) = true := by
    decide +kernel
  obtain ⟨s,played,seen⟩ := Option.any_eq_true _ _ |>.mp storing
  obtain ⟨s',played',seen'⟩ := Option.any_eq_true _ _ |>.mp inserting
  exact ⟨⟨s,reach played,of_decide_eq_true seen⟩,s',reach played',of_decide_eq_true seen'⟩

end IpfsCache
