import IpfsCache.MockIpfs

/-! What becomes of a failed add_op. Node::store hands the error on to its caller, and the
caller that is another Node::store turns it into an exception: only the failure of the add
for the root's own block leaves BTree::insert as an error. -/
namespace IpfsCache
open Node Entries

def Node.childrenHashed (n : Node) : Bool := n.entries.all fun p => p.2.child.isNone || !p.2.childHash.isEmpty

def StoreOutcome.ofFailure (view : Node) (ec : ErrorCode) : StoreOutcome :=
  if view.childrenHashed then .error ec else .exception

def ProperReply (reply : Except ErrorCode Hash) : Prop := ∃ hash : Hash, reply = .ok hash ∧ hash.isEmpty = false

def FailsAs (view : Node) (next : Except ErrorCode Hash → StoreProgram) : Prop :=
  ∀ ec, ∃ n, next (.error ec) = .done (n,.ofFailure view ec)

def StoresProper (out : Node × StoreOutcome) : Prop := ∃ hash : Hash, out.2 = .stored hash ∧ hash.isEmpty = false

theorem childrenHashedSnoc {es : Entries} {p : NodeId × Entry Node} (before : childrenHashed ⟨es⟩ = true)
    (own : p.2.child.isNone = true ∨ p.2.childHash.isEmpty = false) : childrenHashed ⟨es ++ [p]⟩ = true := by
  simp only [childrenHashed,entries,List.all_append,List.all_cons,List.all_nil,Bool.and_true,Bool.and_eq_true,
    Bool.or_eq_true,Bool.not_eq_true'] at before ⊢
  exact ⟨before,own⟩

theorem childrenUnhashed {pre post : Entries} {i : NodeId} {v : Value} {c : Node} {hash : Hash}
    (empty : hash.isEmpty = true) : childrenHashed ⟨pre ++ (i,⟨v,some c,hash⟩) :: post⟩ = false := by
  simp [childrenHashed,entries,empty]

theorem storeLoopAsks (cfg : Config) (rest : Entries) :
    (∀ p ∈ rest, ∀ c, p.2.child = some c → (c.store cfg).Asks ProperReply FailsAs StoresProper) →
    ∀ (done : Entries) (json : Json), childrenHashed ⟨done⟩ = true →
      (storeLoop cfg done json rest).Asks ProperReply FailsAs StoresProper := by
  induction rest with
  | nil =>
    intro _ done json hashed
    rw [storeLoop]
    refine ⟨fun ec => ⟨⟨done⟩,?_⟩,fun reply proper => ?_⟩
    · simp only [StoreOutcome.ofFailure,hashed,if_true]
    · obtain ⟨hash,rfl,proper⟩ := proper
      exact ⟨hash,rfl,proper⟩
  | cons p rest ih =>
    intro children done json hashed
    obtain ⟨i,value,child,hash⟩ := p
    have next (e : Entry Node) (json : Json) (own : e.child.isNone = true ∨ e.childHash.isEmpty = false) :
        (storeLoop cfg (done ++ [(i,e)]) json rest).Asks ProperReply FailsAs StoresProper :=
      ih (fun p mem => children p (List.mem_cons_of_mem _ mem)) _ json (childrenHashedSnoc hashed own)
    by_cases cached : hash.isEmpty = true
    · cases child with
      | none =>
        simp only [storeLoop,cached,if_true]
        exact next _ _ (.inl rfl)
      | some c =>
        simp only [storeLoop,cached,if_true]
        refine Program.asksBind (fun view next fails ec => ?_) (fun out post => ?_) _
          (children (i,⟨value,some c,hash⟩) (by simp) c rfl)
        -- The error of a deeper store becomes an exception here, whichever form it has there.
        · obtain ⟨n,failed⟩ := fails ec
          dsimp only
          rw [failed,Program.bind]
          refine ⟨⟨done ++ (i,⟨value,some n,hash⟩) :: rest⟩,?_⟩
          unfold StoreOutcome.ofFailure
          rw [childrenUnhashed cached]
          cases view.childrenHashed <;> rfl
        · obtain ⟨c',_⟩ := out
          obtain ⟨hash',rfl,proper⟩ := post
          exact next _ _ (.inr proper)
    · rw [storeLoopKnown (by simpa using cached)]
      exact next _ _ (.inr (by simpa using cached))

theorem storeAsks (cfg : Config) (n : Node) : (n.store cfg).Asks ProperReply FailsAs StoresProper := by
  induction n using Node.induct with
  | step es ih =>
    rw [store]
    exact storeLoopAsks cfg es (fun p mem c child => ih p mem c child) [] .null rfl

section
variable {World : Type} {cfg : Config} {ipfs : Ipfs World}

def Storing (tree : BTree) : Frame → Prop
  | .storing x next => ∃ view hash, tree.root = some ⟨some view,hash⟩ ∧
      (Program.await x view next).Asks ProperReply FailsAs StoresProper
  | _ => True

theorem Storing.same {tree tree' : BTree} {frame : Frame} (storing : Storing tree frame)
    (root : tree'.root = tree.root) : Storing tree' frame := by
  cases frame with
  | storing x next => exact storing.imp fun _ h => h.imp fun _ h => ⟨root.trans h.1,h.2⟩
  | _ => trivial

theorem storeOnStoring {p : StoreProgram} (asks : p.Asks ProperReply FailsAs StoresProper) {tree tree' : BTree}
    {hash : Hash} {frame : Frame} (same : storeOn tree hash p = .goes tree' frame) : Storing tree' frame := by
  cases p with
  | await x view next =>
    cases same
    exact ⟨view,hash,rfl,asks⟩
  | done out =>
    obtain ⟨n,_⟩ := out
    obtain ⟨hash',rfl,_⟩ := asks
    cases same
    trivial

theorem pauseOnStoring {tree tree' : BTree} {after : Root} {buf : List (Key × Value)} {ps : List Pause}
    {frame : Frame} (same : pauseOn tree after buf ps = .goes tree' frame) : Storing tree' frame := by
  cases ps <;> cases same <;> trivial

theorem advancedStoring {tree tree' : BTree} {frame frame' : Frame} {by_ : Resumption}
    (storing : Storing tree frame) (h : Advanced cfg tree frame by_ (.goes tree' frame'))
    (proper : ∀ hash, by_ = .added (.ok hash) → hash.isEmpty = false) : Storing tree' frame' := by
  generalize same : Advance.goes tree' frame' = a at h
  cases h with
  | raw => exact pauseOnStoring same.symm
  | removed => exact pauseOnStoring same.symm
  | @stores n => exact storeOnStoring (storeAsks cfg n) same.symm
  | @added _ x next reply =>
    obtain ⟨view,hash,root,asks⟩ := storing
    cases reply with
    | ok hash' => exact storeOnStoring (asks.2 _ ⟨hash',rfl,proper hash' rfl⟩) same.symm
    | error ec =>
      obtain ⟨n,failed⟩ := asks.1 ec
      rw [failed,StoreOutcome.ofFailure] at same
      split at same <;> cases same
  | finished => cases same
  | _ => cases same; trivial

theorem advancedAdded {tree : BTree} {frame : Frame} {reply : Except ErrorCode Hash} {a : Advance}
    (h : Advanced cfg tree frame (.added reply) a) :
    ∃ x next, frame = .storing x next ∧ a = storeOn tree tree.rootHash (next reply) := by
  cases h
  exact ⟨_,_,rfl,rfl⟩

theorem failedEnds {tree : BTree} {frame : Frame} {ec : ErrorCode} {a : Advance} (storing : Storing tree frame)
    (h : Advanced cfg tree frame (.added (.error ec)) a) :
    ∃ n hash tree', tree.root = some ⟨some n,hash⟩ ∧
      a = .ends tree' (if n.childrenHashed then .error ec else .exception) := by
  obtain ⟨x,next,rfl,rfl⟩ := advancedAdded h
  obtain ⟨n,hash,root,asks⟩ := storing
  obtain ⟨n',failed⟩ := asks.1 ec
  refine ⟨n,hash,{ tree with root := some ⟨some n',tree.rootHash⟩, isInserting := false },root,?_⟩
  rw [failed,StoreOutcome.ofFailure]
  cases n.childrenHashed <;> rfl

namespace InjectorDb

theorem reachStoring (given : ∀ {w x hash w'}, ipfs.add w x (.ok hash) w' → hash.isEmpty = false)
    {db : InjectorDb World} (h : Reach Idle (InjectorDb.Step cfg ipfs) db) :
    ∀ frame ∈ db.map.frames, Storing db.map.tree frame := by
  refine h.invariantOver (J := Running ipfs) (I := fun db => ∀ frame ∈ db.map.frames, Storing db.map.tree frame)
    (fun _ h => reachRunning (fun _ => id) (fun _ _ _ => id) h) (fun db start => ?_) ?_
  · intro frame mem
    rw [start.1] at mem
    cases mem
  · intro db e db' running storing step
    have none_ (frame : Frame) (mem : frame ∈ ([] : List Frame)) (tree : BTree) : Storing tree frame := by cases mem
    cases (moves running step).1 with
    | called idle flag =>
      intro frame mem
      simp only [called,System.call,flag,idle,List.nil_append,if_false,Bool.false_eq_true,List.mem_singleton] at mem
      subst mem
      trivial
    | buffered busy waits flag =>
      intro frame mem
      rw [(uploadDatabaseAlong _ _).map] at mem ⊢
      simp only [called,System.call,flag,if_true] at mem ⊢
      exact (storing frame mem).same rfl
    | added => exact storing
    | republished => exact storing
    | ended resumed owner idle =>
      intro frame mem
      rw [(insertedAlong _ _ _).map] at mem
      exact none_ frame (idle ▸ mem) _
    | @went _ _ map resumed same =>
      intro frame' mem
      obtain ⟨frame,a,one,advanced,answers,after⟩ := resumed.advanced
      have before := storing frame (by rw [one]; simp)
      cases a with
      | ends tree outcome =>
        rw [after] at mem
        simp [System.after,one] at mem
      | goes tree frame'' =>
        rw [after] at mem ⊢
        have here : frame' = frame'' := by simpa [System.after,one] using mem
        subst here
        refine advancedStoring before advanced fun hash same => ?_
        subst same
        obtain ⟨x,next,rfl,_⟩ := advancedAdded advanced
        cases answers with
        | pinned add => exact given add

/-- The error of an add_op comes out of insert and update, and reaches the injector's callback. -/
def Surfaces (db db' : InjectorDb World) (u : Nat) (ec : ErrorCode) : Prop :=
  db'.map.ended = db.map.ended ++ [.error ec] ∧
    ∃ up, db'.updates[u]? = some up ∧ up.stage.onInsert = some (.error ec)

/-- An exception leaves insert and update instead, and the callback is not called. -/
def Escapes (db db' : InjectorDb World) (u : Nat) : Prop :=
  db'.map.ended = db.map.ended ++ [.exception] ∧ ∃ up, db'.updates[u]? = some up ∧ up.stage = .threw

/-- Whichever add_op of a store fails: the error surfaces when it is the one for the root's
block, and an exception escapes otherwise. -/
theorem storageErrors (given : ∀ {w x hash w'}, ipfs.add w x (.ok hash) w' → hash.isEmpty = false)
    {db db' : InjectorDb World} (h : Reach Idle (InjectorDb.Step cfg ipfs) db) {e : DbEvent World} {ec : ErrorCode}
    (step : InjectorDb.Step cfg ipfs db e db') (fails : e.addFails = some ec) :
    ∃ u n hash, db.owners = [u] ∧ db.map.tree.root = some ⟨some n,hash⟩ ∧
      (Surfaces db db' u ec ↔ n.childrenHashed = true) ∧ (Escapes db db' u ↔ n.childrenHashed = false) := by
  have running : Running ipfs db := reachRunning (fun _ => id) (fun _ _ _ => id) h
  have storing := reachStoring given h
  have advanced {by_ : Resumption} {map : System World} (resumed : Resumed cfg ipfs db e by_ map) : ∃ n hash,
      db.map.tree.root = some ⟨some n,hash⟩ ∧
      map.ended = db.map.ended ++ [if n.childrenHashed then .error ec else .exception] := by
    obtain ⟨frame,a,one,advanced,_,after⟩ := resumed.advanced
    cases resumed.fails ec fails
    obtain ⟨n,hash,tree,root,rfl⟩ := failedEnds (storing frame (by simp [one])) advanced
    exact ⟨n,hash,root,by rw [after]; rfl⟩
  cases (moves running step).1 with
  | called => cases fails
  | buffered => cases fails
  | added => cases fails
  | republished => cases fails
  | went resumed same =>
    obtain ⟨n,hash,_,ended⟩ := advanced resumed
    rw [same] at ended
    simp at ended
  | @ended _ _ map u outcome resumed owner idle ended other =>
    obtain ⟨n,hash,root,ended'⟩ := advanced resumed
    obtain rfl : outcome = if n.childrenHashed then .error ec else .exception := by
      rw [ended'] at ended
      simpa using ended.symm
    obtain ⟨up,here,_⟩ := running.owner owner
    refine ⟨u,n,hash,owner,root,?_⟩
    unfold Surfaces Escapes
    rw [(insertedAlong _ _ _).map]
    cases hashed : n.childrenHashed <;> simp [ended',inserted,goes,here,hashed,Stage.onInsert]

end InjectorDb
end

namespace InjectorDb

theorem mockReach {acts : List DbAct} {db : InjectorDb MockIpfs} {m : Nat}
    (h : (mockDb m).play (mockConfig m) (fun _ _ => true) acts = some db) :
    Reach Idle (Step (mockConfig m) MockIpfs.ipfs) db :=
  (playReach (P := fun _ _ => True) (fun _ _ _ => trivial) (.start ⟨rfl,rfl,rfl,rfl⟩) h).mono (fun _ => id)
    fun _ _ _ => And.left

theorem mockStep {db : InjectorDb MockIpfs} {a : DbAct} {m : Nat} {P : DbEvent MockIpfs → InjectorDb MockIpfs → Bool}
    (h : ((a.event db).any fun e => (db.step (mockConfig m) e).any (P e)) = true) :
    ∃ e db', Step (mockConfig m) MockIpfs.ipfs db e db' ∧ P e db' = true := by
  obtain ⟨e,event,next⟩ := Option.any_eq_true _ _ |>.mp h
  obtain ⟨db',step,holds⟩ := Option.any_eq_true _ _ |>.mp next
  exact ⟨e,db',⟨eventAllowed event,step⟩,holds⟩

theorem storageErrorsPin : ∃ db db' : InjectorDb MockIpfs, (top db.map.tree.root).localNodeCount = 3 ∧
    Surfaces db db' 2 (.storage 7) := by
  have run : ((mockDb 2).play (mockConfig 2) (fun _ _ => true) (threeUpdates ++ [.added none])).any
      (fun db => ((DbAct.pinned (some (.storage 7))).event db).any fun e => (db.step (mockConfig 2) e).any fun _ =>
        decide (e.addFails = some (.storage 7)) && decide (db.owners = [2]) &&
        decide ((top db.map.tree.root).localNodeCount = 3) && (top db.map.tree.root).childrenHashed) = true := by
    decide +kernel
  obtain ⟨db,played,next⟩ := Option.any_eq_true _ _ |>.mp run
  obtain ⟨e,db',step,seen⟩ := mockStep next
  simp only [Bool.and_eq_true,decide_eq_true_eq] at seen
  obtain ⟨⟨⟨fails,owner⟩,three⟩,hashed⟩ := seen
  obtain ⟨u,n,hash,owner',root,surfaces,_⟩ := storageErrors (fun h => (MockIpfs.pins.added h).1)
    (mockReach played) step fails
  cases owner.symm.trans owner'
  rw [root] at hashed
  exact ⟨db,db',three,surfaces.mpr hashed⟩

theorem storageErrorEscapes : ∃ (db db' : InjectorDb MockIpfs) (e : DbEvent MockIpfs) (ec : ErrorCode),
    Reach Idle (Step (mockConfig 2) MockIpfs.ipfs) db ∧ Step (mockConfig 2) MockIpfs.ipfs db e db' ∧
    e.addFails = some ec ∧ db.owners = [2] ∧ Escapes db db' 2 ∧ ¬ Surfaces db db' 2 ec := by
  have run : ((mockDb 2).play (mockConfig 2) (fun _ _ => true) (firstUpdate (letter 97) ++ storeRoot ++
      nextUpdate (letter 98) ++ storeRoot ++ nextUpdate (letter 99))).any
      (fun db => ((DbAct.added (some (.storage 7))).event db).any fun e => (db.step (mockConfig 2) e).any fun db' =>
        decide (e.addFails = some (.storage 7)) && decide (db.owners = [2]) &&
        decide (db'.map.ended = db.map.ended ++ [.exception]) &&
        decide ((db'.updates[2]?).map Update.stage = some .threw)) = true := by
    decide +kernel
  obtain ⟨db,played,next⟩ := Option.any_eq_true _ _ |>.mp run
  obtain ⟨e,db',step,seen⟩ := mockStep next
  simp only [Bool.and_eq_true,decide_eq_true_eq] at seen
  obtain ⟨⟨⟨fails,owner⟩,ended⟩,stage⟩ := seen
  obtain ⟨up,here,threw⟩ := Option.map_eq_some_iff.mp stage
  refine ⟨db,db',e,_,mockReach played,step,fails,owner,⟨ended,up,here,threw⟩,fun surfaces => ?_⟩
  have same := surfaces.1
  rw [ended] at same
  simp at same

end InjectorDb
end IpfsCache
