import IpfsCache.InjectorDb
import IpfsCache.Restart

/-! What a step of an InjectorDb does. The map's steps are those of a BTree whose storage is
the backend; each insert past the guard belongs to one update, which goes on when it ends. -/
namespace IpfsCache

theorem advancedFlag {cfg : Config} {tree : BTree} {frame : Frame} {by_ : Resumption} {a : Advance}
    (h : Advanced cfg tree frame by_ a) :
    (∀ tree' frame', a = .goes tree' frame' → tree'.isInserting = tree.isInserting) ∧
    ∀ tree' outcome, a = .ends tree' outcome → tree'.isInserting = false ∧ outcome ≠ .buffered := by
  have paused (tree : BTree) (after : Root) (buf : List (Key × Value)) (ps : List Pause) :
      ∃ root frame', pauseOn tree after buf ps = .goes { tree with root := root } frame' := by
    cases ps <;> exact ⟨_,_,rfl⟩
  have stored (tree : BTree) (hash : Hash) (p : StoreProgram) :
      (∀ tree' frame', storeOn tree hash p = .goes tree' frame' → tree'.isInserting = tree.isInserting) ∧
      ∀ tree' outcome, storeOn tree hash p = .ends tree' outcome → tree'.isInserting = false ∧
        outcome ≠ .buffered := by
    rcases p with ⟨n,_ | _ | _⟩ | _ <;> refine ⟨fun _ _ same => ?_,fun _ _ same => ?_⟩ <;> cases same <;> simp
  cases h with
  | raw =>
    obtain ⟨_,_,same⟩ := paused tree _ _ _
    rw [same]
    refine ⟨fun _ _ h => ?_,fun _ _ h => ?_⟩ <;> cases h
    rfl
  | removed =>
    obtain ⟨_,_,same⟩ := paused tree _ _ _
    rw [same]
    refine ⟨fun _ _ h => ?_,fun _ _ h => ?_⟩ <;> cases h
    rfl
  | stores => exact stored _ _ _
  | added => exact stored _ _ _
  | finished =>
    refine ⟨fun _ _ h => ?_,fun _ _ h => ?_⟩ <;> cases h
    exact ⟨rfl,by simp⟩
  | _ =>
    refine ⟨fun _ _ h => ?_,fun _ _ h => ?_⟩ <;> cases h
    rfl

section
variable {World : Type} {cfg : Config}

theorem soloStep {s s' : System World} {frame : Frame} (one : s.frames = [frame]) {i : Nat} {by_ : Resumption}
    {world : World} (flag : s.tree.isInserting = true) (h : s.step cfg (.resume i by_ world) = some s') :
    i = 0 ∧ s'.world = world ∧ ∃ a, Advanced cfg s.tree frame by_ a ∧ s' = s.after 0 frame world a ∧
      ((∃ frame', s'.frames = [frame'] ∧ s'.tree.isInserting = true ∧ s'.ended = s.ended) ∨
        ∃ outcome, s'.frames = [] ∧ s'.tree.isInserting = false ∧ s'.ended = s.ended ++ [outcome] ∧
          outcome ≠ .buffered) := by
  obtain ⟨tree,frames,w,calls,handed,ended⟩ := s
  cases one
  cases i with
  | succ i => cases h
  | zero =>
    simp only [System.step,List.getElem?_cons_zero,List.eraseIdx_cons_zero,List.all_nil,if_true] at h
    obtain ⟨a,advanced,rfl⟩ := Option.map_eq_some_iff.mp h
    have kept := advancedFlag (advances advanced)
    cases a with
    | goes tree' frame' =>
      exact ⟨rfl,rfl,_,advances advanced,rfl,.inl ⟨frame',rfl,(kept.1 _ _ rfl).trans flag,rfl⟩⟩
    | ends tree' outcome =>
      exact ⟨rfl,rfl,_,advances advanced,rfl,.inr ⟨outcome,rfl,(kept.2 _ _ rfl).1,rfl,(kept.2 _ _ rfl).2⟩⟩

namespace InjectorDb
variable {ipfs : Ipfs World}

inductive Running (ipfs : Ipfs World) (db : InjectorDb World) : Prop
  | idle (frames : db.map.frames = []) (owners : db.owners = []) (flag : db.map.tree.isInserting = false)
      (midway : db.midway = none)
  | busy {frame : Frame} {u : Nat} (frames : db.map.frames = [frame]) (owners : db.owners = [u])
      (flag : db.map.tree.isInserting = true) (stage : (db.updates[u]?).map Update.stage = some .inserting)
      (given : db.map.calls ≠ []) (midway : ∀ hash w, db.midway = some (hash,w) →
        ∃ x next, frame = .storing x next ∧ ipfs.add db.map.world x (.ok hash) w)

end InjectorDb

def DbEvent.addFails : DbEvent World → Option ErrorCode
  | .added _ (.error ec) _ => some ec
  | .pinned _ (.error ec) _ => some ec
  | _ => none

def DbEvent.unpins : DbEvent World → Bool
  | .unpinned .. => true
  | _ => false

namespace InjectorDb
variable {ipfs : Ipfs World}

structure Resumed (cfg : Config) (ipfs : Ipfs World) (db : InjectorDb World) (e : DbEvent World) (by_ : Resumption)
    (map : System World) : Prop where
  busy : ∃ frame, db.map.frames = [frame] ∧ db.map.tree.isInserting = true
  step : IpfsCache.Step cfg ipfs.env db.map (.resume 0 by_ map.world) map
  fails : ∀ ec, e.addFails = some ec → by_ = .added (.error ec)
  quiet : e.unpins = false → by_ ≠ .removed

theorem Running.owner {db : InjectorDb World} (running : Running ipfs db) {u : Nat} (owner : db.owners = [u]) :
    ∃ up, db.updates[u]? = some up ∧ db.map.calls ≠ [] := by
  cases running with
  | idle _ none_ =>
    rw [none_] at owner
    cases owner
  | busy _ owner' _ stage given =>
    cases owner'.symm.trans owner
    obtain ⟨up,here,_⟩ := Option.map_eq_some_iff.mp stage
    exact ⟨up,here,given⟩

section resumed
variable {db : InjectorDb World} {e : DbEvent World} {by_ : Resumption} {map : System World}

theorem Resumed.advanced (resumed : Resumed cfg ipfs db e by_ map) : ∃ frame a, db.map.frames = [frame] ∧
    Advanced cfg db.map.tree frame by_ a ∧ ipfs.env.Answers db.map.world frame by_ map.world ∧
    map = db.map.after 0 frame map.world a := by
  obtain ⟨frame,one,flag⟩ := resumed.busy
  obtain ⟨allowed,step⟩ := resumed.step
  obtain ⟨_,_,a,advanced,after,_⟩ := soloStep one flag step
  exact ⟨frame,a,one,advanced,allowed frame (by rw [one]; rfl),after⟩

theorem Resumed.calls (resumed : Resumed cfg ipfs db e by_ map) : map.calls = db.map.calls := by
  obtain ⟨_,a,_,_,_,after⟩ := resumed.advanced
  rw [after]
  cases a <;> rfl

end resumed

inductive Moved (cfg : Config) (ipfs : Ipfs World) (db : InjectorDb World) : DbEvent World → InjectorDb World → Prop
  | called {key : Key} {value : Value} (idle : db.map.frames = []) (flag : db.map.tree.isInserting = false) :
      Moved cfg ipfs db (.update key value) { db.called key value with owners := [db.updates.length] }
  | buffered {key : Key} {value : Value} {frame : Frame} (busy : db.map.frames = [frame]) (waits : frame.waits = true)
      (flag : db.map.tree.isInserting = true) :
      Moved cfg ipfs db (.update key value) ((db.called key value).uploadDatabase db.updates.length)
  | added {x : Value} {next : Except ErrorCode Hash → StoreProgram} {hash : Hash} {w : World}
      (frames : db.map.frames = [.storing x next]) (add : ipfs.add db.map.world x (.ok hash) w) :
      Moved cfg ipfs db (.added 0 (.ok hash) w) { db with midway := some (hash,w) }
  | went {e : DbEvent World} {by_ : Resumption} {map : System World} (resumed : Resumed cfg ipfs db e by_ map)
      (same : map.ended = db.map.ended) : Moved cfg ipfs db e { db with map := map, midway := none }
  | ended {e : DbEvent World} {by_ : Resumption} {map : System World} {u : Nat} {outcome : InsertOutcome}
      (resumed : Resumed cfg ipfs db e by_ map) (owner : db.owners = [u]) (idle : map.frames = [])
      (ended : map.ended = db.map.ended ++ [outcome]) (other : outcome ≠ .buffered) :
      Moved cfg ipfs db e ({ db with map := map, owners := [], midway := none }.inserted u outcome)
  | republished {e : Happening} {r : Republisher} (step : db.republisher.Step e r)
      (other : ∀ cid present, e ≠ .publish cid present) :
      Moved cfg ipfs db (.republish e) (db.answered r)

theorem republishCases {db db' : InjectorDb World} {e : Happening}
    (h : db.step cfg (.republish e) = some db') :
    ∃ r, db.republisher.Step e r ∧ (∀ cid present, e ≠ .publish cid present) ∧ db' = db.answered r := by
  cases e with
  | publish cid present => cases h
  | _ =>
    simp only [InjectorDb.step,republish] at h
    obtain ⟨r,step,rfl⟩ := Option.map_eq_some_iff.mp h
    exact ⟨r,step,by simp,rfl⟩

theorem resumeCases {db db' : InjectorDb World} {frame : Frame} {u : Nat} (frames : db.map.frames = [frame])
    (owners : db.owners = [u]) (flag : db.map.tree.isInserting = true) {i : Nat} {by_ : Resumption} {world : World}
    (h : db.resume cfg i by_ world = some db') :
    i = 0 ∧ ∃ map, db.map.step cfg (.resume 0 by_ world) = some map ∧ map.world = world ∧
      ((∃ frame', map.frames = [frame'] ∧ map.tree.isInserting = true ∧ map.ended = db.map.ended ∧
        db' = { db with map := map }) ∨
      ∃ outcome, map.frames = [] ∧ map.tree.isInserting = false ∧ map.ended = db.map.ended ++ [outcome] ∧
        outcome ≠ .buffered ∧ db' = { db with map := map, owners := [] }.inserted u outcome) := by
  obtain ⟨map,step,rfl⟩ := Option.map_eq_some_iff.mp h
  obtain ⟨rfl,same,_,_,_,⟨frame',one,still,ended⟩ | ⟨outcome,none_,off,ended,other⟩⟩ := soloStep frames flag step
  · exact ⟨rfl,map,step,same,.inl ⟨frame',one,still,ended,by rw [ended,List.drop_length]⟩⟩
  · refine ⟨rfl,map,step,same,.inr ⟨outcome,none_,off,ended,other,?_⟩⟩
    rw [ended,List.drop_left,owners]
    rfl

structure Alongside (db db' : InjectorDb World) : Prop where
  map : db'.map = db.map
  owners : db'.owners = db.owners
  midway : db'.midway = db.midway
  path : pathToDb db'.pathToRepo db'.ipns = pathToDb db.pathToRepo db.ipns ∧ db'.files.writable = db.files.writable

theorem uploadDatabaseAlong (u : Nat) (db : InjectorDb World) : Alongside db (db.uploadDatabase u) := by
  have writable (id : Hash) : (db.saveDb id).files.writable = db.files.writable := by
    unfold saveDb IpfsCache.saveDb
    dsimp only
    split <;> rfl
  unfold uploadDatabase
  dsimp only
  split
  · exact ⟨rfl,rfl,rfl,rfl,rfl⟩
  · exact ⟨rfl,rfl,rfl,rfl,writable _⟩

theorem insertedAlong (u : Nat) (outcome : InsertOutcome) (db : InjectorDb World) :
    Alongside db (db.inserted u outcome) := by
  cases outcome with
  | completed => exact uploadDatabaseAlong u db
  | buffered => exact uploadDatabaseAlong u db
  | _ => exact ⟨rfl,rfl,rfl,rfl,rfl⟩

theorem Alongside.now {db db' : InjectorDb World} (along : Alongside db db') : db'.now = db.now := by
  unfold InjectorDb.now
  rw [along.midway,along.map]

theorem calledKeeps (key : Key) (value : Value) (db : InjectorDb World) :
    (db.called key value).map.tree.rootHash = db.map.tree.rootHash ∧ (db.called key value).now = db.now := by
  have kept : (db.map.call key value).tree.root = db.map.tree.root ∧
      (db.map.call key value).world = db.map.world := by
    unfold System.call
    dsimp only
    split <;> exact ⟨rfl,rfl⟩
  refine ⟨?_,?_⟩
  · change (db.map.call key value).tree.rootHash = _
    rw [BTree.rootHash,BTree.rootHash,kept.1]
  · have same : (db.called key value).midway = db.midway := rfl
    have world : (db.called key value).map.world = db.map.world := kept.2
    rw [now,now,same,world]

theorem uploadDatabaseOthers {u v : Nat} (other : v ≠ u) (db : InjectorDb World) :
    (db.uploadDatabase u).updates[v]? = db.updates[v]? := by
  unfold uploadDatabase
  dsimp only
  split <;> simp [goes,saveDb,other.symm]

theorem answeredInserting {r : Republisher} {db : InjectorDb World} {u : Nat}
    (h : (db.updates[u]?).map Update.stage = some .inserting) :
    ((db.answered r).updates[u]?).map Update.stage = some .inserting := by
  unfold answered
  dsimp only
  generalize r.invoked.drop db.republisher.invoked.length = xs
  generalize db.updates = us at h
  induction xs generalizing us with
  | nil => exact h
  | cons x xs ih =>
    refine ih _ ?_
    rw [List.getElem?_map]
    obtain ⟨up,here,stage⟩ := Option.map_eq_some_iff.mp h
    simp [here,Update.answer,stage]

theorem noMidway {db : InjectorDb World} (h : db.midway = none) : db = { db with midway := none } := by
  obtain ⟨_,_,_,_,_,_,_,_,_⟩ := db
  cases h
  rfl

theorem resumeMoves {db db' : InjectorDb World} {frame : Frame} {u : Nat} (frames : db.map.frames = [frame])
    (owners : db.owners = [u]) (flag : db.map.tree.isInserting = true)
    (stage : (db.updates[u]?).map Update.stage = some .inserting) (given : db.map.calls ≠ [])
    {e : DbEvent World} {i : Nat} {by_ : Resumption}
    {world : World} (answers : ipfs.env.Answers db.map.world frame by_ world)
    (fails : ∀ ec, e.addFails = some ec → by_ = .added (.error ec))
    (quiet : e.unpins = false → by_ ≠ .removed)
    (h : { db with midway := none }.resume cfg i by_ world = some db') :
    Moved cfg ipfs db e db' ∧ Running ipfs db' := by
  have frames' : ({ db with midway := none } : InjectorDb World).map.frames = [frame] := frames
  obtain ⟨rfl,map,step,rfl,cases_⟩ := resumeCases frames' owners flag h
  have resumed : Resumed cfg ipfs db e by_ map := by
    refine ⟨⟨frame,frames,flag⟩,⟨fun f here => ?_,step⟩,fails,quiet⟩
    rw [frames] at here
    cases here
    exact answers
  rcases cases_ with ⟨frame',one,still,ended,rfl⟩ | ⟨outcome,none_,off,ended,other,rfl⟩
  · exact ⟨.went resumed ended,.busy one owners still stage
      (by rw [resumed.calls]; exact given) fun _ _ here => by cases here⟩
  · have along := insertedAlong u outcome { db with map := map, owners := [], midway := none }
    refine ⟨.ended resumed owners none_ ended other,.idle ?_ along.owners ?_ along.midway⟩
    · rw [along.map]
      exact none_
    · rw [along.map]
      exact off

theorem republishMoves {db db' : InjectorDb World} {e : Happening} (running : Running ipfs db)
    (h : InjectorDb.Step cfg ipfs db (.republish e) db') :
    Moved cfg ipfs db (.republish e) db' ∧ Running ipfs db' := by
  obtain ⟨_,step⟩ := h
  obtain ⟨r,gone,other,rfl⟩ := republishCases step
  refine ⟨.republished gone other,?_⟩
  cases running with
  | idle frames owners flag midway => exact .idle frames owners flag midway
  | busy frames owners flag stage given midway =>
    exact .busy frames owners flag (answeredInserting stage) given midway

theorem updateMoves {db db' : InjectorDb World} {key : Key} {value : Value} (running : Running ipfs db)
    (h : InjectorDb.Step cfg ipfs db (.update key value) db') :
    Moved cfg ipfs db (.update key value) db' ∧ Running ipfs db' := by
  obtain ⟨_,step⟩ := h
  simp only [InjectorDb.step] at step
  split at step
  · rename_i waits
    cases step
    cases running with
    | idle frames owners flag midway =>
      have same : db.update key value = { db.called key value with owners := [db.updates.length] } := by
        simp [update,flag,owners]
      rw [same]
      refine ⟨.called frames flag,@Running.busy _ _ _ .loop db.updates.length ?_ rfl ?_ ?_ ?_ ?_⟩
      · simp [called,System.call,flag,frames]
      · simp [called,System.call,flag]
      · simp [called]
      · simp [called,(callLogs db.map key value).1]
      · intro hash w here
        simp [called,midway] at here
    | @busy frame u frames owners flag stage given midway =>
      have same : db.update key value = (db.called key value).uploadDatabase db.updates.length := by
        simp [update,flag,inserted]
      have along := uploadDatabaseAlong db.updates.length (db.called key value)
      have map : (db.called key value).map.frames = db.map.frames ∧
          (db.called key value).map.tree.isInserting = true ∧ (db.called key value).map.world = db.map.world := by
        simp [called,System.call,flag]
      have less : u < db.updates.length := by
        obtain ⟨_,here,_⟩ := Option.map_eq_some_iff.mp stage
        exact (List.getElem?_eq_some_iff.mp here).1
      rw [same]
      refine ⟨.buffered frames (by simpa [frames] using waits) flag,
        @Running.busy _ _ _ frame u ?_ ?_ ?_ ?_ ?_ fun hash w here => ?_⟩
      · rw [along.map,map.1,frames]
      · exact along.owners.trans owners
      · rw [along.map,map.2.1]
      · rw [uploadDatabaseOthers (by omega)]
        simpa [called,List.getElem?_append_left less] using stage
      · rw [along.map]
        simp [called,(callLogs db.map key value).1]
      · rw [along.midway] at here
        rw [along.map,map.2.2]
        exact midway hash w here
  · cases step

theorem goMoves {db db' : InjectorDb World} {i : Nat} (running : Running ipfs db)
    (h : InjectorDb.Step cfg ipfs db (.go i) db') : Moved cfg ipfs db (.go i) db' ∧ Running ipfs db' := by
  obtain ⟨_,step⟩ := h
  cases running with
  | idle frames => simp [InjectorDb.step,resume,System.step,frames] at step
  | @busy frame u frames owners flag stage given midway =>
    have computing : db.midway = none := by
      cases here : db.midway with
      | none => rfl
      | some m =>
        obtain ⟨x,next,rfl,_⟩ := midway m.1 m.2 here
        cases i <;> simp [InjectorDb.step,resume,System.step,frames,advance] at step
    have answers : ipfs.env.Answers db.map.world frame .go db.map.world := by cases frame <;> rfl
    exact resumeMoves frames owners flag stage given answers (fun ec here => by cases here) (fun _ => by simp)
      (noMidway computing ▸ step)

theorem unpinnedMoves {db db' : InjectorDb World} {i : Nat} {status : Status} {world : World}
    (running : Running ipfs db)
    (h : InjectorDb.Step cfg ipfs db (.unpinned i status world) db') :
    Moved cfg ipfs db (.unpinned i status world) db' ∧ Running ipfs db' := by
  obtain ⟨allowed,step⟩ := h
  cases running with
  | idle frames => simp [InjectorDb.step,resume,System.step,frames] at step
  | @busy frame u frames owners flag stage given midway =>
    obtain ⟨rfl,map,gone,_⟩ := resumeCases frames owners flag step
    have answers : (∀ hash w, db.midway ≠ some (hash,w)) ∧ ipfs.env.Answers db.map.world frame .removed world := by
      cases frame with
      | inserting p next after buf =>
        refine ⟨fun hash w here => ?_,status,allowed p next after buf _ (.inl ⟨by rw [frames]; rfl,rfl⟩)⟩
        obtain ⟨_,_,same,_⟩ := midway hash w here
        cases same
      | unhooking h =>
        refine ⟨fun hash w here => ?_,status,allowed ⟨h,⟨[]⟩,none⟩ [] ⟨none,h⟩ [] h (.inr (by rw [frames]; rfl))⟩
        obtain ⟨_,_,same,_⟩ := midway hash w here
        cases same
      | _ => simp [System.step,frames,advance] at gone
    have none_ : db.midway = none := by
      cases here : db.midway with
      | none => rfl
      | some m => exact absurd here (answers.1 m.1 m.2)
    exact resumeMoves frames owners flag stage given answers.2 (fun ec here => by cases here)
      (fun here => by cases here)
      (noMidway none_ ▸ step)

theorem addedMoves {db db' : InjectorDb World} {i : Nat} {reply : Except ErrorCode Hash} {world : World}
    (running : Running ipfs db)
    (h : InjectorDb.Step cfg ipfs db (.added i reply world) db') :
    Moved cfg ipfs db (.added i reply world) db' ∧ Running ipfs db' := by
  obtain ⟨allowed,step⟩ := h
  cases running with
  | idle frames _ _ midway => simp [InjectorDb.step,frames,midway] at step
  | @busy frame u frames owners flag stage given midway =>
    simp only [InjectorDb.step] at step
    split at step
    · rename_i x next hash none_ here
      cases step
      rw [frames] at here
      cases i <;> simp at here
      subst here
      have add := allowed x next (by rw [frames]; rfl)
      refine ⟨.added frames add,.busy frames owners flag stage given fun hash' w same => ?_⟩
      cases same
      exact ⟨x,next,rfl,add⟩
    · rename_i x next ec none_ here
      have at_ := here
      rw [frames] at at_
      cases i <;> simp at at_
      subst at_
      have failed := Ipfs.Adds.failed (allowed x next here)
      have answers : ipfs.env.Answers db.map.world (.storing x next) (.added (.error ec)) world := failed
      exact resumeMoves frames owners flag stage given answers (fun ec' same => by cases same; rfl)
        (fun _ => by simp) (noMidway none_ ▸ step)
    · cases step

theorem pinnedMoves {db db' : InjectorDb World} {i : Nat} {status : Status} {world : World}
    (running : Running ipfs db)
    (h : InjectorDb.Step cfg ipfs db (.pinned i status world) db') :
    Moved cfg ipfs db (.pinned i status world) db' ∧ Running ipfs db' := by
  obtain ⟨allowed,step⟩ := h
  cases running with
  | idle frames _ _ midway => simp [InjectorDb.step,midway] at step
  | @busy frame u frames owners flag stage given midway =>
    simp only [InjectorDb.step] at step
    split at step
    · cases step
    · rename_i hash w here
      obtain ⟨x,next,rfl,add⟩ := midway hash w here
      have pin := allowed hash w here
      have adds : ipfs.Adds db.map.world x (status.map fun _ => hash) world := by
        cases status with
        | error ec => exact .unpinned add pin
        | ok => exact .pinned add pin
      have answers : ipfs.env.Answers db.map.world (.storing x next) (.added (status.map fun _ => hash)) world := adds
      refine resumeMoves frames owners flag stage given answers (fun ec same => ?_) (fun _ => by simp) step
      cases status with
      | error ec' => cases same; rfl
      | ok => cases same

theorem moves {db db' : InjectorDb World} {e : DbEvent World} (running : Running ipfs db)
    (h : InjectorDb.Step cfg ipfs db e db') : Moved cfg ipfs db e db' ∧ Running ipfs db' := by
  cases e with
  | republish => exact republishMoves running h
  | update => exact updateMoves running h
  | go => exact goMoves running h
  | unpinned => exact unpinnedMoves running h
  | added => exact addedMoves running h
  | pinned => exact pinnedMoves running h

end InjectorDb

end
end IpfsCache
