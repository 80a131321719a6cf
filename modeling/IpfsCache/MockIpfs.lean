import IpfsCache.DbRuns

/-! A backend to run an InjectorDb against: the storage of the tests with a set of pinned
ids, whose operations may fail at any time and then do nothing. -/
namespace IpfsCache

structure MockIpfs where
  blocks : MockStorage
  pinned : List Hash

namespace MockIpfs

def empty : MockIpfs := ⟨.empty,[]⟩

def add (w : MockIpfs) (x : Value) : Hash × MockIpfs :=
  (StdString.decimal w.blocks.nextId,{ w with blocks := (w.blocks.add x).2 })

def pin (w : MockIpfs) (hash : Hash) : MockIpfs := { w with pinned := hash :: w.pinned }
def unpin (w : MockIpfs) (hash : Hash) : MockIpfs := { w with pinned := w.pinned.filter (· ≠ hash) }

def reply {α : Type} (w : MockIpfs) (failure : Option ErrorCode) (done : α × MockIpfs) :
    Except ErrorCode α × MockIpfs :=
  match failure with
  | some ec => (.error ec,w)
  | none => (.ok done.1,done.2)

def ipfs : Ipfs MockIpfs where
  add w x r w' := ∃ failure, (r,w') = w.reply failure (w.add x)
  pin w hash r w' := ∃ failure, (r,w') = w.reply failure ((),w.pin hash)
  unpin w hash r w' := ∃ failure, (r,w') = w.reply failure ((),w.unpin hash)

def Known (w : MockIpfs) (hash : Hash) (x : Value) : Prop := w.blocks.cat hash = .ok x

theorem knownText (w : MockIpfs) (h : Hash) (x : Value) (known : w.Known h x) : h.ValidUtf8 := mockText _ _ _ known

theorem pins : ipfs.Pins Known fun w hash => hash ∈ w.pinned where
  one := fun h h' => Except.ok.inj (h.symm.trans h')
  added := by
    rintro w x h w' ⟨failure,same⟩
    cases failure <;> cases same
    have stored := MockStorage.faithful.stores (Eq.refl (MockStorage.storage.add w.blocks x))
    exact ⟨stored.1,stored.2.2⟩
  addKeeps := by
    rintro w x r w' ⟨failure,same⟩
    cases failure <;> cases same
    · exact ⟨fun _ _ => MockStorage.faithful.addKeeps (Eq.refl (MockStorage.storage.add w.blocks x)),fun _ => id⟩
    · exact ⟨fun _ _ => id,fun _ => id⟩
  pinned := by
    rintro w h w' ⟨failure,same⟩
    cases failure <;> cases same
    exact List.mem_cons_self
  pinKeeps := by
    rintro w h r w' ⟨failure,same⟩
    cases failure <;> cases same
    · exact ⟨fun _ _ => id,fun _ => List.mem_cons_of_mem _⟩
    · exact ⟨fun _ _ => id,fun _ => id⟩
  unpinKeeps := by
    rintro w h r w' ⟨failure,same⟩
    cases failure <;> cases same
    · exact ⟨fun _ _ => id,fun g other mem => List.mem_filter.mpr ⟨mem,by simpa using other⟩⟩
    · exact ⟨fun _ _ => id,fun _ _ => id⟩

end MockIpfs

inductive DbAct where
  | update (key : Key) (value : Value)
  | go
  | unpinned (failure : Option ErrorCode)
  | added (failure : Option ErrorCode)
  | pinned (failure : Option ErrorCode)
  | republish (e : Happening)

def DbAct.event (db : InjectorDb MockIpfs) : DbAct → Option (DbEvent MockIpfs)
  | .update key value => some (.update key value)
  | .go => some (.go 0)
  | .unpinned failure =>
    match db.map.frames with
    | [.inserting p _ _ _] =>
      let out := db.map.world.reply failure ((),db.map.world.unpin p.hash)
      some (.unpinned 0 out.1 out.2)
    | [.unhooking hash] =>
      let out := db.map.world.reply failure ((),db.map.world.unpin hash)
      some (.unpinned 0 out.1 out.2)
    | _ => none
  | .added failure =>
    match db.map.frames with
    | [.storing x _] =>
      let out := db.map.world.reply failure (db.map.world.add x)
      some (.added 0 out.1 out.2)
    | _ => none
  | .pinned failure =>
    match db.midway with
    | some (hash,w) =>
      let out := w.reply failure ((),w.pin hash)
      some (.pinned 0 out.1 out.2)
    | none => none
  | .republish e => some (.republish e)

namespace InjectorDb

def play (cfg : Config) (ok : InjectorDb MockIpfs → DbEvent MockIpfs → Bool) :
    List DbAct → InjectorDb MockIpfs → Option (InjectorDb MockIpfs)
  | [],db => some db
  | a :: acts,db =>
    match a.event db with
    | none => none
    | some e => if ok db e then (db.step cfg e).bind (play cfg ok acts) else none

theorem eventAllowed {db : InjectorDb MockIpfs} {a : DbAct} {e : DbEvent MockIpfs} (h : a.event db = some e) :
    db.Allowed MockIpfs.ipfs e := by
  cases a with
  | update => cases h; trivial
  | go => cases h; trivial
  | republish => cases h; trivial
  | unpinned failure =>
    simp only [DbAct.event] at h
    split at h
    · rename_i p next after buf frames
      cases h
      intro p' next' after' buf' hash here
      simp only [frames,List.getElem?_cons_zero,Option.some.injEq,Frame.inserting.injEq,reduceCtorEq,or_false] at here
      obtain ⟨⟨rfl,_⟩,rfl⟩ := here
      exact ⟨failure,rfl⟩
    · rename_i hash frames
      cases h
      intro p' next' after' buf' hash' here
      simp only [frames,List.getElem?_cons_zero,Option.some.injEq,Frame.unhooking.injEq,reduceCtorEq,false_and,
        false_or] at here
      cases here
      exact ⟨failure,rfl⟩
    · cases h
  | added failure =>
    simp only [DbAct.event] at h
    split at h
    · rename_i x next frames
      cases h
      intro x' next' here
      simp only [frames,List.getElem?_cons_zero,Option.some.injEq,Frame.storing.injEq] at here
      cases here.1
      exact ⟨failure,rfl⟩
    · cases h
  | pinned failure =>
    simp only [DbAct.event] at h
    split at h
    · rename_i hash w midway
      cases h
      intro hash' w' here
      cases midway.symm.trans here
      exact ⟨failure,rfl⟩
    · cases h

theorem playReach {cfg : Config} {ok : InjectorDb MockIpfs → DbEvent MockIpfs → Bool}
    {P : InjectorDb MockIpfs → DbEvent MockIpfs → Prop} {Start : InjectorDb MockIpfs → Prop}
    (sound : ∀ db e, ok db e = true → P db e) {acts : List DbAct} {db db' : InjectorDb MockIpfs}
    (start : Reach Start (fun db e db' => Step cfg MockIpfs.ipfs db e db' ∧ P db e) db)
    (h : db.play cfg ok acts = some db') :
    Reach Start (fun db e db' => Step cfg MockIpfs.ipfs db e db' ∧ P db e) db' := by
  refine start.schedule (fun acts db => db.play cfg ok acts) (fun _ _ => True) h trivial
    (fun _ => rfl) fun a acts db db' _ h => ?_
  rw [play] at h
  split at h
  · cases h
  · rename_i e event
    split at h
    · rename_i meets
      obtain ⟨next,step,rest⟩ := Option.bind_eq_some_iff.mp h
      exact ⟨e,next,⟨⟨eventAllowed event,step⟩,sound db e meets⟩,trivial,rest⟩
    · cases h

end InjectorDb

def mockDb (maxNodeSize : Nat) : InjectorDb MockIpfs :=
  .initial (mockConfig maxNodeSize) ⟨fun w hash => (w.blocks.cat hash,w),fun w x => (.ok (w.add x).1,(w.add x).2),
    MockIpfs.unpin⟩ ⟨[114]⟩ ⟨[105]⟩ ⟨fun _ => none,fun _ => true⟩ .empty

def firstUpdate (key : Key) : List DbAct := [.update key (letter 49),.go,.go,.go,.go]
def nextUpdate (key : Key) : List DbAct := [.update key (letter 49),.go,.go,.go,.unpinned none,.go]

def storeRoot : List DbAct := [.added none,.pinned none,.go]

def threeUpdates : List DbAct :=
  firstUpdate (letter 97) ++ storeRoot ++ nextUpdate (letter 98) ++ storeRoot ++ nextUpdate (letter 99) ++
    [.added none,.pinned none,.added none,.pinned none]

end IpfsCache
