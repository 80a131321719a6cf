import IpfsCache.MockIpfs
import IpfsCache.Republishing

/-! Updates that are durable and published. An insert that completes leaves a root hash that
denotes every key given so far; its update saves and publishes it. An update whose insert was
buffered saves and publishes the root hash it happens to meet. -/
namespace IpfsCache

namespace Republisher

theorem startPublishingGrows (r : Republisher) :
    r.startPublishing.calls = r.calls ∧ r.startPublishing.invoked = r.invoked := by
  unfold startPublishing
  split <;> exact ⟨rfl,rfl⟩

theorem stepGrows {r r' : Republisher} {e : Happening} (h : r.Step e r') :
    r.calls <+: r'.calls ∧ r.invoked <+: r'.invoked := by
  have answered {r r' : Republisher} {f : Flight} {status : Status} (h : r.answer f status = some r') :
      r.calls <+: r'.calls ∧ r.invoked <+: r'.invoked := by
    unfold answer at h
    split at h <;> cases h
    exact ⟨List.prefix_rfl,List.prefix_append _ _⟩
  cases e with
  | publish cid present =>
    cases h
    unfold publish
    split
    · exact ⟨List.prefix_append _ _,List.prefix_rfl⟩
    · rw [(startPublishingGrows _).1,(startPublishingGrows _).2]
      exact ⟨List.prefix_append _ _,List.prefix_rfl⟩
  | expire => cases h; exact ⟨List.prefix_rfl,List.prefix_rfl⟩
  | go =>
    simp only [Step,step] at h
    split at h
    · cases h
    · split at h
      · cases h
        rw [(startPublishingGrows _).1,(startPublishingGrows _).2]
        exact ⟨List.prefix_rfl,List.prefix_rfl⟩
      · exact answered h
  | complete i status =>
    simp only [Step,step] at h
    split at h
    · have grown := answered h
      exact grown
    · cases h
  | timeout i =>
    simp only [Step,step] at h
    split at h
    · cases h
      unfold timeout
      split
      · exact ⟨List.prefix_rfl,List.prefix_rfl⟩
      · rw [(startPublishingGrows _).1,(startPublishingGrows _).2]
        exact ⟨List.prefix_rfl,List.prefix_rfl⟩
    · cases h

theorem publishCalls (cid : Cid) (present : Bool) (r : Republisher) :
    (r.publish cid present).calls = r.calls ++ [(cid,present)] := by
  unfold publish
  split
  · rfl
  · exact (startPublishingGrows _).1

end Republisher

section
variable {World : Type} {cfg : Config} {ipfs : Ipfs World} {R : World → Hash → Value → Prop}

namespace InjectorDb

def Handed (cfg : Config) (R : World → Hash → Value → Prop) (db : InjectorDb World) (key : Key) (call : Nat) : Prop :=
  ∃ id w, (id,w) ∈ db.saved ∧ Denotes cfg (R w) key id ∧ db.republisher.calls[call]? = some (id,true)

def Progress (cfg : Config) (R : World → Hash → Value → Prop) (db : InjectorDb World) (u : Update) : Prop :=
  match u.stage with
  | .publishing call => Handed cfg R db u.key call
  | .returned (.ok ()) => ∃ x ∈ db.republisher.invoked, x.status = .ok () ∧ Handed cfg R db u.key x.call
  | _ => True

structure Grows (db db' : InjectorDb World) : Prop where
  saved : ∀ x ∈ db.saved, x ∈ db'.saved
  calls : db.republisher.calls <+: db'.republisher.calls
  invoked : db.republisher.invoked <+: db'.republisher.invoked

theorem Handed.grow {db db' : InjectorDb World} (grows : Grows db db') {key : Key} {call : Nat}
    (h : Handed cfg R db key call) : Handed cfg R db' key call := by
  obtain ⟨id,w,saved,denotes,here⟩ := h
  obtain ⟨more,same⟩ := grows.calls
  refine ⟨id,w,grows.saved _ saved,denotes,?_⟩
  rw [← same]
  exact (List.getElem?_append_left (List.getElem?_eq_some_iff.mp here).1).trans here

theorem Progress.grow {db db' : InjectorDb World} (grows : Grows db db') {u : Update} (h : Progress cfg R db u) :
    Progress cfg R db' u := by
  unfold Progress at h ⊢
  split
  · rename_i stage
    rw [stage] at h
    exact Handed.grow grows h
  · rename_i stage
    rw [stage] at h
    obtain ⟨x,mem,ok,handed⟩ := h
    exact ⟨x,grows.invoked.subset mem,ok,Handed.grow grows handed⟩
  · trivial

/-- What an update may be called on: no insert is under way, or the root hash denotes a stored
tree that has the key already. -/
def Covered (cfg : Config) (R : World → Hash → Value → Prop) (db : InjectorDb World) (key : Key) : Prop :=
  db.map.tree.isInserting = true →
    db.map.tree.rootHash.isEmpty = false ∧ Denotes cfg (R db.now) key db.map.tree.rootHash

def CoveredStep (cfg : Config) (ipfs : Ipfs World) (R : World → Hash → Value → Prop) (db : InjectorDb World)
    (e : DbEvent World) (db' : InjectorDb World) : Prop :=
  InjectorDb.Step cfg ipfs db e db' ∧
    ∀ key value, e = .update key value → Clean StdString.ValidUtf8 (key,value) ∧ Covered cfg R db key

structure Durably (cfg : Config) (R : World → Hash → Value → Prop) (db : InjectorDb World) : Prop where
  republisher : Republisher.Reached db.republisher
  known : ∀ key ∈ db.updates.map Update.key, key ∈ OrderedMap.keys db.map.calls
  clean : ∀ x ∈ db.map.calls, Clean StdString.ValidUtf8 x
  progress : ∀ up ∈ db.updates, Progress cfg R db up

section
variable {db : InjectorDb World}

theorem goesKeys (u : Nat) (stage : Stage) (db : InjectorDb World) :
    (db.goes u stage).updates.map Update.key = db.updates.map Update.key := by
  unfold goes
  dsimp only
  generalize db.updates = us
  induction us generalizing u with
  | nil => simp
  | cons x us ih =>
    cases u with
    | zero => simp
    | succ u => simpa using ih u

theorem goesCases {u : Nat} {stage : Stage} {up : Update} (mem : up ∈ (db.goes u stage).updates) :
    up ∈ db.updates ∨ ∃ old, db.updates[u]? = some old ∧ up = { old with stage := stage } := by
  obtain ⟨v,at_⟩ := List.mem_iff_getElem?.mp mem
  by_cases own : u = v
  · subst own
    simp only [goes,List.getElem?_modify_eq,Option.map_eq_map,Option.map_eq_some_iff] at at_
    obtain ⟨old,here,rfl⟩ := at_
    exact .inr ⟨old,here,rfl⟩
  · have same : db.updates[v]? = some up := by simpa [goes,own] using at_
    exact .inl (List.mem_of_getElem? same)

theorem Durably.goes (durably : Durably cfg R db) (u : Nat) {stage : Stage}
    (ends : ∀ key value, Progress cfg R db ⟨key,value,stage⟩) : Durably cfg R (db.goes u stage) := by
  have kept : Grows db (db.goes u stage) := ⟨fun _ => id,List.prefix_rfl,List.prefix_rfl⟩
  refine ⟨durably.republisher,fun k mem => durably.known k (goesKeys u stage db ▸ mem),durably.clean,fun up mem => ?_⟩
  rcases goesCases mem with old | ⟨old,_,rfl⟩
  · exact (durably.progress up old).grow kept
  · exact (ends old.key old.value).grow kept

theorem Durably.upload (durably : Durably cfg R db)
    (writable : db.files.writable (pathToDb db.pathToRepo db.ipns) = true)
    {u : Nat} {up : Update} (here : db.updates[u]? = some up)
    (proper : db.map.tree.rootHash.isEmpty = false) (denotes : Denotes cfg (R db.now) up.key db.map.tree.rootHash) :
    Durably cfg R (db.uploadDatabase u) := by
  obtain ⟨id,same⟩ : ∃ id, id = db.map.tree.rootHash := ⟨_,rfl⟩
  have upload : db.uploadDatabase u = { db.saveDb id with republisher := db.republisher.publish id true }.goes u
      (.publishing db.republisher.calls.length) := by
    rw [same]
    exact if_neg (by simp [proper])
  have calls : (db.republisher.publish id true).calls = db.republisher.calls ++ [(id,true)] :=
    Republisher.publishCalls _ _ _
  have saved_ : (db.saveDb id).saved = db.saved ++ [(id,db.now)] := if_pos writable
  have grows : Grows db (db.uploadDatabase u) := by
    have grown := Republisher.stepGrows (r := db.republisher) (e := .publish id true) rfl
    rw [upload]
    refine ⟨fun x mem => ?_,grown.1,grown.2⟩
    change x ∈ (db.saveDb id).saved
    rw [saved_]
    exact List.mem_append_left _ mem
  have handed : Handed cfg R (db.uploadDatabase u) up.key db.republisher.calls.length := by
    rw [upload]
    refine ⟨id,db.now,?_,same ▸ denotes,?_⟩
    · change _ ∈ (db.saveDb id).saved
      simp [saved_]
    · change (db.republisher.publish id true).calls[_]? = _
      simp [calls]
  rw [upload] at grows handed ⊢
  refine ⟨durably.republisher.step (.publish id true) rfl,fun k mem => durably.known k (goesKeys _ _ _ ▸ mem),
    durably.clean,fun up' mem => ?_⟩
  rcases goesCases mem with old | ⟨old,there,rfl⟩
  · exact (durably.progress up' old).grow grows
  · cases there.symm.trans here
    exact handed

theorem Durably.answered (durably : Durably cfg R db) {e : Happening} {r : Republisher}
    (step : db.republisher.Step e r) : Durably cfg R (db.answered r) := by
  have grown := Republisher.stepGrows step
  have kept : Grows db (db.answered r) := ⟨fun _ => id,grown.1,grown.2⟩
  have inside : ∀ x ∈ r.invoked.drop db.republisher.invoked.length, x ∈ r.invoked := fun x => List.mem_of_mem_drop
  have loop (xs : List Invoked) (inside : ∀ x ∈ xs, x ∈ r.invoked) (us : List Update)
      (before : ∀ up ∈ us, Progress cfg R (db.answered r) up) :
      (xs.foldl (fun us x => us.map (·.answer x)) us).map Update.key = us.map Update.key ∧
      ∀ up ∈ xs.foldl (fun us x => us.map (·.answer x)) us, Progress cfg R (db.answered r) up := by
    induction xs generalizing us with
    | nil => exact ⟨rfl,before⟩
    | cons x xs ih =>
      obtain ⟨keys_,after⟩ := ih (fun y mem => inside y (List.mem_cons_of_mem _ mem)) (us.map (·.answer x))
          fun up mem => by
        obtain ⟨old,there,rfl⟩ := List.mem_map.mp mem
        have known := before old there
        unfold Update.answer
        split
        · rename_i stage
          unfold Progress at known ⊢
          rw [stage] at known
          cases ok : x.status with
          | error => trivial
          | ok _ => exact ⟨x,inside x (by simp),ok,known⟩
        · exact known
      refine ⟨keys_.trans ?_,after⟩
      rw [List.map_map]
      refine List.map_congr_left fun u _ => ?_
      simp only [Function.comp,Update.answer]
      split <;> rfl
  obtain ⟨keys_,after⟩ := loop _ inside db.updates fun up mem => (durably.progress up mem).grow kept
  exact ⟨durably.republisher.step e step,fun k mem => durably.known k (keys_ ▸ mem),durably.clean,after⟩

theorem Durably.went (durably : Durably cfg R db) {map : System World} (owners : List Nat)
    (midway : Option (Hash × World)) (calls : map.calls = db.map.calls) :
    Durably cfg R { db with map := map, owners := owners, midway := midway } :=
  ⟨durably.republisher,fun k mem => by rw [calls]; exact durably.known k mem,calls ▸ durably.clean,
    fun up mem => (durably.progress up mem).grow ⟨fun _ => id,List.prefix_rfl,List.prefix_rfl⟩⟩

theorem Durably.called (durably : Durably cfg R db) {key : Key} {value : Value}
    (clean : Clean StdString.ValidUtf8 (key,value)) : Durably cfg R (db.called key value) := by
  refine ⟨durably.republisher,fun k mem => ?_,?_,fun up mem => ?_⟩
  · change k ∈ OrderedMap.keys (db.map.call key value).calls
    have cases_ : k ∈ db.updates.map Update.key ∨ k = key := by
      simpa only [InjectorDb.called,List.map_append,List.map_cons,List.map_nil,List.mem_append,List.mem_singleton]
        using mem
    rw [(callLogs db.map key value).1,OrderedMap.keys,List.map_append]
    refine List.mem_append.mpr (cases_.imp (durably.known k) fun same => ?_)
    simp [same]
  · change ∀ x ∈ (db.map.call key value).calls, _
    rw [(callLogs db.map key value).1]
    exact List.forall_mem_append.mpr ⟨durably.clean,by simpa using clean⟩
  · rcases List.mem_append.mp mem with old | new
    · exact durably.progress up old
    · rw [List.mem_singleton.mp new]
      trivial

end

theorem durablyKept (two : 2 ≤ cfg.maxNodeSize) (here : cfg.addOp = true) (retains : Retains ipfs.env R)
    (text : ∀ w h x, R w h x → h.ValidUtf8) (injective : cfg.json.DumpInjective fun _ => True)
    (back : cfg.json.ParsesBack) {db db' : InjectorDb World} {e : DbEvent World}
    (running : Running ipfs db) (carried : Carried cfg ipfs.env R db.map)
    (writable : db.files.writable (pathToDb db.pathToRepo db.ipns) = true) (durably : Durably cfg R db)
    (h : CoveredStep cfg ipfs R db e db') : Durably cfg R db' := by
  cases (moves running h.1).1 with
  | @called key value idle flag =>
    obtain ⟨republisher,known,clean,progress⟩ := durably.called (h.2 key value rfl).1
    exact ⟨republisher,known,clean,progress⟩
  | @buffered key value frame busy waits flag =>
    obtain ⟨full,denotes⟩ := (h.2 key value rfl).2 flag
    have same := calledKeeps key value db
    rw [← same.1] at full denotes
    rw [← same.2] at denotes
    have here' : (db.called key value).updates[db.updates.length]? = some ⟨key,value,.inserting⟩ := by simp [called]
    exact (durably.called (h.2 key value rfl).1).upload writable here' full denotes
  | added => exact durably.went db.owners _ rfl
  | republished step => exact durably.answered step
  | went resumed same => exact durably.went db.owners none resumed.calls
  | @ended _ _ map u outcome resumed owner idle ended other =>
    have after := durably.went [] none resumed.calls
    cases outcome with
    | buffered => exact absurd rfl other
    | error ec => exact after.goes u fun _ _ => trivial
    | exception => exact after.goes u fun _ _ => trivial
    | completed =>
      have legible (w : World) : Legible cfg (fun _ => True) (R w) :=
        ⟨two,⟨trivial,trivial,trivial⟩,injective,retains.one,fun _ => trivial⟩
      obtain ⟨settled,carried'⟩ := resumed.carried two here (retains.custody legible) carried
      obtain ⟨n,proper,own,written,keys_⟩ := carried.completes settled carried' after.clean ended
      obtain ⟨up,there,_⟩ := running.owner owner
      have key := after.known up.key (List.mem_map_of_mem (List.mem_of_getElem? there))
      have told : Legible cfg StdString.ValidUtf8 (R map.world) :=
        ⟨two,utf8Usable,back.injective,retains.one,text _ _ _⟩
      exact after.upload writable there proper (written.denotes back told n _ own (keys_ _ key))

/-- The update has handed a root id that denotes its key, and was written to the file, to a
publish call; and that call was answered by a backend publish without error. -/
def Durable (cfg : Config) (R : World → Hash → Value → Prop) (db : InjectorDb World) (up : Update) : Prop :=
  ∃ call id w, (id,w) ∈ db.saved ∧ Denotes cfg (R w) up.key id ∧ db.republisher.calls[call]? = some (id,true) ∧
    ∃ flight f, (⟨call,flight,.ok ()⟩ : Invoked) ∈ db.republisher.invoked ∧
      db.republisher.started[flight]? = some f ∧ call < f.calls ∧ (flight,.ok ()) ∈ db.republisher.completed

/-- In every run whose updates are covered, each that has returned without error is durable. -/
theorem updatesDurable (two : 2 ≤ cfg.maxNodeSize) (here : cfg.addOp = true) (retains : Retains ipfs.env R)
    (text : ∀ w h x, R w h x → h.ValidUtf8) (injective : cfg.json.DumpInjective fun _ => True)
    (back : cfg.json.ParsesBack) {db : InjectorDb World} (h : Reach (Starts cfg) (CoveredStep cfg ipfs R) db)
    {up : Update} (mem : up ∈ db.updates) (success : up.stage = .returned (.ok ())) : Durable cfg R db up := by
  have proper {db : InjectorDb World} (h : Reach (Starts cfg) (CoveredStep cfg ipfs R) db) :
      Reach (Starts cfg) (ProperStep cfg ipfs) db :=
    h.mono (fun _ => id) fun _ _ _ step => ⟨step.1,fun key value same => (step.2 key value same).1.1⟩
  have durably : Durably cfg R db := by
    refine h.invariantOver (I := Durably cfg R) (fun _ h => reachCarried two here retains injective (proper h))
      (fun db start => ?_) fun _ _ _ known durably step =>
        durablyKept two here retains text injective back known.1 known.2.1 known.2.2 durably step
    obtain ⟨S,pathToRepo,ipns,files,world,_,rfl⟩ := start
    obtain ⟨_,map,_⟩ := initialMap cfg S pathToRepo ipns files world
    exact ⟨.start rfl,by simp [initial],by simp [map],by simp [initial]⟩
  have progress := durably.progress up mem
  unfold Progress at progress
  rw [success] at progress
  obtain ⟨⟨call,flight,_⟩,invoked,rfl,id,w,saved,denotes,called⟩ := progress
  obtain ⟨f,started,older,completed⟩ := (Republisher.reachedKept durably.republisher).logged.answers _ invoked
  exact ⟨call,id,w,saved,denotes,called,flight,f,invoked,started,older,completed⟩

end InjectorDb

end

namespace InjectorDb

theorem mockStarts (m : Nat) : Starts (mockConfig m) (mockDb m) := ⟨_,_,_,_,_,rfl,rfl⟩

def coveredCall (db : InjectorDb MockIpfs) : DbEvent MockIpfs → Bool
  | .update key value => decide (ProperKey key) && decide key.Ascii && decide value.Ascii &&
      (!db.map.tree.isInserting || !db.map.tree.rootHash.isEmpty &&
        denotesWithin (mockConfig 2) db.now.blocks.cat key 2 db.map.tree.rootHash)
  | _ => true

theorem coveredReach {acts : List DbAct} {db : InjectorDb MockIpfs}
    (h : (mockDb 2).play (mockConfig 2) coveredCall acts = some db) :
    Reach (Starts (mockConfig 2)) (CoveredStep (mockConfig 2) MockIpfs.ipfs MockIpfs.Known) db := by
  refine playReach (P := fun db e => ∀ key value, e = .update key value →
    Clean StdString.ValidUtf8 (key,value) ∧ Covered (mockConfig 2) MockIpfs.Known db key)
    (fun db e ok key value same => ?_) (.start (mockStarts 2)) h
  subst same
  simp only [coveredCall,Bool.and_eq_true,decide_eq_true_eq,Bool.or_eq_true,Bool.not_eq_true'] at ok
  obtain ⟨⟨⟨proper,key_⟩,value_⟩,covered⟩ := ok
  refine ⟨⟨proper,asciiUtf8 key_,asciiUtf8 value_⟩,fun inserting => ?_⟩
  rcases covered with idle | ⟨full,denotes⟩
  · rw [inserting] at idle
    cases idle
  · exact ⟨full,denotesWithinSound denotes⟩

def overlappedUpdate : List DbAct :=
  threeUpdates ++ storeRoot ++ [.update (letter 100) (letter 49),.go,.go,.update (letter 97) (letter 50)]

def removedStored : List DbAct :=
  [.unpinned none,.go,.unpinned none,.go,.added none,.pinned none,.added none,.pinned none,.go]

def overlappedEnd : List DbAct :=
  removedStored ++ .go :: removedStored ++ [.republish (.complete 0 (.ok ())),.republish .go,
    .republish (.complete 0 (.ok ())),.republish .go,.republish .go,.republish .go]

theorem updatesDurableOverlapped : ∃ db : InjectorDb MockIpfs, db.updates.length = 5 ∧
    ∀ up ∈ db.updates, Durable (mockConfig 2) MockIpfs.Known db up := by
  have run : ((mockDb 2).play (mockConfig 2) coveredCall (overlappedUpdate ++ overlappedEnd)).any (fun db =>
      decide (db.updates.length = 5) && db.updates.all fun up => decide (up.stage = .returned (.ok ()))) = true := by
    decide +kernel
  obtain ⟨db,played,seen⟩ := Option.any_eq_true _ _ |>.mp run
  simp only [Bool.and_eq_true,decide_eq_true_eq,List.all_eq_true] at seen
  exact ⟨db,seen.1,fun up mem => updatesDurable (by decide) rfl MockIpfs.pins.retainsKnown MockIpfs.knownText
    nlohmannDumpInjective nlohmannParsesBack (coveredReach played) mem (seen.2 up mem)⟩

/-- While the first update waits for its block to be added, a second one meets an empty root
hash: it returns without error, and nothing has been saved or published. -/
theorem updateNotDurable : ∃ db : InjectorDb MockIpfs,
    Reach (Starts (mockConfig 2)) (ProperStep (mockConfig 2) MockIpfs.ipfs) db ∧
    db.saved = [] ∧ db.republisher.calls = [] ∧
    ∃ up ∈ db.updates, up.stage = .returned (.ok ()) ∧ ¬ Durable (mockConfig 2) MockIpfs.Known db up := by
  have run : ((mockDb 2).play (mockConfig 2)
      (fun _ e => match e with | .update key _ => decide (ProperKey key) | _ => true)
      (firstUpdate (letter 97) ++ [.update (letter 98) (letter 49)])).any (fun db =>
        decide ((db.updates[1]?).map Update.stage = some (.returned (.ok ()))) &&
        decide (db.saved.map Prod.fst = []) &&
        decide (db.republisher.calls = [])) = true := by
    decide +kernel
  obtain ⟨db,played,seen⟩ := Option.any_eq_true _ _ |>.mp run
  simp only [Bool.and_eq_true,decide_eq_true_eq] at seen
  obtain ⟨⟨stage,saved⟩,calls⟩ := seen
  obtain ⟨up,here,success⟩ := Option.map_eq_some_iff.mp stage
  have none_ : db.saved = [] := List.map_eq_nil_iff.mp saved
  refine ⟨db,playReach (fun db e ok key value same => ?_) (.start (mockStarts 2)) played,none_,calls,up,
    List.mem_of_getElem? here,success,fun ⟨_,_,_,mem,_⟩ => ?_⟩
  · subst same
    exact of_decide_eq_true ok
  · rw [none_] at mem
    cases mem

end InjectorDb
end IpfsCache
