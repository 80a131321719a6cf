import IpfsCache.Injector
import IpfsCache.JsonUtf8
import IpfsCache.MockIpfs
import IpfsCache.Session

/-! From what an injector is asked to store to what clients are given. Requests are served
one after another as Injector::insert_content_from_queue and InjectorDb::update do it, over a
backend; then urls are asked for, at the injector and at a client that loads the published id. -/
namespace IpfsCache
open OrderedMap (Sorted)
open Node

structure BackendCalls (σ : Type) where
  cat : σ → Hash → Except ErrorCode Value × σ
  add : σ → Value → Except ErrorCode Hash × σ
  pin : σ → Hash → Status × σ
  unpin : σ → Hash → Status × σ

section calls
variable {σ : Type}

def makeAddOperation (backend : BackendCalls σ) (st : σ) (value : Value) : Except ErrorCode Hash × σ :=
  match backend.add st value with
  | (.error ec,st) => (.error ec,st)
  | (.ok ret,st) =>
    match backend.pin st ret with
    | (.error ec,st) => (.error ec,st)
    | (.ok (),st) => (.ok ret,st)

def BackendCalls.storage (backend : BackendCalls σ) : Storage σ :=
  ⟨backend.cat,makeAddOperation backend,fun st hash => (backend.unpin st hash).2⟩

end calls

def injectorConfig (json : JsonLib) : Config := ⟨btreeNodeSize,true,true,json⟩

structure Serving (σ : Type) where
  db : BTree
  world : σ
  published : Hash

namespace Serving
variable {σ Ptime : Type}

def fresh (world : σ) : Serving σ := ⟨.fresh,world,noHash⟩

def uploadDatabase (s : Serving σ) : Serving σ :=
  if s.db.rootHash.isEmpty then s else { s with published := s.db.rootHash }

def update (json : JsonLib) (backend : BackendCalls σ) (key : Key) (value : Value) (s : Serving σ) :
    Option (Status × Serving σ) :=
  match s.db.insert (injectorConfig json) backend.storage key value s.world with
  | none => none
  | some (.exception,_,_) => none
  | some (.error ec,db,world) => some (.error ec,{ s with db := db, world := world })
  | some (.completed,db,world) => some (.ok (),uploadDatabase { s with db := db, world := world })
  | some (.buffered,db,world) => some (.ok (),uploadDatabase { s with db := db, world := world })

def insertContent (json : JsonLib) (dt : DateTime Ptime) (backend : BackendCalls σ) (e : InsertEntry ClockTime)
    (s : Serving σ) : Option (OnInsert × Serving σ) :=
  match backend.add s.world e.value with
  | (.error eca,world) => some (⟨e.onInsert,.error eca,noHash⟩,{ s with world := world })
  | (.ok ipfsId,world) =>
    (update json backend e.key (writeEntry json dt ipfsId (dt.clock e.ts)) { s with world := world }).map fun out =>
      (⟨e.onInsert,out.1,ipfsId⟩,out.2)

def insertContents (json : JsonLib) (dt : DateTime Ptime) (backend : BackendCalls σ) :
    List (InsertEntry ClockTime) → Serving σ → Option (List OnInsert × Serving σ)
  | [],s => some ([],s)
  | e :: entries,s =>
    match s.insertContent json dt backend e with
    | none => none
    | some (x,s) => (insertContents json dt backend entries s).map fun out => (x :: out.1,out.2)

end Serving

def getContents {σ Ptime : Type} (cfg : Config) (S : Storage σ) (dt : DateTime Ptime) (fuel : Nat) :
    List Key → BTree → σ → Option (List (Except ErrorCode (CachedContent Ptime)) × BTree × σ)
  | [],db,st => some ([],db,st)
  | url :: urls,db,st =>
    match getContent cfg S dt fuel url db st with
    | none => none
    | some (r,db,st) => (getContents cfg S dt fuel urls db st).map fun out => (r :: out.1,out.2)

/-- What is relied on: calls succeed, a block can be read by its id once it is there, and none
disappears (an unpin does not delete). -/

structure BackendCalls.Works {σ : Type} (backend : BackendCalls σ) : Prop where
  adds : ∀ st x, ∃ hash st', backend.add st x = (.ok hash,st') ∧ hash.isEmpty = false ∧ hash.ValidUtf8 ∧
    (backend.cat st' hash).1 = .ok x
  pins : ∀ st hash, ∃ st', backend.pin st hash = (.ok (),st')
  catKeeps : ∀ {st g y} hash, (backend.cat st g).1 = .ok y → (backend.cat (backend.cat st hash).2 g).1 = .ok y
  addKeeps : ∀ {st g y} x, (backend.cat st g).1 = .ok y → (backend.cat (backend.add st x).2 g).1 = .ok y
  pinKeeps : ∀ {st g y} hash, (backend.cat st g).1 = .ok y → (backend.cat (backend.pin st hash).2 g).1 = .ok y
  unpinKeeps : ∀ {st g y} hash, (backend.cat st g).1 = .ok y → (backend.cat (backend.unpin st hash).2 g).1 = .ok y

def InsertEntry.content {Ptime : Type} (dt : DateTime Ptime) (e : InsertEntry ClockTime) :
    Except ErrorCode (CachedContent Ptime) :=
  if e.ts.1.microsecond = 0 then .error .notFound else .ok ⟨dt.clock e.ts,e.value⟩

def Delivered {Ptime : Type} (dt : DateTime Ptime) (entries : List (InsertEntry ClockTime)) (url : Key)
    (answer : Except ErrorCode (CachedContent Ptime)) : Prop :=
  (∃ e ∈ entries, e.key = url ∧ answer = e.content dt) ∨
  (∀ e ∈ entries, e.key ≠ url) ∧ answer = .error .notFound

section backend
variable {σ : Type} {backend : BackendCalls σ}

theorem BackendCalls.Works.addOperation (works : backend.Works) (st : σ) (x : Value) :
    ∃ hash st₁ st', backend.add st x = (.ok hash,st₁) ∧ backend.pin st₁ hash = (.ok (),st') ∧
      makeAddOperation backend st x = (.ok hash,st') ∧ hash.isEmpty = false ∧ hash.ValidUtf8 ∧
      (backend.cat st₁ hash).1 = .ok x := by
  obtain ⟨hash,st₁,added,proper,text,there⟩ := works.adds st x
  obtain ⟨st',pinned⟩ := works.pins st₁ hash
  exact ⟨hash,st₁,st',added,pinned,by simp only [makeAddOperation,added,pinned],proper,text,there⟩

theorem BackendCalls.Works.succeeds (works : backend.Works) (cfg : Config) : backend.storage.AddsSucceed cfg :=
  fun _ st x => by
    obtain ⟨hash,_,st',_,_,done_,proper,_⟩ := works.addOperation st x
    exact ⟨hash,st',done_,proper⟩

theorem BackendCalls.Works.operationKeeps (works : backend.Works) {st : σ} {g : Hash} {y : Value} (x : Value)
    (there : (backend.cat st g).1 = .ok y) : (backend.cat (makeAddOperation backend st x).2 g).1 = .ok y := by
  obtain ⟨hash,st₁,st',added,pinned,done_,_⟩ := works.addOperation st x
  have first := works.addKeeps x there
  rw [added] at first
  have second := works.pinKeeps hash first
  rw [pinned] at second
  rw [done_]
  exact second

theorem BackendCalls.Works.faithful (works : backend.Works) : backend.storage.Faithful where
  stores := by
    intro st x h st' run
    obtain ⟨hash,st₁,st₂,_,pinned,done_,proper,text,there⟩ := works.addOperation st x
    cases done_.symm.trans run
    have kept := works.pinKeeps h there
    rw [pinned] at kept
    exact ⟨proper,text,kept⟩
  addKeeps := by
    intro st x r st' g y run there
    have kept := works.operationKeeps x there
    rw [show makeAddOperation backend st x = (r,st') from run] at kept
    exact kept
  removeKeeps := fun _ there => works.unpinKeeps _ there
  catKeeps := fun there => works.catKeeps _ there

theorem BackendCalls.Works.removesKeep (works : backend.Works) (ps : List Pause) :
    ∀ {st : σ} {g : Hash} {y : Value}, backend.storage.holds st g y →
      backend.storage.holds (BTree.removeAll backend.storage ps st) g y := by
  induction ps with
  | nil => exact id
  | cons p ps ih => exact fun held => ih ⟨works.unpinKeeps p.hash held.1,held.2⟩

theorem BackendCalls.Works.insertKeeps (works : backend.Works) {cfg : Config} (here : cfg.addOp = true) {n : Node}
    {ps : List Pause} {hash : Hash} {st st' : σ} {root : Option Root} {outcome : InsertOutcome}
    (stored : BTree.storeRoot cfg backend.storage (some ⟨some n,noHash⟩) (removed cfg backend.storage ps hash st) =
      (root,outcome,st')) : backend.storage.Keeps st st' := by
  intro g y held
  rcases storeRootCases cfg backend.storage n noHash (removed cfg backend.storage ps hash st) with
    ⟨absent,_⟩ | ⟨_,same⟩
  · rw [here] at absent
    cases absent
  · rw [stored] at same
    cases same
    exact Program.runKeeps backend.storage.add (I := fun st => backend.storage.holds st g y)
      (fun st x held => ⟨works.operationKeeps x held.1,held.2⟩) _ _ (works.removesKeep _ held)

end backend

def written {Ptime : Type} (json : JsonLib) (dt : DateTime Ptime) (done : List (InsertEntry ClockTime × Hash)) :
    List (Key × Value) :=
  done.map fun x => (x.1.key,writeEntry json dt x.2 (dt.clock x.1.ts))

structure Serving.Holds {σ Ptime : Type} (json : JsonLib) (dt : DateTime Ptime) (backend : BackendCalls σ)
    (done : List (InsertEntry ClockTime × Hash)) (s : Serving σ) : Prop where
  anchored : Anchored (injectorConfig json) backend.storage (written json dt done) s.db s.world
  clean : ∀ x ∈ written json dt done, Clean StdString.ValidUtf8 x
  published : s.published = s.db.rootHash
  contents : ∀ x ∈ done, backend.storage.holds s.world x.2 x.1.value

section serving
variable {σ Ptime : Type} {json : JsonLib} {dt : DateTime Ptime} {backend : BackendCalls σ}

theorem Serving.Holds.insertContent (works : backend.Works) (lib : json.Documented) (documented : dt.Documented)
    {done : List (InsertEntry ClockTime × Hash)} {s : Serving σ} (holds : s.Holds json dt backend done)
    (e : InsertEntry ClockTime) (key : ProperKey e.key ∧ e.key.ValidUtf8) :
    ∃ ipfsId s', s.insertContent json dt backend e = some (⟨e.onInsert,.ok (),ipfsId⟩,s') ∧
      s'.Holds json dt backend (done ++ [(e,ipfsId)]) := by
  obtain ⟨ipfsId,world,added,proper,text,there⟩ := works.adds s.world e.value
  have keeps : backend.storage.Keeps s.world world := fun g y held => by
    have kept := works.addKeeps e.value held.1
    rw [added] at kept
    exact ⟨kept,held.2⟩
  have clean : ∀ x ∈ written json dt (done ++ [(e,ipfsId)]), Clean StdString.ValidUtf8 x := by
    rw [written,List.map_append]
    exact List.forall_mem_append.mpr ⟨holds.clean,
      List.forall_mem_singleton.mpr ⟨key.1,key.2,lib.text _ (entryRecord documented text e.ts)⟩⟩
  rw [written,List.map_append] at clean
  obtain ⟨ps,n,n',hash,st',run,_,_,stored,_,after⟩ := (holds.anchored.keep keeps).insert (by decide : 2 ≤ btreeNodeSize)
    rfl (works.succeeds _) works.faithful lib.nodes e.key (writeEntry json dt ipfsId (dt.clock e.ts)) clean
  have kept := works.insertKeeps rfl stored
  rcases after.published with ⟨none_,_⟩ | ⟨_,_,_,root,proper',_⟩
  · cases none_
  · cases root
    refine ⟨ipfsId,⟨settled n' hash,st',hash⟩,?_,?_,?_,rfl,?_⟩
    · have some_ : (settled n' hash).rootHash.isEmpty = false := proper'
      simp only [Serving.insertContent,added,Serving.update,run,Serving.uploadDatabase,some_,Option.map_some]
      rfl
    · rw [written,List.map_append]
      exact after
    · rw [written,List.map_append]
      exact clean
    · refine List.forall_mem_append.mpr ⟨fun x mem => kept _ _ (keeps _ _ (holds.contents x mem)),?_⟩
      exact List.forall_mem_singleton.mpr (kept _ _ ⟨there,text⟩)

theorem Serving.Holds.insertContents (works : backend.Works) (lib : json.Documented) (documented : dt.Documented)
    (entries : List (InsertEntry ClockTime)) (keys : ∀ e ∈ entries, ProperKey e.key ∧ e.key.ValidUtf8) :
    ∀ {done : List (InsertEntry ClockTime × Hash)} {s : Serving σ}, s.Holds json dt backend done →
      ∃ ids s', s.insertContents json dt backend entries =
          some (List.zipWith (fun e ipfsId => ⟨e.onInsert,.ok (),ipfsId⟩) entries ids,s') ∧
        ids.length = entries.length ∧ s'.Holds json dt backend (done ++ entries.zip ids) := by
  induction entries with
  | nil => exact fun {_ s} holds => ⟨[],s,rfl,rfl,by simpa using holds⟩
  | cons e entries ih =>
    intro done s holds
    obtain ⟨ipfsId,s₁,run,next⟩ := holds.insertContent works lib documented e (keys e (by simp))
    obtain ⟨ids,s',rest,long,final⟩ := ih (fun e mem => keys e (List.mem_cons_of_mem _ mem)) next
    refine ⟨ipfsId :: ids,s',?_,by simpa using long,by simpa using final⟩
    simp only [Serving.insertContents,run,rest]
    rfl

theorem servingFresh (st : σ) : (Serving.fresh st).Holds json dt backend [] :=
  ⟨anchoredFresh st,by simp [written],rfl,by simp⟩

theorem Serving.Holds.value {done : List (InsertEntry ClockTime × Hash)} {s : Serving σ}
    (holds : s.Holds json dt backend done) (url : Key) :
    (∃ x ∈ done, x.1.key = url ∧ OrderedMap.find url (top s.db.root).flatten =
      some (writeEntry json dt x.2 (dt.clock x.1.ts))) ∨
    (∀ x ∈ done, x.1.key ≠ url) ∧ OrderedMap.find url (top s.db.root).flatten = none := by
  rcases holds.anchored.contents.answer holds.anchored.rest.good.tree url with ⟨v,mem,found⟩ | ⟨free,found⟩
  · obtain ⟨x,inside,same⟩ := List.mem_map.mp mem
    cases same
    exact .inl ⟨x,inside,rfl,found⟩
  · refine .inr ⟨fun x mem same => free ?_,found⟩
    exact List.mem_map.mpr ⟨_,List.mem_map_of_mem mem,same⟩

structure Answering (cfg : Config) (backend : BackendCalls σ) (fuel : Nat) (T : Node)
    (done : List (InsertEntry ClockTime × Hash)) (I : BTree → σ → Prop) : Prop where
  finds : ∀ url bt st, I bt st → ∃ bt' st', BTree.findAlone cfg backend.storage fuel url bt st =
    some (answer (OrderedMap.find url T.flatten),bt',st') ∧ I bt' st'
  cats : ∀ bt st hash, I bt st → I bt (backend.cat st hash).2
  there : ∀ bt st, I bt st → ∀ x ∈ done, (backend.cat st x.2).1 = .ok x.1.value

theorem Serving.Holds.getContent (lib : json.Documented) (documented : dt.Documented)
    {done : List (InsertEntry ClockTime × Hash)} {s : Serving σ} (holds : s.Holds json dt backend done) (fuel : Nat)
    (url : Key) :
    ∃ r, Delivered dt (done.map Prod.fst) url r ∧ ∀ (cfg : Config) (I : BTree → σ → Prop), cfg.json = json →
      Answering cfg backend fuel (top s.db.root) done I → ∀ bt st, I bt st → ∃ bt' st',
        IpfsCache.getContent cfg backend.storage dt fuel url bt st = some (r,bt',st') ∧ I bt' st' := by
  rcases holds.value url with ⟨x,mem,key,found⟩ | ⟨free,found⟩
  · have text := (holds.contents x mem).2
    refine ⟨x.1.content dt,.inl ⟨x.1,List.mem_map_of_mem mem,key,rfl⟩,fun cfg I same answering bt st inv => ?_⟩
    obtain ⟨bt',st',run,inv'⟩ := answering.finds url bt st inv
    rw [found] at run
    have got := (entryReadBack documented lib.records (fun _ => asciiUtf8) x.1.ts x.2 text).2 cfg
      backend.storage fuel url bt st bt' st' same run
    have data : (backend.storage.cat st' x.2).1 = .ok x.1.value := answering.there bt' st' inv' x mem
    rw [got,InsertEntry.content,data]
    split
    · exact ⟨bt',st',rfl,inv'⟩
    · exact ⟨bt',_,rfl,answering.cats bt' st' x.2 inv'⟩
  · refine ⟨.error .notFound,.inr ⟨fun e mem => ?_,rfl⟩,fun cfg I _ answering bt st inv => ?_⟩
    · obtain ⟨x,inside,same⟩ := List.mem_map.mp mem
      exact same ▸ free x inside
    · obtain ⟨bt',st',run,inv'⟩ := answering.finds url bt st inv
      rw [found] at run
      exact ⟨bt',st',by rw [IpfsCache.getContent,query,run]; rfl,inv'⟩

theorem Serving.Holds.getContents (lib : json.Documented) (documented : dt.Documented)
    {done : List (InsertEntry ClockTime × Hash)} {s : Serving σ} (holds : s.Holds json dt backend done) (fuel : Nat)
    (urls : List Key) :
    ∃ answers, List.Forall₂ (Delivered dt (done.map Prod.fst)) urls answers ∧
      ∀ (cfg : Config) (I : BTree → σ → Prop), cfg.json = json →
      Answering cfg backend fuel (top s.db.root) done I → ∀ bt st, I bt st → ∃ bt' st',
        IpfsCache.getContents cfg backend.storage dt fuel urls bt st = some (answers,bt',st') := by
  induction urls with
  | nil => exact ⟨[],.nil,fun _ _ _ _ bt st _ => ⟨bt,st,rfl⟩⟩
  | cons url urls ih =>
    obtain ⟨answers,delivered,each⟩ := ih
    obtain ⟨r,own,first⟩ := holds.getContent lib documented fuel url
    refine ⟨r :: answers,.cons own delivered,fun cfg I same answering bt st inv => ?_⟩
    obtain ⟨bt₁,st₁,run,inv₁⟩ := first cfg I same answering bt st inv
    obtain ⟨bt',st',rest⟩ := each cfg I same answering bt₁ st₁ inv₁
    exact ⟨bt',st',by rw [IpfsCache.getContents,run]; simp only [rest]; rfl⟩

theorem Stored.config {cfg cfg' : Config} (same : cfg.json = cfg'.json) {R : Hash → Value → Prop} {T : Node}
    (stored : Stored cfg R T) : Stored cfg' R T := by
  have blocks_ (n : Node) : block cfg n = block cfg' n := congrArg (JsonLib.dump · (nodeJson n.entries)) same
  induction stored with
  | mk doc bound blocks _ ih => exact .mk doc bound (fun p mem c child => blocks_ c ▸ blocks p mem c child) ih

/-- Whatever urls are asked for after the requests have been served, in whatever order: each
answer is the content and the time of a request with this url, or "not found" when there is
none (or when its time stamp has no microseconds); and a client that loads the published id
gets the same answers as the injector. -/
theorem contentsDelivered (works : backend.Works) (lib : json.Documented) (documented : dt.Documented)
    (entries : List (InsertEntry ClockTime)) (keys : ∀ e ∈ entries, ProperKey e.key ∧ e.key.ValidUtf8) (st : σ) :
    ∃ ids s, Serving.insertContents json dt backend entries (Serving.fresh st) =
        some (List.zipWith (fun e ipfsId => ⟨e.onInsert,.ok (),ipfsId⟩) entries ids,s) ∧
      ∃ need, ∀ urls fuel, need ≤ fuel → ∃ answers,
        (∃ bt st', getContents (injectorConfig json) backend.storage dt fuel urls s.db s.world =
          some (answers,bt,st')) ∧
        (∃ bt st', getContents (clientConfig json) backend.storage dt fuel urls
          (BTree.load (clientConfig json) backend.storage s.published .fresh s.world).1
          (BTree.load (clientConfig json) backend.storage s.published .fresh s.world).2 = some (answers,bt,st')) ∧
        List.Forall₂ (Delivered dt entries) urls answers := by
  have fresh : (Serving.fresh st).Holds json dt backend [] := servingFresh st
  obtain ⟨ids,s,run,long,holds⟩ := fresh.insertContents works lib documented entries keys
  rw [List.nil_append] at holds
  have requests : (entries.zip ids).map Prod.fst = entries := List.map_fst_zip long.ge
  have tree := holds.anchored.rest.good.tree
  obtain ⟨empty,readable⟩ :=
    holds.anchored.readable (by decide : 2 ≤ btreeNodeSize) works.faithful lib.nodes holds.clean
  obtain ⟨client,load,opened⟩ := loadOpens (clientConfig json) backend.storage s.world empty
  have theirs : Readable (clientConfig json) backend.storage s.world s.db.rootHash (top s.db.root) :=
    fun proper => ⟨(readable proper).1,
      @Stored.config (injectorConfig json) (clientConfig json) rfl _ _ (readable proper).2⟩
  refine ⟨ids,s,run,sizeOf (top s.db.root) + 1,fun urls fuel enough => ?_⟩
  have contents (st : σ) (keeps : backend.storage.Keeps s.world st) :
      ∀ x ∈ entries.zip ids, (backend.cat st x.2).1 = .ok x.1.value :=
    fun x mem => (keeps _ _ (holds.contents x mem)).1
  have catKeeps {st : σ} (hash : Hash) (keeps : backend.storage.Keeps s.world st) :
      backend.storage.Keeps s.world (backend.cat st hash).2 :=
    fun g y held => catHolds works.faithful st hash g y (keeps g y held)
  obtain ⟨answers,delivered,each⟩ := holds.getContents lib documented fuel urls
  rw [requests] at delivered
  refine ⟨answers,?_,?_,delivered⟩
  · refine each (injectorConfig json) (fun bt st => bt = s.db ∧ backend.storage.Keeps s.world st) rfl
      ⟨fun url bt st ⟨same,keeps⟩ => ⟨bt,st,?_,same,keeps⟩,fun _ _ hash inv => ⟨inv.1,catKeeps hash inv.2⟩,
        fun _ st inv => contents st inv.2⟩ _ _ ⟨rfl,fun _ _ => id⟩
    rw [same]
    exact holds.anchored.rest.findAlone url fuel st
  · rw [holds.published,load]
    refine each (clientConfig json)
      (fun bt st => Opened s.db.rootHash (top s.db.root) bt ∧ backend.storage.Keeps s.world st) rfl
      ⟨fun url bt st ⟨opened,keeps⟩ => ?_,fun _ _ hash inv => ⟨inv.1,catKeeps hash inv.2⟩,
        fun _ st inv => contents st inv.2⟩ _ _ ⟨opened,fun _ _ => id⟩
    obtain ⟨bt',st',find,opened',keeps'⟩ :=
      opened.find url works.faithful lib.nodes utf8Usable tree (theirs.mono keeps) enough
    exact ⟨bt',st',find,opened',fun g y held => keeps' g y (keeps g y held)⟩

end serving

def mockCalls : BackendCalls MockIpfs :=
  ⟨fun w hash => (w.blocks.cat hash,w),fun w x => (.ok (w.add x).1,(w.add x).2),fun w hash => (.ok (),w.pin hash),
    fun w hash => (.ok (),w.unpin hash)⟩

theorem mockCallsWork : mockCalls.Works where
  adds := fun st x => by
    have stored := MockStorage.faithful.stores (Eq.refl (MockStorage.storage.add st.blocks x))
    exact ⟨_,_,rfl,stored.1,stored.2.1,stored.2.2⟩
  pins := fun st hash => ⟨_,rfl⟩
  catKeeps := fun _ there => there
  addKeeps := fun {st _ _} x there => MockStorage.faithful.addKeeps (Eq.refl (MockStorage.storage.add st.blocks x)) there
  pinKeeps := fun _ there => there
  unpinKeeps := fun _ there => there

def newYearRequests : List (InsertEntry ClockTime) :=
  [⟨letter 97,letter 49,newYearStamp,0⟩,⟨letter 98,letter 50,⟨newYear 7,by decide⟩,1⟩,
    ⟨letter 99,letter 51,⟨newYear 0,by decide⟩,2⟩]

theorem contentsDeliveredThree : ∃ ids s, Serving.insertContents nlohmannAll boost mockCalls newYearRequests
      (Serving.fresh .empty) = some (List.zipWith (fun e ipfsId => ⟨e.onInsert,.ok (),ipfsId⟩) newYearRequests ids,s) ∧
    ∃ need, ∀ urls fuel, need ≤ fuel → ∃ answers,
      (∃ bt st', getContents (injectorConfig nlohmannAll) mockCalls.storage boost fuel urls s.db s.world =
        some (answers,bt,st')) ∧
      (∃ bt st', getContents (clientConfig nlohmannAll) mockCalls.storage boost fuel urls
        (BTree.load (clientConfig nlohmannAll) mockCalls.storage s.published .fresh s.world).1
        (BTree.load (clientConfig nlohmannAll) mockCalls.storage s.published .fresh s.world).2 =
          some (answers,bt,st')) ∧
      List.Forall₂ (Delivered boost newYearRequests) urls answers :=
  contentsDelivered mockCallsWork nlohmannDocumented boostDocumented newYearRequests (by
    have proper : ∀ b ∈ ([97,98,99] : List (Fin 256)), ProperKey (letter b) ∧ (letter b).ValidUtf8 := fun b mem =>
      ⟨(lettersClean [97,98,99] (by decide +kernel) (letter b,letter b) (List.mem_map_of_mem mem)).1,
        (lettersClean [97,98,99] (by decide +kernel) (letter b,letter b) (List.mem_map_of_mem mem)).2.1⟩
    intro e mem
    simp only [newYearRequests,List.mem_cons,List.not_mem_nil,or_false] at mem
    rcases mem with rfl | rfl | rfl <;> exact proper _ (by simp)) .empty

end IpfsCache
