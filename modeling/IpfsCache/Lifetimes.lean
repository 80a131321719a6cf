import IpfsCache.Requests

/-! An injector that ends and is started again. The program may end at any moment, with inserts
suspended and requests in the queue; what the next one has is the file and the storage. The file
may be damaged or gone, then load_db takes no id from it; the storage may have lost blocks. -/
namespace IpfsCache

structure Lifetimes (World Ptime : Type) where
  past : List (Service World Ptime)
  service : Service World Ptime

inductive LifetimeEvent (World Ptime : Type) where
  | goes (e : ServiceEvent World Ptime)
  | restarts (files : Files) (world : World)

namespace Lifetimes
variable {World Ptime : Type}

def initial (cfg : Config) (S : Storage World) (pathToRepo ipns : StdString) (files : Files) (world : World) :
    Lifetimes World Ptime :=
  ⟨[],.fresh (.initial cfg S pathToRepo ipns files world)⟩

def step (cfg : Config) (S : Storage World) (dt : DateTime Ptime) (s : Lifetimes World Ptime) :
    LifetimeEvent World Ptime → Option (Lifetimes World Ptime)
  | .goes e => (s.service.step cfg dt e).map fun service => { s with service := service }
  | .restarts files world =>
    some ⟨s.past ++ [s.service],.fresh (.initial cfg S s.service.db.pathToRepo s.service.db.ipns files world)⟩

def requests (s : Lifetimes World Ptime) : List (InsertEntry Ptime) :=
  (s.past ++ [s.service]).flatMap (·.injector.calls)

def published (s : Lifetimes World Ptime) : List Hash := (s.past ++ [s.service]).flatMap (·.db.published)

def Allowed (ipfs : Ipfs World) (content : Hash → Option Value) (dt : DateTime Ptime) (s : Lifetimes World Ptime) :
    LifetimeEvent World Ptime → Prop
  | .goes e => s.service.Allowed ipfs content dt e
  | .restarts files _ =>
    let db := s.service.db
    ∀ id, filedId files db.pathToRepo db.ipns = some id → filedId db.files db.pathToRepo db.ipns = some id

def Step (cfg : Config) (ipfs : Ipfs World) (R : World → Hash → Value → Prop) (content : Hash → Option Value)
    (S : Storage World) (dt : DateTime Ptime) (s : Lifetimes World Ptime) (e : LifetimeEvent World Ptime)
    (s' : Lifetimes World Ptime) : Prop :=
  s.Allowed ipfs content dt e ∧ Addressed content R s.service.db.map.world ∧ s.step cfg S dt e = some s'

def Starts (cfg : Config) (S : Storage World) (s : Lifetimes World Ptime) : Prop :=
  ∃ pathToRepo ipns files world, s = initial cfg S pathToRepo ipns files world ∧ filedId files pathToRepo ipns = none

end Lifetimes

namespace InjectorDb
variable {World : Type} {cfg : Config} {ipfs : Ipfs World} {R : World → Hash → Value → Prop}
  {content : Hash → Option Value} {first : Hash}

structure Filed (first : Hash) (db : InjectorDb World) : Prop where
  proper : ∀ id ∈ db.published, id.isEmpty = false
  file : ∀ text, db.files.content (pathToDb db.pathToRepo db.ipns) = some text →
    looksLikeCid (firstWord text) = true → firstWord text = first ∨ text ∈ db.published

theorem Filed.upload {db : InjectorDb World} (filed : Filed first db) (u : Nat) :
    Filed first (db.uploadDatabase u) := by
  cases proper : db.map.tree.rootHash.isEmpty with
  | true =>
    rw [uploadDatabase]
    dsimp only
    rw [if_pos proper]
    exact ⟨filed.proper,filed.file⟩
  | false =>
    have published := uploadPublished u db
    rw [proper] at published
    have files : (db.uploadDatabase u).files =
        IpfsCache.saveDb db.pathToRepo db.ipns db.map.tree.rootHash db.files := by
      rw [uploadDatabase]
      dsimp only
      rw [proper]
      rfl
    refine ⟨?_,fun text there cid => ?_⟩
    · rw [published]
      exact List.forall_mem_append.mpr ⟨filed.proper,by simpa using proper⟩
    · rw [(uploadDatabaseAlong u db).path.1,files] at there
      rw [published]
      cases open_ : db.files.writable (pathToDb db.pathToRepo db.ipns) with
      | true =>
        rw [(IpfsCache.saved _ open_).1] at there
        cases there
        exact .inr (List.mem_append_right _ (List.mem_singleton_self _))
      | false =>
        rw [IpfsCache.saveDb,open_] at there
        exact (filed.file text there cid).imp_right (List.mem_append_left _)

theorem Filed.step {db db' : InjectorDb World} (running : Running ipfs db) (filed : Filed first db)
    {e : DbEvent World} (step : Step cfg ipfs db e db') : Filed first db' := by
  cases (moves running step).1 with
  | called => exact ⟨filed.proper,filed.file⟩
  | @buffered key value => exact (⟨filed.proper,filed.file⟩ : Filed first (db.called key value)).upload _
  | added => exact ⟨filed.proper,filed.file⟩
  | @republished e r gone other =>
    have same : (db.answered r).published = db.published :=
      congrArg (List.map Prod.fst) (Republisher.stepCalls gone other)
    exact ⟨same ▸ filed.proper,same ▸ filed.file⟩
  | went => exact ⟨filed.proper,filed.file⟩
  | @ended _ _ map u outcome =>
    have paused : Filed first { db with map := map, owners := [], midway := none } := ⟨filed.proper,filed.file⟩
    cases outcome with
    | completed => exact paused.upload u
    | buffered => exact paused.upload u
    | error => exact ⟨filed.proper,filed.file⟩
    | exception => exact ⟨filed.proper,filed.file⟩

theorem initialHash (S : Storage World) (pathToRepo ipns : StdString) (files : Files) (world : World) :
    (initial cfg S pathToRepo ipns files world).map.tree.rootHash = (filedId files pathToRepo ipns).getD noHash := by
  rw [BTree.rootHash,(initialRoot ..).1]
  cases filedId files pathToRepo ipns <;> rfl

theorem initialFiled (S : Storage World) (pathToRepo ipns : StdString) (files : Files) (world : World) :
    Filed (initial cfg S pathToRepo ipns files world).map.tree.rootHash
      (initial cfg S pathToRepo ipns files world) := by
  refine ⟨fun id mem => (by cases mem),fun text there cid => .inl ?_⟩
  have filed : filedId files pathToRepo ipns = some (firstWord text) :=
    Option.bind_eq_some_iff.mpr ⟨text,there,if_pos cid⟩
  rw [initialHash,filed]
  rfl

end InjectorDb

namespace Lifetimes
variable {World Ptime : Type} {cfg : Config} {ipfs : Ipfs World} {R : World → Hash → Value → Prop}
  {content : Hash → Option Value} {S : Storage World} {dt : DateTime Ptime} {s s' : Lifetimes World Ptime}

def Clear (json : JsonLib) (dt : DateTime Ptime) (content : Hash → Option Value) (calls : List (InsertEntry Ptime))
    (id : Hash) : Prop :=
  ∀ key value, key.isEmpty = false → StoredBelow (clientConfig json) content id key value →
    Service.Requested json dt content calls key value

theorem Clear.mono {json : JsonLib} {calls calls' : List (InsertEntry Ptime)} {id : Hash}
    (clear : Clear json dt content calls id) (more : calls ⊆ calls') : Clear json dt content calls' id :=
  fun key value proper stored => (clear key value proper stored).mono more

def earlier (s : Lifetimes World Ptime) : List (InsertEntry Ptime) := s.past.flatMap (·.injector.calls)

structure Began (cfg : Config) (ipfs : Ipfs World) (R : World → Hash → Value → Prop) (content : Hash → Option Value)
    (dt : DateTime Ptime) (s : Lifetimes World Ptime) (first : Hash) : Prop where
  sending : InjectorDb.Sending cfg ipfs R content first s.service.db
  filed : InjectorDb.Filed first s.service.db
  word : firstWord first = first
  clear : first.isEmpty = true ∨ Clear cfg.json dt content s.earlier first

structure Sane (cfg : Config) (ipfs : Ipfs World) (R : World → Hash → Value → Prop) (content : Hash → Option Value)
    (dt : DateTime Ptime) (s : Lifetimes World Ptime) : Prop where
  service : s.service.Sane cfg content dt
  began : ∃ first, s.Began cfg ipfs R content dt first
  asked : ∀ e ∈ s.earlier, (ProperKey e.key ∧ e.key.ValidUtf8) ∧ ∃ t, e.ts = dt.clock t
  past : ∀ id ∈ s.past.flatMap (·.db.published), Clear cfg.json dt content s.earlier id

theorem requestsSplit (s : Lifetimes World Ptime) : s.requests = s.earlier ++ s.service.injector.calls := by
  simp [requests,earlier]

theorem publishedSplit (s : Lifetimes World Ptime) :
    s.published = s.past.flatMap (·.db.published) ++ s.service.db.published := by
  simp [published]

theorem Sane.clear (sane : s.Sane cfg ipfs R content dt) (lib : cfg.json.Documented)
    (addressed : Addressed content R s.service.db.map.world)
    (solid : ∀ h x, content h = some x → ∀ b ∈ h.bytes, isSpace b = false) {id : Hash}
    (known : id ∈ s.published ∨ filedId s.service.db.files s.service.db.pathToRepo s.service.db.ipns = some id) :
    Clear cfg.json dt content s.requests id := by
  obtain ⟨first,began⟩ := sane.began
  have told := began.sending.told addressed
  have older : s.earlier ⊆ s.requests := requestsSplit s ▸ List.subset_append_left _ _
  have newer : s.service.injector.calls ⊆ s.requests := requestsSplit s ▸ List.subset_append_right _ _
  have start (proper : first.isEmpty = false) : Clear cfg.json dt content s.requests first :=
    (began.clear.resolve_left (by simp [proper])).mono older
  have honest {id : Hash} (mem : id ∈ s.service.db.published) :
      id = first ∨ BlockOf cfg content s.service.db.pairs id := by
    obtain ⟨x,inside,rfl⟩ := List.mem_map.mp mem
    exact told.published x inside
  have now {id : Hash} (mem : id ∈ s.service.db.published) : Clear cfg.json dt content s.requests id := by
    rcases honest mem with rfl | block_
    · exact start (began.filed.proper _ mem)
    · exact fun key value proper stored => (sane.service.updates _ (block_.stored lib.nodes proper stored)).mono newer
  rcases known with handed | filed
  · rw [publishedSplit] at handed
    rcases List.mem_append.mp handed with old | new
    · exact (sane.past id old).mono older
    · exact now new
  · obtain ⟨text,there,cid,rfl⟩ := filedCid filed
    rcases began.filed.file text there cid with same | mem
    · exact same ▸ start (same ▸ cidProper cid)
    · rcases honest mem with rfl | block_
      · rw [began.word] at cid ⊢
        exact start (cidProper cid)
      · obtain ⟨n,at_,_⟩ := block_
        rw [solidWord (solid _ _ at_)]
        exact now mem

theorem Sane.goes (two : 2 ≤ cfg.maxNodeSize) (here : cfg.addOp = true) (retains : Retains ipfs.env R)
    (injective : cfg.json.DumpInjective fun _ => True) (lib : cfg.json.Documented) (documented : dt.Documented)
    (sane : s.Sane cfg ipfs R content dt) {e : ServiceEvent World Ptime} {service : Service World Ptime}
    (step : Service.Step cfg ipfs R content dt s.service e service) :
    Sane cfg ipfs R content dt { s with service := service } := by
  obtain ⟨first,began⟩ := sane.began
  obtain ⟨kept,part⟩ := sane.service.step lib documented step
  refine ⟨kept,⟨first,?_,?_,began.word,began.clear⟩,sane.asked,sane.past⟩
  · rcases part with stays | ⟨e',goes⟩
    · exact stays ▸ began.sending
    · exact began.sending.step two here retains injective lib.nodes goes
  · rcases part with stays | ⟨e',goes⟩
    · exact stays ▸ began.filed
    · exact began.filed.step began.sending.running goes.1

theorem wordAgain (text : StdString) : firstWord (firstWord text) = firstWord text :=
  solidWord fun b mem => by simpa using List.mem_takeWhile_imp mem

theorem startBegan (past : List (Service World Ptime)) (S : Storage World) (pathToRepo ipns : StdString)
    (files : Files) (world : World)
    (clear : ∀ id, filedId files pathToRepo ipns = some id →
      Clear cfg.json dt content (past.flatMap (·.injector.calls)) id) :
    Began cfg ipfs R content dt ⟨past,.fresh (.initial cfg S pathToRepo ipns files world)⟩
      ((filedId files pathToRepo ipns).getD noHash) := by
  have hash := @InjectorDb.initialHash World cfg S pathToRepo ipns files world
  refine ⟨hash ▸ InjectorDb.initialSending S pathToRepo ipns files world,
    hash ▸ InjectorDb.initialFiled S pathToRepo ipns files world,?_,?_⟩
  · cases filed : filedId files pathToRepo ipns with
    | none => rfl
    | some id =>
      obtain ⟨text,_,_,rfl⟩ := filedCid filed
      exact wordAgain text
  · cases filed : filedId files pathToRepo ipns with
    | none => exact .inl rfl
    | some id => exact .inr (clear id filed)

theorem Sane.restarts (lib : cfg.json.Documented) (sane : s.Sane cfg ipfs R content dt)
    (addressed : Addressed content R s.service.db.map.world)
    (solid : ∀ h x, content h = some x → ∀ b ∈ h.bytes, isSpace b = false) (S : Storage World) {files : Files}
    (left : ∀ id, filedId files s.service.db.pathToRepo s.service.db.ipns = some id →
      filedId s.service.db.files s.service.db.pathToRepo s.service.db.ipns = some id) (world : World) :
    Sane cfg ipfs R content dt
      ⟨s.past ++ [s.service],.fresh (.initial cfg S s.service.db.pathToRepo s.service.db.ipns files world)⟩ := by
  refine ⟨Service.initialSane S _ _ files world,
    ⟨_,startBegan (s.past ++ [s.service]) S _ _ files world fun id filed => ?_⟩,?_,fun id mem => ?_⟩
  · exact sane.clear lib addressed solid (.inr (left id filed))
  · change ∀ e ∈ s.requests,_
    rw [requestsSplit]
    exact List.forall_mem_append.mpr ⟨sane.asked,sane.service.requests⟩
  · exact sane.clear lib addressed solid (.inl mem)

theorem reachedSane (two : 2 ≤ cfg.maxNodeSize) (here : cfg.addOp = true) (retains : Retains ipfs.env R)
    (injective : cfg.json.DumpInjective fun _ => True) (lib : cfg.json.Documented) (documented : dt.Documented)
    (solid : ∀ h x, content h = some x → ∀ b ∈ h.bytes, isSpace b = false)
    (run : Reach (Starts cfg S) (Step cfg ipfs R content S dt) s) : s.Sane cfg ipfs R content dt := by
  refine run.invariant (fun s start => ?_) fun s e s' sane ⟨allowed,addressed,step⟩ => ?_
  · obtain ⟨pathToRepo,ipns,files,world,rfl,none_⟩ := start
    exact ⟨Service.initialSane S _ _ files world,⟨_,startBegan [] S _ _ files world (by simp [none_])⟩,
      by simp [earlier,initial],by simp [initial]⟩
  · cases e with
    | goes e =>
      obtain ⟨service,goes,rfl⟩ := Option.map_eq_some_iff.mp step
      exact sane.goes two here retains injective lib documented ⟨allowed,addressed,goes⟩
    | restarts files world =>
      cases step
      exact sane.restarts lib addressed solid S allowed world

/-- Each name has an injector that ends at any moment and is started again, any number of times; a
client, with calls of get_content under way, goes from name to name. A get_content that succeeds
returns the content and the time of a request that was made for this url to an injector, the
present one or an earlier one, of the name that the client was on. -/
theorem restartsFetched {σ : Type} {T : Storage σ} (two : 2 ≤ cfg.maxNodeSize) (here : cfg.addOp = true)
    (retains : Retains ipfs.env R) (injective : cfg.json.DumpInjective fun _ => True) (lib : cfg.json.Documented)
    (documented : dt.Documented) (solid : ∀ h x, content h = some x → ∀ b ∈ h.bytes, isSpace b = false)
    {injectors : StdString → Lifetimes World Ptime}
    (serve : ∀ ipns, Reach (Starts cfg S) (Step cfg ipfs R content S dt) (injectors ipns))
    (addressed : ∀ ipns, Addressed content R (injectors ipns).service.db.map.world) {s : GetContents σ Ptime}
    (run : s.Reached cfg.json T dt content fun ipns id => id ∈ (injectors ipns).published) {w : Nat}
    {r : CachedContent Ptime} (answered : (w,.ok r) ∈ s.answers) :
    ∃ c d, s.calls[w]? = some c ∧ s.client.dbs[c.db]? = some d ∧
      ∃ e ∈ (injectors d.db.ipns).requests, e.key = c.url ∧ e.ts = r.ts ∧ e.value = r.data := by
  obtain ⟨c,call,contentHash,⟨d,db,H,published,proper,value,stored,read⟩,cat⟩ :=
    (GetContents.reachedKept run).answers w r answered
  have sane := reachedSane two here retains injective lib documented solid (serve d.db.ipns)
  have clear := sane.clear lib (addressed d.db.ipns) solid (.inl published)
  refine ⟨c,d,call,db,(clear _ value proper stored).fetched lib documented ?_ read cat⟩
  rw [requestsSplit]
  exact List.forall_mem_append.mpr ⟨sane.asked,sane.service.requests⟩

theorem goesRun {Start : Lifetimes World Ptime → Prop} {past : List (Service World Ptime)}
    {service₀ service : Service World Ptime} (before : Reach Start (Step cfg ipfs R content S dt) ⟨past,service₀⟩)
    (run : Reach (· = service₀) (Service.Step cfg ipfs R content dt) service) :
    Reach Start (Step cfg ipfs R content S dt) ⟨past,service⟩ := by
  induction run with
  | start same => exact (show _ = service₀ from same) ▸ before
  | step e _ goes ih => exact .step (.goes e) ih ⟨goes.1,goes.2.1,by rw [step,goes.2.2]; rfl⟩

def entryStorage : Storage MockIpfs :=
  ⟨fun w hash => (w.blocks.cat hash,w),fun w x => (.ok (w.add x).1,(w.add x).2),MockIpfs.unpin⟩

theorem entrySolid : ∀ h x, Service.entryContent h = some x → ∀ b ∈ h.bytes, isSpace b = false := by
  intro h x there
  obtain ⟨front,back,whole,_⟩ := List.lookup_eq_some_iff.mp there
  have each : ∀ p ∈ front ++ (h,x) :: back, ∀ b ∈ p.1.bytes, isSpace b = false := by
    rw [← whole]
    decide +kernel
  exact each (h,x) (by simp)

theorem restartsFetchedOnce : ∃ (injectors : StdString → Lifetimes MockIpfs ClockTime)
    (s : GetContents MockStorage ClockTime) (w : Nat) (r : CachedContent ClockTime),
    (∀ ipns, (injectors ipns).past.length = 1) ∧ (w,.ok r) ∈ s.answers ∧
    ∃ c d, s.calls[w]? = some c ∧ s.client.dbs[c.db]? = some d ∧
      ∃ e ∈ (injectors d.db.ipns).requests, e.key = c.url ∧ e.ts = r.ts ∧ e.value = r.data := by
  have served : ((Service.play (Service.toUpdate ++ .begins 0 :: Service.fromUpdate)
      (.fresh Service.entryDb)).any fun s => decide (StdString.decimal 0 ∈ s.db.published) &&
      s.db.map.world.blocks.blocks.all fun p => Service.entryContent p.1 = some p.2) = true := by
    decide +kernel
  have fetched : (GetContents.newClient.play nlohmannAll MockStorage.storage boost Service.entryContent
      [StdString.decimal 0] GetContents.oneCall).any (fun s => s.answers.any fun x => x.2.toBool) = true := by
    decide +kernel
  obtain ⟨service,play_,seen⟩ := Option.any_eq_true _ _ |>.mp served
  simp only [Bool.and_eq_true,decide_eq_true_eq] at seen
  obtain ⟨s,played,told⟩ := Option.any_eq_true _ _ |>.mp fetched
  obtain ⟨⟨w,result⟩,mem,good⟩ := List.any_eq_true.mp told
  cases result with
  | error ec => cases good
  | ok r =>
    have addressed := InjectorDb.contentAddressed seen.2
    have ends : Reach (Starts Service.entryConfig entryStorage) (Step Service.entryConfig MockIpfs.ipfs MockIpfs.Known
        Service.entryContent entryStorage boost) ⟨[],service⟩ :=
      goesRun (.start ⟨_,_,_,_,rfl,rfl⟩) (Service.playRun (.start rfl) play_)
    let next : Lifetimes MockIpfs ClockTime := ⟨[service],.fresh (.initial Service.entryConfig entryStorage
      service.db.pathToRepo service.db.ipns service.db.files service.db.map.world)⟩
    have again : Reach (Starts Service.entryConfig entryStorage) (Step Service.entryConfig MockIpfs.ipfs
        MockIpfs.Known Service.entryContent entryStorage boost) next :=
      .step (.restarts service.db.files service.db.map.world) ends ⟨fun _ => id,addressed,rfl⟩
    have same : next.service.db.map.world = service.db.map.world := (InjectorDb.initialRoot ..).2
    have here : StdString.decimal 0 ∈ next.published := by
      rw [publishedSplit]
      exact List.mem_append_left _ (by simpa [next] using seen.1)
    have known : ∀ id ∈ [StdString.decimal 0], (∀ _ : StdString, id ∈ next.published) ∧
        ∀ b ∈ id.bytes, isSpace b = false :=
      List.forall_mem_singleton.mpr ⟨fun _ => here,by decide +kernel⟩
    have run : s.Reached nlohmannAll MockStorage.storage boost Service.entryContent fun _ id => id ∈ next.published :=
      GetContents.playReach known GetContents.newClientStarts played
    exact ⟨fun _ => next,s,w,r,fun _ => rfl,mem,@restartsFetched _ _ Service.entryConfig _ _ _ _ _ _ _ (by decide) rfl
      MockIpfs.pins.retainsKnown nlohmannDumpInjective nlohmannDocumented boostDocumented entrySolid _
      (fun _ => again) (fun _ => same ▸ addressed) _ run _ _ mem⟩

end Lifetimes
end IpfsCache
