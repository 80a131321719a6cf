import IpfsCache.AllAnswered
import IpfsCache.Inserted

/-! What has been published when nothing is left to be done: the id that was handed over last
stands for a tree with every key, unless an operation has failed. -/
namespace IpfsCache

theorem Republisher.Kept.lastAnswered {r : Republisher} (kept : r.Kept) (empty : r.callbacks = [])
    (given : ∀ c ∈ r.calls, c.2 = true) {id : Cid} (last : (r.calls.map Prod.fst).getLast? = some id) :
    ∃ (i : Nat) (f : Flight) (status : Status), r.started[i]? = some f ∧ f.id = id ∧ (i,status) ∈ r.completed := by
  have order := kept.logged.order
  rw [empty,List.filterMap_nil,List.append_nil] at order
  rw [List.getLast?_map] at last
  obtain ⟨⟨cid,present⟩,top,rfl⟩ := Option.map_eq_some_iff.mp last
  have at_ := top
  rw [List.getLast?_eq_getElem?] at at_
  obtain rfl : present = true := given _ (List.mem_of_getLast? top)
  have answered : r.calls.length - 1 ∈ r.invoked.map Invoked.call := order ▸ memGivenCalls.mpr ⟨cid,at_⟩
  obtain ⟨x,mem,same⟩ := List.mem_map.mp answered
  obtain ⟨f,started,older,completed⟩ := kept.logged.answers x mem
  -- Nothing has been called after the last call, so the flight has its id.
  obtain ⟨n,present,number,there⟩ := kept.logged.starts f (List.mem_of_getElem? started)
  have inside := (List.getElem?_eq_some_iff.mp there).1
  obtain rfl : n = r.calls.length - 1 := by omega
  cases at_.symm.trans there
  exact ⟨x.flight,f,x.status,started,rfl,completed⟩

namespace InjectorDb
variable {World : Type} {cfg : Config} {ipfs : Ipfs World} {R : World → Hash → Value → Prop}
  {content : Hash → Option Value} {first : Hash} {db db' : InjectorDb World}

def Newest (cfg : Config) (content : Hash → Option Value) (db : InjectorDb World) : Prop :=
  ∃ id n, db.published.getLast? = some id ∧ TreeOf cfg content id n ∧ OrderedMap.keys db.pairs ⊆ n.keys ∧
    n.flatten ⊆ db.pairs

def Unfailing (db : InjectorDb World) : Prop := ∀ o ∈ db.map.ended, o = .completed ∨ o = .buffered

def Rested (cfg : Config) (content : Hash → Option Value) (db : InjectorDb World) : Prop :=
  db.Unfailing → db.owners = [] → db.pairs ≠ [] → db.Newest cfg content

theorem Resumed.owner (running : Running ipfs db) {e : DbEvent World} {by_ : Resumption} {map : System World}
    (resumed : Resumed cfg ipfs db e by_ map) : db.owners ≠ [] := by
  obtain ⟨_,one,_⟩ := resumed.busy
  cases running with
  | idle frames => cases one.symm.trans frames
  | busy _ owners => simp [owners]

theorem Sending.rested (two : 2 ≤ cfg.maxNodeSize) (here : cfg.addOp = true) (retains : Retains ipfs.env R)
    (injective : cfg.json.DumpInjective fun _ => True) (back : cfg.json.ParsesBack)
    (sending : Sending cfg ipfs R content first db) {e : DbEvent World}
    (step : AddressedStep cfg ipfs R content db e db') (after : Addressed content R db'.map.world) {trees : List Node}
    (growing : Growing cfg content db.map db.published trees) (rested : db.Rested cfg content) :
    db'.Rested cfg content := by
  obtain ⟨step,clean,before⟩ := step
  have legible (w : World) : Legible cfg (fun _ => True) (R w) :=
    ⟨two,⟨trivial,trivial,trivial⟩,injective,retains.one,fun _ => trivial⟩
  have custody := retains.custody legible
  intro good none_ some_
  cases (moves sending.running step).1 with
  | called => cases none_
  | buffered busy =>
    rw [(uploadDatabaseAlong ..).owners] at none_
    cases sending.running with
    | idle frames => cases busy.symm.trans frames
    | busy _ owners => cases owners.symm.trans none_
  | added frames =>
    cases sending.running with
    | idle idle => cases frames.symm.trans idle
    | busy _ owners => cases owners.symm.trans none_
  | went resumed =>
    have some_ := resumed.owner sending.running
    exact absurd none_ some_
  | @republished e r gone other =>
    have pairs := answeredPairs r db
    have calls : (db.answered r).published = db.published :=
      congrArg (List.map Prod.fst) (Republisher.stepCalls gone other)
    rw [pairs] at some_
    rw [Newest,calls,pairs]
    exact rested good none_ some_
  | @ended _ _ map u outcome resumed owner idle ended other =>
    have along := insertedAlong u outcome { db with map := map, owners := [], midway := none }
    obtain ⟨growing',completes⟩ := sending.growingResumed two here back custody resumed
      (by rw [along.map] at after; exact after) growing
    have last : outcome = .completed := by
      rw [Unfailing,along.map] at good
      exact (good outcome (ended ▸ List.mem_append_right _ (List.mem_singleton_self _))).resolve_right other
    subst last
    obtain ⟨proper,n,standing,all⟩ := completes u owner ended
    have pairs := insertedPairs u .completed { db with map := map, owners := [], midway := none }
    have published := uploadPublished u { db with map := map, owners := [], midway := none }
    rw [proper] at published
    refine ⟨map.tree.rootHash,n,?_,standing.tree,pairs ▸ all,pairs ▸ fun x mem => ?_⟩
    · rw [inserted,published]
      exact List.getLast?_concat
    · exact (resumed.calls.trans sending.pairs) ▸ standing.within.given x mem

theorem runRested (two : 2 ≤ cfg.maxNodeSize) (here : cfg.addOp = true) (retains : Retains ipfs.env R)
    (injective : cfg.json.DumpInjective fun _ => True) (back : cfg.json.ParsesBack) {db₀ : InjectorDb World}
    (start : Starts cfg db₀) (new : db₀.map.tree.rootHash.isEmpty = true)
    (run : Reach (· = db₀) (AddressedStep cfg ipfs R content) db) (addressed : Addressed content R db.map.world) :
    db.Rested cfg content := by
  have kept := run.invariantOver (J := fun db => Reach (· = db₀) (AddressedStep cfg ipfs R content) db)
    (I := fun db => Addressed content R db.map.world → db.Rested cfg content) (fun _ => id) (fun db same => ?_) ?_
  · exact kept addressed
  · rw [show db = db₀ from same]
    obtain ⟨S,pathToRepo,ipns,files,world,_,rfl⟩ := start
    exact fun _ _ _ some_ => absurd rfl some_
  · intro db e db' before rested step after
    obtain ⟨sending,trees,_,growing,_⟩ := runGoes two here retains injective back (startSending start)
      (startGrowing start new) before step.2.2
    exact sending.rested two here retains injective back step after growing (rested step.2.2)

end InjectorDb

namespace Service
variable {World Ptime : Type} {cfg : Config} {ipfs : Ipfs World} {R : World → Hash → Value → Prop}
  {content : Hash → Option Value} {dt : DateTime Ptime} {s s' : Service World Ptime}

inductive Heard (s : Service World Ptime) (e : InsertEntry Ptime) : Prop
  | waits (mem : e ∈ s.injector.waiting)
  | failed {ec : ErrorCode} (mem : (e.onInsert,.error ec) ∈ s.injector.added)
  | spawned {i : Nat} {u : DbUpdate} (at_ : s.injector.updating[i]? = some u) (own : u.key = e.key)
      (new : s.began[i]? = some none)
  | updated (mem : e.key ∈ OrderedMap.keys s.db.pairs)

theorem takeOthers {inj : Injector Ptime} {i : Nat} {e : InsertEntry Ptime} (at_ : inj.adding[i]? = some e)
    (eca : Status) {x : InsertEntry Ptime} (mem : x ∈ inj.waiting) : x = e ∨ x ∈ (inj.take i e eca).waiting := by
  rw [Injector.take,Injector.fromQueueWaiting]
  rcases List.mem_append.mp mem with adds | queued
  · exact (List.mem_cons.mp ((Reach.taken at_).mem_iff.mpr adds)).imp_right (List.mem_append_left _)
  · exact .inr (List.mem_append_right _ queued)

theorem Heard.back {e : InsertEntry Ptime} (heard : s.Heard e) {i u : Nat}
    (began : s.began[i]? = some (some u)) {inj : Injector Ptime} (waits : inj.waiting = s.injector.waiting)
    (added : inj.added = s.injector.added) (updating : inj.updating = s.injector.updating.eraseIdx i) :
    Heard { s with injector := inj, began := s.began.eraseIdx i } e := by
  cases heard with
  | waits mem => exact .waits (waits ▸ mem)
  | failed mem => exact .failed (added ▸ mem)
  | @spawned j v at_ own new =>
    have other : j ≠ i := fun same => by
      subst same
      cases began.symm.trans new
    exact .spawned (updating ▸ besideTaken other at_) own (besideTaken other new)
  | updated mem => exact .updated mem

theorem Heard.step {e : InsertEntry Ptime} (long : s.began.length = s.injector.updating.length) (heard : s.Heard e)
    {ev : ServiceEvent World Ptime} (step : s.step cfg dt ev = some s') : s'.Heard e := by
  have grows {db : InjectorDb World} {e : DbEvent World} (goes : s.db.step cfg e = some db) :
      OrderedMap.keys s.db.pairs ⊆ OrderedMap.keys db.pairs := by
    rw [InjectorDb.stepPairs goes]
    exact List.map_subset _ (List.subset_append_left _ _)
  cases moves step with
  | called key value ts =>
    obtain ⟨waits,updating⟩ := s.injector.insertWaiting key value ts
    obtain ⟨_,added,_⟩ := @Injector.insertCalls _ s.injector key value ts
    cases heard with
    | waits mem => exact .waits (waits ▸ List.mem_append_left _ mem)
    | failed mem => exact .failed (added ▸ mem)
    | spawned at_ own new => exact .spawned (updating ▸ at_) own new
    | updated mem => exact .updated mem
  | goes =>
    cases heard with
    | waits mem => exact .waits mem
    | failed mem => exact .failed mem
    | spawned at_ own new => exact .spawned at_ own new
    | updated mem => exact .updated mem
  | @failed i x at_ ec ipfsId =>
    have updating := (s.injector.takeWaiting i x (.error ec)).2.2
    have added : (s.injector.take i x (.error ec)).added = s.injector.added ++ [(x.onInsert,.error ec)] := by
      simp [Injector.take]
    cases heard with
    | waits mem =>
      rcases takeOthers at_ (.error ec) mem with rfl | others
      · exact .failed (added ▸ List.mem_append_right _ (List.mem_singleton_self _))
      · exact .waits others
    | failed mem => exact .failed (added ▸ List.mem_append_left _ mem)
    | spawned here own new => exact .spawned (updating ▸ here) own (by simpa using new)
    | updated mem => exact .updated mem
  | @spawned i x at_ ipfsId =>
    have updating := (s.injector.takeWaiting i x (.ok ())).2.2
    have added : (s.injector.take i x (.ok ())).added = s.injector.added ++ [(x.onInsert,.ok ())] := by
      simp [Injector.take]
    have last : ((s.injector.take i x (.ok ())).spawn
        ⟨x.key,writeEntry cfg.json dt ipfsId x.ts,ipfsId,x.onInsert⟩).updating = s.injector.updating ++
        [⟨x.key,writeEntry cfg.json dt ipfsId x.ts,ipfsId,x.onInsert⟩] := congrArg (· ++ _) updating
    cases heard with
    | waits mem =>
      rcases takeOthers at_ (.ok ()) mem with rfl | others
      · refine .spawned (i := s.injector.updating.length) (last ▸ List.getElem?_concat_length) rfl ?_
        dsimp only
        rw [← long]
        exact List.getElem?_concat_length
      · exact .waits others
    | failed mem => exact .failed (added ▸ List.mem_append_left _ mem)
    | spawned here own new =>
      exact .spawned (last ▸ (List.getElem?_append_left (List.getElem?_eq_some_iff.mp here).1).trans here) own
        ((List.getElem?_append_left (List.getElem?_eq_some_iff.mp new).1).trans new)
    | updated mem => exact .updated mem
  | @begun i u db at_ new goes =>
    cases heard with
    | waits mem => exact .waits mem
    | failed mem => exact .failed mem
    | @spawned j v here own new' =>
      by_cases same : i = j
      · subst same
        cases at_.symm.trans here
        refine .updated ?_
        dsimp only
        rw [InjectorDb.stepPairs goes,← own]
        exact List.mem_map_of_mem (List.mem_append_right _ (List.mem_singleton_self _))
      · exact .spawned here own ((List.getElem?_set_ne same).trans new')
    | updated mem => exact .updated (grows goes mem)
  | went _ goes =>
    cases heard with
    | waits mem => exact .waits mem
    | failed mem => exact .failed mem
    | spawned here own new => exact .spawned here own new
    | updated mem => exact .updated (grows goes mem)
  | threw at_ began => exact heard.back began rfl rfl rfl
  | returned at_ began => exact heard.back began rfl rfl rfl

theorem runHeard (lib : cfg.json.Documented) (documented : dt.Documented) {db₀ : InjectorDb World}
    (start : InjectorDb.Starts cfg db₀) (run : Reach (· = fresh db₀) (Service.Step cfg ipfs R content dt) s) :
    ∀ e ∈ s.injector.calls, s.Heard e := by
  refine run.invariantOver (J := fun s => s.Sane cfg content dt) (I := fun s => ∀ e ∈ s.injector.calls, s.Heard e)
    (fun s run => ((freshSane start).run lib documented run).1) (fun s same e mem => ?_) ?_
  · rw [show s = fresh db₀ from same] at mem
    cases mem
  · intro s ev s' sane heard step e mem
    obtain ⟨allowed,_,step⟩ := step
    by_cases old : e ∈ s.injector.calls
    · exact (heard e old).step sane.long step
    · cases moves step with
      | called key value ts =>
        have calls := (@Injector.insertCalls _ s.injector key value ts).1
        have waits := (s.injector.insertWaiting key value ts).1
        dsimp only at mem
        rw [calls] at mem
        refine .waits ?_
        dsimp only
        rw [waits]
        exact List.mem_append_right _ ((List.mem_append.mp mem).resolve_left old)
      | goes => exact absurd mem old
      | @failed i x at_ ec ipfsId => exact absurd ((s.injector.takeWaiting i x (.error ec)).2.1 ▸ mem) old
      | @spawned i x at_ ipfsId => exact absurd ((s.injector.takeWaiting i x (.ok ())).2.1 ▸ mem) old
      | begun => exact absurd mem old
      | went => exact absurd mem old
      | threw => exact absurd mem old
      | returned => exact absurd mem old

/-- When nothing is left to be done, and no add of a content and no insert has failed, then the id
that was handed over last has been given to Backend::publish, which has completed, and a client
that loads it gets for the url of every request so far the content and the time of one of them. -/
theorem requestsPublished {σ : Type} {S : Storage σ} {st : σ} (two : 2 ≤ cfg.maxNodeSize) (here : cfg.addOp = true)
    (retains : Retains ipfs.env R) (injective : cfg.json.DumpInjective fun _ => True) (lib : cfg.json.Documented)
    (documented : dt.Documented) {db₀ : InjectorDb World} (start : InjectorDb.Starts cfg db₀)
    (new : db₀.map.tree.rootHash.isEmpty = true)
    (run : Reach (· = fresh db₀) (Service.Step cfg ipfs R content dt) s)
    (addressed : Addressed content R s.db.map.world)
    (stuck : ∀ e : ServiceEvent World Ptime, e.Own → s.step cfg dt e = none)
    (added : ∀ x ∈ s.injector.added, x.2 = .ok ()) (unfailing : s.db.Unfailing) (some_ : s.injector.calls ≠ [])
    (faithful : S.Faithful) (serves : ∀ h x, content h = some x → S.reads st h = .ok x) :
    ∃ id, s.db.published.getLast? = some id ∧
      (∃ (i : Nat) (f : Flight) (status : Status), s.db.republisher.started[i]? = some f ∧ f.id = id ∧
        (i,status) ∈ s.db.republisher.completed) ∧
      ∀ e ∈ s.injector.calls, ∃ e' ∈ s.injector.calls, e'.key = e.key ∧ ∃ t, e'.ts = dt.clock t ∧
        Gets cfg.json S dt st id e.key (if t.1.microsecond = 0 then .error .notFound else .ok ⟨e'.ts,e'.value⟩) := by
  obtain ⟨sane,dbRun⟩ := (freshSane start).run lib documented run
  have still := runStill two here retains injective lib documented start run stuck
  have heard := runHeard lib documented start run
  have updated : ∀ e ∈ s.injector.calls, e.key ∈ OrderedMap.keys s.db.pairs := fun e mem => by
    cases heard e mem with
    | waits mem => rw [still.waiting] at mem; cases mem
    | failed mem => cases added _ mem
    | spawned at_ => rw [still.updating] at at_; cases at_
    | updated mem => exact mem
  have pairs : s.db.pairs ≠ [] := fun none_ => by
    obtain ⟨e,mem⟩ := List.exists_mem_of_ne_nil _ some_
    have inside := updated e mem
    rw [none_] at inside
    cases inside
  obtain ⟨id,n,last,tree,all,given⟩ := InjectorDb.runRested two here retains injective lib.nodes start new dbRun
    addressed unfailing still.db.owners pairs
  have republishes := (runGoing lib documented start run).republishes
  refine ⟨id,last,republishes.kept.lastAnswered still.db.callbacks republishes.given last,fun e mem => ?_⟩
  exact tree.gets lib documented faithful serves sane.requests (fun x mem => sane.updates x (given mem))
    (all (updated e mem))

theorem requestsPublishedTwo : ∃ s : Service MockIpfs ClockTime,
    s.injector.calls.map InsertEntry.key = [letter 97,letter 98] ∧
    ∃ id, s.db.published.getLast? = some id ∧
      (∃ (i : Nat) (f : Flight) (status : Status), s.db.republisher.started[i]? = some f ∧ f.id = id ∧
        (i,status) ∈ s.db.republisher.completed) ∧
      ∀ e ∈ s.injector.calls, ∃ e' ∈ s.injector.calls, e'.key = e.key ∧ ∃ t, e'.ts = boost.clock t ∧
        Gets nlohmannAll (InjectorDb.contentStorage entryContent) boost () id e.key
          (if t.1.microsecond = 0 then .error .notFound else .ok ⟨e'.ts,e'.value⟩) := by
  obtain ⟨s,run,stuck,addressed,two,added,ended⟩ := entrySettled
  refine ⟨s,two,@requestsPublished _ _ entryConfig _ _ _ _ _ _ _ _ (by decide) rfl MockIpfs.pins.retainsKnown
    nlohmannDumpInjective nlohmannDocumented boostDocumented _ entryStarts rfl run addressed stuck ?_ ?_ ?_
    (InjectorDb.contentFaithful _) (InjectorDb.contentServes _)⟩
  · simp [added]
  · simp [InjectorDb.Unfailing,ended]
  · rintro none_
    rw [none_] at two
    cases two

end Service
end IpfsCache
