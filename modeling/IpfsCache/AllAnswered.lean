import IpfsCache.StepsEnd

/-! What every request waits for. An update waits for its insert or for its publish call, a
coroutine for its update; when nothing is left to be done no request waits. -/
namespace IpfsCache

def Stage.Stands (owners : List Nat) (callbacks : List Waiter) (u : Nat) : Stage → Prop
  | .inserting => u ∈ owners
  | .publishing call => some call ∈ callbacks.map Waiter.call
  | _ => True

theorem Stage.Stands.mono {owners owners' : List Nat} {callbacks callbacks' : List Waiter} {u : Nat} {stage : Stage}
    (stands : stage.Stands owners callbacks u) (own : owners ⊆ owners') (more : callbacks ⊆ callbacks') :
    stage.Stands owners' callbacks' u := by
  cases stage with
  | inserting => exact own stands
  | publishing call => exact List.map_subset _ more stands
  | returned => trivial
  | threw => trivial

namespace Republisher
variable {r r' : Republisher}

theorem publishCallbacks (cid : Cid) (r : Republisher) :
    (r.publish cid true).callbacks = r.callbacks ++ [⟨r.nodes,some r.calls.length⟩] := by
  unfold Republisher.publish
  split
  · rfl
  · exact (startKeeps _).1

theorem answerAwaits {f : Flight} {status : Status} (answer : r.answer f status = some r') {call : Nat}
    (waits : some call ∈ r.callbacks.map Waiter.call) :
    some call ∈ r'.callbacks.map Waiter.call ∨ ∃ x ∈ r'.invoked.drop r.invoked.length, x.call = call := by
  unfold Republisher.answer at answer
  split at answer
  · cases answer
  · rename_i front rest taken
    cases answer
    rw [taken] at waits
    rcases List.mem_cons.mp waits with first | behind
    · refine .inr ⟨⟨call,f.number,status⟩,?_,rfl⟩
      rw [List.drop_left,← first]
      exact List.mem_singleton_self _
    · exact .inl behind

theorem stepAwaits {e : Happening} (step : r.Step e r') (other : ∀ cid present, e ≠ .publish cid present) {call : Nat}
    (waits : some call ∈ r.callbacks.map Waiter.call) :
    some call ∈ r'.callbacks.map Waiter.call ∨ ∃ x ∈ r'.invoked.drop r.invoked.length, x.call = call := by
  cases e with
  | publish cid present => exact absurd rfl (other cid present)
  | expire => cases step; exact .inl waits
  | go =>
    simp only [Step,Republisher.step] at step
    split at step
    · cases step
    · split at step
      · cases step
        exact .inl ((startKeeps _).1.symm ▸ waits)
      · exact answerAwaits step waits
  | complete i status =>
    simp only [Step,Republisher.step] at step
    split at step
    · exact answerAwaits step waits
    · cases step
  | timeout i =>
    simp only [Step,Republisher.step] at step
    split at step
    · cases step
      unfold Republisher.timeout
      split
      · exact .inl waits
      · refine .inl ?_
        rw [(startKeeps _).1]
        simp only [pushBack,List.map_append]
        exact List.mem_append_left _ waits
    · cases step

theorem Kept.stuck (kept : Kept r) (stuck : ∀ e : Happening, e.Own → r.step e = none) : r.callbacks = [] := by
  cases kept.stage with
  | idle _ _ _ empty => exact empty
  | @flying f _ one still =>
    obtain ⟨_,step,_⟩ := kept.complete still (show r.flights[0]? = some f from by rw [one]; rfl) (.ok ())
    cases step.symm.trans (stuck (.complete 0 (.ok ())) trivial)
  | handling _ _ here =>
    obtain ⟨_,step,_⟩ := kept.go here
    cases step.symm.trans (stuck .go trivial)

end Republisher

theorem computes (cfg : Config) (tree : BTree) {frame : Frame} (busy : frame.waits = false)
    (inserts : ∀ kv ∈ frame.handing, (BTree.rawInsert cfg kv.1 kv.2 tree.root).isSome = true) :
    (advance cfg tree frame .go).isSome = true := by
  obtain ⟨root,buffer,flag⟩ := tree
  cases frame with
  | loop => cases buffer <;> rfl
  | batch buf =>
    cases buf with
    | nil =>
      cases root with
      | none => rfl
      | some r =>
        simp only [advance]
        split <;> rfl
    | cons kv buf =>
      rw [advance,Option.isSome_map]
      exact inserts kv (List.mem_singleton_self _)
  | unhooked => rcases root with _ | ⟨_ | n,hash⟩ <;> rfl
  | inserting => cases busy
  | unhooking => cases busy
  | storing => cases busy

theorem Carried.inserts {World : Type} {cfg : Config} {env : Env World} {R : World → Hash → Value → Prop}
    (two : 2 ≤ cfg.maxNodeSize) {s : System World} (carried : Carried cfg env R s) {frame : Frame}
    (one : s.frames = [frame]) :
    ∀ kv ∈ frame.handing, (BTree.rawInsert cfg kv.1 kv.2 s.tree.root).isSome = true := by
  obtain ⟨f,sound⟩ := carried.sound
  have same : [frame] = f.toList := one.symm.trans sound.frames
  obtain rfl : f = some frame := by cases f <;> cases same; rfl
  intro kv mem
  have whole : Whole cfg s.settled.tree.root := by
    rcases frame with _ | _ | _ | _ | _ | _ <;> first | cases mem | exact sound.sits.1
  obtain ⟨ps,n,raw,_⟩ := rawInserts two whole.good kv.1 kv.2
  have asSettled : BTree.rawInsert cfg kv.1 kv.2 s.tree.root = BTree.rawInsert cfg kv.1 kv.2 s.settled.tree.root := by
    rw [System.settled]
    cases s.tree.root <;> rfl
  rw [asSettled,raw]
  rfl

namespace InjectorDb
variable {World : Type} {cfg : Config} {ipfs : Ipfs World} {R : World → Hash → Value → Prop} {db db' : InjectorDb World}

def Awaited (db : InjectorDb World) : Prop :=
  ∀ (u : Nat) (up : Update), db.updates[u]? = some up → up.stage.Stands db.owners db.republisher.callbacks u

def OthersAwaited (u : Nat) (db : InjectorDb World) : Prop :=
  ∀ (v : Nat) (up : Update), v ≠ u → db.updates[v]? = some up → up.stage.Stands db.owners db.republisher.callbacks v

theorem goesAwaited {u : Nat} {stage : Stage} (own : stage.Stands db.owners db.republisher.callbacks u)
    (others : db.OthersAwaited u) :
    (db.goes u stage).Awaited := by
  intro v up here
  by_cases same : v = u
  · subst same
    simp only [goes,List.getElem?_modify_eq] at here
    obtain ⟨_,_,rfl⟩ := Option.map_eq_some_iff.mp here
    exact own
  · simp only [goes,List.getElem?_modify_ne _ _ (Ne.symm same)] at here
    exact others v up same here

theorem uploadAwaited (u : Nat)
    (others : db.OthersAwaited u) :
    (db.uploadDatabase u).Awaited := by
  unfold uploadDatabase
  dsimp only
  split
  · exact goesAwaited trivial others
  · have callbacks := Republisher.publishCallbacks db.map.tree.rootHash db.republisher
    refine goesAwaited ?_ fun v up other here => (others v up other here).mono (fun _ => id) ?_
    · change some _ ∈ (db.republisher.publish _ true).callbacks.map Waiter.call
      rw [callbacks]
      simp
    · change _ ⊆ (db.republisher.publish _ true).callbacks
      rw [callbacks]
      exact List.subset_append_left _ _

theorem insertedAwaited (u : Nat) (outcome : InsertOutcome)
    (others : db.OthersAwaited u) :
    (db.inserted u outcome).Awaited := by
  cases outcome with
  | completed => exact uploadAwaited u others
  | buffered => exact uploadAwaited u others
  | error ec => exact goesAwaited trivial others
  | exception => exact goesAwaited trivial others

theorem answerEach (xs : List Invoked) {us : List Update} {u : Nat} {up' : Update}
    (at_ : (xs.foldl (fun us x => us.map (·.answer x)) us)[u]? = some up') : ∃ up, us[u]? = some up ∧
      (up'.stage = up.stage ∧ (∀ x ∈ xs, up.stage ≠ .publishing x.call) ∨ ∃ status, up'.stage = .returned status) := by
  induction xs generalizing us with
  | nil => exact ⟨up',at_,.inl ⟨rfl,by simp⟩⟩
  | cons x xs ih =>
    obtain ⟨mid,here,stage⟩ := ih at_
    rw [List.getElem?_map] at here
    obtain ⟨up,there,rfl⟩ := Option.map_eq_some_iff.mp here
    refine ⟨up,there,?_⟩
    unfold Update.answer at stage
    split at stage
    · exact .inr (stage.elim (fun same => ⟨x.status,same.1⟩) id)
    · rename_i other
      exact stage.imp_left fun ⟨same,others⟩ => ⟨same,List.forall_mem_cons.mpr ⟨other,others⟩⟩

theorem Awaited.answered (awaited : db.Awaited) {e : Happening} {r : Republisher} (step : db.republisher.Step e r)
    (other : ∀ cid present, e ≠ .publish cid present) : (db.answered r).Awaited := by
  intro u up' here
  obtain ⟨up,old,⟨same,others⟩ | ⟨status,same⟩⟩ := answerEach _ here
  · have stands := awaited u up old
    rw [same]
    generalize up.stage = stage at stands others
    cases stage with
    | inserting => exact stands
    | publishing call =>
      exact (Republisher.stepAwaits step other stands).resolve_right fun ⟨x,mem,own⟩ => others x mem (own ▸ rfl)
    | returned => trivial
    | threw => trivial
  · rw [same]
    trivial

structure Republishes (db : InjectorDb World) : Prop where
  kept : db.republisher.Kept
  given : ∀ c ∈ db.republisher.calls, c.2 = true

structure Going (ipfs : Ipfs World) (db : InjectorDb World) : Prop where
  running : Running ipfs db
  republishes : db.Republishes
  awaited : db.Awaited

theorem uploadRepublishes (u : Nat) (republishes : db.Republishes) : (db.uploadDatabase u).Republishes := by
  obtain ⟨kept,given⟩ := republishes
  unfold uploadDatabase
  dsimp only
  split
  · exact ⟨kept,given⟩
  · refine ⟨kept.publish _ true,?_⟩
    change ∀ c ∈ (db.republisher.publish _ true).calls,c.2 = true
    rw [Republisher.publishCalls]
    exact List.forall_mem_append.mpr ⟨given,List.forall_mem_singleton.mpr rfl⟩

theorem insertedRepublishes (u : Nat) (outcome : InsertOutcome) (republishes : db.Republishes) :
    (db.inserted u outcome).Republishes := by
  cases outcome with
  | completed => exact uploadRepublishes u republishes
  | buffered => exact uploadRepublishes u republishes
  | error ec => exact ⟨republishes.kept,republishes.given⟩
  | exception => exact ⟨republishes.kept,republishes.given⟩

theorem Going.step (going : Going ipfs db) {e : DbEvent World} (step : InjectorDb.Step cfg ipfs db e db') :
    Going ipfs db' := by
  obtain ⟨moved,running⟩ := moves going.running step
  obtain ⟨kept,given⟩ := going.republishes
  have awaited := going.awaited
  have older {key : Key} {value : Value} {v : Nat} {up : Update} (other : v ≠ db.updates.length)
      (here : (db.called key value).updates[v]? = some up) : up.stage.Stands db.owners db.republisher.callbacks v := by
    have inside := (List.getElem?_eq_some_iff.mp here).1
    simp only [called,List.length_append,List.length_singleton] at inside
    exact awaited v up ((List.getElem?_append_left (by omega)).symm.trans here)
  cases moved with
  | @called key value idle =>
    refine ⟨running,⟨kept,given⟩,fun v up here => ?_⟩
    by_cases same : v = db.updates.length
    · subst same
      have last : (db.updates ++ [⟨key,value,.inserting⟩])[db.updates.length]? = some up := here
      rw [List.getElem?_concat_length] at last
      cases last
      exact List.mem_singleton_self _
    · have owners : db.owners = [] := by
        cases going.running with
        | idle _ owners => exact owners
        | busy frames => cases frames.symm.trans idle
      exact (older same here).mono (by rw [owners]; exact List.nil_subset _) fun _ => id
  | @buffered key value =>
    exact ⟨running,uploadRepublishes _ ⟨kept,given⟩,uploadAwaited _ fun v up other here => older other here⟩
  | added => exact ⟨running,⟨kept,given⟩,awaited⟩
  | republished gone other =>
    refine ⟨running,⟨Republisher.stepKept kept gone,fun c mem => given c ?_⟩,awaited.answered gone other⟩
    rw [← Republisher.stepCalls gone other]
    exact mem
  | went => exact ⟨running,⟨kept,given⟩,awaited⟩
  | @ended _ _ map u outcome resumed owner =>
    refine ⟨running,insertedRepublishes u outcome ⟨kept,given⟩,insertedAwaited u outcome fun v up other here => ?_⟩
    have stands := awaited v up here
    generalize up.stage = stage at stands ⊢
    cases stage with
    | inserting => exact absurd (List.mem_singleton.mp (owner ▸ stands)) other
    | publishing call => exact stands
    | returned => trivial
    | threw => trivial

theorem startGoing (start : Starts cfg db) : Going ipfs db := by
  obtain ⟨S,pathToRepo,ipns,files,world,_,rfl⟩ := start
  obtain ⟨frames,owners,flag,midway⟩ := initialIdle cfg S pathToRepo ipns files world
  exact ⟨.idle frames owners flag midway,⟨Republisher.reachedKept (.start rfl),fun c mem => by cases mem⟩,
    fun u up here => by cases here⟩

theorem resumes {frame : Frame} (one : db.map.frames = [frame]) {by_ : Resumption}
    (advances : (advance cfg db.map.tree frame by_).isSome = true) (world : World) :
    db.resume cfg 0 by_ world ≠ none := by
  obtain ⟨a,advanced⟩ := Option.isSome_iff_exists.mp advances
  simp [resume,System.step,one,advanced]

theorem Running.stuck (running : Running ipfs db) (two : 2 ≤ cfg.maxNodeSize) (carried : Carried cfg ipfs.env R db.map)
    (stuck : ∀ e : DbEvent World, e.Own → db.step cfg e = none) :
    db.map.frames = [] ∧ db.owners = [] := by
  cases running with
  | idle frames owners => exact ⟨frames,owners⟩
  | @busy frame u one owners =>
    have removed (advances : (advance cfg db.map.tree frame .removed).isSome = true) : False :=
      resumes one advances db.map.world (stuck (.unpinned 0 (.ok ()) db.map.world) trivial)
    exfalso
    cases waits : frame.waits with
    | false =>
      exact resumes one (computes cfg _ waits (carried.inserts two one)) db.map.world (stuck (.go 0) trivial)
    | true =>
      cases frame with
      | inserting p ps after buf => cases ps <;> exact removed rfl
      | unhooking hash => exact removed rfl
      | storing x next =>
        have failed := stuck (.added 0 (.error .notFound) db.map.world) trivial
        have pinned := stuck (.pinned 0 (.ok ()) db.map.world) trivial
        cases midway : db.midway with
        | none =>
          simp only [InjectorDb.step,midway,one,List.getElem?_cons_zero] at failed
          exact resumes one rfl _ failed
        | some m =>
          simp only [InjectorDb.step,midway] at pinned
          have same : ({ db with midway := none } : InjectorDb World).map.frames = [.storing x next] := one
          exact resumes same rfl _ pinned
      | _ => cases waits

structure Still (db : InjectorDb World) : Prop where
  frames : db.map.frames = []
  owners : db.owners = []
  callbacks : db.republisher.callbacks = []
  finished : ∀ up ∈ db.updates, ∃ ec, up.stage.over = some ec

theorem Going.stuck (going : Going ipfs db) (two : 2 ≤ cfg.maxNodeSize) (carried : Carried cfg ipfs.env R db.map)
    (stuck : ∀ e : DbEvent World, e.Own → db.step cfg e = none) : db.Still := by
  obtain ⟨frames,owners⟩ := going.running.stuck two carried stuck
  have callbacks := going.republishes.kept.stuck fun e own => by
    have still := stuck (.republish e) own
    cases e with
    | publish => cases own
    | expire => cases own
    | _ => exact Option.map_eq_none_iff.mp still
  refine ⟨frames,owners,callbacks,fun up mem => ?_⟩
  obtain ⟨u,here⟩ := List.mem_iff_getElem?.mp mem
  have stands := going.awaited u up here
  rw [owners,callbacks] at stands
  generalize up.stage = stage at stands ⊢
  cases stage with
  | inserting => cases stands
  | publishing call => cases stands
  | returned status => exact ⟨_,rfl⟩
  | threw => exact ⟨_,rfl⟩

theorem runGoing (start : Starts cfg db) (run : Reach (· = db) (InjectorDb.Step cfg ipfs) db') : Going ipfs db' :=
  run.invariant (fun _ same => (show _ = db from same) ▸ startGoing start) fun _ _ _ going step => going.step step

end InjectorDb

namespace Service
variable {World Ptime : Type} {cfg : Config} {ipfs : Ipfs World} {R : World → Hash → Value → Prop}
  {content : Hash → Option Value} {dt : DateTime Ptime} {s s' : Service World Ptime}

def Begun (s : Service World Ptime) : Prop := ∀ u, some u ∈ s.began → u < s.db.updates.length

theorem Begun.step (begun : s.Begun) {e : ServiceEvent World Ptime} (step : s.step cfg dt e = some s') : s'.Begun := by
  have longer {db : InjectorDb World} {e : DbEvent World} (step : s.db.step cfg e = some db) :
      db.updates.length = s.db.updates.length + (InjectorDb.added e).length := by
    simpa [InjectorDb.pairs] using congrArg List.length (InjectorDb.stepPairs step)
  cases moves step with
  | called => exact begun
  | goes => exact begun
  | failed => exact fun u mem => begun u (by simpa using mem)
  | spawned => exact fun u mem => begun u (by simpa using mem)
  | begun _ _ goes =>
    intro u mem
    dsimp only
    rw [longer goes]
    rcases List.mem_or_eq_of_mem_set mem with old | new
    · exact Nat.lt_of_lt_of_le (begun u old) (Nat.le_add_right _ _)
    · cases new
      exact Nat.lt_succ_self _
  | went _ goes =>
    intro u mem
    dsimp only
    rw [longer goes]
    exact Nat.lt_of_lt_of_le (begun u mem) (Nat.le_add_right _ _)
  | threw => exact fun u mem => begun u (List.mem_of_mem_eraseIdx mem)
  | returned => exact fun u mem => begun u (List.mem_of_mem_eraseIdx mem)

structure Still (s : Service World Ptime) : Prop where
  waiting : s.injector.waiting = []
  updating : s.injector.updating = []
  began : s.began = []
  db : s.db.Still

theorem Sane.stuck (sane : s.Sane cfg content dt) (begun : s.Begun) (two : 2 ≤ cfg.maxNodeSize)
    (carried : Carried cfg ipfs.env R s.db.map) (going : s.db.Going ipfs)
    (stuck : ∀ e : ServiceEvent World Ptime, e.Own → s.step cfg dt e = none) : s.Still := by
  have still : s.injector.handling = false := by
    cases handles : s.injector.handling with
    | false => rfl
    | true =>
      have gone := stuck .go trivial
      simp [Service.step,Injector.step,handles] at gone
  have added : s.injector.adding = [] := by
    refine List.eq_nil_iff_forall_not_mem.mpr fun e mem => ?_
    obtain ⟨i,at_⟩ := List.mem_iff_getElem?.mp mem
    have gone := stuck (.added i (.error .notFound) ⟨[]⟩) trivial
    simp [Service.step,Injector.step,still,at_] at gone
  have queue : s.injector.insertQueue = [] := by
    by_contra some_
    have full := sane.kept.queued.busy some_
    rw [added] at full
    cases full
  have db := going.stuck two carried fun e own => by
    have gone := stuck (.db e) own
    cases e with
    | update => cases own
    | _ => simpa [Service.step,still] using gone
  have none_ : s.began = [] := by
    refine List.eq_nil_iff_forall_not_mem.mpr fun b mem => ?_
    obtain ⟨i,at_⟩ := List.mem_iff_getElem?.mp mem
    obtain ⟨v,own⟩ : ∃ v, s.injector.updating[i]? = some v :=
      ⟨_,List.getElem?_eq_getElem (sane.long ▸ (List.getElem?_eq_some_iff.mp at_).1)⟩
    cases b with
    | none =>
      have gone := stuck (.begins i) trivial
      simp [Service.step,still,own,at_,InjectorDb.step,db.frames] at gone
    | some u =>
      have here := List.getElem?_eq_getElem (begun u mem)
      obtain ⟨ec,ended⟩ := db.finished _ (List.getElem_mem (begun u mem))
      have gone := stuck (.returns i) trivial
      cases ec <;> simp [Service.step,Injector.step,still,own,at_,here,ended] at gone
  have long := sane.long
  rw [none_,List.length_nil] at long
  exact ⟨by rw [Injector.waiting,added,queue]; rfl,List.length_eq_zero_iff.mp long.symm,none_,db⟩

end Service

namespace Injector
variable {Ptime : Type} {inj : Injector Ptime}

theorem Kept.ended (kept : inj.Kept) (waits : inj.waiting = []) (updated : inj.updating = []) :
    (left inj.updated ++ inj.invoked.map OnInsert.call).Perm (List.range inj.calls.length) := by
  obtain ⟨added,queue⟩ := List.append_eq_nil_iff.mp waits
  have order := kept.queued.order
  rw [queue,List.append_nil] at order
  refine List.perm_iff_count.mpr fun call => ?_
  have count := kept.placed call
  rwa [List.count_nil,Nat.zero_add,order,kept.numbered,whereabouts,added,updated,List.map_nil,List.map_nil,
    List.nil_append,List.nil_append] at count

end Injector

namespace Service
variable {World Ptime : Type} {cfg : Config} {ipfs : Ipfs World} {R : World → Hash → Value → Prop}
  {content : Hash → Option Value} {dt : DateTime Ptime} {s : Service World Ptime}

theorem runGoing (lib : cfg.json.Documented) (documented : dt.Documented) {db₀ : InjectorDb World}
    (start : InjectorDb.Starts cfg db₀) (run : Reach (· = fresh db₀) (Service.Step cfg ipfs R content dt) s) :
    s.db.Going ipfs :=
  InjectorDb.runGoing start <| ((freshSane start).run lib documented run).2.mono (fun _ => id) fun _ _ _ step => step.1

theorem runStill (two : 2 ≤ cfg.maxNodeSize) (here : cfg.addOp = true) (retains : Retains ipfs.env R)
    (injective : cfg.json.DumpInjective fun _ => True) (lib : cfg.json.Documented) (documented : dt.Documented)
    {db₀ : InjectorDb World} (start : InjectorDb.Starts cfg db₀)
    (run : Reach (· = fresh db₀) (Service.Step cfg ipfs R content dt) s)
    (stuck : ∀ e : ServiceEvent World Ptime, e.Own → s.step cfg dt e = none) : s.Still := by
  obtain ⟨sane,dbRun⟩ := (freshSane start).run lib documented run
  have sending := InjectorDb.runSending two here retains injective lib.nodes start dbRun
  have begun : s.Begun := run.invariant (fun s same u mem => by rw [show s = fresh db₀ from same] at mem; cases mem)
    fun _ _ _ begun step => begun.step step.2.2
  exact sane.stuck begun two sending.carried (runGoing lib documented start run) stuck

/-- While no request comes and the Republisher's timer does not expire, every run comes to an end,
whatever fails and in whatever order things return. When nothing is left that could be done, each
request's on_insert has been called once, or an exception has left its coroutine. -/
theorem insertsAnswered (two : 2 ≤ cfg.maxNodeSize) (here : cfg.addOp = true) (retains : Retains ipfs.env R)
    (injective : cfg.json.DumpInjective fun _ => True) (lib : cfg.json.Documented) (documented : dt.Documented)
    {db₀ : InjectorDb World} (start : InjectorDb.Starts cfg db₀)
    (run : Reach (· = fresh db₀) (Service.Step cfg ipfs R content dt) s) :
    Acc (fun after before => ∃ e, e.Own ∧ Service.Step cfg ipfs R content dt before e after) s ∧
    ((∀ e : ServiceEvent World Ptime, e.Own → s.step cfg dt e = none) →
      (Injector.left s.injector.updated ++ s.injector.invoked.map OnInsert.call).Perm
        (List.range s.injector.calls.length)) := by
  constructor
  · induction s using lessWellFounded.induction with
    | h s ih =>
      refine .intro s fun s' ⟨e,own,step⟩ => ?_
      exact ih s' (stepLess (runGoing lib documented start run).running step own) (.step e run step)
  · intro stuck
    have still := runStill two here retains injective lib documented start run stuck
    exact ((freshSane start).run lib documented run).1.kept.ended still.waiting still.updating

theorem emptyStuck (still : s.injector.handling = false) (added : s.injector.adding = [])
    (updated : s.injector.updating = []) (began : s.began = []) (frames : s.db.map.frames = [])
    (midway : s.db.midway = none) (flights : s.db.republisher.flights = [])
    (handled : s.db.republisher.handling = none) (ready : s.db.republisher.timer.ready = []) :
    ∀ e : ServiceEvent World Ptime, e.Own → s.step cfg dt e = none := by
  intro e own
  cases e with
  | insertContent => cases own
  | go => simp [Service.step,Injector.step,still]
  | added => simp [Service.step,Injector.step,still,added]
  | begins => simp [Service.step,still,updated]
  | returns => simp [Service.step,began]
  | db e =>
    cases e with
    | update => cases own
    | go => simp [Service.step,InjectorDb.step,InjectorDb.resume,System.step,frames]
    | unpinned => simp [Service.step,InjectorDb.step,InjectorDb.resume,System.step,frames]
    | added => simp [Service.step,InjectorDb.step,midway,frames]
    | pinned => simp [Service.step,InjectorDb.step,midway]
    | republish e =>
      cases e with
      | publish => cases own
      | expire => cases own
      | complete => simp [Service.step,InjectorDb.step,InjectorDb.republish,Republisher.step,handled,flights]
      | go => simp [Service.step,InjectorDb.step,InjectorDb.republish,Republisher.step,handled]
      | timeout => simp [Service.step,InjectorDb.step,InjectorDb.republish,Republisher.step,handled,ready]

theorem entrySettled : ∃ s : Service MockIpfs ClockTime, Reach (· = fresh entryDb) EntryStep s ∧
    (∀ e : ServiceEvent MockIpfs ClockTime, e.Own → s.step entryConfig boost e = none) ∧
    Addressed entryContent MockIpfs.Known s.db.map.world ∧
    s.injector.calls.map InsertEntry.key = [letter 97,letter 98] ∧
    s.injector.added = [(0,.ok ()),(1,.ok ())] ∧ s.db.map.ended = [.buffered,.completed] := by
  have run : ((play (twoRequests ++ .begins 0 :: besideUpdate) (fresh entryDb)).any fun s =>
      decide (s.injector.calls.map InsertEntry.key = [letter 97,letter 98]) &&
      decide (s.injector.added = [(0,.ok ()),(1,.ok ())]) &&
      decide (s.db.map.ended = [.buffered,.completed]) && s.Fits && !s.injector.handling &&
      s.injector.adding.isEmpty && s.injector.updating.isEmpty && s.began.isEmpty && s.db.map.frames.isEmpty &&
      s.db.midway.isNone && s.db.republisher.flights.isEmpty && s.db.republisher.handling.isNone &&
      s.db.republisher.timer.ready.isEmpty) = true := by
    decide +kernel
  obtain ⟨s,played,seen⟩ := Option.any_eq_true _ _ |>.mp run
  simp only [Bool.and_eq_true,decide_eq_true_eq,List.isEmpty_iff,Option.isNone_iff_eq_none,Bool.not_eq_true'] at seen
  obtain ⟨⟨⟨⟨⟨⟨⟨⟨⟨⟨⟨⟨two,told⟩,ends⟩,fits⟩,still⟩,added⟩,updated⟩,began⟩,frames⟩,midway⟩,flights⟩,handled⟩,ready⟩ :=
    seen
  exact ⟨s,playRun (.start rfl) played,emptyStuck still added updated began frames midway flights handled ready,
    InjectorDb.contentAddressed (Bool.and_eq_true _ _ ▸ fits).2,two,told,ends⟩

theorem insertsAnsweredTwo : ∃ s : Service MockIpfs ClockTime,
    s.injector.calls.map InsertEntry.key = [letter 97,letter 98] ∧
    Acc (fun after before => ∃ e, e.Own ∧ EntryStep before e after) s ∧
    (Injector.left s.injector.updated ++ s.injector.invoked.map OnInsert.call).Perm [0,1] := by
  obtain ⟨s,run,stuck,_,two,_⟩ := entrySettled
  have answered := insertsAnswered (by decide) rfl MockIpfs.pins.retainsKnown nlohmannDumpInjective nlohmannDocumented
    boostDocumented entryStarts run
  refine ⟨s,two,answered.1,?_⟩
  have all := answered.2 stuck
  rwa [← List.length_map (f := InsertEntry.key),two] at all

end Service
end IpfsCache
