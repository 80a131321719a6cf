import IpfsCache.Injecting
import IpfsCache.Publications

/-! An Injector with its InjectorDb. A request's content is added to the backend, up to eight
at a time; then a coroutine calls InjectorDb::update, and any number of updates overlap. -/
namespace IpfsCache

def Stage.over : Stage → Option (Option Status)
  | .returned status => some (some status)
  | .threw => some none
  | _ => none

structure Service (World Ptime : Type) where
  injector : Injector Ptime
  db : InjectorDb World
  began : List (Option Nat)

inductive ServiceEvent (World Ptime : Type) where
  | insertContent (key : Key) (value : Value) (ts : Ptime)
  | added (i : Nat) (eca : Status) (ipfsId : Hash)
  | begins (i : Nat)
  | db (e : DbEvent World)
  | returns (i : Nat)
  | go

namespace Service
variable {World Ptime : Type}

def fresh (db : InjectorDb World) : Service World Ptime := ⟨.fresh,db,[]⟩

def step (cfg : Config) (dt : DateTime Ptime) (s : Service World Ptime) :
    ServiceEvent World Ptime → Option (Service World Ptime)
  | .insertContent key value ts =>
    (s.injector.step cfg.json dt (.insertContent key value ts)).map fun inj => { s with injector := inj }
  | .go => (s.injector.step cfg.json dt .go).map fun inj => { s with injector := inj }
  | .added i eca ipfsId =>
    (s.injector.step cfg.json dt (.added i eca ipfsId)).map fun inj =>
      { s with
        injector := inj,
        began := s.began ++ match eca with | .ok () => [none] | .error _ => [] }
  | .begins i =>
    match s.injector.handling,s.injector.updating[i]?,s.began[i]? with
    | false,some u,some none =>
      (s.db.step cfg (.update u.key u.value)).map fun db =>
        { s with db := db, began := s.began.set i (some s.db.updates.length) }
    | _,_,_ => none
  | .db (.update ..) => none
  | .db e => if s.injector.handling then none else (s.db.step cfg e).map fun db => { s with db := db }
  | .returns i =>
    match s.began[i]?.bind id with
    | none => none
    | some u =>
      ((s.db.updates[u]?).bind fun up => up.stage.over).bind fun ec =>
        (s.injector.step cfg.json dt (.updated i ec)).map fun inj =>
          { s with injector := inj, began := s.began.eraseIdx i }

/-- Requests with proper text as their url and a time of the clock. An id that an add of a
content reports stands for that content. -/
def Allowed (ipfs : Ipfs World) (content : Hash → Option Value) (dt : DateTime Ptime) (s : Service World Ptime) :
    ServiceEvent World Ptime → Prop
  | .insertContent key _ ts => (ProperKey key ∧ key.ValidUtf8) ∧ ∃ t, ts = dt.clock t
  | .added i (.ok ()) ipfsId => ∀ e, s.injector.adding[i]? = some e → content ipfsId = some e.value ∧ ipfsId.ValidUtf8
  | .db e => s.db.Allowed ipfs e
  | _ => True

def Step (cfg : Config) (ipfs : Ipfs World) (R : World → Hash → Value → Prop) (content : Hash → Option Value)
    (dt : DateTime Ptime) (s : Service World Ptime) (e : ServiceEvent World Ptime) (s' : Service World Ptime) :
    Prop :=
  s.Allowed ipfs content dt e ∧ Addressed content R s.db.map.world ∧ s.step cfg dt e = some s'

end Service

namespace Injector
variable {Ptime : Type} {lib : JsonLib} {dt : DateTime Ptime} {inj inj' : Injector Ptime}

def waiting (inj : Injector Ptime) : List (InsertEntry Ptime) := inj.adding ++ inj.insertQueue

theorem fromQueueWaiting : inj.insertContentFromQueue.waiting = inj.waiting := by
  unfold insertContentFromQueue
  split
  · rfl
  · rename_i e rest at_
    simp [waiting,at_]

theorem insertWaiting (inj : Injector Ptime) (key : Key) (value : Value) (ts : Ptime) :
    (inj.insertContent key value ts).waiting = inj.waiting ++ [⟨key,value,ts,inj.calls.length⟩] ∧
    (inj.insertContent key value ts).updating = inj.updating := by
  have pushed : (inj.push key value ts).waiting = inj.waiting ++ [⟨key,value,ts,inj.calls.length⟩] := by
    simp [waiting,push]
  unfold insertContent
  dsimp only
  split
  · exact ⟨pushed,rfl⟩
  · exact ⟨fromQueueWaiting.trans pushed,fromQueueUpdating⟩

theorem takeWaiting (inj : Injector Ptime) (i : Nat) (e : InsertEntry Ptime) (eca : Status) :
    (inj.take i e eca).waiting ⊆ inj.waiting ∧ (inj.take i e eca).calls = inj.calls ∧
    (inj.take i e eca).updating = inj.updating := by
  refine ⟨?_,fromQueueCalls,fromQueueUpdating⟩
  rw [take,fromQueueWaiting]
  exact List.append_subset.mpr ⟨fun x mem => List.mem_append_left _ (List.mem_of_mem_eraseIdx mem),
    List.subset_append_right _ _⟩

inductive Moved (lib : JsonLib) (dt : DateTime Ptime) (inj : Injector Ptime) :
    InjectorEvent Ptime → Injector Ptime → Prop
  | called (key : Key) (value : Value) (ts : Ptime) :
      Moved lib dt inj (.insertContent key value ts) (inj.insertContent key value ts)
  | goes : Moved lib dt inj .go { inj with handling := false }
  | failed {i : Nat} {e : InsertEntry Ptime} (at_ : inj.adding[i]? = some e) (ec : ErrorCode) (ipfsId : Hash) :
      Moved lib dt inj (.added i (.error ec) ipfsId)
        ((inj.take i e (.error ec)).invoke ⟨e.onInsert,.error ec,ipfsId⟩)
  | spawned {i : Nat} {e : InsertEntry Ptime} (at_ : inj.adding[i]? = some e) (ipfsId : Hash) :
      Moved lib dt inj (.added i (.ok ()) ipfsId)
        ((inj.take i e (.ok ())).spawn ⟨e.key,writeEntry lib dt ipfsId e.ts,ipfsId,e.onInsert⟩)
  | threw {i : Nat} {u : DbUpdate} (at_ : inj.updating[i]? = some u) :
      Moved lib dt inj (.updated i none) (inj.back i u none)
  | returned {i : Nat} {u : DbUpdate} (at_ : inj.updating[i]? = some u) (status : Status) :
      Moved lib dt inj (.updated i (some status))
        ((inj.back i u (some status)).invoke ⟨u.onInsert,status,u.ipfsId⟩)

theorem moves {e : InjectorEvent Ptime} (step : inj.step lib dt e = some inj') : Moved lib dt inj e inj' := by
  cases e with
  | insertContent key value ts =>
    cases step
    exact .called key value ts
  | go =>
    simp only [Injector.step] at step
    split at step
    · cases step
      exact .goes
    · cases step
  | added i eca ipfsId =>
    simp only [Injector.step] at step
    split at step
    · rename_i at_
      cases eca with
      | error ec =>
        cases step
        exact .failed at_ ec ipfsId
      | ok done =>
        cases step
        exact .spawned at_ ipfsId
    · cases step
  | updated i ec =>
    simp only [Injector.step] at step
    split at step
    · rename_i at_
      cases ec with
      | none =>
        cases step
        exact .threw at_
      | some status =>
        cases step
        exact .returned at_ status
    · cases step

end Injector

namespace InjectorDb
variable {World : Type} {cfg : Config}

def added : DbEvent World → List (Key × Value)
  | .update key value => [(key,value)]
  | _ => []

theorem resumePairs {i : Nat} {by_ : Resumption} {world : World} {db db' : InjectorDb World}
    (step : db.resume cfg i by_ world = some db') : db'.pairs = db.pairs := by
  obtain ⟨map,_,rfl⟩ := Option.map_eq_some_iff.mp step
  split
  · exact insertedPairs _ _ _
  · rfl

theorem stepPairs {db db' : InjectorDb World} {e : DbEvent World} (step : db.step cfg e = some db') :
    db'.pairs = db.pairs ++ added e := by
  have quiet (same : db'.pairs = db.pairs) : db'.pairs = db.pairs ++ [] := same.trans (List.append_nil _).symm
  cases e with
  | update key value =>
    simp only [InjectorDb.step] at step
    split at step
    · cases step
      unfold update
      dsimp only
      split
      · exact (insertedPairs _ _ _).trans (calledPairs key value db)
      · exact calledPairs key value db
    · cases step
  | go i => exact quiet (resumePairs step)
  | unpinned i status world => exact quiet (resumePairs step)
  | added i reply world =>
    refine quiet ?_
    simp only [InjectorDb.step] at step
    split at step
    · cases step
      rfl
    · exact resumePairs step
    · cases step
  | pinned i status world =>
    refine quiet ?_
    simp only [InjectorDb.step] at step
    split at step
    · cases step
    · have same := resumePairs step
      exact same
  | republish e =>
    obtain ⟨r,_,_,rfl⟩ := republishCases step
    exact quiet (answeredPairs r db)

end InjectorDb

namespace Service
variable {World Ptime : Type} {cfg : Config} {ipfs : Ipfs World} {R : World → Hash → Value → Prop}
  {content : Hash → Option Value} {dt : DateTime Ptime} {s s' : Service World Ptime}

def Requested (json : JsonLib) (dt : DateTime Ptime) (content : Hash → Option Value)
    (calls : List (InsertEntry Ptime)) (key : Key) (value : Value) : Prop :=
  ∃ e ∈ calls, e.key = key ∧ ∃ ipfsId, content ipfsId = some e.value ∧ ipfsId.ValidUtf8 ∧
    value = writeEntry json dt ipfsId e.ts

theorem Requested.mono {json : JsonLib} {calls calls' : List (InsertEntry Ptime)} {key : Key} {value : Value}
    (requested : Requested json dt content calls key value) (more : calls ⊆ calls') :
    Requested json dt content calls' key value := by
  obtain ⟨e,mem,rest⟩ := requested
  exact ⟨e,more mem,rest⟩

structure Sane (cfg : Config) (content : Hash → Option Value) (dt : DateTime Ptime) (s : Service World Ptime) :
    Prop where
  kept : s.injector.Kept
  long : s.began.length = s.injector.updating.length
  requests : ∀ e ∈ s.injector.calls, (ProperKey e.key ∧ e.key.ValidUtf8) ∧ ∃ t, e.ts = dt.clock t
  waiting : s.injector.waiting ⊆ s.injector.calls
  coroutines : ∀ u ∈ s.injector.updating, Requested cfg.json dt content s.injector.calls u.key u.value
  updates : ∀ x ∈ s.db.pairs, Requested cfg.json dt content s.injector.calls x.1 x.2

theorem Sane.called (sane : s.Sane cfg content dt) (key : Key) (value : Value) (t : ClockTime)
    (text : ProperKey key ∧ key.ValidUtf8) :
    Sane cfg content dt { s with injector := s.injector.insertContent key value (dt.clock t) } := by
  obtain ⟨waits,updating⟩ := s.injector.insertWaiting key value (dt.clock t)
  have calls := (@Injector.insertCalls _ s.injector key value (dt.clock t)).1
  have more : s.injector.calls ⊆ (s.injector.insertContent key value (dt.clock t)).calls := by
    rw [calls]
    exact List.subset_append_left _ _
  refine ⟨sane.kept.insert key value (dt.clock t),sane.long.trans (congrArg List.length updating).symm,?_,?_,?_,
    fun x mem => (sane.updates x mem).mono more⟩
  · dsimp only
    rw [calls]
    exact List.forall_mem_append.mpr ⟨sane.requests,List.forall_mem_singleton.mpr ⟨text,t,rfl⟩⟩
  · dsimp only
    rw [waits,calls]
    exact List.append_subset.mpr ⟨fun x mem => List.mem_append_left _ (sane.waiting mem),List.subset_append_right _ _⟩
  · dsimp only
    rw [updating]
    exact fun u mem => (sane.coroutines u mem).mono more

theorem Sane.injector (sane : s.Sane cfg content dt) {inj : Injector Ptime} {began : List (Option Nat)}
    (kept : inj.Kept) (long : began.length = inj.updating.length) (calls : inj.calls = s.injector.calls)
    (waits : inj.waiting ⊆ s.injector.waiting)
    (coroutines : ∀ u ∈ inj.updating, Requested cfg.json dt content s.injector.calls u.key u.value) :
    Sane cfg content dt { s with injector := inj, began := began } :=
  ⟨kept,long,by rw [calls]; exact sane.requests,by rw [calls]; exact fun x mem => sane.waiting (waits mem),
    by rw [calls]; exact coroutines,by rw [calls]; exact sane.updates⟩

theorem Sane.back (sane : s.Sane cfg content dt) {i : Nat} {u : DbUpdate} (at_ : s.injector.updating[i]? = some u)
    {inj : Injector Ptime} (kept : inj.Kept) (updating : inj.updating = s.injector.updating.eraseIdx i)
    (calls : inj.calls = s.injector.calls) (waits : inj.waiting = s.injector.waiting) :
    Sane cfg content dt { s with injector := inj, began := s.began.eraseIdx i } := by
  have inside := (List.getElem?_eq_some_iff.mp at_).1
  refine sane.injector kept ?_ calls (waits ▸ fun _ => id) fun v mem => ?_
  · rw [updating,List.length_eraseIdx_of_lt inside,List.length_eraseIdx_of_lt (sane.long ▸ inside),sane.long]
  · rw [updating] at mem
    exact sane.coroutines v (List.mem_of_mem_eraseIdx mem)

inductive Moved (cfg : Config) (dt : DateTime Ptime) (s : Service World Ptime) :
    ServiceEvent World Ptime → Service World Ptime → Prop
  | called (key : Key) (value : Value) (ts : Ptime) : Moved cfg dt s (.insertContent key value ts)
      { s with injector := s.injector.insertContent key value ts }
  | goes : Moved cfg dt s .go { s with injector := { s.injector with handling := false } }
  | failed {i : Nat} {e : InsertEntry Ptime} (at_ : s.injector.adding[i]? = some e) (ec : ErrorCode) (ipfsId : Hash) :
      Moved cfg dt s (.added i (.error ec) ipfsId)
        { s with
          injector := (s.injector.take i e (.error ec)).invoke ⟨e.onInsert,.error ec,ipfsId⟩, began := s.began ++ [] }
  | spawned {i : Nat} {e : InsertEntry Ptime} (at_ : s.injector.adding[i]? = some e) (ipfsId : Hash) :
      Moved cfg dt s (.added i (.ok ()) ipfsId)
        { s with
          injector := (s.injector.take i e (.ok ())).spawn
            ⟨e.key,writeEntry cfg.json dt ipfsId e.ts,ipfsId,e.onInsert⟩,
          began := s.began ++ [none] }
  | begun {i : Nat} {u : DbUpdate} {db : InjectorDb World} (at_ : s.injector.updating[i]? = some u)
      (new : s.began[i]? = some none) (step : s.db.step cfg (.update u.key u.value) = some db) :
      Moved cfg dt s (.begins i) { s with db := db, began := s.began.set i (some s.db.updates.length) }
  | went {e : DbEvent World} {db : InjectorDb World} (other : ∀ key value, e ≠ .update key value)
      (step : s.db.step cfg e = some db) : Moved cfg dt s (.db e) { s with db := db }
  | threw {i u : Nat} {v : DbUpdate} {up : Update} (at_ : s.injector.updating[i]? = some v)
      (began : s.began[i]? = some (some u)) (here : s.db.updates[u]? = some up) (stage : up.stage = .threw) :
      Moved cfg dt s (.returns i)
        { s with injector := s.injector.back i v none, began := s.began.eraseIdx i }
  | returned {i u : Nat} {v : DbUpdate} {up : Update} {status : Status} (at_ : s.injector.updating[i]? = some v)
      (began : s.began[i]? = some (some u)) (here : s.db.updates[u]? = some up)
      (stage : up.stage = .returned status) :
      Moved cfg dt s (.returns i)
        { s with
          injector := (s.injector.back i v (some status)).invoke ⟨v.onInsert,status,v.ipfsId⟩,
          began := s.began.eraseIdx i }

theorem moves {e : ServiceEvent World Ptime} (step : s.step cfg dt e = some s') : Moved cfg dt s e s' := by
  cases e with
  | insertContent key value ts =>
    simp only [Service.step] at step
    obtain ⟨inj,moved,rfl⟩ := Option.map_eq_some_iff.mp step
    cases Injector.moves moved
    exact .called key value ts
  | go =>
    simp only [Service.step] at step
    obtain ⟨inj,moved,rfl⟩ := Option.map_eq_some_iff.mp step
    cases Injector.moves moved
    exact .goes
  | added i eca ipfsId =>
    simp only [Service.step] at step
    obtain ⟨inj,moved,rfl⟩ := Option.map_eq_some_iff.mp step
    cases Injector.moves moved with
    | failed at_ ec => exact .failed at_ ec ipfsId
    | spawned at_ => exact .spawned at_ ipfsId
  | begins i =>
    simp only [Service.step] at step
    split at step
    · rename_i u _ at_ new
      obtain ⟨db,goes,rfl⟩ := Option.map_eq_some_iff.mp step
      exact .begun at_ new goes
    · cases step
  | db e =>
    have goes (other : ∀ key value, e ≠ .update key value)
        (step : (if s.injector.handling then none else (s.db.step cfg e).map fun db => { s with db := db }) =
          some s') :
        Moved cfg dt s (.db e) s' := by
      obtain ⟨_,goes⟩ := Option.ite_none_left_eq_some.mp step
      obtain ⟨db,moved,rfl⟩ := Option.map_eq_some_iff.mp goes
      exact .went other moved
    cases e with
    | update => cases step
    | _ => exact goes (fun _ _ same => (by cases same)) step
  | returns i =>
    simp only [Service.step] at step
    split at step
    · cases step
    · rename_i u began
      obtain ⟨own,began,rfl⟩ := Option.bind_eq_some_iff.mp began
      obtain ⟨ec,ended,step⟩ := Option.bind_eq_some_iff.mp step
      obtain ⟨up,here,ended⟩ := Option.bind_eq_some_iff.mp ended
      obtain ⟨inj,moved,rfl⟩ := Option.map_eq_some_iff.mp step
      generalize stage : up.stage = x at ended
      cases x with
      | inserting => cases ended
      | publishing call => cases ended
      | returned status =>
        cases ended
        cases Injector.moves moved with
        | returned at_ => exact .returned at_ began here stage
      | threw =>
        cases ended
        cases Injector.moves moved with
        | threw at_ => exact .threw at_ began here stage

theorem Requested.clean {calls : List (InsertEntry Ptime)} {key : Key} {value : Value}
    (requested : Requested cfg.json dt content calls key value) (lib : cfg.json.Documented)
    (documented : dt.Documented)
    (requests : ∀ e ∈ calls, (ProperKey e.key ∧ e.key.ValidUtf8) ∧ ∃ t, e.ts = dt.clock t) :
    Clean StdString.ValidUtf8 (key,value) := by
  obtain ⟨e,mem,rfl,ipfsId,_,text,rfl⟩ := requested
  obtain ⟨own,t,time⟩ := requests e mem
  rw [time]
  exact ⟨own.1,own.2,lib.text _ (entryRecord documented text t)⟩

theorem Sane.step (lib : cfg.json.Documented) (documented : dt.Documented) (sane : s.Sane cfg content dt)
    {e : ServiceEvent World Ptime} (step : Service.Step cfg ipfs R content dt s e s') : s'.Sane cfg content dt ∧
      (s'.db = s.db ∨ ∃ e', InjectorDb.AddressedStep cfg ipfs R content s.db e' s'.db) := by
  obtain ⟨allowed,addressed,step⟩ := step
  have kept := sane.kept
  cases moves step with
  | called key value ts =>
    obtain ⟨text,t,rfl⟩ := allowed
    exact ⟨sane.called key value t text,.inl rfl⟩
  | goes =>
    have queued := kept.queued
    exact ⟨sane.injector
      ⟨⟨queued.count,queued.limit,queued.busy,queued.order⟩,kept.numbered,kept.placed,kept.answered⟩ sane.long rfl
      (fun _ => id) sane.coroutines,.inl rfl⟩
  | @failed i e at_ ec ipfsId =>
    obtain ⟨waits,calls,updating⟩ := s.injector.takeWaiting i e (.error ec)
    refine ⟨sane.injector ((kept.added at_).1 ec ipfsId) ?_ calls waits ?_,.inl rfl⟩
    · rw [List.append_nil]
      exact sane.long.trans (congrArg List.length updating).symm
    · exact fun u mem => sane.coroutines u (updating ▸ mem)
  | @spawned i e at_ ipfsId =>
    obtain ⟨waits,calls,updating⟩ := s.injector.takeWaiting i e (.ok ())
    obtain ⟨there,text⟩ := allowed e at_
    have own := sane.waiting (List.mem_append_left _ (List.mem_of_getElem? at_))
    have all : ((s.injector.take i e (.ok ())).spawn
        ⟨e.key,writeEntry cfg.json dt ipfsId e.ts,ipfsId,e.onInsert⟩).updating =
        s.injector.updating ++ [⟨e.key,writeEntry cfg.json dt ipfsId e.ts,ipfsId,e.onInsert⟩] :=
      congrArg (· ++ _) updating
    refine ⟨sane.injector ((kept.added at_).2 _ rfl) ?_ calls waits ?_,.inl rfl⟩
    · rw [all,List.length_append,List.length_append,sane.long]
      rfl
    · rw [all]
      exact List.forall_mem_append.mpr ⟨sane.coroutines,
        List.forall_mem_singleton.mpr ⟨e,own,rfl,ipfsId,there,text,rfl⟩⟩
  | @begun i u db at_ new goes =>
    have requested := sane.coroutines u (List.mem_of_getElem? at_)
    have clean := requested.clean lib documented sane.requests
    refine ⟨⟨kept,(List.length_set ..).trans sane.long,sane.requests,sane.waiting,sane.coroutines,?_⟩,
      .inr ⟨.update u.key u.value,⟨trivial,goes⟩,fun key value same => (by cases same; exact clean),addressed⟩⟩
    dsimp only
    rw [InjectorDb.stepPairs goes]
    exact List.forall_mem_append.mpr ⟨sane.updates,List.forall_mem_singleton.mpr requested⟩
  | @went e db other goes =>
    refine ⟨⟨kept,sane.long,sane.requests,sane.waiting,sane.coroutines,?_⟩,
      .inr ⟨e,⟨allowed,goes⟩,fun key value same => absurd same (other key value),addressed⟩⟩
    have same : InjectorDb.added e = [] := by
      cases e with
      | update key value => exact absurd rfl (other key value)
      | _ => rfl
    dsimp only
    rw [InjectorDb.stepPairs goes,same,List.append_nil]
    exact sane.updates
  | threw at_ => exact ⟨sane.back at_ (kept.updated at_).1 rfl rfl rfl,.inl rfl⟩
  | @returned _ _ _ _ status at_ => exact ⟨sane.back at_ ((kept.updated at_).2 status) rfl rfl rfl,.inl rfl⟩

theorem Sane.run (lib : cfg.json.Documented) (documented : dt.Documented) {s₀ : Service World Ptime}
    (sane : s₀.Sane cfg content dt) (run : Reach (· = s₀) (Service.Step cfg ipfs R content dt) s) :
    s.Sane cfg content dt ∧ Reach (· = s₀.db) (InjectorDb.AddressedStep cfg ipfs R content) s.db :=
  run.project Service.db (fun s start => by rw [show s = s₀ from start]; exact ⟨sane,rfl⟩) fun _ _ _ sane step =>
    sane.step lib documented step

theorem initialSane (S : Storage World) (pathToRepo ipns : StdString) (files : Files) (world : World) :
    (fresh (.initial cfg S pathToRepo ipns files world) : Service World Ptime).Sane cfg content dt :=
  ⟨@Injector.reachedKept _ cfg.json dt _ (.start rfl),rfl,by simp [fresh,Injector.fresh],
    by simp [fresh,Injector.fresh,Injector.waiting],by simp [fresh,Injector.fresh],
    by simp [fresh,InjectorDb.initial,InjectorDb.pairs]⟩

theorem freshSane {db : InjectorDb World} (start : InjectorDb.Starts cfg db) :
    (fresh db : Service World Ptime).Sane cfg content dt := by
  obtain ⟨S,pathToRepo,ipns,files,world,_,rfl⟩ := start
  exact initialSane S pathToRepo ipns files world

theorem Requested.read (lib : cfg.json.Documented) (documented : dt.Documented) {calls : List (InsertEntry Ptime)}
    {key : Key} {value : Value} (requested : Requested cfg.json dt content calls key value)
    (requests : ∀ e ∈ calls, (ProperKey e.key ∧ e.key.ValidUtf8) ∧ ∃ t, e.ts = dt.clock t) :
    ∃ e ∈ calls, e.key = key ∧ ∃ t, e.ts = dt.clock t ∧ ∃ ipfsId, content ipfsId = some e.value ∧ ipfsId.ValidUtf8 ∧
      value = writeEntry cfg.json dt ipfsId (dt.clock t) ∧
      readEntry cfg.json dt value = if t.1.microsecond = 0 then none else some (e.ts,ipfsId) := by
  obtain ⟨e,mem,key_,ipfsId,there,text,rfl⟩ := requested
  obtain ⟨t,time⟩ := (requests e mem).2
  refine ⟨e,mem,key_,t,time,ipfsId,there,text,by rw [time],?_⟩
  rw [time,readWritten lib.records (fun _ => asciiUtf8) ipfsId text _ (stampAscii documented t),stampRead documented]
  split <;> rfl

theorem Requested.fetched {calls : List (InsertEntry Ptime)} {key : Key} {value : Value}
    (requested : Requested cfg.json dt content calls key value) (lib : cfg.json.Documented)
    (documented : dt.Documented)
    (requests : ∀ e ∈ calls, (ProperKey e.key ∧ e.key.ValidUtf8) ∧ ∃ t, e.ts = dt.clock t) {ts : Ptime}
    {contentHash : Hash} {data : Value} (read : readEntry cfg.json dt value = some (ts,contentHash))
    (cat : content contentHash = some data) : ∃ e ∈ calls, e.key = key ∧ e.ts = ts ∧ e.value = data := by
  obtain ⟨e,inside,same,t,_,ipfsId,there,_,_,back⟩ := requested.read lib documented requests
  rw [read] at back
  split at back
  · cases back
  · cases back
    exact ⟨e,inside,same,rfl,Option.some.inj (there.symm.trans cat)⟩

theorem Sane.request (sane : s.Sane cfg content dt) (lib : cfg.json.Documented) (documented : dt.Documented) {key : Key}
    {value : Value} (given : (key,value) ∈ s.db.pairs) {ts : Ptime} {contentHash : Hash} {data : Value}
    (read : readEntry cfg.json dt value = some (ts,contentHash)) (cat : content contentHash = some data) :
    ∃ e ∈ s.injector.calls, e.key = key ∧ e.ts = ts ∧ e.value = data :=
  (sane.updates _ given).fetched lib documented sane.requests read cat

/-- Contents are added and updates overlap, any operation may fail, any number of finds is under
way in a client that loads what has been published: the content and the time that get_content
makes of an answer are those of a request that the injector was given for this url. -/
theorem clientsGetRequests (two : 2 ≤ cfg.maxNodeSize) (here : cfg.addOp = true) (retains : Retains ipfs.env R)
    (injective : cfg.json.DumpInjective fun _ => True) (lib : cfg.json.Documented) (documented : dt.Documented)
    {db₀ : InjectorDb World} (start : InjectorDb.Starts cfg db₀)
    (run : Reach (· = fresh db₀) (Service.Step cfg ipfs R content dt) s)
    (addressed : Addressed content R s.db.map.world) {net : Traffic}
    (traffic : net.Reached (clientConfig cfg.json) content) {r : Reply} (mem : r ∈ net.served) {id : Hash}
    (began : r.lookup.began = some id) (published : id ∈ s.db.republisher.calls.map Prod.fst)
    (new : id ≠ db₀.map.tree.rootHash) {value : Value} (found : r.result = .ok value) {ts : Ptime}
    {contentHash : Hash} {data : Value} (read : readEntry cfg.json dt value = some (ts,contentHash))
    (cat : content contentHash = some data) :
    ∃ e ∈ s.injector.calls, e.key = r.lookup.key ∧ e.ts = ts ∧ e.value = data := by
  obtain ⟨sane,dbRun⟩ := (freshSane start).run lib documented run
  have sending := InjectorDb.runSending two here retains injective lib.nodes start dbRun
  exact sane.request lib documented ((sending.told addressed).reply lib.nodes traffic mem began published new found)
    read cat

end Service

inductive ServiceAct where
  | insertContent (second : Bool)
  | added
  | begins (i : Nat)
  | db (a : DbAct)
  | returns (i : Nat)
  | go

namespace Service

def event (s : Service MockIpfs ClockTime) : ServiceAct → Option (ServiceEvent MockIpfs ClockTime)
  | .insertContent second => some (.insertContent (letter (if second then 98 else 97)) (letter 49) newYearStamp)
  | .added => some (.added 0 (.ok ()) (letter 99))
  | .begins i => some (.begins i)
  | .db a => (a.event s.db).map .db
  | .returns i => some (.returns i)
  | .go => some .go

def leafOf (keys : List Key) : Value :=
  nlohmannAll.dump (.object (keys.map fun key =>
    (key,.object [(valueField,.string (writeEntry nlohmannAll boost (letter 99) newYearStamp))])))

def entryText : Value := leafOf [letter 97]

def entryContent (hash : Hash) : Option Value :=
  [(letter 99,letter 49),(StdString.decimal 0,entryText),(StdString.decimal 1,leafOf [letter 97,letter 98])].lookup hash

def entryConfig : Config := ⟨2,true,true,nlohmannAll⟩

def entryDb : InjectorDb MockIpfs :=
  .initial entryConfig ⟨fun w hash => (w.blocks.cat hash,w),fun w x => (.ok (w.add x).1,(w.add x).2),MockIpfs.unpin⟩
    ⟨[114]⟩ ⟨[105]⟩ ⟨fun _ => none,fun _ => true⟩ .empty

def Fits (s : Service MockIpfs ClockTime) : Bool :=
  (s.injector.adding.all fun e => e.value = letter 49) &&
  s.db.map.world.blocks.blocks.all fun p => entryContent p.1 = some p.2

def play : List ServiceAct → Service MockIpfs ClockTime → Option (Service MockIpfs ClockTime)
  | [],s => some s
  | a :: acts,s =>
    match s.event a with
    | none => none
    | some e => if s.Fits then (s.step entryConfig boost e).bind (play acts) else none

abbrev EntryStep (s : Service MockIpfs ClockTime) (e : ServiceEvent MockIpfs ClockTime)
    (s' : Service MockIpfs ClockTime) : Prop :=
  Service.Step entryConfig MockIpfs.ipfs MockIpfs.Known entryContent boost s e s'

theorem playStep {s s' : Service MockIpfs ClockTime} {a : ServiceAct} {e : ServiceEvent MockIpfs ClockTime}
    (event : s.event a = some e) (fits : s.Fits = true) (step : s.step entryConfig boost e = some s') :
    EntryStep s e s' := by
  simp only [Fits,Bool.and_eq_true] at fits
  refine ⟨?_,InjectorDb.contentAddressed fits.2,step⟩
  cases a with
  | insertContent second =>
    cases event
    have clean := @pairClean (if second then 98 else 97) 49 (by cases second <;> decide) (by decide)
    exact ⟨⟨clean.1,clean.2.1⟩,newYearStamp,rfl⟩
  | added =>
    cases event
    refine fun x at_ => ⟨?_,letterUtf8 99 (by decide)⟩
    rw [of_decide_eq_true (List.all_eq_true.mp fits.1 x (List.mem_of_getElem? at_))]
    rfl
  | begins i => cases event; trivial
  | db a =>
    obtain ⟨e,own,rfl⟩ := Option.map_eq_some_iff.mp event
    exact InjectorDb.eventAllowed own
  | returns i => cases event; trivial
  | go => cases event; trivial

theorem playRun {s₀ s s' : Service MockIpfs ClockTime} {acts : List ServiceAct} (before : Reach (· = s₀) EntryStep s)
    (played : play acts s = some s') : Reach (· = s₀) EntryStep s' := by
  refine before.schedule play (fun _ _ => True) played trivial (fun _ => rfl) fun a acts s s' _ h => ?_
  rw [play] at h
  split at h
  · cases h
  · rename_i e event
    split at h
    · rename_i fits
      obtain ⟨next,step,rest⟩ := Option.bind_eq_some_iff.mp h
      exact ⟨e,next,playStep event fits step,trivial,rest⟩
    · cases h

def toUpdate : List ServiceAct := [.insertContent false,.added]
def fromUpdate : List ServiceAct :=
  let acts : List DbAct := [.go,.go,.go,.go] ++ storeRoot ++ [.republish (.complete 0 (.ok ()))]
  acts.map .db ++ [.returns 0]

def twoRequests : List ServiceAct :=
  [.insertContent false,.insertContent true,.added,.added]
def besideUpdate : List ServiceAct :=
  let acts : List DbAct := storeRoot ++ [.go,.go,.unpinned none,.go] ++ storeRoot ++
    [.republish (.complete 0 (.ok ())),.republish .go]
  [.db .go,.db .go,.db .go,.db .go,.begins 1,.returns 1,.go] ++ acts.map .db ++ [.returns 0,.go]

theorem entryStarts : InjectorDb.Starts entryConfig entryDb := ⟨_,_,_,_,_,rfl,rfl⟩

theorem clientsGetRequestsOnce : ∃ (s : Service MockIpfs ClockTime) (net : Traffic),
    net.Reached (clientConfig nlohmannAll) entryContent ∧ ∃ r ∈ net.served, ∃ value, r.result = .ok value ∧
      readEntry nlohmannAll boost value = some (newYearStamp,letter 99) ∧
      ∃ e ∈ s.injector.calls, e.key = r.lookup.key ∧ e.ts = newYearStamp ∧ e.value = letter 49 := by
  have run : ((play (toUpdate ++ .begins 0 :: fromUpdate) (fresh entryDb)).any fun s =>
      decide (StdString.decimal 0 ∈ s.db.republisher.calls.map Prod.fst) &&
      s.db.map.world.blocks.blocks.all fun p => entryContent p.1 = some p.2) = true := by
    decide +kernel
  have found : ((Traffic.block (clientConfig nlohmannAll) (.ok entryText) InjectorDb.leafFetch
      { InjectorDb.leafClient with fetching := [] }).served) =
        [⟨InjectorDb.leafFetch.lookup,.ok (writeEntry nlohmannAll boost (letter 99) newYearStamp)⟩] := by
    decide +kernel
  have read : readEntry nlohmannAll boost (writeEntry nlohmannAll boost (letter 99) newYearStamp) =
      some (newYearStamp,letter 99) := by
    decide +kernel
  obtain ⟨s,played,seen⟩ := Option.any_eq_true _ _ |>.mp run
  simp only [Bool.and_eq_true,decide_eq_true_eq] at seen
  have reached := @InjectorDb.leafReached nlohmannAll entryContent entryText rfl
  refine ⟨s,_,reached,⟨InjectorDb.leafFetch.lookup,_⟩,by rw [found]; exact List.mem_singleton_self _,_,rfl,read,?_⟩
  exact @clientsGetRequests _ _ entryConfig _ _ _ _ _ (by decide) rfl MockIpfs.pins.retainsKnown nlohmannDumpInjective
    nlohmannDocumented boostDocumented _ entryStarts (playRun (.start rfl) played)
    (InjectorDb.contentAddressed seen.2) _ reached _ (by rw [found]; exact List.mem_singleton_self _) _ rfl seen.1
    (by decide) _ rfl _ _ _ read rfl

end Service
end IpfsCache
