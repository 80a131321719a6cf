import IpfsCache.ClientDb

/-! Client, whose database set_ipns replaces and whose destructor destroys the last one, while
the coroutine of a replaced database may still be on its way. Everything runs on one thread; a
coroutine that finds _was_destroyed set returns before it touches its database again. -/
namespace IpfsCache

inductive Phase where
  | spawned
  | resolving
  | sleeping
  | ended
  deriving DecidableEq

structure Downloader where
  db : ClientDb
  wasDestroyed : Bool
  phase : Phase
  ids : List StdString

structure WaitCall where
  db : Nat
  ids : Nat

structure Client (σ : Type) where
  pathToRepo : StdString
  dbs : List Downloader
  gone : Bool
  files : Files
  world : σ
  calls : List WaitCall
  invoked : List (Nat × Status)

namespace Downloader
variable {σ : Type}

def make (pathToRepo ipns : StdString) : Downloader := ⟨⟨pathToRepo,ipns,⟨[]⟩,.fresh,[],[]⟩,false,.spawned,[]⟩

def destroy (d : Downloader) : Downloader :=
  { d with wasDestroyed := true, db := d.db.flushDbUpdateCallbacks (.error .operationAborted) }

def waits (w : Nat) (d : Downloader) : Downloader := { d with db := d.db.waitForDbUpdate w }

def begins (json : JsonLib) (S : Storage σ) (files : Files) (world : σ) (d : Downloader) : Downloader × σ :=
  let out := loadDb (clientConfig json) S files d.db.pathToRepo d.db.ipns d.db.map world
  ({ d with db := { d.db with map := out.1 }, phase := .resolving },out.2)

def downloads (json : JsonLib) (S : Storage σ) (outcome : Except ErrorCode StdString) (files : Files) (world : σ)
    (d : Downloader) : Downloader × Files × σ :=
  let out := Downloads.round json S outcome ⟨d.db,files,world,none,false⟩
  ({ d with db := out.db, phase := .sleeping, ids := d.ids ++ outcome.toOption.toList },out.files,out.world)

def returns (d : Downloader) : Downloader := { d with phase := .ended }

def ran (j : Nat) (d : Downloader) : Downloader := { d with db := { d.db with posted := d.db.posted.eraseIdx j } }

end Downloader

inductive ClientEvent where
  | setIpns (ipns : StdString)
  | destroy
  | wait
  | begins (i : Nat)
  | resolved (i : Nat) (outcome : Except ErrorCode StdString)
  | woken (i : Nat)
  | run (i j : Nat)

namespace Client
variable {σ : Type}

def initial (pathToRepo ipns : StdString) (files : Files) (world : σ) : Client σ :=
  ⟨pathToRepo,[.make pathToRepo ipns],false,files,world,[],[]⟩

def current (s : Client σ) : Nat := s.dbs.length - 1

def put (i : Nat) (d : Downloader) (s : Client σ) : Client σ := { s with dbs := s.dbs.set i d }

def destroyDb (s : Client σ) : Client σ := { s with dbs := s.dbs.modify s.current Downloader.destroy }

def step (json : JsonLib) (S : Storage σ) (s : Client σ) : ClientEvent → Option (Client σ)
  | .setIpns ipns =>
    if s.gone then none else some { s.destroyDb with dbs := s.destroyDb.dbs ++ [.make s.pathToRepo ipns] }
  | .destroy => if s.gone then none else some { s.destroyDb with gone := true }
  | .wait =>
    match s.gone,s.dbs[s.current]? with
    | false,some d =>
      some { s.put s.current (d.waits s.calls.length) with calls := s.calls ++ [⟨s.current,d.ids.length⟩] }
    | _,_ => none
  | .begins i =>
    match s.dbs[i]? with
    | some d =>
      if d.phase = .spawned then
        if d.wasDestroyed then some (s.put i d.returns)
        else
          let out := d.begins json S s.files s.world
          some { s.put i out.1 with world := out.2 }
      else none
    | none => none
  | .resolved i outcome =>
    match s.dbs[i]? with
    | some d =>
      if d.phase = .resolving then
        if d.wasDestroyed then some (s.put i d.returns)
        else
          let out := d.downloads json S outcome s.files s.world
          some { s.put i out.1 with files := out.2.1, world := out.2.2 }
      else none
    | none => none
  | .woken i =>
    match s.dbs[i]? with
    | some d =>
      if d.phase = .sleeping then
        if d.wasDestroyed then some (s.put i d.returns) else some (s.put i { d with phase := .resolving })
      else none
    | none => none
  | .run i j =>
    match s.dbs[i]? with
    | some d =>
      match d.db.posted[j]? with
      | some x => some { s.put i (d.ran j) with invoked := s.invoked ++ [x] }
      | none => none
    | none => none

def Step (json : JsonLib) (S : Storage σ) (s : Client σ) (e : ClientEvent) (s' : Client σ) : Prop :=
  s.step json S e = some s'

def Reached (json : JsonLib) (S : Storage σ) (s : Client σ) : Prop :=
  Reach (fun s => ∃ pathToRepo ipns files world, s = initial pathToRepo ipns files world) (Step json S) s

end Client
end IpfsCache
