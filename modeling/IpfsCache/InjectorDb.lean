import IpfsCache.DbFile
import IpfsCache.Overlap
import IpfsCache.Republisher

/-! InjectorDb. An update inserts into the BTree, writes the root's id to the file and hands
it to the Republisher. The updates are coroutines of one thread. The BTree's add_op is two
operations of the backend, Backend::add and Backend::pin, its remove_op is Backend::unpin. -/
namespace IpfsCache

structure Ipfs (World : Type) where
  add : World → Value → Except ErrorCode Hash → World → Prop
  pin : World → Hash → Status → World → Prop
  unpin : World → Hash → Status → World → Prop

inductive Ipfs.Adds {World : Type} (ipfs : Ipfs World) : World → Value → Except ErrorCode Hash → World → Prop
  | failed {w w' : World} {x : Value} {ec : ErrorCode} (h : ipfs.add w x (.error ec) w') :
      Adds ipfs w x (.error ec) w'
  | unpinned {w w₁ w' : World} {x : Value} {hash : Hash} {ec : ErrorCode} (h : ipfs.add w x (.ok hash) w₁)
      (failed : ipfs.pin w₁ hash (.error ec) w') : Adds ipfs w x (.error ec) w'
  | pinned {w w₁ w' : World} {x : Value} {hash : Hash} (h : ipfs.add w x (.ok hash) w₁)
      (pin : ipfs.pin w₁ hash (.ok ()) w') : Adds ipfs w x (.ok hash) w'

def Ipfs.env {World : Type} (ipfs : Ipfs World) : Env World :=
  ⟨fun w hash w' => ∃ status, ipfs.unpin w hash status w',ipfs.Adds⟩

inductive Stage where
  | inserting
  | publishing (call : Nat)
  | returned (status : Status)
  | threw
  deriving DecidableEq

structure Update where
  key : Key
  value : Value
  stage : Stage

def Update.answer (x : Invoked) (u : Update) : Update :=
  if u.stage = .publishing x.call then { u with stage := .returned x.status } else u

def Stage.onInsert : Stage → Option Status
  | .returned status => some status
  | _ => none

structure InjectorDb (World : Type) where
  pathToRepo : StdString
  ipns : StdString
  map : System World
  owners : List Nat
  midway : Option (Hash × World)     -- Backend::add has returned this id, and is to be followed by a pin
  republisher : Republisher
  files : Files
  updates : List Update
  saved : List (Hash × World)

namespace InjectorDb
variable {World : Type}

def initial (cfg : Config) (S : Storage World) (pathToRepo ipns : StdString) (files : Files) (world : World) :
    InjectorDb World :=
  let map := loadDb cfg S files pathToRepo ipns .fresh world
  ⟨pathToRepo,ipns,⟨map.1,[],map.2,[],[],[]⟩,[],none,.fresh,files,[],[]⟩

def now (db : InjectorDb World) : World :=
  match db.midway with
  | none => db.map.world
  | some (_,world) => world

def goes (u : Nat) (stage : Stage) (db : InjectorDb World) : InjectorDb World :=
  { db with updates := db.updates.modify u fun x => { x with stage := stage } }

def saveDb (id : Hash) (db : InjectorDb World) : InjectorDb World :=
  { db with
    files := IpfsCache.saveDb db.pathToRepo db.ipns id db.files,
    saved := if db.files.writable (pathToDb db.pathToRepo db.ipns) then db.saved ++ [(id,db.now)] else db.saved }

def uploadDatabase (u : Nat) (db : InjectorDb World) : InjectorDb World :=
  let id := db.map.tree.rootHash
  if id.isEmpty then db.goes u (.returned (.ok ()))
  else
    { db.saveDb id with republisher := db.republisher.publish id true }.goes u
      (.publishing db.republisher.calls.length)

def inserted (u : Nat) (outcome : InsertOutcome) (db : InjectorDb World) : InjectorDb World :=
  match outcome with
  | .completed | .buffered => db.uploadDatabase u
  | .error ec => db.goes u (.returned (.error ec))
  | .exception => db.goes u .threw

def called (key : Key) (value : Value) (db : InjectorDb World) : InjectorDb World :=
  { db with map := db.map.call key value, updates := db.updates ++ [⟨key,value,.inserting⟩] }

def update (key : Key) (value : Value) (db : InjectorDb World) : InjectorDb World :=
  let u := db.updates.length
  if db.map.tree.isInserting then (db.called key value).inserted u .buffered
  else { db.called key value with owners := db.owners ++ [u] }

def resume (cfg : Config) (i : Nat) (by_ : Resumption) (world : World) (db : InjectorDb World) :
    Option (InjectorDb World) :=
  (db.map.step cfg (.resume i by_ world)).map fun map =>
    match map.ended.drop db.map.ended.length,db.owners[i]? with
    | outcome :: _,some u => { db with map := map, owners := db.owners.eraseIdx i }.inserted u outcome
    | _,_ => { db with map := map }

def answered (r : Republisher) (db : InjectorDb World) : InjectorDb World :=
  { db with
    republisher := r,
    updates := (r.invoked.drop db.republisher.invoked.length).foldl (fun us x => us.map (·.answer x)) db.updates }

def republish (e : Happening) (db : InjectorDb World) : Option (InjectorDb World) :=
  (db.republisher.step e).map (answered · db)

end InjectorDb

inductive DbEvent (World : Type) where
  | update (key : Key) (value : Value)
  | go (i : Nat)
  | unpinned (i : Nat) (status : Status) (world : World)
  | added (i : Nat) (reply : Except ErrorCode Hash) (world : World)
  | pinned (i : Nat) (status : Status) (world : World)
  | republish (e : Happening)

namespace InjectorDb
variable {World : Type}

def step (cfg : Config) (db : InjectorDb World) : DbEvent World → Option (InjectorDb World)
  | .update key value => if db.map.frames.all Frame.waits then some (db.update key value) else none
  | .go i => db.resume cfg i .go db.map.world
  | .unpinned i _ world => db.resume cfg i .removed world
  | .added i reply world =>
    match db.midway,db.map.frames[i]?,reply with
    | none,some (.storing ..),.ok hash => some { db with midway := some (hash,world) }
    | none,some (.storing ..),.error ec => db.resume cfg i (.added (.error ec)) world
    | _,_,_ => none
  | .pinned i status world =>
    match db.midway with
    | none => none
    | some (hash,_) => { db with midway := none }.resume cfg i (.added (status.map fun _ => hash)) world
  | .republish (.publish ..) => none
  | .republish e => db.republish e

def Allowed (ipfs : Ipfs World) (db : InjectorDb World) : DbEvent World → Prop
  | .unpinned i status world => ∀ p next after buf hash,
      (db.map.frames[i]? = some (.inserting p next after buf) ∧ hash = p.hash ∨
        db.map.frames[i]? = some (.unhooking hash)) → ipfs.unpin db.map.world hash status world
  | .added i reply world => ∀ x next, db.map.frames[i]? = some (.storing x next) → ipfs.add db.map.world x reply world
  | .pinned _ status world => ∀ hash w, db.midway = some (hash,w) → ipfs.pin w hash status world
  | _ => True

def Step (cfg : Config) (ipfs : Ipfs World) (db : InjectorDb World) (e : DbEvent World) (db' : InjectorDb World) :
    Prop :=
  db.Allowed ipfs e ∧ db.step cfg e = some db'

end InjectorDb
end IpfsCache
