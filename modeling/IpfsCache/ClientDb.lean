import IpfsCache.DbFile
import IpfsCache.Lib.Reach
import IpfsCache.MockStorage
import Mathlib.Data.List.Induction

/-! ClientDb: what it does when it is made, and one round of continuously_download_db. Its
tree has no add_op and no remove_op, so a load of a new root never waits. A round ends
before anything else happens when the ClientDb is destroyed while it waits. -/
namespace IpfsCache

def clientConfig (json : JsonLib) : Config := ⟨btreeNodeSize,false,false,json⟩

structure ClientDb where
  pathToRepo : StdString
  ipns : StdString
  ipfs : StdString
  map : BTree
  waiting : List Nat
  posted : List (Nat × Status)

/-- A client's database and what is around it; then what its file should hold, and whether the
resolve of the last round failed. -/
structure Downloads (σ : Type) where
  db : ClientDb
  files : Files
  world : σ
  good : Option StdString
  failed : Bool

namespace ClientDb

def waitForDbUpdate (waiter : Nat) (db : ClientDb) : ClientDb := { db with waiting := db.waiting ++ [waiter] }

def flushDbUpdateCallbacks (ec : Status) (db : ClientDb) : ClientDb :=
  { db with waiting := [], posted := db.posted ++ db.waiting.map (·,ec) }

/-- What Backend::resolve returns: an operation that fails delivers an empty string. -/
def resolved (outcome : Except ErrorCode StdString) : StdString :=
  match outcome with
  | .ok id => id
  | .error _ => ⟨[]⟩

end ClientDb

inductive Download where
  | start
  | wait (waiter : Nat)
  | round (outcome : Except ErrorCode StdString)

namespace Downloads
variable {σ : Type}

def path (s : Downloads σ) : StdString := pathToDb s.db.pathToRepo s.db.ipns
def saved (s : Downloads σ) : Option StdString := s.files.content s.path

def start (json : JsonLib) (S : Storage σ) (s : Downloads σ) : Downloads σ :=
  let out := loadDb (clientConfig json) S s.files s.db.pathToRepo s.db.ipns .fresh s.world
  { s with db := ⟨s.db.pathToRepo,s.db.ipns,⟨[]⟩,out.1,[],[]⟩, world := out.2 }

def round (json : JsonLib) (S : Storage σ) (outcome : Except ErrorCode StdString) (s : Downloads σ) : Downloads σ :=
  let ipfsId := ClientDb.resolved outcome
  let s := match outcome with
    | .ok _ =>
      let out := s.db.map.load (clientConfig json) S ipfsId s.world
      { s with
        db := { s.db with ipfs := ipfsId, map := out.1 }, world := out.2, good := some ipfsId, failed := false }
    | .error _ => { s with failed := true }
  let s := { s with files := saveDb s.db.pathToRepo s.db.ipns ipfsId s.files }
  match outcome with
  | .ok _ => { s with db := s.db.flushDbUpdateCallbacks (.ok ()) }
  | .error _ => s

def step (json : JsonLib) (S : Storage σ) (s : Downloads σ) : Download → Downloads σ
  | .start => s.start json S
  | .wait waiter => { s with db := s.db.waitForDbUpdate waiter }
  | .round outcome => s.round json S outcome

def Begins (s : Downloads σ) : Prop := s.files.writable s.path = true ∧ s.good = s.saved ∧ s.failed = false

def Reached (json : JsonLib) (S : Storage σ) (s : Downloads σ) : Prop :=
  Reach Begins (fun s e s' => s' = s.step json S e) s

def Remembers (json : JsonLib) (S : Storage σ) (s : Downloads σ) : Prop :=
  s.saved = s.good ∧ ∀ id, s.good = some id → IsCid id → (s.start json S).db.map.rootHash = id

structure Tracked (s : Downloads σ) : Prop where
  writable : s.files.writable s.path = true
  saved : s.saved = if s.failed then some ⟨[]⟩ else s.good

section
variable {json : JsonLib} {S : Storage σ} {s : Downloads σ}

theorem Tracked.round (tracked : Tracked s) (outcome : Except ErrorCode StdString) :
    Tracked (s.round json S outcome) := by
  have written := IpfsCache.saved (ClientDb.resolved outcome) tracked.writable
  cases outcome with
  | ok id => exact ⟨(congrFun written.2 _).trans tracked.writable,written.1⟩
  | error ec => exact ⟨(congrFun written.2 _).trans tracked.writable,written.1⟩

theorem reachedTracked (h : Reached json S s) : Tracked s := by
  refine Reach.invariant (I := Tracked) (fun s ⟨writable,good,fine⟩ => ⟨writable,by rw [fine,good]; rfl⟩)
    (fun s e s' tracked step => ?_) h
  subst step
  cases e with
  | start => exact ⟨tracked.writable,tracked.saved⟩
  | wait waiter => exact ⟨tracked.writable,tracked.saved⟩
  | round outcome => exact tracked.round outcome

/-- After each round the file holds the last good id, for the next start to load, exactly
when the last resolve did not fail (or nothing was there to lose). -/
theorem savedIdKept (h : Reached json S s) :
    (s.Remembers json S ↔ s.failed = false ∨ s.good = some ⟨[]⟩) ∧
    ∀ ec, (s.round json S (.error ec)).db.map = s.db.map := by
  have tracked := reachedTracked h
  refine ⟨⟨fun ⟨same,_⟩ => ?_,fun fine => ?_⟩,fun ec => rfl⟩
  · cases failed : s.failed with
    | false => exact .inl rfl
    | true =>
      have saved := tracked.saved
      rw [failed,if_pos rfl] at saved
      exact .inr (same ▸ saved)
  · have same : s.saved = s.good := by
      have saved := tracked.saved
      rcases fine with fine | empty
      · rwa [fine,if_neg Bool.false_ne_true] at saved
      · rw [empty] at saved ⊢
        rw [saved]
        split <;> rfl
    refine ⟨same,fun id good cid => ?_⟩
    have loaded := (loadedDb (clientConfig json) S s.world).1 id (same.trans good) cid
    rw [start,loaded]
    rfl

end

def empty : Downloads MockStorage :=
  ⟨⟨⟨[47]⟩,⟨[105]⟩,⟨[]⟩,.fresh,[],[]⟩,⟨fun _ => none,fun _ => true⟩,.empty,none,false⟩

def someCid : StdString := ⟨81 :: 109 :: List.replicate 44 97⟩

theorem roundsReach (json : JsonLib) (rounds : List Download) :
    Reached json MockStorage.storage (rounds.foldl (step json MockStorage.storage) empty) := by
  induction rounds using List.reverseRecOn with
  | nil => exact .start ⟨rfl,rfl,rfl⟩
  | append_singleton rounds e ih =>
    rw [List.foldl_append]
    exact .step e ih rfl

theorem savedIdKeptOnce : ∃ s, Reached nlohmann MockStorage.storage s ∧ s.good = some someCid ∧
    s.saved = some someCid ∧ (s.start nlohmann MockStorage.storage).db.map.rootHash = someCid := by
  have reached := roundsReach nlohmann [.start,.round (.error .notFound),.round (.ok someCid)]
  have kept := (savedIdKept reached).1.mpr (.inl rfl)
  exact ⟨_,reached,rfl,kept.1,kept.2 someCid rfl (by decide +kernel)⟩

theorem savedIdLost : ¬ ∀ s, Reached nlohmann MockStorage.storage s → s.Remembers nlohmann MockStorage.storage := by
  intro claim
  have reached := roundsReach nlohmann [.start,.round (.ok someCid),.round (.error .notFound)]
  have same := (claim _ reached).1
  rw [(reachedTracked reached).saved] at same
  have lost : some (⟨[]⟩ : StdString) = some someCid := same
  exact absurd lost (by decide)

end Downloads
end IpfsCache
