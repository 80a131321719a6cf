import IpfsCache.DbSteps

/-! Runs of an InjectorDb from its start, against a backend that keeps what it is asked to pin. -/
namespace IpfsCache

section
variable {World : Type} {cfg : Config}

/-- What the code relies on in the backend: an id stands for one block for ever, and what has
been pinned stays pinned until it is unpinned. -/
structure Ipfs.Pins (ipfs : Ipfs World) (Known : World → Hash → Value → Prop) (Pinned : World → Hash → Prop) :
    Prop where
  one : ∀ {w h x y}, Known w h x → Known w h y → x = y
  added : ∀ {w x h w'}, ipfs.add w x (.ok h) w' → h.isEmpty = false ∧ Known w' h x
  addKeeps : ∀ {w x r w'}, ipfs.add w x r w' → (∀ g y, Known w g y → Known w' g y) ∧ ∀ g, Pinned w g → Pinned w' g
  pinned : ∀ {w h w'}, ipfs.pin w h (.ok ()) w' → Pinned w' h
  pinKeeps : ∀ {w h r w'}, ipfs.pin w h r w' → (∀ g y, Known w g y → Known w' g y) ∧ ∀ g, Pinned w g → Pinned w' g
  unpinKeeps : ∀ {w h r w'}, ipfs.unpin w h r w' →
    (∀ g y, Known w g y → Known w' g y) ∧ ∀ g, g ≠ h → Pinned w g → Pinned w' g

section pins
variable {ipfs : Ipfs World} {Known : World → Hash → Value → Prop} {Pinned : World → Hash → Prop}

theorem Ipfs.Pins.addsKeep (pins : ipfs.Pins Known Pinned) {w w' : World} {x : Value} {r : Except ErrorCode Hash}
    (h : ipfs.Adds w x r w') : (∀ g y, Known w g y → Known w' g y) ∧ ∀ g, Pinned w g → Pinned w' g := by
  have both {w₁ : World} {hash : Hash} {status : Status} (add : ipfs.add w x (.ok hash) w₁)
      (pin : ipfs.pin w₁ hash status w') :
      (∀ g y, Known w g y → Known w' g y) ∧ ∀ g, Pinned w g → Pinned w' g :=
    ⟨fun g y known => (pins.pinKeeps pin).1 g y ((pins.addKeeps add).1 g y known),
      fun g pinned => (pins.pinKeeps pin).2 g ((pins.addKeeps add).2 g pinned)⟩
  cases h with
  | failed h => exact pins.addKeeps h
  | unpinned h failed => exact both h failed
  | pinned h pin => exact both h pin

theorem Ipfs.Pins.addsPin (pins : ipfs.Pins Known Pinned) {w w' : World} {x : Value} {hash : Hash}
    (h : ipfs.Adds w x (.ok hash) w') : hash.isEmpty = false ∧ Known w' hash x ∧ Pinned w' hash := by
  cases h with
  | pinned h pin => exact ⟨(pins.added h).1,(pins.pinKeeps pin).1 _ _ (pins.added h).2,pins.pinned pin⟩

theorem Ipfs.Pins.retainsKnown (pins : ipfs.Pins Known Pinned) : Retains ipfs.env Known where
  one := pins.one
  adds := fun h => ⟨(pins.addsPin h).1,(pins.addsPin h).2.1⟩
  addKeeps := fun h known => (pins.addsKeep h).1 _ _ known
  removeKeeps := fun ⟨_,gone⟩ _ known => (pins.unpinKeeps gone).1 _ _ known

theorem Ipfs.Pins.retains (pins : ipfs.Pins Known Pinned) :
    Retains ipfs.env fun w h x => Known w h x ∧ Pinned w h where
  one := fun h h' => pins.one h.1 h'.1
  adds := fun h => pins.addsPin h
  addKeeps := fun h both => ⟨(pins.addsKeep h).1 _ _ both.1,(pins.addsKeep h).2 _ both.2⟩
  removeKeeps := fun ⟨_,gone⟩ other both =>
    ⟨(pins.unpinKeeps gone).1 _ _ both.1,(pins.unpinKeeps gone).2 _ other both.2⟩

end pins

namespace InjectorDb
variable {ipfs : Ipfs World} {R : World → Hash → Value → Prop}

def Idle (db : InjectorDb World) : Prop :=
  db.map.frames = [] ∧ db.owners = [] ∧ db.map.tree.isInserting = false ∧ db.midway = none

theorem reachRunning {Start : InjectorDb World → Prop} (idle : ∀ db, Start db → db.Idle)
    {Sub : InjectorDb World → DbEvent World → InjectorDb World → Prop}
    (sub : ∀ db e db', Sub db e db' → InjectorDb.Step cfg ipfs db e db') {db : InjectorDb World}
    (h : Reach Start Sub db) : Running ipfs db := by
  refine h.invariant (I := Running ipfs) (fun db start => ?_) fun _ _ _ running step =>
    (moves running (sub _ _ _ step)).2
  obtain ⟨frames,owners,flag,midway⟩ := idle db start
  exact .idle frames owners flag midway

theorem initialMap (cfg : Config) (S : Storage World) (pathToRepo ipns : StdString) (files : Files) (world : World) :
    ∃ root, (initial cfg S pathToRepo ipns files world).map = ⟨⟨root,[],false⟩,[],
      (loadDb cfg S files pathToRepo ipns .fresh world).2,[],[],[]⟩ ∧
      (root = none ∨ ∃ id, root = some ⟨none,id⟩) := by
  unfold initial loadDb
  split
  · exact ⟨_,rfl,.inl rfl⟩
  · split
    · exact ⟨_,rfl,.inr ⟨_,rfl⟩⟩
    · exact ⟨_,rfl,.inl rfl⟩

theorem initialRoot (cfg : Config) (S : Storage World) (pathToRepo ipns : StdString) (files : Files) (world : World) :
    (initial cfg S pathToRepo ipns files world).map.tree.root = (filedId files pathToRepo ipns).map (⟨none,·⟩) ∧
    (initial cfg S pathToRepo ipns files world).map.world = world := by
  simp only [initial,loadDb,filedId]
  cases files.content (pathToDb pathToRepo ipns) with
  | none => exact ⟨rfl,rfl⟩
  | some text =>
    rw [Option.bind_some]
    dsimp only
    split <;> exact ⟨rfl,rfl⟩

theorem initialIdle (cfg : Config) (S : Storage World) (pathToRepo ipns : StdString) (files : Files) (world : World) :
    (initial cfg S pathToRepo ipns files world).Idle := by
  obtain ⟨root,map,_⟩ := initialMap cfg S pathToRepo ipns files world
  unfold Idle
  rw [map]
  exact ⟨rfl,rfl,rfl,rfl⟩

theorem initialCarried {cfg : Config} {env : Env World} (S : Storage World) (pathToRepo ipns : StdString)
    (files : Files) (world : World) : Carried cfg env R (initial cfg S pathToRepo ipns files world).map := by
  obtain ⟨root,map,load⟩ := initialMap cfg S pathToRepo ipns files world
  rw [map]
  exact carriedStart rfl rfl rfl ⟨rfl,rfl⟩ load

def Starts (cfg : Config) (db : InjectorDb World) : Prop := ∃ S pathToRepo ipns files world,
  files.writable (pathToDb pathToRepo ipns) = true ∧ db = initial cfg S pathToRepo ipns files world

def ProperStep (cfg : Config) (ipfs : Ipfs World) (db : InjectorDb World) (e : DbEvent World)
    (db' : InjectorDb World) : Prop :=
  Step cfg ipfs db e db' ∧ ∀ key value, e = .update key value → ProperKey key

theorem Resumed.carried (two : 2 ≤ cfg.maxNodeSize) (here : cfg.addOp = true)
    (custody : Custody cfg ipfs.env R (fun _ _ => True) (fun _ ids => ids.Nodup) (Clean fun _ => True))
    {db : InjectorDb World} {e : DbEvent World} {by_ : Resumption} {map : System World}
    (resumed : Resumed cfg ipfs db e by_ map) (carried : Carried cfg ipfs.env R db.map) :
    IpfsCache.Step cfg ipfs.env db.map.settled (.resume 0 by_ map.world) map.settled ∧ Carried cfg ipfs.env R map :=
  carried.step two here custody ⟨resumed.step,fun _ _ same => by cases same⟩

theorem calledCarried (two : 2 ≤ cfg.maxNodeSize) (here : cfg.addOp = true)
    (custody : Custody cfg ipfs.env R (fun _ _ => True) (fun _ ids => ids.Nodup) (Clean fun _ => True))
    {db : InjectorDb World} {key : Key} (value : Value) (waits : db.map.frames.all Frame.waits = true)
    (proper : ProperKey key) (carried : Carried cfg ipfs.env R db.map) :
    Carried cfg ipfs.env R (db.called key value).map :=
  have step : FitStep cfg ipfs.env (Clean fun _ => True) db.map (.call key value) (db.map.call key value) :=
    ⟨⟨trivial,if_pos waits⟩,fun _ _ same => by cases same; exact ⟨proper,trivial,trivial⟩⟩
  (carried.step two here custody step).2

theorem reachCarried (two : 2 ≤ cfg.maxNodeSize) (here : cfg.addOp = true) (retains : Retains ipfs.env R)
    (injective : cfg.json.DumpInjective fun _ => True) {db : InjectorDb World}
    (h : Reach (Starts cfg) (ProperStep cfg ipfs) db) :
    Running ipfs db ∧ Carried cfg ipfs.env R db.map ∧
      db.files.writable (pathToDb db.pathToRepo db.ipns) = true := by
  have legible (w : World) : Legible cfg (fun _ => True) (R w) :=
    ⟨two,⟨trivial,trivial,trivial⟩,injective,retains.one,fun _ => trivial⟩
  have custody := retains.custody legible
  refine h.invariant (I := fun db => Running ipfs db ∧ Carried cfg ipfs.env R db.map ∧
    db.files.writable (pathToDb db.pathToRepo db.ipns) = true) (fun db start => ?_) ?_
  · obtain ⟨S,pathToRepo,ipns,files,world,writable,rfl⟩ := start
    obtain ⟨frames,owners,flag,midway⟩ := initialIdle cfg S pathToRepo ipns files world
    exact ⟨.idle frames owners flag midway,initialCarried S pathToRepo ipns files world,writable⟩
  · rintro db e db' ⟨running,carried,writable⟩ ⟨step,proper⟩
    obtain ⟨moved,running'⟩ := moves running step
    refine ⟨running',?_⟩
    cases moved with
    | called idle flag =>
      exact ⟨calledCarried two here custody _ (by rw [idle]; rfl) (proper _ _ rfl) carried,writable⟩
    | @buffered key value frame busy waits flag =>
      have along := uploadDatabaseAlong db.updates.length (db.called key value)
      rw [along.map,along.path.1,along.path.2]
      exact ⟨calledCarried two here custody _ (by simp [busy,waits]) (proper _ _ rfl) carried,writable⟩
    | added => exact ⟨carried,writable⟩
    | republished => exact ⟨carried,writable⟩
    | went resumed same => exact ⟨(resumed.carried two here custody carried).2,writable⟩
    | @ended _ _ map u outcome resumed owner idle ended other =>
      have along := insertedAlong u outcome { db with map := map, owners := [], midway := none }
      rw [along.map,along.path.1,along.path.2]
      exact ⟨(resumed.carried two here custody carried).2,writable⟩

end InjectorDb

end
end IpfsCache
