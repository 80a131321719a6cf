import IpfsCache.Inserted

/-! Injector::get_content, while contents are added and updates overlap. The map has grown from
inserts alone, so its nodes are all in memory: the query asks for no block and leaves the map as
it is, whatever an insert that is suspended has in its hands. -/
namespace IpfsCache
open Node

def System.Shows {World : Type} (s : System World) (key : Key) : Prop :=
  key ∈ OrderedMap.keys s.tree.insertBuffer ∨ key ∈ s.handed ∧ key ∉ OrderedMap.keys s.held
instance {World : Type} (s : System World) (key) : Decidable (s.Shows key) := inferInstanceAs (Decidable (_ ∨ _ ∧ _))

section map
variable {World : Type} {cfg : Config} {env : Env World} {s : System World}

theorem Sound.shows {frame : Option Frame} (sound : Sound cfg env s frame) (kept : Kept s.outline) (key : Key) :
    s.Shows key ↔ key ∈ OrderedMap.keys s.tree.insertBuffer ∨ key ∈ OrderedMap.keys (top s.tree.root).flatten := by
  have handed : key ∈ OrderedMap.keys s.outline.content ↔ key ∈ s.handed := kept.handed key
  refine or_congr_right ?_
  rw [← handed]
  constructor
  · rintro ⟨mem,free⟩
    obtain ⟨x,inside,rfl⟩ := List.mem_map.mp mem
    exact List.mem_map_of_mem ((sound.seen x).mpr ⟨inside,free⟩)
  · intro mem
    obtain ⟨x,inside,rfl⟩ := List.mem_map.mp mem
    have seen := (sound.seen x).mp inside
    exact ⟨List.mem_map_of_mem seen.1,seen.2⟩

theorem Sound.finds {frame : Option Frame} (sound : Sound cfg env s frame) (kept : Kept s.outline) (key : Key) :
    (s.Shows key ∧ ∃ value, s.tree.find key = (s.tree,.done (.ok value)) ∧ (key,value) ∈ s.calls) ∨
    (¬ s.Shows key ∧ s.tree.find key = (s.tree,.done (.error .notFound))) := by
  rw [sound.shows kept,sound.find key]
  have buffer : OrderedMap.Sorted s.tree.insertBuffer := sound.outlineSorted.buffer
  have tree := sound.whole.2.1.sorted
  cases waits : OrderedMap.find key s.tree.insertBuffer with
  | some value =>
    have mem := (OrderedMap.findSome buffer).mp waits
    exact .inl ⟨.inl (List.mem_map_of_mem mem),value,rfl,kept.given _ (.inr (.inr mem))⟩
  | none =>
    have free := (OrderedMap.findNone buffer).mp waits
    rw [Option.none_or]
    cases there : OrderedMap.find key (top s.tree.root).flatten with
    | some value =>
      have mem := (OrderedMap.findSome tree).mp there
      exact .inl ⟨.inr (List.mem_map_of_mem mem),value,rfl,kept.given _ (.inl ((sound.seen (key,value)).mp mem).1)⟩
    | none =>
      have missing := (OrderedMap.findNone tree).mp there
      exact .inr ⟨by simp [free,missing],rfl⟩

theorem Sound.restShows {frame : Option Frame} (sound : Sound cfg env s frame) (kept : Kept s.outline)
    (rest : s.tree.isInserting = false) {key : Key} (called : key ∈ OrderedMap.keys s.calls) : s.Shows key := by
  obtain rfl : frame = none := by
    cases frame with
    | none => rfl
    | some f =>
      have flag := sound.flag
      rw [rest] at flag
      cases flag
  have frames : s.frames = [] := sound.frames
  have content : s.outline.content = (top s.tree.root).flatten := by rw [System.outline,frames]; rfl
  have batch : s.outline.batch = [] := by rw [System.outline,frames]; rfl
  rw [sound.shows kept]
  rcases kept.called key called with inside | none_ | waits
  · exact .inr (content ▸ inside)
  · rw [batch] at none_
    cases none_
  · exact .inl waits

end map

namespace InjectorDb
variable {World : Type} {cfg : Config} {ipfs : Ipfs World} {R : World → Hash → Value → Prop}
  {content : Hash → Option Value} {first : Hash}

theorem Resumed.memory (two : 2 ≤ cfg.maxNodeSize) {db : InjectorDb World} {e : DbEvent World} {by_ : Resumption}
    {map : System World} (resumed : Resumed cfg ipfs db e by_ map) (carried : Carried cfg ipfs.env R db.map)
    (memory : InMemory db.map.tree.root) : InMemory map.tree.root := by
  obtain ⟨frame,sound⟩ := carried.sound
  rw [settledSame memory] at sound
  obtain ⟨_,sound'⟩ := (stepSound two sound resumed.step).1
  exact sound'.whole.1

theorem memoryStep (two : 2 ≤ cfg.maxNodeSize) {db db' : InjectorDb World} {e : DbEvent World}
    (sending : Sending cfg ipfs R content first db) (step : Step cfg ipfs db e db')
    (memory : InMemory db.map.tree.root) : InMemory db'.map.tree.root := by
  cases (moves sending.running step).1 with
  | @called key value => exact (callRoot key value db.map).symm ▸ memory
  | @buffered key value =>
    rw [(uploadDatabaseAlong db.updates.length (db.called key value)).map]
    exact (callRoot key value db.map).symm ▸ memory
  | added => exact memory
  | republished => exact memory
  | went resumed => exact resumed.memory two sending.carried memory
  | @ended _ _ map u outcome resumed =>
    rw [(insertedAlong u outcome { db with map := map, owners := [], midway := none }).map]
    exact resumed.memory two sending.carried memory

theorem startMemory {db : InjectorDb World} (start : Starts cfg db) (new : db.map.tree.rootHash.isEmpty = true) :
    InMemory db.map.tree.root := by
  obtain ⟨S,pathToRepo,ipns,files,world,_,rfl⟩ := start
  have root := (initialRoot cfg S pathToRepo ipns files world).1
  cases filed : filedId files pathToRepo ipns with
  | none => exact .inl (by rw [root,filed]; rfl)
  | some id =>
    obtain ⟨text,_,cid,rfl⟩ := filedCid filed
    rw [BTree.rootHash,root,filed] at new
    exact absurd ((cidProper cid).symm.trans new) Bool.false_ne_true

theorem runMemory (two : 2 ≤ cfg.maxNodeSize) (here : cfg.addOp = true) (retains : Retains ipfs.env R)
    (injective : cfg.json.DumpInjective fun _ => True) (back : cfg.json.ParsesBack) {db₀ db : InjectorDb World}
    (start : Starts cfg db₀) (new : db₀.map.tree.rootHash.isEmpty = true)
    (run : Reach (· = db₀) (AddressedStep cfg ipfs R content) db) :
    Sending cfg ipfs R content db₀.map.tree.rootHash db ∧ InMemory db.map.tree.root := by
  refine run.invariant (I := fun db => Sending cfg ipfs R content db₀.map.tree.rootHash db ∧
    InMemory db.map.tree.root) (fun db same => ?_) fun _ _ _ ⟨sending,memory⟩ step =>
      ⟨sending.step two here retains injective back step,memoryStep two sending step.1 memory⟩
  rw [show db = db₀ from same]
  exact ⟨startSending start,startMemory start new⟩

end InjectorDb

namespace Service
variable {World Ptime σ : Type} {cfg : Config} {ipfs : Ipfs World} {R : World → Hash → Value → Prop}
  {content : Hash → Option Value} {dt : DateTime Ptime} {s : Service World Ptime}

/-- At every moment of every run the injector answers a get_content of its own with the content
and the time of a request for this url when the url shows, and with not_found when it does not.
While no insert is under way every url shows that an update was called with. -/
theorem ownContents (two : 2 ≤ cfg.maxNodeSize) (here : cfg.addOp = true) (retains : Retains ipfs.env R)
    (injective : cfg.json.DumpInjective fun _ => True) (lib : cfg.json.Documented) (documented : dt.Documented)
    {db₀ : InjectorDb World} (start : InjectorDb.Starts cfg db₀) (new : db₀.map.tree.rootHash.isEmpty = true)
    (run : Reach (· = fresh db₀) (Service.Step cfg ipfs R content dt) s) (S : Storage σ) (st : σ) (fuel : Nat)
    (url : Key) :
    (∃ result st', getContent cfg S dt fuel url s.db.map.tree st = some (result,s.db.map.tree,st') ∧
      ((s.db.map.Shows url ∧ ∃ e ∈ s.injector.calls, e.key = url ∧ ∃ t, e.ts = dt.clock t ∧
          ∃ ipfsId, content ipfsId = some e.value ∧ result =
            if t.1.microsecond = 0 then .error .notFound else (S.cat st ipfsId).1.map (⟨e.ts,·⟩)) ∨
        ¬ s.db.map.Shows url ∧ result = .error .notFound)) ∧
    (s.db.map.tree.isInserting = false → url ∈ s.db.updates.map Update.key → s.db.map.Shows url) := by
  obtain ⟨sane,dbRun⟩ := (freshSane start).run lib documented run
  obtain ⟨sending,memory⟩ := InjectorDb.runMemory two here retains injective lib.nodes start new dbRun
  obtain ⟨frame,sound⟩ := sending.carried.sound
  have kept := sending.carried.kept
  rw [settledSame memory] at sound kept
  have query_ {result : Except ErrorCode Value} (ends : s.db.map.tree.find url = (s.db.map.tree,.done result)) :
      query cfg S fuel url s.db.map.tree st = some (result,s.db.map.tree,st) := by
    rw [query,BTree.findAlone,ends]
    cases fuel <;> rfl
  constructor
  · rcases sound.finds kept url with ⟨shows_,value,ends,given⟩ | ⟨hidden,ends⟩
    · rw [sending.pairs] at given
      obtain ⟨e,inside,key,t,time,ipfsId,there,text,same,_⟩ :=
        (sane.updates _ given).read lib documented sane.requests
      rw [show value = _ from same] at ends
      have got := (entryReadBack documented lib.records (fun _ => asciiUtf8) t ipfsId text).2 cfg S fuel url _ st _ st
        rfl (query_ ends)
      refine ⟨if t.1.microsecond = 0 then .error .notFound else (S.cat st ipfsId).1.map (⟨e.ts,·⟩),
        if t.1.microsecond = 0 then st else (S.cat st ipfsId).2,?_,
        .inl ⟨shows_,e,inside,key,t,time,ipfsId,there,rfl⟩⟩
      rw [got,time]
      split <;> rfl
    · exact ⟨.error .notFound,st,by rw [getContent,query_ ends],.inr ⟨hidden,rfl⟩⟩
  · intro rest mem
    refine sound.restShows kept rest ?_
    rw [sending.pairs,InjectorDb.pairs,OrderedMap.keys,List.map_map]
    exact mem

theorem ownContentsInserting : ∃ s : Service MockIpfs ClockTime, s.db.map.tree.isInserting = true ∧
    ∃ result st', getContent entryConfig (InjectorDb.contentStorage entryContent) boost 0 (letter 97) s.db.map.tree () =
        some (result,s.db.map.tree,st') ∧
      ∃ e ∈ s.injector.calls, e.key = letter 97 ∧ ∃ t, e.ts = boost.clock t ∧
        ∃ ipfsId, entryContent ipfsId = some e.value ∧ result =
          if t.1.microsecond = 0 then .error .notFound
          else ((InjectorDb.contentStorage entryContent).cat () ipfsId).1.map (⟨e.ts,·⟩) := by
  have run : ((play (toUpdate ++ .begins 0 :: [.db .go,.db .go,.db .go,.db .go]) (fresh entryDb)).any fun s =>
      s.db.map.tree.isInserting && s.db.map.frames.all Frame.waits && decide (s.db.map.Shows (letter 97))) = true := by
    decide +kernel
  obtain ⟨s,played,seen⟩ := Option.any_eq_true _ _ |>.mp run
  simp only [Bool.and_eq_true,decide_eq_true_eq] at seen
  obtain ⟨⟨inserting,_⟩,shows_⟩ := seen
  obtain ⟨⟨result,st',got,answer⟩,_⟩ := ownContents (by decide) rfl MockIpfs.pins.retainsKnown nlohmannDumpInjective
    nlohmannDocumented boostDocumented entryStarts rfl (playRun (.start rfl) played)
    (InjectorDb.contentStorage entryContent) () 0 (letter 97)
  exact ⟨s,inserting,result,st',got,(answer.resolve_right fun hidden => hidden.1 shows_).2⟩

end Service
end IpfsCache
