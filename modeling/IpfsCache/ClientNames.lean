import IpfsCache.ClientRuns

/-! What set_ipns leaves behind. A database that was replaced is not touched any more, and
neither is the file of its name; what a database shows is what its own name resolved to. -/
namespace IpfsCache
namespace Client
variable {σ : Type} {json : JsonLib} {S : Storage σ} {s s' : Client σ} {e : ClientEvent}

theorem pathInjective {pathToRepo ipns ipns' : StdString}
    (same : pathToDb pathToRepo ipns = pathToDb pathToRepo ipns') :
    ipns = ipns' :=
  StdString.bytesInjective (List.append_cancel_left (congrArg StdString.bytes same))

theorem savedElsewhere {files : Files} {pathToRepo ipns path : StdString} (id : StdString)
    (other : path ≠ pathToDb pathToRepo ipns) :
    (saveDb pathToRepo ipns id files).content path = files.content path := by
  simp only [saveDb]
  split
  · exact Function.update_of_ne other _ _
  · rfl

def Serves (s : Client σ) (ipns : StdString) : Prop :=
  s.gone = false ∧ ∃ d, s.dbs[s.current]? = some d ∧ d.db.ipns = ipns

structure Stays (d d' : Downloader) : Prop where
  gone_ : d'.wasDestroyed = true
  map : d'.db.map = d.db.map
  ipfs : d'.db.ipfs = d.db.ipfs
  ids : d'.ids = d.ids
  waiting : d'.db.waiting = []
  phase : d'.phase = d.phase ∨ d'.phase = .ended

theorem Stays.trans {d d' d'' : Downloader} (first : Stays d d') (second : Stays d' d'') : Stays d d'' :=
  ⟨second.gone_,second.map.trans first.map,second.ipfs.trans first.ipfs,second.ids.trans first.ids,
    second.waiting,second.phase.elim (fun same => first.phase.imp same.trans same.trans) .inr⟩

theorem Alive.destroyDbAt (alive : s.Alive) (here : s.gone = false) {k : Nat} {d : Downloader}
    (at_ : s.dbs[k]? = some d) (gone_ : d.wasDestroyed = true) : s.destroyDb.dbs[k]? = some d := by
  obtain ⟨d₀,last,flag⟩ := alive.at
  rw [destroyDbPut last,putAt last,if_neg]
  · exact at_
  · rintro rfl
    rw [last] at at_
    cases at_
    rw [flag.trans here] at gone_
    cases gone_

theorem Alive.stays (alive : s.Alive) (moved : s.Moved json S e s') {k : Nat} {d : Downloader}
    (at_ : s.dbs[k]? = some d) (gone_ : d.wasDestroyed = true) (nobody : d.db.waiting = []) :
    ∃ d', s'.dbs[k]? = some d' ∧ Stays d d' := by
  have same : Stays d d := ⟨gone_,rfl,rfl,rfl,nobody,.inl rfl⟩
  have other {i : Nat} {d₁ : Downloader} (there : s.dbs[i]? = some d₁) (d₂ : Downloader)
      (meets : i = k → d₁ = d → Stays d d₂) : ∃ d', (s.put i d₂).dbs[k]? = some d' ∧ Stays d d' := by
    rw [putAt there]
    split
    · rename_i here
      exact ⟨d₂,rfl,meets here (Option.some.inj (there.symm.trans (here ▸ at_)))⟩
    · exact ⟨d,at_,same⟩
  have works {i : Nat} {d₁ : Downloader} (there : s.dbs[i]? = some d₁) (here : d₁.wasDestroyed = false)
      (d₂ : Downloader) : ∃ d', (s.put i d₂).dbs[k]? = some d' ∧ Stays d d' :=
    other there d₂ fun _ equal => by
      rw [← equal,here] at gone_
      cases gone_
  cases moved with
  | replaced ipns here =>
    have kept := alive.destroyDbAt here at_ gone_
    exact ⟨d,by rw [List.getElem?_append_left (List.getElem?_eq_some_iff.mp kept).1]; exact kept,same⟩
  | destroyed here => exact ⟨d,alive.destroyDbAt here at_ gone_,same⟩
  | waits here there =>
    obtain ⟨d₀,last,flag⟩ := alive.at
    cases last.symm.trans there
    exact works there (flag.trans here) _
  | late _ there _ _ =>
    exact other there _ fun _ equal => by
      subst equal
      exact ⟨gone_,rfl,rfl,rfl,nobody,.inr rfl⟩
  | begins there here _ => exact works there here _
  | downloads outcome there here _ => exact works there here _
  | wakes there here _ => exact works there here _
  | runs there _ =>
    exact other there _ fun _ equal => by
      subst equal
      exact ⟨gone_,rfl,rfl,rfl,nobody,.inl rfl⟩

def name (d : Downloader) : StdString × StdString := (d.db.pathToRepo,d.db.ipns)

theorem putNames {i : Nat} {d : Downloader} (at_ : s.dbs[i]? = some d) (d' : Downloader) (same : name d' = name d) :
    (s.put i d').dbs.map name = s.dbs.map name := by
  refine List.ext_getElem? fun k => ?_
  rw [List.getElem?_map,List.getElem?_map,putAt at_]
  split
  · rename_i here
    rw [← here,at_,Option.map_some,Option.map_some,same]
  · rfl

theorem names (alive : s.Alive) (moved : s.Moved json S e s') : s'.pathToRepo = s.pathToRepo ∧
    ((s'.dbs.map name = s.dbs.map name ∧ (s.gone = true → s'.gone = true)) ∨
      ∃ ipns, e = .setIpns ipns ∧ s'.gone = false ∧ s'.dbs.map name = s.dbs.map name ++ [(s.pathToRepo,ipns)]) := by
  obtain ⟨d₀,last,_⟩ := alive.at
  have closed : s.destroyDb.dbs.map name = s.dbs.map name := by
    rw [destroyDbPut last]
    exact putNames last _ rfl
  cases moved with
  | replaced ipns here => exact ⟨rfl,.inr ⟨ipns,rfl,here,by rw [List.map_append,closed]; rfl⟩⟩
  | destroyed here => exact ⟨rfl,.inl ⟨closed,fun _ => rfl⟩⟩
  | waits _ at_ => exact ⟨rfl,.inl ⟨putNames at_ (Downloader.waits _ _) rfl,id⟩⟩
  | late _ at_ _ _ => exact ⟨rfl,.inl ⟨putNames at_ _ rfl,id⟩⟩
  | begins at_ _ _ => exact ⟨rfl,.inl ⟨putNames at_ (Downloader.begins json S _ _ _).1 rfl,id⟩⟩
  | @downloads i d outcome at_ _ _ =>
    have same : name (d.downloads json S outcome s.files s.world).1 = name d := by cases outcome <;> rfl
    exact ⟨rfl,.inl ⟨putNames at_ _ same,id⟩⟩
  | wakes at_ _ _ => exact ⟨rfl,.inl ⟨putNames at_ _ rfl,id⟩⟩
  | runs at_ _ => exact ⟨rfl,.inl ⟨putNames at_ (Downloader.ran _ _) rfl,id⟩⟩

theorem eachPut {P : Downloader → Prop} (each : ∀ d ∈ s.dbs, P d) {i : Nat} {d' : Downloader} (own : P d') :
    ∀ d ∈ (s.put i d').dbs, P d := fun d mem => by
  rcases List.mem_or_eq_of_mem_set mem with old | same
  · exact each d old
  · exact same ▸ own

theorem servesLast {ipns : StdString} :
    s.Serves ipns ↔ s.gone = false ∧ ((s.dbs.map name).getLast?).map Prod.snd = some ipns := by
  rw [Serves,List.getLast?_eq_getElem?,List.length_map,List.getElem?_map,current]
  cases s.dbs[s.dbs.length - 1]? <;> simp [name]

theorem servesStep (alive : s.Alive) (moved : s.Moved json S e s') {ipns : StdString} (other : e ≠ .setIpns ipns)
    (serves : s'.Serves ipns) : s.Serves ipns := by
  rw [servesLast] at serves ⊢
  rcases (names alive moved).2 with ⟨same,gone_⟩ | ⟨ipns',rfl,_,more⟩
  · rw [same] at serves
    refine ⟨Bool.eq_false_of_not_eq_true fun closed => ?_,serves.2⟩
    rw [gone_ closed] at serves
    cases serves.1
  · rw [more,List.getLast?_append] at serves
    cases serves.2
    exact absurd rfl other

theorem fileKept (alive : s.Alive) (repo : ∀ x ∈ s.dbs.map name, x.1 = s.pathToRepo)
    (moved : s.Moved json S e s') {ipns : StdString} (idle : ¬ s.Serves ipns) :
    s'.files.content (pathToDb s.pathToRepo ipns) = s.files.content (pathToDb s.pathToRepo ipns) := by
  cases moved with
  | @downloads i d outcome at_ here _ =>
    have saved_ : (d.downloads json S outcome s.files s.world).2.1 =
        saveDb d.db.pathToRepo d.db.ipns (ClientDb.resolved outcome) s.files := by cases outcome <;> rfl
    change (d.downloads json S outcome s.files s.world).2.1.content _ = _
    rw [saved_]
    refine savedElsewhere _ fun same => idle ?_
    obtain ⟨rfl,alive_⟩ := (alive.flags i d at_).mp here
    rw [show d.db.pathToRepo = s.pathToRepo from repo _ (List.mem_map_of_mem (List.mem_of_getElem? at_))] at same
    exact ⟨alive_,d,at_,(pathInjective same).symm⟩
  | _ => rfl

structure Shows (d : Downloader) : Prop where
  spawned : d.phase = .spawned → d.ids = []
  last : ∀ id, d.ids.getLast? = some id → d.db.ipfs = id ∧ d.db.map.rootHash = id

theorem loadedRoot (cfg : Config) (hash : Hash) (bt : BTree) (st : σ) :
    (BTree.load cfg S hash bt st).1.rootHash = hash := by
  unfold BTree.load
  split
  · rename_i r root
    split
    · rw [BTree.rootHash,root]
      assumption
    · rfl
  · rfl

theorem showsSame {d d' : Downloader} (shows_ : Shows d) (ids : d'.ids = d.ids) (ipfs : d'.db.ipfs = d.db.ipfs)
    (map : d'.db.map = d.db.map) (phase : d'.phase = .spawned → d.phase = .spawned) : Shows d' :=
  ⟨fun spawned => ids.trans (shows_.spawned (phase spawned)),by rw [ids,ipfs,map]; exact shows_.last⟩

theorem showsStep (alive : s.Alive) (moved : s.Moved json S e s') (shows_ : ∀ d ∈ s.dbs, Shows d) :
    ∀ d ∈ s'.dbs, Shows d := by
  have own {i : Nat} {d : Downloader} (at_ : s.dbs[i]? = some d) : Shows d := shows_ d (List.mem_of_getElem? at_)
  obtain ⟨d₀,last,_⟩ := alive.at
  have closed : ∀ d ∈ s.destroyDb.dbs, Shows d := by
    rw [destroyDbPut last]
    exact eachPut shows_ (showsSame (own last) rfl rfl rfl id)
  cases moved with
  | replaced ipns _ =>
    refine List.forall_mem_append.mpr ⟨closed,List.forall_mem_singleton.mpr ⟨fun _ => rfl,fun id none_ => ?_⟩⟩
    cases none_
  | destroyed _ => exact closed
  | waits _ at_ => exact eachPut shows_ (showsSame (own at_) rfl rfl rfl id)
  | late _ at_ _ _ => exact eachPut shows_ (showsSame (own at_) rfl rfl rfl fun ended => by cases ended)
  | begins at_ _ phase =>
    refine eachPut shows_ ⟨fun resolving => (by cases resolving),fun id none_ => ?_⟩
    rw [show (Downloader.begins json S _ _ _).1.ids = _ from (own at_).spawned phase] at none_
    cases none_
  | @downloads i d outcome at_ _ _ =>
    refine eachPut shows_ ?_
    cases outcome with
    | error ec => exact showsSame (own at_) (List.append_nil _) rfl rfl fun sleeping => by cases sleeping
    | ok id =>
      refine ⟨fun sleeping => (by cases sleeping),fun id' last => ?_⟩
      rw [show (d.downloads json S (.ok id) s.files s.world).1.ids = d.ids ++ [id] from rfl,List.getLast?_concat] at last
      cases last
      exact ⟨rfl,loadedRoot _ id d.db.map s.world⟩
  | wakes at_ _ _ => exact eachPut shows_ (showsSame (own at_) rfl rfl rfl fun resolving => by cases resolving)
  | runs at_ _ => exact eachPut shows_ (showsSame (own at_) rfl rfl rfl id)

structure Settled (s : Client σ) : Prop where
  alive : s.Alive
  repo : ∀ x ∈ s.dbs.map name, x.1 = s.pathToRepo
  shows_ : ∀ d ∈ s.dbs, Shows d

theorem Settled.step (settled : s.Settled) (moved : s.Moved json S e s') : s'.Settled := by
  refine ⟨settled.alive.step moved,?_,showsStep settled.alive moved settled.shows_⟩
  obtain ⟨path,same | ⟨ipns,_,_,more⟩⟩ := names settled.alive moved
  · rw [same.1,path]
    exact settled.repo
  · rw [more,path]
    exact List.forall_mem_append.mpr ⟨settled.repo,List.forall_mem_singleton.mpr rfl⟩

theorem reachedSettled (h : s.Reached json S) : s.Settled := by
  refine Reach.invariant (I := fun s => s.Settled) (fun s start => ?_)
    (fun s e s' settled step => settled.step (moved step)) h
  obtain ⟨pathToRepo,ipns,files,world,rfl⟩ := start
  refine ⟨initialAlive ..,?_,?_⟩
  · exact List.forall_mem_singleton.mpr rfl
  · exact List.forall_mem_singleton.mpr ⟨fun _ => rfl,fun id none_ => by cases none_⟩

/-- In a run without a set_ipns to a name, starting when the client is not (or no longer) on
this name, the file of the name is not written; and whatever the run, a replaced database
keeps its tree, its id and no waiters, while each database shows what its own name resolved to. -/
theorem replacedUntouched (h : s.Reached json S) {ipns : StdString} (idle : ¬ s.Serves ipns)
    (run : Reach (· = s) (fun s e s' => s.Step json S e s' ∧ e ≠ .setIpns ipns) s') :
    s'.files.content (pathToDb s.pathToRepo ipns) = s.files.content (pathToDb s.pathToRepo ipns) ∧
    (∀ (k : Nat) d, s.dbs[k]? = some d → d.wasDestroyed = true → ∃ d', s'.dbs[k]? = some d' ∧ Stays d d') ∧
    ∀ d ∈ s'.dbs, ∀ id, d.ids.getLast? = some id → d.db.ipfs = id ∧ d.db.map.rootHash = id := by
  obtain ⟨settled,_,path,kept,stays⟩ : s'.Settled ∧ ¬ s'.Serves ipns ∧ s'.pathToRepo = s.pathToRepo ∧
      s'.files.content (pathToDb s.pathToRepo ipns) = s.files.content (pathToDb s.pathToRepo ipns) ∧
      ∀ (k : Nat) d, s.dbs[k]? = some d → d.wasDestroyed = true → ∃ d', s'.dbs[k]? = some d' ∧ Stays d d' := by
    refine Reach.invariant (I := fun s' => s'.Settled ∧ ¬ s'.Serves ipns ∧ s'.pathToRepo = s.pathToRepo ∧
      s'.files.content (pathToDb s.pathToRepo ipns) = s.files.content (pathToDb s.pathToRepo ipns) ∧
      ∀ (k : Nat) d, s.dbs[k]? = some d → d.wasDestroyed = true → ∃ d', s'.dbs[k]? = some d' ∧ Stays d d') ?_ ?_ run
    · rintro _ rfl
      exact ⟨reachedSettled h,idle,rfl,rfl,fun k d at_ gone_ =>
        ⟨d,at_,gone_,rfl,rfl,rfl,(reachedCallers h).2.nobody at_ gone_,.inl rfl⟩⟩
    · intro s₁ e s₂ ⟨settled,idle₁,path,kept,stays⟩ ⟨step,other⟩
      have moved := moved step
      refine ⟨settled.step moved,fun serves => idle₁ (servesStep settled.alive moved other serves),
        (names settled.alive moved).1.trans path,?_,fun k d at_ gone_ => ?_⟩
      · rw [← path] at kept ⊢
        exact (fileKept settled.alive settled.repo moved idle₁).trans kept
      · obtain ⟨d₁,at₁,first⟩ := stays k d at_ gone_
        obtain ⟨d₂,at₂,second⟩ := settled.alive.stays moved at₁ first.gone_ first.waiting
        exact ⟨d₂,at₂,first.trans second⟩
  exact ⟨kept,stays,fun d mem => (settled.shows_ d mem).last⟩

theorem replacedUntouchedOnce : ∃ s s' : Client MockStorage,
    s'.files.content (pathToDb (letter 114) (letter 97)) = some Downloads.someCid ∧ s'.dbs.length = 2 ∧
    s'.files.content (pathToDb s.pathToRepo (letter 97)) = s.files.content (pathToDb s.pathToRepo (letter 97)) ∧
    (∀ (k : Nat) d, s.dbs[k]? = some d → d.wasDestroyed = true → ∃ d', s'.dbs[k]? = some d' ∧ Stays d d') ∧
    ∀ d ∈ s'.dbs, ∀ id, d.ids.getLast? = some id → d.db.ipfs = id ∧ d.db.map.rootHash = id := by
  have run : (([.begins 0,.resolved 0 (.ok Downloads.someCid),.setIpns (letter 98),.begins 1].foldlM
      (step nlohmann MockStorage.storage) (initial (letter 114) (letter 97) ⟨fun _ => none,fun _ => true⟩ .empty)).any
      fun s => decide (((s.dbs.map name).getLast?).map Prod.snd = some (letter 98)) &&
        (s.step nlohmann MockStorage.storage (.resolved 1 (.error .notFound))).any fun s' =>
          decide (s'.files.content (pathToDb (letter 114) (letter 97)) = some Downloads.someCid) &&
          decide (s'.dbs.length = 2)) = true := by
    decide +kernel
  obtain ⟨s,played,seen⟩ := Option.any_eq_true _ _ |>.mp run
  simp only [Bool.and_eq_true,decide_eq_true_eq] at seen
  obtain ⟨last,next⟩ := seen
  obtain ⟨s',step_,seen⟩ := Option.any_eq_true _ _ |>.mp next
  simp only [Bool.and_eq_true,decide_eq_true_eq] at seen
  have idle : ¬ s.Serves (letter 97) := fun serves => by
    have other := last.symm.trans (servesLast.mp serves).2
    exact absurd other (by decide +kernel)
  exact ⟨s,s',seen.1,seen.2,replacedUntouched (Reach.events (.start ⟨_,_,_,_,rfl⟩) played) idle
    (.step (.resolved 1 (.error .notFound)) (.start rfl) ⟨step_,by simp⟩)⟩

end Client
end IpfsCache
