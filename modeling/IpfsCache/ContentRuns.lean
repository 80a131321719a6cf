import IpfsCache.GetContents

/-! What every run of a client with its calls of get_content keeps: where the calls are, whose
finds wait in which tree, and what the trees have loaded. -/
namespace IpfsCache

namespace Traffic
variable {cfg : Config} {content : Hash → Option Value}

inductive Goes (key : Key) (served : List Reply) (fetching : List Fetch) (s' : Traffic) : Prop
  | answered (r : Reply) (own : r.lookup.key = key) (replies : s'.served = served ++ [r])
      (waiting : s'.fetching = fetching) : Goes key served fetching s'
  | waits (f : Fetch) (own : f.lookup.key = key) (replies : s'.served = served)
      (waiting : s'.fetching = fetching ++ [f]) : Goes key served fetching s'

def shown (s : Traffic) : Option Hash := (s.current.bind (s.objects[·]?)).map Root.hash

structure Beside (s s' : Traffic) : Prop where
  shown : s'.shown = s.shown
  loaded : s'.loaded = s.loaded
  destroyed : s'.destroyed = s.destroyed

theorem goesOnGoes (s : Traffic) (lookup : Lookup) (j : Nat) (step : FindStep) :
    Goes lookup.key s.served s.fetching (s.goesOn lookup j step) ∧ Beside s (s.goesOn lookup j step) := by
  cases step with
  | done result => exact ⟨.answered ⟨lookup,result⟩ rfl rfl rfl,rfl,rfl,rfl⟩
  | cat path hash => exact ⟨.waits ⟨lookup,j,path,hash⟩ rfl rfl rfl,rfl,rfl,rfl⟩

theorem putBeside {s : Traffic} {j : Nat} {r r' : Root} (at_ : s.objects[j]? = some r) (same : r'.hash = r.hash) :
    Beside s (s.put j (some r')) := by
  refine ⟨?_,rfl,rfl⟩
  cases current : s.current with
  | none => simp [shown,put,current]
  | some k =>
    simp only [shown,put,current,Option.bind_some,List.getElem?_set]
    split
    · rename_i here
      subst here
      rw [if_pos (List.getElem?_eq_some_iff.mp at_).1,at_,Option.map_some,Option.map_some,same]
    · rfl

theorem Beside.trans {s s' s'' : Traffic} (first : Beside s s') (second : Beside s' s'') : Beside s s'' :=
  ⟨second.shown.trans first.shown,second.loaded.trans first.loaded,second.destroyed.trans first.destroyed⟩

theorem worksGoes {s : Traffic} {j : Nat} {r r' : Root} (at_ : s.objects[j]? = some r) (same : r'.hash = r.hash)
    (lookup : Lookup) (step : FindStep) :
    Goes lookup.key s.served s.fetching ((s.put j (some r')).goesOn lookup j step) ∧
      Beside s ((s.put j (some r')).goesOn lookup j step) :=
  have goes := goesOnGoes (s.put j (some r')) lookup j step
  ⟨goes.1,(putBeside at_ same).trans goes.2⟩

theorem findGoes {s : Traffic} (kept : s.Kept cfg content) (key : Key) :
    Goes key s.served s.fetching (s.find key) ∧ Beside s (s.find key) := by
  rw [find]
  split
  · exact ⟨.answered ⟨⟨key,none⟩,.error .notFound⟩ rfl rfl rfl,rfl,rfl,rfl⟩
  · rename_i j current
    obtain ⟨r,at_,_⟩ := kept.current j current
    have goes (x : Option Node) (step : FindStep) :=
      @worksGoes { s with begun := s.begun ++ [⟨key,some r.hash⟩] } j r ⟨x,r.hash⟩ at_ rfl ⟨key,some r.hash⟩ step
    rw [at_,fromFind]
    have here := goes (BTree.lazyFind r.hash r.node key).1 (BTree.lazyFind r.hash r.node key).2
    exact ⟨here.1,here.2.shown,here.2.loaded,here.2.destroyed⟩

theorem blockGoes {s : Traffic} (kept : s.Kept cfg content) {i : Nat} {f : Fetch} (at_ : s.fetching[i]? = some f)
    (data : Except ErrorCode Value) :
    Goes f.lookup.key s.served (s.fetching.eraseIdx i)
        (block cfg data f { s with fetching := s.fetching.eraseIdx i }) ∧
      Beside s (block cfg data f { s with fetching := s.fetching.eraseIdx i }) := by
  rw [block]
  split
  · exact ⟨.answered ⟨f.lookup,aborted data⟩ rfl rfl rfl,rfl,rfl,rfl⟩
  · obtain ⟨n,h,_,there,_⟩ := kept.waits f (List.mem_of_getElem? at_)
    have goes (x : Option Node) (step : FindStep) :=
      @worksGoes { s with fetching := s.fetching.eraseIdx i } f.object ⟨some n,h⟩ ⟨x,h⟩ there rfl f.lookup step
    rw [there,fromResume]
    have here := goes (some (n.resume cfg f.lookup.key data f.path).1) (n.resume cfg f.lookup.key data f.path).2
    exact ⟨here.1,here.2.shown,here.2.loaded,here.2.destroyed⟩

theorem loadShows (hash : Hash) (s : Traffic) : (s.load hash).shown = some hash ∧
    (s.load hash).destroyed = s.destroyed ∧ (s.load hash).fetching = s.fetching ∧
    s.loaded ⊆ (s.load hash).loaded ∧ ∀ H ∈ (s.load hash).loaded, H ∈ s.loaded ∨ H = hash := by
  rw [load]
  split
  · exact ⟨by assumption,rfl,rfl,List.Subset.refl _,fun H => .inl⟩
  · refine ⟨?_,rfl,rfl,List.subset_append_left _ _,fun H mem => ?_⟩
    · simp [shown]
    · exact (List.mem_append.mp mem).imp id List.mem_singleton.mp

theorem begunLoaded {s : Traffic} (run : s.Reached cfg content) :
    ∀ l ∈ s.begun, ∀ H, l.began = some H → H ∈ s.loaded := by
  refine Reach.invariantOver (I := fun s => ∀ l ∈ s.begun, ∀ H, l.began = some H → H ∈ s.loaded)
    (fun s => reachedKept) (fun s start => ?_) (fun s e s' kept known step => ?_) run
  · cases start
    exact fun l mem => by cases mem
  · rcases stepCases step with ⟨key,_,rfl⟩ | ⟨hash,_,rfl⟩ | ⟨i,data,f,_,at_,_,rfl⟩ | ⟨_,rfl⟩
    · rw [(findGoes kept key).2.loaded]
      have begun : (s.find key).begun = s.begun ++ [⟨key,s.shown⟩] := by
        rw [find,shown]
        split
        · rename_i none_
          rw [none_]
          rfl
        · rename_i j current
          dsimp only
          rw [goesOnBegun,(putSame _ _ _).1,current]
          rfl
      rw [begun]
      refine List.forall_mem_append.mpr ⟨known,List.forall_mem_singleton.mpr fun H began => ?_⟩
      obtain ⟨r,at_,rfl⟩ := Option.map_eq_some_iff.mp began
      obtain ⟨j,current,at_⟩ := Option.bind_eq_some_iff.mp at_
      obtain ⟨r',at',loaded⟩ := kept.current j current
      cases at_.symm.trans at'
      exact List.mem_of_getElem? loaded
    · have begun : (s.load hash).begun = s.begun := by
        rw [load]
        split <;> rfl
      rw [begun]
      exact fun l mem H began => (loadShows hash s).2.2.2.1 (known l mem H began)
    · rw [(blockGoes kept at_ data).2.loaded]
      have begun : (block cfg data f { s with fetching := s.fetching.eraseIdx i }).begun = s.begun := by
        rw [block]
        split
        · rfl
        · exact (goesOnBegun _ _ _ _).trans (putSame _ _ _).1
      rw [begun]
      exact known
    · exact known

theorem replyStored {s : Traffic} (run : s.Reached cfg content) {r : Reply} (mem : r ∈ s.served) {value : Value}
    (found : r.result = .ok value) :
    r.lookup.key.isEmpty = false ∧ ∃ H ∈ s.loaded, StoredBelow cfg content H r.lookup.key value := by
  obtain ⟨proper,H,began,stored⟩ := (reachedKept run).sound r mem value found
  have known : r.lookup ∈ s.known := List.mem_append_right _ (List.mem_map_of_mem mem)
  exact ⟨proper,H,begunLoaded run _ ((reachedKnown run).mem_iff.mpr known) H began,stored⟩

end Traffic

namespace GetContents
variable {σ Ptime : Type} {json : JsonLib} {S : Storage σ} {dt : DateTime Ptime} {content : Hash → Option Value}
  {published : StdString → Hash → Prop} {s s' : GetContents σ Ptime}

def places (s : GetContents σ Ptime) : List Nat :=
  s.shelves.flatMap Shelf.owners ++ (s.fetching.map ContentFetch.call ++ s.answers.map Prod.fst)

structure Stands (json : JsonLib) (content : Hash → Option Value) (published : StdString → Hash → Prop)
    (calls : List GetCall) (i : Nat) (d : Downloader) (x : Shelf) : Prop where
  reached : x.tree.Reached (clientConfig json) content
  flag : x.tree.destroyed = d.wasDestroyed
  shows_ : d.wasDestroyed = false → x.tree.shown = d.db.map.root.map Root.hash
  long : x.owners.length = x.tree.fetching.length
  owned : ∀ (j : Nat) f w, x.tree.fetching[j]? = some f → x.owners[j]? = some w →
    ∃ c, calls[w]? = some c ∧ c.db = i ∧ c.url = f.lookup.key
  loaded : ∀ H ∈ x.tree.loaded, published d.db.ipns H

def Recorded (json : JsonLib) (dt : DateTime Ptime) (content : Hash → Option Value)
    (published : StdString → Hash → Prop) (dbs : List Downloader) (c : GetCall) (ts : Ptime) (contentHash : Hash) :
    Prop :=
  ∃ d, dbs[c.db]? = some d ∧ ∃ H, published d.db.ipns H ∧ c.url.isEmpty = false ∧
    ∃ value, StoredBelow (clientConfig json) content H c.url value ∧
      readEntry json dt value = some (ts,contentHash)

structure Kept (json : JsonLib) (dt : DateTime Ptime) (content : Hash → Option Value)
    (published : StdString → Hash → Prop) (hand : List Nat) (s : GetContents σ Ptime) : Prop where
  settled : s.client.Settled
  long : s.shelves.length = s.client.dbs.length
  stands : ∀ (i : Nat) d x, s.client.dbs[i]? = some d → s.shelves[i]? = some x →
    Stands json content published s.calls i d x
  files : ∀ ipns text, s.client.files.content (pathToDb s.client.pathToRepo ipns) = some text →
    looksLikeCid (firstWord text) = true → published ipns (firstWord text)
  once : ∀ w, hand.count w + s.places.count w = if w < s.calls.length then 1 else 0
  fetches : ∀ f ∈ s.fetching, ∃ c, s.calls[f.call]? = some c ∧
    Recorded json dt content published s.client.dbs c f.ts f.contentHash
  answers : ∀ w r, (w,.ok r) ∈ s.answers → ∃ c, s.calls[w]? = some c ∧
    ∃ contentHash, Recorded json dt content published s.client.dbs c r.ts contentHash ∧
      content contentHash = some r.data

theorem Kept.answer {w : Nat} (kept : s.Kept json dt content published [w])
    {result : Except ErrorCode (CachedContent Ptime)}
    (sound : ∀ r, result = .ok r → ∃ c, s.calls[w]? = some c ∧
      ∃ contentHash, Recorded json dt content published s.client.dbs c r.ts contentHash ∧
        content contentHash = some r.data) :
    (s.answer w result).Kept json dt content published [] := by
  refine { kept with once := fun n => ?_, answers := fun n r mem => ?_ }
  · have before := kept.once n
    change _ = if n < s.calls.length then 1 else 0
    simp only [places,GetContents.answer,List.map_append,List.map_cons,List.map_nil,List.count_append,
      List.count_nil] at before ⊢
    omega
  · rcases List.mem_append.mp mem with old | new
    · exact kept.answers n r old
    · cases List.mem_singleton.mp new
      exact sound r rfl

theorem Kept.queried {w : Nat} (kept : s.Kept json dt content published [w]) {c : GetCall} {d : Downloader}
    (call : s.calls[w]? = some c) (db : s.client.dbs[c.db]? = some d) {result : Except ErrorCode Value}
    (sound : ∀ value, result = .ok value → ∃ H, published d.db.ipns H ∧ c.url.isEmpty = false ∧
      StoredBelow (clientConfig json) content H c.url value) :
    (s.queried json dt w result).Kept json dt content published [] := by
  unfold GetContents.queried
  cases result with
  | error ec => exact kept.answer fun r same => by cases same
  | ok rawJson =>
    dsimp only
    split
    · exact kept.answer fun r same => by cases same
    · rename_i ts contentHash read
      refine { kept with once := fun n => ?_, fetches := fun f mem => ?_ }
      · have before := kept.once n
        simp only [places,List.map_append,List.map_cons,List.map_nil,List.count_append,List.count_nil] at before ⊢
        omega
      · rcases List.mem_append.mp mem with old | new
        · exact kept.fetches f old
        · cases List.mem_singleton.mp new
          obtain ⟨H,there,proper,stored⟩ := sound rawJson rfl
          exact ⟨c,call,d,db,H,there,proper,rawJson,stored,read⟩

theorem setBoth {A B : Type} {P : Nat → A → B → Prop} {as : List A} {bs : List B}
    (each : ∀ (i : Nat) a b, as[i]? = some a → bs[i]? = some b → P i a b) {i : Nat} {a' : A} {b' : B}
    (own : P i a' b') :
    ∀ (k : Nat) a b, (as.set i a')[k]? = some a → (bs.set i b')[k]? = some b → P k a b := by
  intro k a b at_ at'
  rw [List.getElem?_set] at at_ at'
  split at at_
  · rename_i here
    subst here
    rw [if_pos rfl] at at'
    split at at_
    · split at at'
      · cases at_
        cases at'
        exact own
      · cases at'
    · cases at_
  · rename_i other
    rw [if_neg other] at at'
    exact each k a b at_ at'

theorem Kept.shelved {hand hand' : List Nat} (kept : s.Kept json dt content published hand) {i : Nat} {d : Downloader}
    {x x' : Shelf} (db : s.client.dbs[i]? = some d) (at_ : s.shelves[i]? = some x)
    (stands : Stands json content published s.calls i d x')
    (counts : ∀ n, hand'.count n + x'.owners.count n = hand.count n + x.owners.count n) :
    Kept json dt content published hand' { s with shelves := s.shelves.set i x' } := by
  refine { kept with long := ?_, stands := fun k d₁ x₁ db₁ at₁ => ?_, once := fun n => ?_ }
  · exact (List.length_set ..).trans kept.long
  · have same : s.client.dbs.set i d = s.client.dbs := by
      obtain ⟨less,rfl⟩ := List.getElem?_eq_some_iff.mp db
      exact List.set_getElem_self less
    exact setBoth kept.stands stands k d₁ x₁ (same.symm ▸ db₁) at₁
  · have before := kept.once n
    have placed := (Reach.replaced at_ x' Shelf.owners).count_eq n
    have both := counts n
    simp only [places,List.count_append] at before placed ⊢
    omega

theorem Kept.goesOn {hand : List Nat} (kept : s.Kept json dt content published hand) {i w : Nat} {d : Downloader}
    {x : Shelf} {c : GetCall} {rest : List Nat} {waiting : List Fetch} {tree : Traffic}
    (db : s.client.dbs[i]? = some d) (at_ : s.shelves[i]? = some x) (call : s.calls[w]? = some c) (here : c.db = i)
    (reached : tree.Reached (clientConfig json) content) (goes : Traffic.Goes c.url x.tree.served waiting tree)
    (beside : Traffic.Beside x.tree tree) (long : rest.length = waiting.length)
    (owned : ∀ (j : Nat) f n, waiting[j]? = some f → rest[j]? = some n →
      ∃ c, s.calls[n]? = some c ∧ c.db = i ∧ c.url = f.lookup.key)
    (counts : ∀ n, [w].count n + rest.count n = hand.count n + x.owners.count n) :
    (s.goesOn json dt i w rest x.tree.served.length tree).Kept json dt content published [] := by
  have stands := kept.stands i d x db at_
  have shelf (owners : List Nat) (long : owners.length = tree.fetching.length)
      (owned : ∀ (j : Nat) f n, tree.fetching[j]? = some f → owners[j]? = some n →
        ∃ c, s.calls[n]? = some c ∧ c.db = i ∧ c.url = f.lookup.key) :
      Stands json content published s.calls i d ⟨tree,owners⟩ :=
    ⟨reached,beside.destroyed.trans stands.flag,fun alive => beside.shown.trans (stands.shows_ alive),long,owned,
      fun H mem => stands.loaded H (beside.loaded ▸ mem)⟩
  unfold GetContents.goesOn
  cases goes with
  | answered r own replies same =>
    rw [replies,List.drop_left]
    refine (kept.shelved db at_ (shelf rest (same ▸ long) (same ▸ owned)) counts).queried call (here ▸ db)
      fun value found => ?_
    have mem : r ∈ tree.served := replies ▸ List.mem_append_right _ (List.mem_singleton_self r)
    obtain ⟨proper,H,inside,stored⟩ := Traffic.replyStored reached mem found
    rw [own] at proper stored
    exact ⟨H,stands.loaded H (beside.loaded ▸ inside),proper,stored⟩
  | waits f own replies more =>
    rw [replies,List.drop_length]
    refine kept.shelved db at_ (shelf (rest ++ [w]) ?_ fun j g n waits owns => ?_) fun n => ?_
    · rw [more,List.length_append,List.length_append,long]
      rfl
    · rw [more] at waits
      by_cases old : j < waiting.length
      · rw [List.getElem?_append_left old] at waits
        rw [List.getElem?_append_left (long ▸ old)] at owns
        exact owned j g n waits owns
      · rw [List.getElem?_append_right (Nat.le_of_not_lt old),List.getElem?_singleton] at waits
        rw [List.getElem?_append_right (long ▸ Nat.le_of_not_lt old),long,List.getElem?_singleton] at owns
        split at waits
        · rw [if_pos (by assumption)] at owns
          cases waits
          cases owns
          exact ⟨c,call,here,own.symm⟩
        · cases waits
    · have both := counts n
      simp only [List.count_append,List.count_nil] at both ⊢
      omega

theorem Kept.called (kept : s.Kept json dt content published []) (url : Key) :
    (s.called url).Kept json dt content published [s.calls.length] := by
  have older {w : Nat} {c : GetCall} (call : s.calls[w]? = some c) : (s.called url).calls[w]? = some c :=
    (List.getElem?_append_left (List.getElem?_eq_some_iff.mp call).1).trans call
  refine ⟨kept.settled,kept.long,fun i d x db at_ => ?_,kept.files,fun n => ?_,fun f mem => ?_,fun w r mem => ?_⟩
  · have stands := kept.stands i d x db at_
    refine { stands with owned := fun j f w waits owns => ?_ }
    obtain ⟨c,call,rest⟩ := stands.owned j f w waits owns
    exact ⟨c,older call,rest⟩
  · have before := kept.once n
    rw [List.count_nil,Nat.zero_add] at before
    change _ + s.places.count n = if n < (s.calls ++ [_]).length then 1 else 0
    rw [before,List.length_append,List.length_singleton,List.count_singleton]
    grind
  · obtain ⟨c,call,rest⟩ := kept.fetches f mem
    exact ⟨c,older call,rest⟩
  · obtain ⟨c,call,rest⟩ := kept.answers w r mem
    exact ⟨c,older call,rest⟩

theorem namesStay {c c' : Client σ} {e : ClientEvent} (settled : c.Settled) (moved : c.Moved json S e c') {k : Nat}
    {d : Downloader} (at_ : c.dbs[k]? = some d) : ∃ d', c'.dbs[k]? = some d' ∧ d'.db.ipns = d.db.ipns := by
  have named : (c.dbs.map Client.name)[k]? = some (Client.name d) := by rw [List.getElem?_map,at_]; rfl
  have kept : (c'.dbs.map Client.name)[k]? = some (Client.name d) := by
    rcases (Client.names settled.alive moved).2 with ⟨same,_⟩ | ⟨ipns,_,_,more⟩
    · rw [same,named]
    · rw [more,List.getElem?_append_left (List.getElem?_eq_some_iff.mp named).1,named]
  rw [List.getElem?_map] at kept
  obtain ⟨d',at',same⟩ := Option.map_eq_some_iff.mp kept
  exact ⟨d',at',congrArg Prod.snd same⟩

theorem Recorded.stays {c c' : Client σ} {e : ClientEvent} (settled : c.Settled) (moved : c.Moved json S e c')
    {call : GetCall} {ts : Ptime} {contentHash : Hash}
    (recorded : Recorded json dt content published c.dbs call ts contentHash) :
    Recorded json dt content published c'.dbs call ts contentHash := by
  obtain ⟨d,at_,H,there,rest⟩ := recorded
  obtain ⟨d',at',same⟩ := namesStay settled moved at_
  exact ⟨d',at',H,same.symm ▸ there,rest⟩

section stands
variable {calls : List GetCall} {i : Nat} {d d' : Downloader} {x : Shelf}

theorem Stands.same (stands : Stands json content published calls i d x) (gone_ : d'.wasDestroyed = d.wasDestroyed)
    (map : d'.db.map = d.db.map) (ipns : d'.db.ipns = d.db.ipns) : Stands json content published calls i d' x :=
  ⟨stands.reached,stands.flag.trans gone_.symm,fun alive => map.symm ▸ stands.shows_ (gone_ ▸ alive),stands.long,
    stands.owned,ipns.symm ▸ stands.loaded⟩

theorem Stands.load (stands : Stands json content published calls i d x) (alive : d.wasDestroyed = false)
    {hash : Hash} (there : published d.db.ipns hash) (gone_ : d'.wasDestroyed = d.wasDestroyed)
    (map : d'.db.map.root.map Root.hash = some hash) (ipns : d'.db.ipns = d.db.ipns) :
    Stands json content published calls i d' { x with tree := x.tree.load hash } := by
  obtain ⟨shown,destroyed,fetching,_,loaded⟩ := Traffic.loadShows hash x.tree
  have going := Traffic.Going.load ⟨stands.reached,stands.flag.trans alive⟩ hash
  refine ⟨going.1,destroyed.trans (stands.flag.trans gone_.symm),fun _ => shown.trans map.symm,?_,?_,fun H mem => ?_⟩
  · exact stands.long.trans (congrArg List.length fetching).symm
  · rw [fetching]
    exact stands.owned
  · rw [ipns]
    exact (loaded H mem).elim (stands.loaded H) (fun same => same ▸ there)

theorem Stands.destroy (stands : Stands json content published calls i d x) (alive : d.wasDestroyed = false) :
    Stands json content published calls i d.destroy { x with tree := x.tree.destroy } :=
  ⟨stands.reached.step .destroy ⟨trivial,by simp [Traffic.step,stands.flag,alive,Traffic.destroy]⟩,rfl,
    fun here => (by cases here),stands.long,stands.owned,stands.loaded⟩

theorem freshStands (pathToRepo ipns : StdString) :
    Stands json content published calls i (.make pathToRepo ipns) ⟨.fresh,[]⟩ :=
  ⟨.start rfl,rfl,fun _ => rfl,rfl,fun _ _ _ none_ => (by cases none_),fun H mem => (by cases mem)⟩

end stands

theorem Kept.moved (kept : s.Kept json dt content published []) {e : ClientEvent} {client : Client σ}
    (moved : s.client.Moved json S e client)
    (files : ∀ ipns text, client.files.content (pathToDb client.pathToRepo ipns) = some text →
      looksLikeCid (firstWord text) = true → published ipns (firstWord text))
    {i : Nat} {d' : Downloader} {x x' : Shelf} (at_ : s.shelves[i]? = some x) (owners : x'.owners = x.owners)
    (stands : Stands json content published s.calls i d' x') {newDbs : List Downloader} {newShelves : List Shelf}
    (dbs : client.dbs = s.client.dbs.set i d' ++ newDbs) (shelves : s.follow e = s.shelves.set i x' ++ newShelves)
    (long : newShelves.length = newDbs.length) (unowned : newShelves.flatMap Shelf.owners = [])
    (new : ∀ (j : Nat) d x, newDbs[j]? = some d → newShelves[j]? = some x →
      Stands json content published s.calls (s.client.dbs.length + j) d x) :
    Kept json dt content published [] { s with client := client, shelves := s.follow e } := by
  refine ⟨kept.settled.step moved,?_,fun k d₁ x₁ db₁ at₁ => ?_,files,fun n => ?_,fun f mem => ?_,fun w r mem => ?_⟩
  · simp [dbs,shelves,kept.long,long]
  · dsimp only at db₁ at₁
    rw [dbs] at db₁
    rw [shelves] at at₁
    have sameLength : (s.shelves.set i x').length = (s.client.dbs.set i d').length := by simp [kept.long]
    by_cases old : k < (s.client.dbs.set i d').length
    · rw [List.getElem?_append_left old] at db₁
      rw [List.getElem?_append_left (sameLength ▸ old)] at at₁
      exact setBoth kept.stands stands k d₁ x₁ db₁ at₁
    · have past := Nat.le_of_not_lt old
      rw [List.getElem?_append_right past] at db₁
      rw [List.getElem?_append_right (sameLength ▸ past),sameLength] at at₁
      have here := new _ d₁ x₁ db₁ at₁
      rw [List.length_set] at here past
      rwa [Nat.add_sub_cancel' past] at here
  · have before := kept.once n
    have placed := (Reach.replaced at_ x' Shelf.owners).count_eq n
    rw [owners] at placed
    simp only [places,shelves,List.flatMap_append,unowned,List.append_nil,List.count_append] at before placed ⊢
    omega
  · obtain ⟨c,call,recorded⟩ := kept.fetches f mem
    exact ⟨c,call,recorded.stays kept.settled moved⟩
  · obtain ⟨c,call,contentHash,recorded,there⟩ := kept.answers w r mem
    exact ⟨c,call,contentHash,recorded.stays kept.settled moved,there⟩

theorem loadedShown {σ : Type} (cfg : Config) (S : Storage σ) (hash : Hash) (bt : BTree) (st : σ) :
    (BTree.load cfg S hash bt st).1.root.map Root.hash = some hash := by
  unfold BTree.load
  split
  · rename_i r root
    split
    · rw [root]
      exact congrArg some (by assumption)
    · rfl
  · rfl

theorem Kept.filed {hand : List Nat} (kept : s.Kept json dt content published hand) {e : ClientEvent}
    {client : Client σ} (moved : s.client.Moved json S e client) (allowed : s.Allowed content published (.client e))
    (ipns text : StdString) (here : client.files.content (pathToDb client.pathToRepo ipns) = some text)
    (cid : looksLikeCid (firstWord text) = true) : published ipns (firstWord text) := by
  rw [(Client.names kept.settled.alive moved).1] at here
  cases moved with
  | @downloads i d outcome at_ _ _ =>
    have saved_ : (d.downloads json S outcome s.client.files s.client.world).2.1 =
        saveDb d.db.pathToRepo d.db.ipns (ClientDb.resolved outcome) s.client.files := by cases outcome <;> rfl
    have repo : d.db.pathToRepo = s.client.pathToRepo :=
      kept.settled.repo _ (List.mem_map_of_mem (List.mem_of_getElem? at_))
    dsimp only at here
    rw [saved_] at here
    by_cases own : pathToDb s.client.pathToRepo ipns = pathToDb d.db.pathToRepo d.db.ipns
    · rw [repo] at own
      have name := Client.pathInjective own
      subst name
      rw [← repo] at here
      cases open_ : s.client.files.writable (pathToDb d.db.pathToRepo d.db.ipns) with
      | false =>
        rw [saveDb,open_,if_neg Bool.false_ne_true,repo] at here
        exact kept.files _ text here cid
      | true =>
        rw [(saved (ClientDb.resolved outcome) open_).1] at here
        cases here
        cases outcome with
        | error ec => exact absurd cid (by rw [ClientDb.resolved,emptyNoCid]; exact Bool.false_ne_true)
        | ok ipfsId =>
          obtain ⟨there,solid⟩ := allowed d at_
          rw [ClientDb.resolved,solidWord solid]
          exact there
    · rw [Client.savedElsewhere _ own] at here
      exact kept.files ipns text here cid
  | _ => exact kept.files ipns text here cid

theorem Kept.client (kept : s.Kept json dt content published []) {e : ClientEvent} {client : Client σ}
    (moved : s.client.Moved json S e client) (allowed : s.Allowed content published (.client e)) :
    Kept json dt content published [] { s with client := client, shelves := s.follow e } := by
  have files := kept.filed moved allowed
  have shelf {i : Nat} {d : Downloader} (at_ : s.client.dbs[i]? = some d) :
      ∃ x, s.shelves[i]? = some x ∧ Stands json content published s.calls i d x := by
    have less := (List.getElem?_eq_some_iff.mp at_).1
    have there := List.getElem?_eq_getElem (kept.long ▸ less : i < s.shelves.length)
    exact ⟨_,there,kept.stands i d _ at_ there⟩
  have none_ : ∀ (j : Nat) (d : Downloader) (x : Shelf), ([] : List Downloader)[j]? = some d →
      ([] : List Shelf)[j]? = some x → Stands json content published s.calls (s.client.dbs.length + j) d x :=
    fun _ _ _ none_ => by cases none_
  have one {i : Nat} {d : Downloader} (d' : Downloader) (at_ : s.client.dbs[i]? = some d)
      (dbs : client.dbs = s.client.dbs.set i d')
      (f : Traffic → Traffic) (follow : s.follow e = s.shelves.modify i fun x => { x with tree := f x.tree })
      (stands : ∀ x, Stands json content published s.calls i d x →
        Stands json content published s.calls i d' { x with tree := f x.tree }) :
      Kept json dt content published [] { s with client := client, shelves := s.follow e } := by
    obtain ⟨x,there,before⟩ := shelf at_
    refine kept.moved moved files there ?_ (stands x before) (dbs.trans (List.append_nil _).symm)
      ((follow.trans (Reach.modified there _)).trans (List.append_nil _).symm) rfl rfl none_
    rfl
  have quiet {i : Nat} {d : Downloader} (d' : Downloader) (at_ : s.client.dbs[i]? = some d)
      (dbs : client.dbs = s.client.dbs.set i d') (follow : s.follow e = s.shelves)
      (gone_ : d'.wasDestroyed = d.wasDestroyed) (map : d'.db.map = d.db.map) (ipns : d'.db.ipns = d.db.ipns) :
      Kept json dt content published [] { s with client := client, shelves := s.follow e } := by
    refine one d' at_ dbs id (follow.trans ?_) fun x stands => stands.same gone_ map ipns
    exact (List.modify_id ..).symm
  have works_ {i : Nat} {d : Downloader} (at_ : s.client.dbs[i]? = some d) (alive : d.wasDestroyed = false)
      (f : ClientDb → Traffic → Traffic) :
      s.works i f = s.shelves.modify i fun x => { x with tree := f d.db x.tree } := by
    simp only [works,at_,alive,if_false,Bool.false_eq_true]
  obtain ⟨last,at_,flag⟩ := kept.settled.alive.at
  have closed := Client.destroyDbPut at_
  cases moved with
  | replaced ipns alive =>
    obtain ⟨x,there,before⟩ := shelf at_
    have dbs : s.client.destroyDb.dbs ++ [.make s.client.pathToRepo ipns] =
        s.client.dbs.set s.client.current last.destroy ++ [.make s.client.pathToRepo ipns] := by
      rw [closed]
      rfl
    have follow : s.follow (.setIpns ipns) =
        s.shelves.set s.client.current { x with tree := x.tree.destroy } ++ [⟨.fresh,[]⟩] :=
      congrArg (· ++ _) (Reach.modified there _)
    have replaced := @Client.Moved.replaced σ json S s.client ipns alive
    refine kept.moved replaced files there ?_ (before.destroy (flag.trans alive)) dbs follow rfl rfl
      fun j d x' new new' => ?_
    · rfl
    · cases j with
      | zero =>
        cases new
        cases new'
        exact freshStands ..
      | succ j => cases new
  | destroyed alive =>
    exact one last.destroy at_ (congrArg Client.dbs closed) Traffic.destroy rfl fun x stands =>
      stands.destroy (flag.trans alive)
  | waits alive there => exact quiet _ there rfl rfl rfl rfl rfl
  | @late i d e own there gone_ _ =>
    refine quiet _ there rfl ?_ rfl rfl rfl
    have still (f : ClientDb → Traffic → Traffic) : s.works i f = s.shelves := by
      simp only [works,there,gone_,if_true]
    cases e with
    | begins j =>
      cases own
      exact still fun db => .loadDb s.client.files db.pathToRepo db.ipns
    | resolved j outcome =>
      cases own
      cases outcome with
      | ok ipfsId => exact still fun _ => .load ipfsId
      | error ec => rfl
    | woken j => rfl
    | _ => exact own.elim
  | @begins i d there alive _ =>
    refine one _ there rfl (.loadDb s.client.files d.db.pathToRepo d.db.ipns)
      (works_ there alive fun db => .loadDb s.client.files db.pathToRepo db.ipns) fun x stands => ?_
    have repo : d.db.pathToRepo = s.client.pathToRepo :=
      kept.settled.repo _ (List.mem_map_of_mem (List.mem_of_getElem? there))
    have map : (d.begins json S s.client.files s.client.world).1.db.map =
        (loadDb (clientConfig json) S s.client.files d.db.pathToRepo d.db.ipns d.db.map s.client.world).1 := rfl
    cases here : s.client.files.content (pathToDb d.db.pathToRepo d.db.ipns) with
    | none =>
      simp only [Traffic.loadDb,loadDb,here] at map ⊢
      exact stands.same rfl map rfl
    | some text =>
      cases cid : looksLikeCid (firstWord text) with
      | false =>
        simp only [Traffic.loadDb,loadDb,here,cid,if_false,Bool.false_eq_true] at map ⊢
        exact stands.same rfl map rfl
      | true =>
        simp only [Traffic.loadDb,loadDb,here,cid,if_true] at map ⊢
        exact stands.load alive (kept.files _ text (repo ▸ here) cid) rfl (map ▸ loadedShown _ S _ _ _) rfl
  | @downloads i d outcome there alive _ =>
    cases outcome with
    | error ec => exact quiet _ there rfl rfl rfl rfl rfl
    | ok ipfsId =>
      exact one _ there rfl (.load ipfsId) (works_ there alive fun _ => .load ipfsId) fun x stands =>
        stands.load alive (allowed d there).1 rfl (loadedShown _ S ipfsId d.db.map s.client.world) rfl
  | wakes there alive _ => exact quiet _ there rfl rfl rfl rfl rfl
  | runs there _ => exact quiet _ there rfl rfl rfl rfl rfl

inductive Moved (json : JsonLib) (S : Storage σ) (dt : DateTime Ptime) (s : GetContents σ Ptime) :
    GetEvent → GetContents σ Ptime → Prop
  | client {e : ClientEvent} {client : Client σ} (moved : s.client.Moved json S e client) :
      Moved json S dt s (.client e) { s with client := client, shelves := s.follow e }
  | begun {x : Shelf} (url : Key) (at_ : s.shelves[s.client.current]? = some x) (alive : x.tree.destroyed = false) :
      Moved json S dt s (.getContent url)
        ((s.called url).goesOn json dt s.client.current s.calls.length x.owners x.tree.served.length
          (x.tree.find url))
  | came {i j w : Nat} {x : Shelf} {f : Fetch} (data : Except ErrorCode Value) (at_ : s.shelves[i]? = some x)
      (own : x.owners[j]? = some w) (waits : x.tree.fetching[j]? = some f) :
      Moved json S dt s (.block i j data)
        (s.goesOn json dt i w (x.owners.eraseIdx j) x.tree.served.length
          (Traffic.block (clientConfig json) data f { x.tree with fetching := x.tree.fetching.eraseIdx j }))
  | read {k : Nat} {f : ContentFetch Ptime} (data : Except ErrorCode Value) (at_ : s.fetching[k]? = some f) :
      Moved json S dt s (.content k data)
        ({ s with fetching := s.fetching.eraseIdx k }.answer f.call (data.map (.mk f.ts)))

theorem moves {e : GetEvent} (step : s.step json S dt e = some s') : Moved json S dt s e s' := by
  cases e with
  | client e =>
    obtain ⟨client,goes,rfl⟩ := Option.map_eq_some_iff.mp step
    exact .client (Client.moved goes)
  | getContent url =>
    simp only [GetContents.step] at step
    split at step
    · rename_i x _ at_
      obtain ⟨tree,found,rfl⟩ := Option.map_eq_some_iff.mp step
      obtain ⟨alive,same⟩ := Option.ite_none_left_eq_some.mp found
      cases Option.some.inj same
      exact .begun url at_ (Bool.eq_false_of_not_eq_true alive)
    · cases step
  | block i j data =>
    simp only [GetContents.step] at step
    split at step
    · cases step
    · rename_i x at_
      split at step
      · cases step
      · rename_i w own
        obtain ⟨tree,came,rfl⟩ := Option.map_eq_some_iff.mp step
        obtain ⟨f,waits,rfl⟩ := Option.map_eq_some_iff.mp came
        exact .came data at_ own waits
  | content k data =>
    simp only [GetContents.step] at step
    split at step <;> cases step
    exact .read data (by assumption)

theorem Kept.shelf {hand : List Nat} (kept : s.Kept json dt content published hand) {i : Nat} {x : Shelf}
    (at_ : s.shelves[i]? = some x) :
    ∃ d, s.client.dbs[i]? = some d ∧ Stands json content published s.calls i d x := by
  have less := (List.getElem?_eq_some_iff.mp at_).1
  have db := List.getElem?_eq_getElem (kept.long ▸ less : i < s.client.dbs.length)
  exact ⟨_,db,kept.stands i _ x db at_⟩

theorem Kept.step (kept : s.Kept json dt content published []) {e : GetEvent}
    (step : Step json S dt content published s e s') : s'.Kept json dt content published [] := by
  obtain ⟨allowed,step⟩ := step
  cases moves step with
  | client moved => exact kept.client moved allowed
  | @begun x url at_ alive =>
    obtain ⟨d,db,_⟩ := kept.settled.alive.at
    have begun := kept.called url
    have stands := begun.stands _ d x db at_
    have goes := Traffic.findGoes (Traffic.reachedKept stands.reached) url
    exact begun.goesOn db at_ List.getElem?_concat_length rfl
      (stands.reached.step (.find url) ⟨trivial,by simp [Traffic.step,alive]⟩) goes.1 goes.2 stands.long stands.owned
      fun n => rfl
  | @came i j w x f data at_ own waits =>
    obtain ⟨d,db,stands⟩ := kept.shelf at_
    obtain ⟨c,call,here,url⟩ := stands.owned j f w waits own
    have goes := Traffic.blockGoes (Traffic.reachedKept stands.reached) waits data
    rw [← url] at goes
    refine kept.goesOn db at_ call here (stands.reached.step (.block j data) ⟨allowed x at_,?_⟩) goes.1 goes.2 ?_
      (fun k g n waits' own' => ?_) fun n => ?_
    · rw [Traffic.step,waits]
      rfl
    · rw [List.length_eraseIdx,List.length_eraseIdx,stands.long]
    · rw [List.getElem?_eraseIdx] at waits' own'
      split at waits'
      · rw [if_pos (by assumption)] at own'
        exact stands.owned _ g n waits' own'
      · rw [if_neg (by assumption)] at own'
        exact stands.owned _ g n waits' own'
    · rw [List.count_nil,Nat.zero_add,← (Reach.taken own).count_eq n]
      simp only [List.count_cons,List.count_nil]
      omega
  | @read k f data at_ =>
    obtain ⟨c,call,recorded⟩ := kept.fetches f (List.mem_of_getElem? at_)
    have taken : Kept json dt content published [f.call] { s with fetching := s.fetching.eraseIdx k } := by
      refine { kept with once := fun n => ?_, fetches := fun g mem => kept.fetches g (List.mem_of_mem_eraseIdx mem) }
      have before := kept.once n
      have out := ((Reach.taken at_).map ContentFetch.call).count_eq n
      simp only [places,List.map_cons,List.count_append,List.count_cons,List.count_nil] at before out ⊢
      omega
    refine taken.answer fun r same => ?_
    cases data with
    | error ec => cases same
    | ok text =>
      cases same
      exact ⟨c,call,f.contentHash,recorded,allowed f text at_ rfl⟩

theorem reachedKept (run : s.Reached json S dt content published) : s.Kept json dt content published [] := by
  refine Reach.invariant (fun s start => ?_) (fun s e s' kept step => kept.step step) run
  obtain ⟨pathToRepo,ipns,files,world,rfl,known⟩ := start
  refine ⟨@Client.reachedSettled σ json S _ (.start ⟨_,_,_,_,rfl⟩),rfl,fun i d x db at_ => ?_,known,fun w => rfl,
    fun f mem => (by cases mem),fun w r mem => (by cases mem)⟩
  cases i with
  | zero =>
    cases db
    cases at_
    exact freshStands ..
  | succ i => cases db

def fits (content : Hash → Option Value) (ids : List Hash) (s : GetContents σ Ptime) : GetEvent → Bool
  | .client (.resolved _ (.ok ipfsId)) => ids.contains ipfsId
  | .block i j (.ok text) =>
    (s.shelves[i]?).all fun x => (x.tree.fetching[j]?).all fun f => content f.hash = some text
  | .content k (.ok text) => (s.fetching[k]?).all fun f => content f.contentHash = some text
  | _ => true

theorem fitsAllowed {ids : List Hash}
    (known : ∀ id ∈ ids, (∀ ipns, published ipns id) ∧ ∀ b ∈ id.bytes, isSpace b = false) {e : GetEvent}
    (fit : s.fits content ids e = true) : s.Allowed content published e := by
  cases e with
  | client e =>
    cases e with
    | resolved i outcome =>
      cases outcome with
      | ok ipfsId =>
        have here := known ipfsId (List.contains_iff_mem.mp fit)
        exact fun d _ => ⟨here.1 _,here.2⟩
      | error ec => trivial
    | _ => trivial
  | getContent url => trivial
  | block i j data =>
    rintro x at_ f text waits rfl
    simp only [fits,at_,waits,Option.all_some] at fit
    exact of_decide_eq_true fit
  | content k data =>
    rintro f text at_ rfl
    simp only [fits,at_,Option.all_some] at fit
    exact of_decide_eq_true fit

def play (json : JsonLib) (S : Storage σ) (dt : DateTime Ptime) (content : Hash → Option Value) (ids : List Hash)
    (es : List GetEvent) (s : GetContents σ Ptime) : Option (GetContents σ Ptime) :=
  es.foldlM (fun s e => if s.fits content ids e then s.step json S dt e else none) s

theorem playReach {Start : GetContents σ Ptime → Prop} {ids : List Hash}
    (known : ∀ id ∈ ids, (∀ ipns, published ipns id) ∧ ∀ b ∈ id.bytes, isSpace b = false) {es : List GetEvent}
    (start : Start s) (played : s.play json S dt content ids es = some s') :
    Reach Start (Step json S dt content published) s' := by
  refine Reach.mono (fun _ => id) (fun s e s' step => ?_) (Reach.events (.start start) played)
  obtain ⟨fit,step⟩ := Option.ite_none_right_eq_some.mp step
  exact ⟨fitsAllowed known fit,step⟩

end GetContents
end IpfsCache
