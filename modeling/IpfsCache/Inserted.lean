import IpfsCache.Service

/-! What an on_insert that reports success stands for: from the publish call of its update on,
get_content gives a client what a request for this url had. -/
namespace IpfsCache

namespace Injector
variable {Ptime : Type} {inj : Injector Ptime}

theorem Kept.once (kept : inj.Kept) (call : Nat) : inj.whereabouts.count call ≤ 1 := by
  have all := congrArg (List.count call) kept.numbered
  rw [← kept.queued.order,List.map_append,List.count_append,kept.queued.order,List.count_range] at all
  have here := kept.placed call
  rw [List.count_nil,Nat.zero_add] at here
  split at all <;> omega

def Over (inj : Injector Ptime) (call : Nat) : Prop := call ∈ left inj.updated ++ inj.invoked.map OnInsert.call

theorem Kept.apart (kept : inj.Kept) {call : Nat} (ended : inj.Over call) :
    call ∉ inj.adding.map InsertEntry.onInsert ∧ call ∉ inj.updating.map DbUpdate.onInsert ∧
    (inj.invoked.map OnInsert.call).count call ≤ 1 := by
  have once := kept.once call
  have some_ := List.count_pos_iff.mpr ended
  simp only [whereabouts,List.count_append] at once some_
  exact ⟨List.count_eq_zero.mp (by omega),List.count_eq_zero.mp (by omega),by omega⟩

theorem Kept.pending (kept : inj.Kept) {i : Nat} {u : DbUpdate} (at_ : inj.updating[i]? = some u) :
    u.onInsert ∉ inj.invoked.map OnInsert.call := fun told =>
  (kept.apart (List.mem_append_right _ told)).2.1 (List.mem_map_of_mem (List.mem_of_getElem? at_))

end Injector

namespace InjectorDb
variable {World : Type} {cfg : Config} {ipfs : Ipfs World}

theorem insertedOthers {u v : Nat} {outcome : InsertOutcome} (other : v ≠ u) (db : InjectorDb World) :
    (db.inserted u outcome).updates[v]? = db.updates[v]? := by
  have gone (stage : Stage) : (db.goes u stage).updates[v]? = db.updates[v]? := by simp [goes,other.symm]
  cases outcome with
  | completed => exact uploadDatabaseOthers other db
  | buffered => exact uploadDatabaseOthers other db
  | error ec => exact gone _
  | exception => exact gone _

theorem returnedStays {db db' : InjectorDb World} {e : DbEvent World} (running : Running ipfs db)
    (step : Step cfg ipfs db e db') {u : Nat} {status : Status}
    (returned : (db.updates[u]?).map Update.stage = some (.returned status)) :
    (db'.updates[u]?).map Update.stage = some (.returned status) := by
  obtain ⟨up,there,stage⟩ := Option.map_eq_some_iff.mp returned
  have inside := (List.getElem?_eq_some_iff.mp there).1
  have older (key : Key) (value : Value) : (db.called key value).updates[u]? = db.updates[u]? :=
    List.getElem?_append_left inside
  cases (moves running step).1 with
  | @called key value => exact (congrArg _ (older key value)).trans returned
  | @buffered key value =>
    rw [uploadDatabaseOthers inside.ne,older]
    exact returned
  | added => exact returned
  | went => exact returned
  | @republished e r =>
    obtain ⟨up',here,_,same | ⟨x,_,publishing,_⟩⟩ := answeredCases r there
    · rw [here,Option.map_some,same,stage]
    · rw [stage] at publishing
      cases publishing
  | @ended _ _ map v _ _ owner =>
    have other : u ≠ v := by
      rintro rfl
      cases running with
      | idle _ none_ => rw [none_] at owner; cases owner
      | busy _ owner' _ inserting =>
        cases owner'.symm.trans owner
        rw [returned] at inserting
        cases inserting
    rw [insertedOthers other]
    exact returned

end InjectorDb

namespace Service
variable {World Ptime : Type} {cfg : Config} {ipfs : Ipfs World} {R : World → Hash → Value → Prop}
  {content : Hash → Option Value} {dt : DateTime Ptime} {s s' : Service World Ptime}

def Waits (s : Service World Ptime) (call u : Nat) : Prop :=
  ∃ (i : Nat) (v : DbUpdate), s.injector.updating[i]? = some v ∧ v.onInsert = call ∧ s.began[i]? = some (some u)

def Returned (db : InjectorDb World) (inj : Injector Ptime) (call u : Nat) : Prop :=
  inj.Over call ∧ ∀ x ∈ inj.invoked, x.call = call → (db.updates[u]?).map Update.stage = some (.returned x.status)

def Watched (s : Service World Ptime) (call u : Nat) : Prop := s.Waits call u ∨ Returned s.db s.injector call u

theorem besideTaken {A : Type} {l : List A} {i j : Nat} {a : A} (other : j ≠ i) (at_ : l[j]? = some a) :
    (l.eraseIdx i)[if j < i then j else j - 1]? = some a := by
  rw [List.getElem?_eraseIdx]
  rcases Nat.lt_or_gt_of_ne other with less | more
  · rw [if_pos less,if_pos less]
    exact at_
  · have past : ¬ j < i := by omega
    rw [if_neg past,if_neg (by omega),show j - 1 + 1 = j from by omega]
    exact at_

theorem Returned.invoke {db : InjectorDb World} {inj inj' : Injector Ptime} {call u : Nat}
    (returned : Returned db inj call u) (xs : List OnInsert) (updated : inj.updated <+: inj'.updated)
    (invoked : inj'.invoked = inj.invoked ++ xs) (others : ∀ x ∈ xs, x.call ≠ call) : Returned db inj' call u := by
  obtain ⟨ended,known⟩ := returned
  obtain ⟨more,same⟩ := updated
  refine ⟨?_,fun x mem own => ?_⟩
  · unfold Injector.Over at ended ⊢
    rw [← same,invoked,Injector.left,List.filterMap_append,List.map_append]
    rcases List.mem_append.mp ended with left | told
    · exact List.mem_append_left _ (List.mem_append_left _ left)
    · exact List.mem_append_right _ (List.mem_append_left _ told)
  · rw [invoked] at mem
    rcases List.mem_append.mp mem with old | new
    · exact known x old own
    · exact absurd own (others x new)

theorem Watched.step (kept : s.injector.Kept) (running : InjectorDb.Running ipfs s.db) {call u : Nat}
    (watched : s.Watched call u) {e : ServiceEvent World Ptime} (step : Service.Step cfg ipfs R content dt s e s') :
    s'.Watched call u := by
  obtain ⟨allowed,_,step⟩ := step
  have stays {db : InjectorDb World} {e : DbEvent World} (goes : InjectorDb.Step cfg ipfs s.db e db) :
      Returned s.db s.injector call u → Returned db s.injector call u := fun ⟨ended,known⟩ =>
    ⟨ended,fun x mem same => InjectorDb.returnedStays running goes (known x mem same)⟩
  cases moves step with
  | called key value ts =>
    have updating := (s.injector.insertWaiting key value ts).2
    obtain ⟨_,_,updated,invoked⟩ := @Injector.insertCalls _ s.injector key value ts
    refine watched.imp (fun ⟨j,v,here,rest⟩ => ⟨j,v,updating ▸ here,rest⟩) fun returned => ?_
    exact returned.invoke [] (updated ▸ List.prefix_rfl) (by simpa using invoked) (by simp)
  | goes => exact watched.imp (fun ⟨j,v,rest⟩ => ⟨j,v,rest⟩) fun ⟨ended,known⟩ => ⟨ended,known⟩
  | @failed i e at_ ec ipfsId =>
    have updating := (s.injector.takeWaiting i e (.error ec)).2.2
    refine watched.imp (fun ⟨j,v,here,own,began⟩ => ⟨j,v,updating ▸ here,own,by simpa using began⟩) fun returned => ?_
    refine returned.invoke [⟨e.onInsert,.error ec,ipfsId⟩] ?_ ?_ ?_
    · simp [Injector.invoke,Injector.take]
    · simp [Injector.invoke,Injector.take]
    · refine List.forall_mem_singleton.mpr fun same => ?_
      exact (kept.apart returned.1).1 (same ▸ List.mem_map_of_mem (List.mem_of_getElem? at_))
  | @spawned i e at_ ipfsId =>
    have updating := (s.injector.takeWaiting i e (.ok ())).2.2
    rcases watched with ⟨j,v,here,own,began⟩ | returned
    · refine .inl ⟨j,v,?_,own,(List.getElem?_append_left (List.getElem?_eq_some_iff.mp began).1).trans began⟩
      change ((s.injector.take i e (.ok ())).updating ++ _)[j]? = _
      rw [updating,List.getElem?_append_left (List.getElem?_eq_some_iff.mp here).1]
      exact here
    · exact .inr (returned.invoke [] (by simp [Injector.spawn,Injector.take])
        (by simp [Injector.spawn,Injector.take]) (by simp))
  | @begun i v db at_ new goes =>
    have step : InjectorDb.Step cfg ipfs s.db (.update v.key v.value) db := ⟨trivial,goes⟩
    rcases watched with ⟨j,w,here,own,began⟩ | returned
    · have other : i ≠ j := by
        rintro rfl
        cases began.symm.trans new
      exact .inl ⟨j,w,here,own,(List.getElem?_set_ne other).trans began⟩
    · exact .inr (stays step returned)
  | went other goes => exact watched.imp (fun ⟨j,v,rest⟩ => ⟨j,v,rest⟩) (stays ⟨allowed,goes⟩)
  | @threw i u' v up at_ began' here stage =>
    rcases watched with ⟨j,w,there,own,began⟩ | returned
    · by_cases same : j = i
      · subst same
        cases at_.symm.trans there
        refine .inr ⟨?_,fun x mem call => absurd (kept.pending there) ?_⟩
        · simp [Injector.Over,Injector.left,Injector.back,own]
        · rw [not_not,own,← call]
          exact List.mem_map_of_mem mem
      · exact .inl ⟨_,w,besideTaken same there,own,besideTaken same began⟩
    · exact .inr (returned.invoke [] (List.prefix_append _ _) (List.append_nil _).symm (by simp))
  | @returned i u' v up status at_ began' here stage =>
    rcases watched with ⟨j,w,there,own,began⟩ | returned
    · by_cases same : j = i
      · subst same
        cases at_.symm.trans there
        cases began'.symm.trans began
        refine .inr ⟨?_,fun x mem call => ?_⟩
        · simp [Injector.Over,Injector.back,Injector.invoke,own]
        · rcases List.mem_append.mp mem with old | new
          · have told : x.call ∈ s.injector.invoked.map OnInsert.call := List.mem_map_of_mem old
            rw [call,← own] at told
            exact absurd told (kept.pending there)
          · cases List.mem_singleton.mp new
            rw [here,Option.map_some,stage]
      · exact .inl ⟨_,w,besideTaken same there,own,besideTaken same began⟩
    · refine .inr (returned.invoke [⟨v.onInsert,status,v.ipfsId⟩] (List.prefix_append _ _) rfl ?_)
      refine List.forall_mem_singleton.mpr fun same => ?_
      exact (kept.apart returned.1).2.1 (same ▸ List.mem_map_of_mem (List.mem_of_getElem? at_))

end Service

def Gets {σ Ptime : Type} (json : JsonLib) (S : Storage σ) (dt : DateTime Ptime) (st : σ) (id : Hash) (url : Key)
    (result : Except ErrorCode (CachedContent Ptime)) : Prop :=
  ∃ need, ∀ fuel, need ≤ fuel → ∃ bt st', getContent (clientConfig json) S dt fuel url
    (BTree.load (clientConfig json) S id .fresh st).1 (BTree.load (clientConfig json) S id .fresh st).2 =
      some (result,bt,st')

theorem TreeOf.gets {σ Ptime : Type} {cfg : Config} {S : Storage σ} {dt : DateTime Ptime} {st : σ}
    {content : Hash → Option Value} {id : Hash} {n : Node} (tree : TreeOf cfg content id n)
    (lib : cfg.json.Documented) (documented : dt.Documented) (faithful : S.Faithful)
    (serves : ∀ h x, content h = some x → S.reads st h = .ok x) {calls : List (InsertEntry Ptime)}
    (requests : ∀ e ∈ calls, (ProperKey e.key ∧ e.key.ValidUtf8) ∧ ∃ t, e.ts = dt.clock t)
    (requested : ∀ x ∈ n.flatten, Service.Requested cfg.json dt content calls x.1 x.2) {url : Key}
    (mem : url ∈ n.keys) :
    ∃ e ∈ calls, e.key = url ∧ ∃ t, e.ts = dt.clock t ∧ Gets cfg.json S dt st id url
      (if t.1.microsecond = 0 then .error .notFound else .ok ⟨e.ts,e.value⟩) := by
  obtain ⟨v,pair,_⟩ := tree.findsKey lib.nodes faithful serves mem
  have found := (OrderedMap.findSome tree.tree.sorted).mpr pair
  obtain ⟨e,inside,key,t,time,ipfsId,there,text,value,_⟩ := (requested _ pair).read lib documented requests
  refine ⟨e,inside,key,t,time,sizeOf n + 1,fun fuel enough => ?_⟩
  obtain ⟨bt,st',run,keeps⟩ := tree.looks lib.nodes faithful serves url enough
  rw [found,show v = _ from value] at run
  have got := (entryReadBack documented lib.records (fun _ => asciiUtf8) t ipfsId text).2 (clientConfig cfg.json) S
    fuel url _ _ bt st' rfl run
  have data : (S.cat st' ipfsId).1 = .ok e.value := (keeps _ _ ⟨serves _ _ there,text⟩).1
  rw [got,data,time]
  split
  · exact ⟨bt,st',rfl⟩
  · exact ⟨bt,_,rfl⟩

namespace Service
variable {World Ptime σ : Type} {cfg : Config} {ipfs : Ipfs World} {R : World → Hash → Value → Prop}
  {content : Hash → Option Value} {dt : DateTime Ptime} {S : Storage σ} {st : σ}

end Service
end IpfsCache
