import IpfsCache.ContentRuns

/-! Calls of get_content come to an end: blocks and contents cannot come for ever, and when
none is outstanding every call has been answered. A call whose database set_ipns replaces while
it is at its query gets an error. -/
namespace IpfsCache
namespace GetContents
variable {σ Ptime : Type} {json : JsonLib} {S : Storage σ} {dt : DateTime Ptime} {content : Hash → Option Value}
  {published : StdString → Hash → Prop} {s s' : GetContents σ Ptime}

inductive Delivered (json : JsonLib) (S : Storage σ) (dt : DateTime Ptime) (content : Hash → Option Value)
    (published : StdString → Hash → Prop) (s s' : GetContents σ Ptime) : Prop
  | block (i j : Nat) (data : Except ErrorCode Value) (step : Step json S dt content published s (.block i j data) s')
  | content (k : Nat) (data : Except ErrorCode Value) (step : Step json S dt content published s (.content k data) s')

def awaits (x : Shelf) : List (Unit ⊕ Hash) := x.tree.fetching.map fun f => .inr f.hash

def awaited (s : GetContents σ Ptime) : Multiset (Unit ⊕ Hash) :=
  (s.shelves.flatMap awaits ++ s.fetching.map fun _ => .inl () : List (Unit ⊕ Hash))

def Less (json : JsonLib) (content : Hash → Option Value) : Unit ⊕ Hash → Unit ⊕ Hash → Prop :=
  Sum.Lex emptyRelation (Relation.TransGen (Refers (clientConfig json) content))

theorem lessWellFounded (acyclic : WellFounded (Refers (clientConfig json) content)) :
    WellFounded (Relation.CutExpand (Less json content)) :=
  (Sum.lex_wf emptyWf.wf acyclic.transGen).cutExpand

theorem shelfAwaited {i : Nat} {x : Shelf} (at_ : s.shelves[i]? = some x) (x' : Shelf) :
    awaited { s with shelves := s.shelves.set i x' } + (awaits x : Multiset _) =
      s.awaited + (awaits x' : Multiset _) := by
  have changed := Multiset.coe_eq_coe.mpr (Reach.replaced at_ x' awaits)
  simp only [← Multiset.coe_add] at changed
  simp only [awaited,← Multiset.coe_add]
  rw [add_right_comm,changed,add_right_comm]

theorem queriedAwaited (w : Nat) (result : Except ErrorCode Value) (s : GetContents σ Ptime) :
    ∃ t : Multiset (Unit ⊕ Hash), (∀ a ∈ t, a = .inl ()) ∧ (s.queried json dt w result).awaited = s.awaited + t := by
  unfold queried
  cases result with
  | error ec => exact ⟨0,by simp,(add_zero _).symm⟩
  | ok rawJson =>
    dsimp only
    split
    · exact ⟨0,by simp,(add_zero _).symm⟩
    · refine ⟨{.inl ()},by simp,?_⟩
      simp [awaited,← Multiset.coe_add,add_assoc]

theorem goesOnAwaited {i w : Nat} {x : Shelf} (at_ : s.shelves[i]? = some x) (rest : List Nat) {key : Key}
    {waiting : List Fetch} {tree : Traffic} (goes : Traffic.Goes key x.tree.served waiting tree) :
    ∃ t : Multiset (Unit ⊕ Hash), (∀ a ∈ t, a = .inl ()) ∧
      (s.goesOn json dt i w rest x.tree.served.length tree).awaited + (awaits x : Multiset _) =
        s.awaited + (awaits ⟨tree,rest⟩ : Multiset _) + t := by
  unfold goesOn
  cases goes with
  | answered r own replies same =>
    rw [replies,List.drop_left]
    obtain ⟨t,contents,more⟩ :=
      @queriedAwaited σ Ptime json dt w r.result { s with shelves := s.shelves.set i ⟨tree,rest⟩ }
    refine ⟨t,contents,?_⟩
    rw [more,← shelfAwaited at_,add_right_comm]
  | waits f own replies more =>
    rw [replies,List.drop_length]
    exact ⟨0,by simp,(shelfAwaited at_ _).trans (add_zero _).symm⟩

theorem deliveredLess (kept : s.Kept json dt content published [])
    (step : Delivered json S dt content published s s') :
    Relation.CutExpand (Less json content) s'.awaited s.awaited := by
  cases step with
  | block i j data step =>
    obtain ⟨allowed,step⟩ := step
    cases moves step with
    | @came _ _ w x f _ at_ own waits =>
      obtain ⟨d,_,stands⟩ := kept.shelf at_
      have tree := Traffic.reachedKept stands.reached
      obtain ⟨t,contents,sum⟩ := @goesOnAwaited σ Ptime json dt s i w x at_ (x.owners.eraseIdx j) _ _ _
        (Traffic.blockGoes tree waits data).1
      let others : Multiset (Unit ⊕ Hash) :=
        ((x.tree.fetching.eraseIdx j).map fun f => Sum.inr f.hash : List (Unit ⊕ Hash))
      have taken : (awaits x : Multiset (Unit ⊕ Hash)) = {.inr f.hash} + others :=
        (Multiset.coe_eq_coe.mpr ((Reach.taken waits).map fun f : Fetch => (Sum.inr f.hash : Unit ⊕ Hash))).symm
      rw [taken,← add_assoc] at sum
      rcases Traffic.blockAsks tree waits (allowed x at_ f · waits) (x.tree.fetching.eraseIdx j)
        with none_ | ⟨g,more,below⟩
      · refine ⟨t,.inr f.hash,fun a mem => contents a mem ▸ .sep _ _,add_right_cancel (b := others) ?_⟩
        rw [awaits,none_] at sum
        exact sum.trans (add_right_comm ..)
      · refine ⟨.inr g.hash ::ₘ t,.inr f.hash,fun a mem => ?_,add_right_cancel (b := others) ?_⟩
        · rcases Multiset.mem_cons.mp mem with rfl | mem
          · exact .inr below
          · exact contents a mem ▸ .sep _ _
        · rw [awaits,more,List.map_append,← Multiset.coe_add] at sum
          refine sum.trans ?_
          rw [← Multiset.singleton_add]
          change s.awaited + (others + {.inr g.hash}) + t = _
          abel
  | content k data step =>
    cases moves step.2 with
    | read _ at_ =>
      refine ⟨0,.inl (),by simp,?_⟩
      have taken := (Reach.taken at_).map fun _ => (Sum.inl () : Unit ⊕ Hash)
      refine Multiset.coe_eq_coe.mpr ?_
      rw [List.append_nil,List.append_assoc]
      exact ((List.perm_append_singleton _ _).trans taken).append_left _

theorem deliveriesEnd (acyclic : WellFounded (Refers (clientConfig json) content))
    (run : s.Reached json S dt content published) :
    Acc (fun after before => Delivered json S dt content published before after) s := by
  generalize measured : s.awaited = m
  induction m using (lessWellFounded acyclic).induction generalizing s with
  | _ m ih =>
    subst measured
    refine .intro s fun s' step => ?_
    have run' : s'.Reached json S dt content published := by
      cases step with
      | block i j data step => exact run.step _ step
      | content k data step => exact run.step _ step
    exact ih _ (deliveredLess (reachedKept run) step) run' rfl

theorem goesOnKeeps (i w : Nat) (rest : List Nat) (served : Nat) (tree : Traffic) (s : GetContents σ Ptime) :
    (s.goesOn json dt i w rest served tree).calls = s.calls ∧
    s.answers ⊆ (s.goesOn json dt i w rest served tree).answers ∧
    ∃ owners, (s.goesOn json dt i w rest served tree).shelves = s.shelves.set i ⟨tree,owners⟩ := by
  unfold goesOn
  split
  · exact ⟨rfl,List.Subset.refl _,_,rfl⟩
  · unfold queried
    split
    · exact ⟨rfl,List.subset_append_left _ _,_,rfl⟩
    · split
      · exact ⟨rfl,List.subset_append_left _ _,_,rfl⟩
      · exact ⟨rfl,List.Subset.refl _,_,rfl⟩

theorem deliveredCalls (step : Delivered json S dt content published s s') : s'.calls = s.calls := by
  cases step with
  | block i j data step =>
    cases moves step.2 with
    | came _ _ _ _ => exact (goesOnKeeps ..).1
  | content k data step =>
    cases moves step.2 with
    | read _ _ => rfl

theorem deliveredAll (run : s.Reached json S dt content published)
    (steps : Relation.ReflTransGen (Delivered json S dt content published) s s') :
    s'.Reached json S dt content published ∧ s'.calls = s.calls := by
  induction steps with
  | refl => exact ⟨run,rfl⟩
  | tail _ last ih =>
    refine ⟨?_,(deliveredCalls last).trans ih.2⟩
    cases last with
    | block i j data step => exact ih.1.step _ step
    | content k data step => exact ih.1.step _ step

theorem stuckEmpty (kept : s.Kept json dt content published [])
    (stuck : ∀ next, ¬ Delivered json S dt content published s next) :
    s.shelves.flatMap Shelf.owners = [] ∧ s.fetching = [] := by
  constructor
  · refine List.flatMap_eq_nil_iff.mpr fun x mem => ?_
    by_contra waits
    obtain ⟨w,owners,own⟩ := List.exists_cons_of_ne_nil waits
    obtain ⟨i,less,same⟩ := List.getElem_of_mem mem
    have at_ : s.shelves[i]? = some x := List.getElem?_eq_some_iff.mpr ⟨less,same⟩
    obtain ⟨d,_,stands⟩ := kept.shelf at_
    obtain ⟨f,rest,fetching⟩ := List.exists_cons_of_length_pos (by rw [← stands.long,own]; exact Nat.succ_pos _)
    have some_ : (s.step json S dt (.block i 0 (.error .notFound))).isSome := by
      simp [GetContents.step,at_,own,Traffic.step,fetching]
    obtain ⟨next,step⟩ := Option.isSome_iff_exists.mp some_
    exact stuck next (.block i 0 (.error .notFound) ⟨fun x at_ f text _ none_ => (by cases none_),step⟩)
  · by_contra waits
    obtain ⟨f,rest,fetching⟩ := List.exists_cons_of_ne_nil waits
    have some_ : (s.step json S dt (.content 0 (.error .notFound))).isSome := by
      simp [GetContents.step,fetching]
    obtain ⟨next,step⟩ := Option.isSome_iff_exists.mp some_
    exact stuck next (.content 0 (.error .notFound) ⟨fun f text _ none_ => (by cases none_),step⟩)

/-- In every state each call of get_content is in one place. Blocks and contents come one by
one, each or its error to a call that waits for it; this ends, and then every call has been
answered once, those on replaced databases, too. -/
theorem getContentsAnswered (acyclic : WellFounded (Refers (clientConfig json) content))
    (run : s.Reached json S dt content published) :
    (∀ w, s.places.count w = if w < s.calls.length then 1 else 0) ∧
    Acc (fun after before => Delivered json S dt content published before after) s ∧
    ∀ s', Relation.ReflTransGen (Delivered json S dt content published) s s' →
      (∀ next, ¬ Delivered json S dt content published s' next) →
      s'.calls = s.calls ∧ (s'.answers.map Prod.fst).Perm (List.range s.calls.length) := by
  have once {s : GetContents σ Ptime} (run : s.Reached json S dt content published) (w : Nat) :
      s.places.count w = if w < s.calls.length then 1 else 0 := by
    have count := (reachedKept run).once w
    rwa [List.count_nil,Nat.zero_add] at count
  refine ⟨once run,deliveriesEnd acyclic run,fun s' steps stuck => ?_⟩
  obtain ⟨run',calls⟩ := deliveredAll run steps
  obtain ⟨owners,fetching⟩ := stuckEmpty (reachedKept run') stuck
  refine ⟨calls,List.perm_iff_count.mpr fun w => ?_⟩
  have count := once run' w
  rw [places,owners,fetching,List.map_nil,List.nil_append,List.nil_append,calls] at count
  rw [count,List.count_range]

def newClient : GetContents MockStorage ClockTime :=
  initial (letter 114) (letter 97) ⟨fun _ => none,fun _ => true⟩ .empty

theorem newClientStarts : Starts published newClient :=
  ⟨_,_,_,_,rfl,fun _ _ none_ => by cases none_⟩

def twoCalls : List GetEvent :=
  [.client (.begins 0),.client (.resolved 0 (.ok (letter 114))),.getContent (letter 107),.client (.woken 0),
    .client (.resolved 0 (.ok (letter 120))),.getContent (letter 107),.client (.setIpns (letter 98))]

abbrev TwoCallsStep : GetContents MockStorage ClockTime → GetEvent → GetContents MockStorage ClockTime → Prop :=
  Step nlohmann MockStorage.storage boost halfStore fun _ _ => True

abbrev twoCallsPlay :
    List GetEvent → GetContents MockStorage ClockTime → Option (GetContents MockStorage ClockTime) :=
  play nlohmann MockStorage.storage boost halfStore [letter 114,letter 120]

theorem twoCallsReach {Start : GetContents MockStorage ClockTime → Prop} {s s' : GetContents MockStorage ClockTime}
    {es : List GetEvent} (start : Start s) (played : twoCallsPlay es s = some s') : Reach Start TwoCallsStep s' :=
  playReach (by simp [letter,isSpace]) start played

theorem getContentsAnsweredTwo : ∃ s : GetContents MockStorage ClockTime, s.places = [0,1] ∧
    (∀ w, s.places.count w = if w < s.calls.length then 1 else 0) ∧
    Acc (fun after before => Delivered nlohmann MockStorage.storage boost halfStore (fun _ _ => True) before after) s ∧
    ∀ s', Relation.ReflTransGen (Delivered nlohmann MockStorage.storage boost halfStore fun _ _ => True) s s' →
      (∀ next, ¬ Delivered nlohmann MockStorage.storage boost halfStore (fun _ _ => True) s' next) →
      s'.calls = s.calls ∧ (s'.answers.map Prod.fst).Perm (List.range s.calls.length) := by
  have run : (twoCallsPlay twoCalls newClient).any (fun s => decide (s.places = [0,1])) = true := by
    decide +kernel
  obtain ⟨s,played,seen⟩ := Option.any_eq_true _ _ |>.mp run
  exact ⟨s,of_decide_eq_true seen,getContentsAnswered Traffic.halfStoreAcyclic (twoCallsReach newClientStarts played)⟩

theorem Kept.nodup (kept : s.Kept json dt content published []) : s.places.Nodup :=
  List.nodup_iff_count_le_one.mpr fun w => by
    have count := kept.once w
    rw [List.count_nil,Nat.zero_add] at count
    rw [count]
    split <;> omega

theorem followStays (kept : s.Kept json dt content published []) {i : Nat} {x : Shelf} (at_ : s.shelves[i]? = some x)
    (gone_ : x.tree.destroyed = true) (e : ClientEvent) :
    ∃ x', (s.follow e)[i]? = some x' ∧ x'.owners = x.owners ∧ x'.tree.destroyed = true := by
  obtain ⟨d₀,here,stands⟩ := kept.shelf at_
  have closed : ∃ x', s.destroyTree[i]? = some x' ∧ x'.owners = x.owners ∧ x'.tree.destroyed = true := by
    rw [destroyTree,List.getElem?_modify,at_]
    refine ⟨_,rfl,?_,?_⟩ <;> split
    · rfl
    · rfl
    · rfl
    · exact gone_
  have still (j : Nat) (f : ClientDb → Traffic → Traffic) :
      ∃ x', (s.works j f)[i]? = some x' ∧ x'.owners = x.owners ∧ x'.tree.destroyed = true := by
    unfold works
    split
    · exact ⟨x,at_,rfl,gone_⟩
    · rename_i d db
      split
      · exact ⟨x,at_,rfl,gone_⟩
      · rename_i alive
        have other : j ≠ i := by
          rintro rfl
          cases db.symm.trans here
          exact alive (stands.flag ▸ gone_)
        exact ⟨x,(List.getElem?_modify_ne _ _ other).trans at_,rfl,gone_⟩
  cases e with
  | setIpns ipns =>
    obtain ⟨x',there,rest⟩ := closed
    exact ⟨x',(List.getElem?_append_left (List.getElem?_eq_some_iff.mp there).1).trans there,rest⟩
  | destroy => exact closed
  | begins j => exact still j fun db => .loadDb s.client.files db.pathToRepo db.ipns
  | resolved j outcome =>
    cases outcome with
    | ok ipfsId => exact still j fun _ => .load ipfsId
    | error ec => exact ⟨x,at_,rfl,gone_⟩
  | _ => exact ⟨x,at_,rfl,gone_⟩

def Lost (i w : Nat) (s : GetContents σ Ptime) : Prop :=
  (∃ x, s.shelves[i]? = some x ∧ x.tree.destroyed = true ∧ w ∈ x.owners) ∨ ∃ ec, (w,.error ec) ∈ s.answers

theorem answersGrow {e : GetEvent} (moved : Moved json S dt s e s') : s.answers ⊆ s'.answers := by
  cases moved with
  | client moved => exact List.Subset.refl _
  | begun url _ _ => exact fun x mem => (goesOnKeeps ..).2.1 mem
  | came data _ _ _ => exact (goesOnKeeps ..).2.1
  | read data _ => exact List.subset_append_left _ _

theorem lostStep (kept : s.Kept json dt content published []) {i w : Nat} (lost : s.Lost i w) {e : GetEvent}
    (moved : Moved json S dt s e s') : s'.Lost i w := by
  rcases lost with ⟨x,at_,gone_,own⟩ | ⟨ec,told⟩
  · have beside {k w₁ served : Nat} {rest : List Nat} {tree : Traffic} {s₁ : GetContents σ Ptime}
        (same : s₁.shelves = s.shelves) (other : k ≠ i) : (s₁.goesOn json dt k w₁ rest served tree).Lost i w := by
      obtain ⟨_,_,owners,shelves⟩ := @goesOnKeeps σ Ptime json dt k w₁ rest served tree s₁
      refine .inl ⟨x,?_,gone_,own⟩
      rw [shelves,same]
      exact (List.getElem?_set_ne other).trans at_
    cases moved with
    | @client e client _ =>
      obtain ⟨x',at',owners,gone'⟩ := followStays kept at_ gone_ e
      exact .inl ⟨x',at',gone',owners ▸ own⟩
    | @begun x₁ url at₁ alive =>
      refine beside rfl ?_
      rintro rfl
      cases at_.symm.trans at₁
      rw [gone_] at alive
      cases alive
    | @came k j w₁ x₁ f data at₁ own₁ waits =>
      by_cases here : k = i
      · subst here
        cases at_.symm.trans at₁
        obtain ⟨ec,same⟩ : ∃ ec, Traffic.aborted data = .error ec := by cases data <;> exact ⟨_,rfl⟩
        have goes : s.goesOn json dt k w₁ (x.owners.eraseIdx j) x.tree.served.length
            (Traffic.block (clientConfig json) data f { x.tree with fetching := x.tree.fetching.eraseIdx j }) =
            { s with
              shelves := s.shelves.set k ⟨{ x.tree with
                fetching := x.tree.fetching.eraseIdx j,
                served := x.tree.served ++ [(⟨f.lookup,.error ec⟩ : Reply)] },x.owners.eraseIdx j⟩ }.answer w₁
                  (.error ec) := by
          rw [Traffic.block,if_pos gone_,same,goesOn,List.drop_left]
          rfl
        rw [goes]
        rcases List.mem_cons.mp ((Reach.taken own₁).mem_iff.mpr own) with rfl | still
        · exact .inr ⟨ec,List.mem_append_right _ (List.mem_singleton_self _)⟩
        · exact .inl ⟨_,List.getElem?_set_self (List.getElem?_eq_some_iff.mp at_).1,gone_,still⟩
      · exact beside rfl here
    | read data _ => exact .inl ⟨x,at_,gone_,own⟩
  · exact .inr ⟨ec,answersGrow moved told⟩

/-- A call that is at its query when set_ipns replaces its database, or the client is
destroyed, never gets to a content: what it is answered with is an error, whatever block comes. -/
theorem replacedAborts (run : s.Reached json S dt content published) {i w : Nat} {d : Downloader} {x : Shelf}
    (db : s.client.dbs[i]? = some d) (gone_ : d.wasDestroyed = true) (at_ : s.shelves[i]? = some x)
    (own : w ∈ x.owners) (later : Reach (· = s) (Step json S dt content published) s') :
    (∀ f ∈ s'.fetching, f.call ≠ w) ∧ ∀ r, (w,r) ∈ s'.answers → ∃ ec, r = .error ec := by
  have lost : s'.Kept json dt content published [] ∧ s'.Lost i w := by
    refine Reach.invariant (I := fun s' => s'.Kept json dt content published [] ∧ s'.Lost i w) ?_ ?_ later
    · rintro _ rfl
      have kept := reachedKept run
      exact ⟨kept,.inl ⟨x,at_,(kept.stands i d x db at_).flag.trans gone_,own⟩⟩
    · exact fun s₁ e s₂ ⟨kept,lost⟩ step => ⟨kept.step step,lostStep kept lost (moves step.2)⟩
  obtain ⟨kept,lost⟩ := lost
  obtain ⟨_,apart,elsewhere⟩ := List.nodup_append.mp kept.nodup
  obtain ⟨_,answered,reading⟩ := List.nodup_append.mp apart
  have fetches {f : ContentFetch Ptime} (mem : f ∈ s'.fetching) : f.call ∈ s'.fetching.map ContentFetch.call :=
    List.mem_map_of_mem mem
  have answers {a : Nat × Except ErrorCode (CachedContent Ptime)} (mem : a ∈ s'.answers) :
      a.1 ∈ s'.answers.map Prod.fst := List.mem_map_of_mem mem
  rcases lost with ⟨x',at',_,own'⟩ | ⟨ec,told⟩
  · have here : w ∈ s'.shelves.flatMap Shelf.owners := List.mem_flatMap.mpr ⟨x',List.mem_of_getElem? at',own'⟩
    exact ⟨fun f mem same => elsewhere w here f.call (List.mem_append_left _ (fetches mem)) same.symm,
      fun r mem => absurd rfl (elsewhere w here w (List.mem_append_right _ (answers mem)))⟩
  · refine ⟨fun f mem => reading f.call (fetches mem) w (answers told),fun r mem => ⟨ec,?_⟩⟩
    exact congrArg Prod.snd (List.inj_on_of_nodup_map answered mem told rfl)

theorem replacedAbortsTwo : ∃ s' : GetContents MockStorage ClockTime, (∃ r, (0,r) ∈ s'.answers) ∧
    (∀ f ∈ s'.fetching, f.call ≠ 0) ∧ ∀ r, (0,r) ∈ s'.answers → ∃ ec, r = .error ec := by
  have run : (twoCallsPlay twoCalls newClient).any (fun s =>
      ((s.client.dbs[0]?).any fun d => d.wasDestroyed) && ((s.shelves[0]?).any fun x => decide (0 ∈ x.owners)) &&
      (twoCallsPlay [.block 0 0 (.ok (nlohmann.dump halfReadable))] s).any fun s' =>
        decide (0 ∈ s'.answers.map Prod.fst)) = true := by
    decide +kernel
  obtain ⟨s,played,seen⟩ := Option.any_eq_true _ _ |>.mp run
  simp only [Bool.and_eq_true] at seen
  obtain ⟨⟨dbs,shelves⟩,last⟩ := seen
  obtain ⟨d,db,gone_⟩ := Option.any_eq_true _ _ |>.mp dbs
  obtain ⟨x,at_,own⟩ := Option.any_eq_true _ _ |>.mp shelves
  obtain ⟨s',played',told⟩ := Option.any_eq_true _ _ |>.mp last
  obtain ⟨⟨_,r⟩,mem,rfl⟩ := List.mem_map.mp (of_decide_eq_true told)
  exact ⟨s',⟨r,mem⟩,replacedAborts (twoCallsReach newClientStarts played) db gone_ at_ (of_decide_eq_true own)
    (twoCallsReach rfl played')⟩

end GetContents
end IpfsCache
