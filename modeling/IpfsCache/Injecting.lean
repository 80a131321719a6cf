import IpfsCache.Injector

/-! What every run of an Injector keeps. The counter is the number of adds in flight, and
a request waits only while there are as many as there may be. A request is at one place:
in the queue, in an add, in an update, or its on_insert has been invoked. -/
namespace IpfsCache.Injector
variable {Ptime : Type} {lib : JsonLib} {dt : DateTime Ptime} {inj : Injector Ptime}

section frame

@[simp] theorem fromQueueUpdating : inj.insertContentFromQueue.updating = inj.updating := by
  unfold insertContentFromQueue
  split <;> rfl

@[simp] theorem fromQueueCalls : inj.insertContentFromQueue.calls = inj.calls := by
  unfold insertContentFromQueue
  split <;> rfl

@[simp] theorem fromQueueAdded : inj.insertContentFromQueue.added = inj.added := by
  unfold insertContentFromQueue
  split <;> rfl

@[simp] theorem fromQueueUpdated : inj.insertContentFromQueue.updated = inj.updated := by
  unfold insertContentFromQueue
  split <;> rfl

@[simp] theorem fromQueueInvoked : inj.insertContentFromQueue.invoked = inj.invoked := by
  unfold insertContentFromQueue
  split <;> rfl

end frame

structure Queued (inj : Injector Ptime) : Prop where
  count : inj.jobCount.toNat = inj.adding.length
  limit : inj.adding.length ≤ concurrency.toNat
  busy : inj.insertQueue ≠ [] → inj.adding.length = concurrency.toNat
  order : inj.started ++ inj.insertQueue = inj.calls

structure Slack (inj : Injector Ptime) : Prop where
  count : inj.jobCount.toNat = inj.adding.length
  free : inj.adding.length < concurrency.toNat
  last : 1 < inj.insertQueue.length → inj.adding.length + 1 = concurrency.toNat
  order : inj.started ++ inj.insertQueue = inj.calls

theorem Slack.next (slack : Slack inj) : Queued inj.insertContentFromQueue := by
  unfold insertContentFromQueue
  cases at_ : inj.insertQueue with
  | nil => exact ⟨slack.count,slack.free.le,fun some_ => absurd at_ some_,slack.order⟩
  | cons e rest =>
    have free := slack.free
    have eight : concurrency.toNat = 8 := rfl
    have count : (inj.jobCount + 1).toNat = inj.adding.length + 1 := by
      have one : (1 : UInt32).toNat = 1 := rfl
      rw [UInt32.toNat_add,slack.count,one]
      omega
    have last : rest ≠ [] → inj.adding.length + 1 = concurrency.toNat := fun some_ =>
      slack.last (by rw [at_]; exact Nat.succ_lt_succ (List.length_pos_of_ne_nil some_))
    refine ⟨by simpa using count,?_,fun some_ => ?_,?_⟩
    · simp
      omega
    · simpa using last some_
    · have order := slack.order
      rw [at_] at order
      simpa using order

theorem Queued.insert (queued : Queued inj) (key : Key) (value : Value) (ts : Ptime) :
    Queued (inj.insertContent key value ts) := by
  have order : inj.started ++ (inj.insertQueue ++ [(⟨key,value,ts,inj.calls.length⟩ : InsertEntry Ptime)]) =
      inj.calls ++ [⟨key,value,ts,inj.calls.length⟩] := by rw [← List.append_assoc,queued.order]
  unfold insertContent
  dsimp only
  split
  · rename_i full
    have most : concurrency.toNat ≤ inj.adding.length := queued.count ▸ UInt32.le_iff_toNat_le.mp full
    exact ⟨queued.count,queued.limit,fun _ => Nat.le_antisymm queued.limit most,order⟩
  · rename_i room
    have free : inj.adding.length < concurrency.toNat :=
      queued.count ▸ UInt32.lt_iff_toNat_lt.mp (UInt32.not_le.mp room)
    have empty : inj.insertQueue = [] := by
      by_contra some_
      have := queued.busy some_
      omega
    exact Slack.next ⟨queued.count,free,by simp [push,empty],order⟩

theorem Queued.take (queued : Queued inj) {i : Nat} {e : InsertEntry Ptime} (at_ : inj.adding[i]? = some e)
    (eca : Status) : Queued (inj.take i e eca) := by
  obtain ⟨less,_⟩ := List.getElem?_eq_some_iff.mp at_
  have limit := queued.limit
  have eight : concurrency.toNat = 8 := rfl
  have length := List.length_eraseIdx_of_lt less
  have count : (inj.jobCount - 1).toNat = inj.adding.length - 1 := by
    have one : (1 : UInt32).toNat = 1 := rfl
    have some_ : (1 : UInt32) ≤ inj.jobCount := by
      rw [UInt32.le_iff_toNat_le,one,queued.count]
      omega
    rw [UInt32.toNat_sub_of_le _ _ some_,queued.count,one]
  refine Slack.next ⟨by simp only [count,length],?_,fun more => ?_,queued.order⟩ <;> dsimp only at *
  · omega
  · have busy := queued.busy (List.ne_nil_of_length_pos (by omega))
    omega

def left (updated : List (Nat × Option Status)) : List Nat :=
  updated.filterMap fun u => if u.2.isNone then some u.1 else none

def whereabouts (inj : Injector Ptime) : List Nat :=
  inj.adding.map InsertEntry.onInsert ++
    (inj.updating.map DbUpdate.onInsert ++ (left inj.updated ++ inj.invoked.map OnInsert.call))

def Placed (held : List Nat) (inj : Injector Ptime) : Prop :=
  ∀ call, held.count call + inj.whereabouts.count call = (inj.started.map InsertEntry.onInsert).count call

theorem Placed.next {held : List Nat} (placed : Placed held inj) : Placed held inj.insertContentFromQueue := by
  unfold insertContentFromQueue
  split
  · exact placed
  · intro call
    have before := placed call
    simp only [whereabouts,List.map_append,List.map_cons,List.map_nil,List.count_append] at before ⊢
    omega

theorem Placed.insert (placed : Placed [] inj) (key : Key) (value : Value) (ts : Ptime) :
    Placed [] (inj.insertContent key value ts) := by
  unfold insertContent
  dsimp only
  split
  · exact placed
  · exact Placed.next placed

theorem countErased {α : Type} {l : List α} {i : Nat} {a : α} (at_ : l[i]? = some a) (f : α → Nat) (n : Nat) :
    [f a].count n + ((l.eraseIdx i).map f).count n = (l.map f).count n := by
  rw [← ((Reach.taken at_).map f).count_eq n,List.map_cons]
  simp only [List.count_cons,List.count_nil]
  omega

theorem Placed.take (placed : Placed [] inj) {i : Nat} {e : InsertEntry Ptime} (at_ : inj.adding[i]? = some e)
    (eca : Status) : Placed [e.onInsert] (inj.take i e eca) := by
  refine Placed.next fun call => ?_
  have before := placed call
  have out := countErased at_ InsertEntry.onInsert call
  simp only [whereabouts,List.count_append,List.count_nil] at before ⊢
  omega

theorem Placed.spawn {held : List Nat} (u : DbUpdate) (placed : Placed (u.onInsert :: held) inj) :
    Placed held (inj.spawn u) := by
  intro call
  have before := placed call
  simp only [whereabouts,Injector.spawn,List.map_append,List.map_cons,List.map_nil,List.count_append,List.count_cons,
    List.count_nil] at before ⊢
  omega

theorem Placed.invoke {held : List Nat} (x : OnInsert) (placed : Placed (x.call :: held) inj) :
    Placed held (inj.invoke x) := by
  intro call
  have before := placed call
  simp only [whereabouts,Injector.invoke,List.map_append,List.map_cons,List.map_nil,List.count_append,List.count_cons,
    List.count_nil] at before ⊢
  omega

theorem Placed.back (placed : Placed [] inj) {i : Nat} {u : DbUpdate} (at_ : inj.updating[i]? = some u)
    (ec : Option Status) : Placed (if ec.isNone then [] else [u.onInsert]) (inj.back i u ec) := by
  intro call
  have before := placed call
  have out := countErased at_ DbUpdate.onInsert call
  have gone : left (inj.updated ++ [(u.onInsert,ec)]) =
      left inj.updated ++ if ec.isNone then [u.onInsert] else [] := by cases ec <;> simp [left]
  simp only [whereabouts,Injector.back,gone,List.count_append,List.count_nil] at before ⊢
  cases ec <;> simp only [Option.isNone_none,Option.isNone_some,if_true,if_false,Bool.false_eq_true,
    List.count_nil] <;>
    omega

structure Answered (added : List (Nat × Status)) (updated : List (Nat × Option Status)) (invoked : List OnInsert) :
    Prop where
  failed : ∀ call ec, (call,.error ec) ∈ added → ∃ ipfsId, ⟨call,.error ec,ipfsId⟩ ∈ invoked
  returned : ∀ call status, (call,some status) ∈ updated → ∃ ipfsId, ⟨call,status,ipfsId⟩ ∈ invoked
  due : ∀ x ∈ invoked, (x.call,some x.status) ∈ updated ∨ ∃ ec, x.status = .error ec ∧ (x.call,.error ec) ∈ added

section answered
variable {added : List (Nat × Status)} {updated : List (Nat × Option Status)} {invoked : List OnInsert}
  {call : Nat} {ipfsId : Hash}

theorem Answered.succeeded (answered : Answered added updated invoked) :
    Answered (added ++ [(call,.ok ())]) updated invoked where
  failed c ec mem := answered.failed c ec (by simpa using mem)
  returned := answered.returned
  due x mem := (answered.due x mem).imp id fun ⟨ec,same,there⟩ => ⟨ec,same,List.mem_append_left _ there⟩

theorem Answered.threw (answered : Answered added updated invoked) :
    Answered added (updated ++ [(call,none)]) invoked where
  failed := answered.failed
  returned c status mem := answered.returned c status (by simpa using mem)
  due x mem := (answered.due x mem).imp (List.mem_append_left _) id

theorem Answered.fails (answered : Answered added updated invoked) (ec : ErrorCode) :
    Answered (added ++ [(call,.error ec)]) updated (invoked ++ [⟨call,.error ec,ipfsId⟩]) where
  failed c ec' mem := by
    rcases List.mem_append.mp mem with old | new
    · exact (answered.failed c ec' old).imp fun _ there => List.mem_append_left _ there
    · cases List.mem_singleton.mp new
      exact ⟨ipfsId,by simp⟩
  returned c status mem := (answered.returned c status mem).imp fun _ there => List.mem_append_left _ there
  due x mem := by
    rcases List.mem_append.mp mem with old | new
    · exact (answered.due x old).imp id fun ⟨ec,same,there⟩ => ⟨ec,same,List.mem_append_left _ there⟩
    · cases List.mem_singleton.mp new
      exact .inr ⟨ec,rfl,by simp⟩

theorem Answered.returns (answered : Answered added updated invoked) (status : Status) :
    Answered added (updated ++ [(call,some status)]) (invoked ++ [⟨call,status,ipfsId⟩]) where
  failed c ec mem := (answered.failed c ec mem).imp fun _ there => List.mem_append_left _ there
  returned c status' mem := by
    rcases List.mem_append.mp mem with old | new
    · exact (answered.returned c status' old).imp fun _ there => List.mem_append_left _ there
    · cases List.mem_singleton.mp new
      exact ⟨ipfsId,by simp⟩
  due x mem := by
    rcases List.mem_append.mp mem with old | new
    · exact (answered.due x old).imp (List.mem_append_left _) id
    · cases List.mem_singleton.mp new
      exact .inl (by simp)

end answered

structure Kept (inj : Injector Ptime) : Prop where
  queued : Queued inj
  numbered : inj.calls.map InsertEntry.onInsert = List.range inj.calls.length
  placed : Placed [] inj
  answered : Answered inj.added inj.updated inj.invoked

theorem insertCalls (key : Key) (value : Value) (ts : Ptime) :
    (inj.insertContent key value ts).calls = inj.calls ++ [⟨key,value,ts,inj.calls.length⟩] ∧
    (inj.insertContent key value ts).added = inj.added ∧ (inj.insertContent key value ts).updated = inj.updated ∧
    (inj.insertContent key value ts).invoked = inj.invoked := by
  unfold insertContent
  dsimp only
  split
  · exact ⟨rfl,rfl,rfl,rfl⟩
  · simp [push]

theorem Kept.insert (kept : Kept inj) (key : Key) (value : Value) (ts : Ptime) :
    Kept (inj.insertContent key value ts) := by
  obtain ⟨calls,added,updated,invoked⟩ := @insertCalls _ inj key value ts
  refine ⟨kept.queued.insert key value ts,?_,kept.placed.insert key value ts,?_⟩
  · rw [calls,List.map_append,kept.numbered,List.length_append,List.length_singleton,List.range_succ]
    rfl
  · rw [added,updated,invoked]
    exact kept.answered

theorem Kept.added (kept : Kept inj) {i : Nat} {e : InsertEntry Ptime} (at_ : inj.adding[i]? = some e) :
    (∀ ec ipfsId, Kept ((inj.take i e (.error ec)).invoke ⟨e.onInsert,.error ec,ipfsId⟩)) ∧
    ∀ u : DbUpdate, u.onInsert = e.onInsert → Kept ((inj.take i e (.ok ())).spawn u) := by
  have queued (eca : Status) := kept.queued.take at_ eca
  have placed (eca : Status) := kept.placed.take at_ eca
  refine ⟨fun ec ipfsId => ⟨⟨(queued _).count,(queued _).limit,(queued _).busy,(queued _).order⟩,?_,
    (placed (.error ec)).invoke ⟨e.onInsert,.error ec,ipfsId⟩,?_⟩,
    fun u same => ⟨⟨(queued _).count,(queued _).limit,(queued _).busy,(queued _).order⟩,?_,
    Placed.spawn u (same ▸ placed (.ok ())),?_⟩⟩
  · simpa [Injector.invoke,Injector.take] using kept.numbered
  · simpa [Injector.invoke,Injector.take] using kept.answered.fails ec
  · simpa [Injector.spawn,Injector.take] using kept.numbered
  · simpa [Injector.spawn,Injector.take] using kept.answered.succeeded

theorem Kept.updated (kept : Kept inj) {i : Nat} {u : DbUpdate} (at_ : inj.updating[i]? = some u) :
    Kept (inj.back i u none) ∧ ∀ ec, Kept ((inj.back i u (some ec)).invoke ⟨u.onInsert,ec,u.ipfsId⟩) := by
  have queued := kept.queued
  exact ⟨⟨⟨queued.count,queued.limit,queued.busy,queued.order⟩,kept.numbered,kept.placed.back at_ none,
      kept.answered.threw⟩,
    fun ec => ⟨⟨queued.count,queued.limit,queued.busy,queued.order⟩,kept.numbered,
      (kept.placed.back at_ (some ec)).invoke ⟨u.onInsert,ec,u.ipfsId⟩,kept.answered.returns ec⟩⟩

theorem Kept.step (kept : Kept inj) {e : InjectorEvent Ptime} {inj' : Injector Ptime} (h : Step lib dt inj e inj') :
    Kept inj' := by
  cases e with
  | insertContent key value ts =>
    cases h
    exact kept.insert key value ts
  | go =>
    simp only [Step,Injector.step] at h
    split at h
    · cases h
      have queued := kept.queued
      exact ⟨⟨queued.count,queued.limit,queued.busy,queued.order⟩,kept.numbered,kept.placed,kept.answered⟩
    · cases h
  | added i eca ipfsId =>
    simp only [Step,Injector.step] at h
    split at h
    · rename_i at_
      have goes := kept.added at_
      cases eca with
      | error ec =>
        cases h
        exact goes.1 ec ipfsId
      | ok done =>
        cases h
        exact goes.2 _ rfl
    · cases h
  | updated i ec =>
    simp only [Step,Injector.step] at h
    split at h
    · rename_i at_
      have goes := kept.updated at_
      cases ec with
      | none =>
        cases h
        exact goes.1
      | some ec =>
        cases h
        exact goes.2 ec
    · cases h

theorem reachedKept (h : Reached lib dt inj) : Kept inj :=
  Reach.invariant (I := Kept) (fun inj start => by
    subst start
    refine ⟨⟨rfl,Nat.zero_le _,fun some_ => absurd rfl some_,rfl⟩,rfl,fun _ => rfl,?_⟩
    constructor <;> simp [fresh])
    (fun _ _ _ kept step => kept.step step) h

/-- The queue neither stalls nor overruns, adds are started in the order of the requests,
each request is in one place, and each on_insert is invoked at most once, and once when
its add has failed or its update has returned. -/
theorem requestsServed (h : Reached lib dt inj) :
    inj.jobCount.toNat = inj.adding.length ∧ inj.jobCount ≤ concurrency ∧
    (inj.insertQueue ≠ [] → inj.jobCount = concurrency) ∧ inj.started ++ inj.insertQueue = inj.calls ∧
    (∀ call, (inj.insertQueue.map InsertEntry.onInsert ++ inj.whereabouts).count call =
      if call < inj.calls.length then 1 else 0) ∧
    ∀ call, (inj.invoked.map OnInsert.call).count call ≤ 1 ∧
      (∀ status, ((∃ ec, status = .error ec ∧ (call,.error ec) ∈ inj.added) ∨ (call,some status) ∈ inj.updated) →
        (inj.invoked.map OnInsert.call).count call = 1 ∧ ∃ ipfsId, ⟨call,status,ipfsId⟩ ∈ inj.invoked) := by
  obtain ⟨queued,numbered,placed,answered⟩ := reachedKept h
  have places (call : Nat) : (inj.insertQueue.map InsertEntry.onInsert ++ inj.whereabouts).count call =
      if call < inj.calls.length then 1 else 0 := by
    have all := congrArg (List.count call) numbered
    rw [← queued.order,List.map_append,List.count_append,queued.order,List.count_range] at all
    have here := placed call
    rw [List.count_nil,Nat.zero_add] at here
    rw [List.count_append,here,← all]
    omega
  have most (call : Nat) : (inj.invoked.map OnInsert.call).count call ≤ 1 := by
    have here := places call
    simp only [whereabouts,List.count_append] at here
    split at here <;> omega
  have limit : inj.jobCount ≤ concurrency := UInt32.le_iff_toNat_le.mpr (queued.count ▸ queued.limit)
  refine ⟨queued.count,limit,fun some_ => ?_,queued.order,places,fun call => ⟨most call,fun status told => ?_⟩⟩
  · exact UInt32.toNat_inj.mp (queued.count.trans (queued.busy some_))
  · obtain ⟨ipfsId,mem⟩ : ∃ ipfsId, ⟨call,status,ipfsId⟩ ∈ inj.invoked := by
      rcases told with ⟨ec,rfl,mem⟩ | mem
      · exact answered.failed call ec mem
      · exact answered.returned call status mem
    have there : call ∈ inj.invoked.map OnInsert.call := List.mem_map_of_mem mem
    exact ⟨Nat.le_antisymm (most call) (List.count_pos_iff.mpr there),ipfsId,mem⟩

def nineAndMore : List (InjectorEvent ClockTime) :=
  let request := .insertContent ⟨[107]⟩ ⟨[118]⟩ newYearStamp
  List.replicate 9 request ++ [.added 0 (.error .notFound) ⟨[]⟩,request,.go,.added 0 (.ok ()) Downloads.someCid,
    request,.updated 0 (some (.ok ()))]

theorem requestsServedEleven : ∃ inj : Injector ClockTime, Reached nlohmannAll boost inj ∧
    inj.insertQueue.map InsertEntry.onInsert = [10] ∧ inj.jobCount = concurrency ∧
    (inj.invoked.map OnInsert.call).count 0 = 1 ∧ (inj.invoked.map OnInsert.call).count 1 = 1 := by
  have run : (nineAndMore.foldlM (step nlohmannAll boost) fresh).any (fun inj =>
      decide (inj.insertQueue.map InsertEntry.onInsert = [10]) &&
      decide (inj.added = [(0,.error .notFound),(1,.ok ())]) && decide (inj.updated = [(1,some (.ok ()))])) =
        true := by
    decide +kernel
  obtain ⟨inj,played,seen⟩ := Option.any_eq_true _ _ |>.mp run
  simp only [Bool.and_eq_true,decide_eq_true_eq] at seen
  obtain ⟨⟨waiting,added⟩,updated⟩ := seen
  have reached : Reached nlohmannAll boost inj := Reach.events (.start rfl) played
  have served := requestsServed reached
  refine ⟨inj,reached,waiting,served.2.2.1 ?_,(served.2.2.2.2.2 0).2 (.error .notFound) (.inl ⟨_,rfl,?_⟩) |>.1,
    (served.2.2.2.2.2 1).2 (.ok ()) (.inr ?_) |>.1⟩
  · rintro none_
    simp [none_] at waiting
  · simp [added]
  · simp [updated]

end IpfsCache.Injector
