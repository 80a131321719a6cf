import IpfsCache.Republisher
import Mathlib.Data.List.Induction
import Mathlib.Data.List.Nodup

/-! What every run of a Republisher keeps. The callbacks that were invoked and those that
wait are, in this order, the functions given to publish; a backend publish in flight, or
its handler, answers the front part of the list, all of it older than its start. -/
namespace IpfsCache.Republisher

def givenCalls (calls : List (Cid × Bool)) : List Nat :=
  calls.zipIdx.filterMap fun c => if c.1.2 then some c.2 else none

theorem givenCallsSnoc (calls : List (Cid × Bool)) (cid : Cid) (present : Bool) :
    givenCalls (calls ++ [(cid,present)]) =
      givenCalls calls ++ (if present then some calls.length else none).toList := by
  cases present <;> simp [givenCalls,List.zipIdx_append]

theorem memGivenCalls {calls : List (Cid × Bool)} {n : Nat} :
    n ∈ givenCalls calls ↔ ∃ cid, calls[n]? = some (cid,true) := by
  simp only [givenCalls,List.mem_filterMap,Prod.exists,List.mem_zipIdx_iff_getElem?]
  constructor
  · rintro ⟨cid,b,m,at_,same⟩
    cases b <;> cases same
    exact ⟨cid,at_⟩
  · rintro ⟨cid,at_⟩
    exact ⟨cid,true,n,at_,rfl⟩

theorem givenCallsBelow {calls : List (Cid × Bool)} {n : Nat} (mem : n ∈ givenCalls calls) : n < calls.length := by
  obtain ⟨_,at_⟩ := memGivenCalls.mp mem
  exact (List.getElem?_eq_some_iff.mp at_).1

theorem givenCallsSorted (calls : List (Cid × Bool)) : (givenCalls calls).Pairwise (· < ·) := by
  induction calls using List.reverseRecOn with
  | nil => exact List.Pairwise.nil
  | append_singleton calls c ih =>
    obtain ⟨cid,present⟩ := c
    rw [givenCallsSnoc]
    refine List.pairwise_append.mpr ⟨ih,by cases present <;> simp,fun n mem m last => ?_⟩
    cases present <;> simp at last
    exact last ▸ givenCallsBelow mem

structure Logged (r : Republisher) : Prop where
  order : r.invoked.map Invoked.call ++ r.callbacks.filterMap Waiter.call = givenCalls r.calls
  starts : ∀ f ∈ r.started, ∃ n present, f.calls = n + 1 ∧ r.calls[n]? = some (f.id,present)
  latest : ∀ c ∈ r.calls.getLast?, c.1 = r.toPublish
  quiet : r.calls = [] → r.timer.pending = [] ∧ r.timer.ready = []
  answers : ∀ x ∈ r.invoked, ∃ f, r.started[x.flight]? = some f ∧ x.call < f.calls ∧
    (x.flight,x.status) ∈ r.completed
  finished : r.completed.map Prod.fst ++ r.flights.map Flight.number = List.range r.started.length

structure Batch (f : Flight) (r : Republisher) : Prop where
  started : r.started[f.number]? = some f
  front : ∃ a last b, r.callbacks = a ++ last :: b ∧ last.node = f.last ∧
    ∀ w ∈ a ++ [last], ∀ call ∈ w.call, call < f.calls

inductive Stage (r : Republisher) : Prop
  | idle (flag : r.isPublishing = false) (none_ : r.flights = []) (still : r.handling = none)
      (empty : r.callbacks = []) (due : r.calls ≠ [] → r.timer.Due)
  | flying {f : Flight} (flag : r.isPublishing = true) (one : r.flights = [f]) (still : r.handling = none)
      (batch : Batch f r)
  | handling {h : Handling} (flag : r.isPublishing = true) (none_ : r.flights = []) (here : r.handling = some h)
      (called : r.calls ≠ []) (completed : (h.flight.number,h.status) ∈ r.completed)
        (batch : h.isLast = false → Batch h.flight r)

structure Kept (r : Republisher) : Prop where
  logged : Logged r
  stage : Stage r

theorem Logged.waiting {r : Republisher} (logged : Logged r) {w : Waiter} (mem : w ∈ r.callbacks) {call : Nat}
    (given : call ∈ w.call) : call < r.calls.length :=
  givenCallsBelow (logged.order ▸ List.mem_append_right _ (List.mem_filterMap.mpr ⟨w,mem,given⟩))

theorem Logged.start {r : Republisher} (logged : Logged r) (called : r.calls ≠ []) (none_ : r.flights = [])
    (still : r.handling = none) : Kept r.startPublishing := by
  unfold startPublishing
  cases end_ : r.callbacks.getLast? with
  | none =>
    exact ⟨⟨logged.order,logged.starts,logged.latest,fun none_ => absurd none_ called,
      logged.answers,logged.finished⟩,
      .idle rfl none_ still (List.getLast?_eq_none_iff.mp end_) fun _ => Timer.dueArmed _⟩
  | some last =>
    obtain ⟨a,split⟩ := List.getLast?_eq_some_iff.mp end_
    obtain ⟨n,length⟩ := Nat.exists_eq_succ_of_ne_zero (List.length_pos_of_ne_nil called).ne'
    refine ⟨⟨logged.order,fun f mem => ?_,logged.latest,fun none_ => absurd none_ called,
      fun x mem => ?_,?_⟩,.flying rfl (by rw [none_]; rfl) still
        ⟨List.getElem?_concat_length,a,last,[],split,rfl,fun w mem call given => ?_⟩⟩
    · rcases List.mem_append.mp mem with old | new
      · exact logged.starts f old
      · cases List.mem_singleton.mp new
        obtain ⟨⟨cid,present⟩,top⟩ : ∃ c, r.calls[n]? = some c :=
          ⟨_,List.getElem?_eq_getElem (by omega : n < r.calls.length)⟩
        have same : cid = r.toPublish :=
          logged.latest (cid,present) (by rw [List.getLast?_eq_getElem?,length]; exact top)
        exact ⟨n,present,length,same ▸ top⟩
    · obtain ⟨f,there,rest⟩ := logged.answers x mem
      exact ⟨f,(List.getElem?_append_left (List.getElem?_eq_some_iff.mp there).1).trans there,rest⟩
    · have finished := logged.finished
      rw [none_,List.map_nil,List.append_nil] at finished
      rw [List.length_append,List.length_singleton,List.range_succ,← finished,none_]
      rfl
    · exact logged.waiting (split ▸ mem) given

theorem Logged.push {r : Republisher} (logged : Logged r) : Logged (r.pushBack none) :=
  ⟨by simpa [pushBack] using logged.order,logged.starts,logged.latest,logged.quiet,logged.answers,
    logged.finished⟩

theorem Logged.enqueue {r : Republisher} (logged : Logged r) (cid : Cid) (present : Bool) :
    Logged (r.enqueue cid present) := by
  refine ⟨?_,fun f mem => ?_,by simp [Republisher.enqueue,pushBack],
    by simp [Republisher.enqueue,pushBack],logged.answers,logged.finished⟩
  · change r.invoked.map Invoked.call ++ (r.callbacks ++
      [(⟨r.nodes,if present then some r.calls.length else none⟩ : Waiter)]).filterMap Waiter.call =
      givenCalls (r.calls ++ [(cid,present)])
    rw [List.filterMap_append,givenCallsSnoc,← List.append_assoc,logged.order]
    cases present <;> rfl
  · obtain ⟨n,b,same,at_⟩ := logged.starts f mem
    exact ⟨n,b,same,(List.getElem?_append_left (List.getElem?_eq_some_iff.mp at_).1).trans at_⟩

theorem Batch.enqueue {f : Flight} {r : Republisher} (batch : Batch f r) (cid : Cid) (present : Bool) :
    Batch f (r.enqueue cid present) := by
  obtain ⟨a,last,b,split,node,older⟩ := batch.front
  have pushed : (r.enqueue cid present).callbacks =
      r.callbacks ++ [⟨r.nodes,if present then some r.calls.length else none⟩] := rfl
  exact ⟨batch.started,a,last,_,by rw [pushed,split,List.append_assoc,List.cons_append],node,older⟩

theorem Kept.publish {r : Republisher} (kept : Kept r) (cid : Cid) (present : Bool) :
    Kept (r.publish cid present) := by
  have logged := kept.logged.enqueue cid present
  unfold Republisher.publish
  cases kept.stage with
  | idle flag none_ still =>
    rw [flag,if_neg Bool.false_ne_true]
    exact logged.start (by simp [Republisher.enqueue,pushBack]) none_ still
  | flying flag one still batch =>
    rw [if_pos flag]
    exact ⟨logged,.flying flag one still (batch.enqueue cid present)⟩
  | handling flag none_ here called completed batch =>
    rw [if_pos flag]
    exact ⟨logged,.handling flag none_ here (by simp [Republisher.enqueue,pushBack]) completed fun more =>
      (batch more).enqueue cid present⟩

theorem Logged.answer {r : Republisher} (logged : Logged r) {f : Flight} (flag : r.isPublishing = true)
    (none_ : r.flights = []) (batch : Batch f r) {status : Status} (completed : (f.number,status) ∈ r.completed) :
    ∃ r', r.answer f status = some r' ∧ Kept r' := by
  obtain ⟨started,a,last,b,split,node,older⟩ := batch
  obtain ⟨front,rest,taken⟩ : ∃ front rest, r.callbacks = front :: rest := by
    cases a with
    | nil => exact ⟨_,_,split⟩
    | cons w a => exact ⟨_,_,split⟩
  have inBatch : ∀ call ∈ front.call, call < f.calls := by
    cases a with
    | nil => cases taken.symm.trans split; exact older last (by simp)
    | cons w a => cases taken.symm.trans split; exact older front (by simp)
  unfold Republisher.answer
  rw [taken]
  refine ⟨_,rfl,⟨?_,logged.starts,logged.latest,logged.quiet,fun x mem => ?_,logged.finished⟩,
    .handling flag none_ rfl ?_ completed fun more => ?_⟩
  · have order := logged.order
    rw [taken] at order
    rw [← order,List.filterMap_cons]
    cases front.call <;> simp
  · rcases List.mem_append.mp mem with old | new
    · exact logged.answers x old
    · obtain ⟨call,given,rfl⟩ := Option.map_eq_some_iff.mp (Option.mem_toList.mp new)
      exact ⟨f,started,inBatch call given,completed⟩
  · obtain ⟨n,_,_,at_⟩ := logged.starts f (List.mem_of_getElem? started)
    exact fun empty => by rw [show r.calls = [] from empty] at at_; cases at_
  · cases a with
    | nil =>
      cases taken.symm.trans split
      exact absurd node (of_decide_eq_false more)
    | cons w a =>
      cases taken.symm.trans split
      exact ⟨started,a,last,b,rfl,node,fun w mem => older w (List.mem_cons_of_mem _ mem)⟩

theorem stepComplete {r : Republisher} (still : r.handling = none) {i : Nat} {f : Flight}
    (here : r.flights[i]? = some f) (status : Status) : r.step (.complete i status) =
      { r with
        flights := r.flights.eraseIdx i, completed := r.completed ++ [(f.number,status)] }.answer f status := by
  obtain ⟨_,_,_,_,_,flights,_,_,_,_,_⟩ := r
  cases still
  simp only [step,show flights[i]? = some f from here]

theorem stepTimeout {r : Republisher} (still : r.handling = none) {i w : Nat} {success : Bool}
    (at_ : r.timer.ready[i]? = some (w,success)) :
    r.step (.timeout i) = some ({ r with timer := r.timer.deliver i }.timeout success) := by
  obtain ⟨_,_,_,timer,_,_,_,_,_,_,_⟩ := r
  cases still
  simp only [step,show timer.ready[i]? = some (w,success) from at_]

theorem Kept.expire {r : Republisher} (kept : Kept r) : Kept { r with timer := r.timer.expire } := by
  obtain ⟨⟨order,starts,latest,quiet,answers,finished⟩,stage⟩ := kept
  refine ⟨⟨order,starts,latest,fun none_ => ?_,answers,finished⟩,?_⟩
  · simp [Timer.expire,Timer.settle,quiet none_]
  · cases stage with
    | idle flag none_ still empty due => exact .idle flag none_ still empty fun called => (due called).expire
    | flying flag one still batch => exact .flying flag one still ⟨batch.started,batch.front⟩
    | handling flag none_ here called completed batch =>
      exact .handling flag none_ here called completed fun more => ⟨(batch more).started,(batch more).front⟩

theorem Kept.complete {r : Republisher} (kept : Kept r) (still : r.handling = none) {i : Nat} {f : Flight}
    (here : r.flights[i]? = some f) (status : Status) :
    ∃ r', r.step (.complete i status) = some r' ∧ Kept r' := by
  obtain ⟨⟨order,starts,latest,quiet,answers,finished⟩,stage⟩ := kept
  rw [stepComplete still here]
  cases stage with
  | idle _ none_ => simp [none_] at here
  | handling _ none_ => simp [none_] at here
  | @flying g flag one _ batch =>
    have first : i = 0 ∧ g = f := by
      rw [one] at here
      cases i <;> simp at here ⊢
      exact here
    obtain ⟨rfl,rfl⟩ := first
    refine Logged.answer
      (r := { r with flights := r.flights.eraseIdx 0, completed := r.completed ++ [(g.number,status)] }) 
      ⟨order,starts,latest,quiet,fun x mem => ?_,?_⟩ flag ?_
      ⟨batch.started,batch.front⟩ (List.mem_append_right _ (List.mem_singleton_self _))
    · obtain ⟨f,started,older,completed⟩ := answers x mem
      exact ⟨f,started,older,List.mem_append_left _ completed⟩
    · rw [one] at finished ⊢
      rw [← finished,List.map_append]
      simp
    · change r.flights.eraseIdx 0 = []
      rw [one]
      rfl

theorem Kept.go {r : Republisher} (kept : Kept r) {h : Handling} (here : r.handling = some h) :
    ∃ r', r.step .go = some r' ∧ Kept r' := by
  simp only [step,here]
  cases kept.stage with
  | idle _ _ still => simp [still] at here
  | flying _ _ still => simp [still] at here
  | @handling h' flag none_ here' called completed batch =>
    cases here.symm.trans here'
    cases last : h.isLast with
    | false => exact kept.logged.answer flag none_ (batch last) completed
    | true =>
      exact ⟨_,rfl,Logged.start (r := { r with handling := none })
        ⟨kept.logged.order,kept.logged.starts,kept.logged.latest,kept.logged.quiet,kept.logged.answers,
          kept.logged.finished⟩ called none_ rfl⟩

theorem Kept.timeout {r : Republisher} (kept : Kept r) (still : r.handling = none) {i w : Nat} {success : Bool}
    (at_ : r.timer.ready[i]? = some (w,success)) :
    ∃ r', r.step (.timeout i) = some r' ∧ Kept r' := by
  obtain ⟨⟨order,starts,latest,quiet,answers,finished⟩,stage⟩ := kept
  have called : r.calls ≠ [] := fun none_ => by rw [(quiet none_).2] at at_; cases at_
  have logged : Logged { r with timer := r.timer.deliver i } :=
    ⟨order,starts,latest,fun none_ => absurd none_ called,answers,finished⟩
  refine ⟨_,stepTimeout still at_,?_⟩
  unfold Republisher.timeout
  cases stage with
  | handling _ _ here => simp [still] at here
  | flying flag one _ batch =>
    rw [if_pos (by simp [flag])]
    exact ⟨logged,.flying flag one still ⟨batch.started,batch.front⟩⟩
  | idle flag none_ _ empty due =>
    cases success with
    | false => exact ⟨logged,.idle flag none_ still empty fun _ => (due called).deliver at_⟩
    | true =>
      rw [if_neg (by simp [flag])]
      exact logged.push.start called none_ still

theorem stepKept {r r' : Republisher} {e : Happening} (kept : Kept r) (h : r.Step e r') : Kept r' := by
  have same {o : Option Republisher} (h : o = some r') (out : ∃ r₁, o = some r₁ ∧ Kept r₁) : Kept r' := by
    obtain ⟨r₁,here,kept⟩ := out
    cases here.symm.trans h
    exact kept
  cases e with
  | publish cid present => cases h; exact kept.publish cid present
  | expire => cases h; exact kept.expire
  | go =>
    cases here : r.handling with
    | none => simp [Step,step,here] at h
    | some => exact same h (kept.go here)
  | complete i status =>
    cases still : r.handling with
    | some => simp [Step,step,still] at h
    | none =>
      cases here : r.flights[i]? with
      | none => simp [Step,step,still,here] at h
      | some => exact same h (kept.complete still here status)
  | timeout i =>
    cases still : r.handling with
    | some => simp [Step,step,still] at h
    | none =>
      cases at_ : r.timer.ready[i]? with
      | none => simp [Step,step,still,at_] at h
      | some => exact same h (kept.timeout still at_)

theorem reachedKept {r : Republisher} (h : Reached r) : Kept r := by
  refine Reach.invariant (I := Kept) (fun r same => ?_) (fun _ _ _ kept step => stepKept kept step) h
  subst same
  exact ⟨⟨rfl,by simp [fresh],by simp [fresh],fun _ => ⟨rfl,rfl⟩,by simp [fresh],rfl⟩,
    .idle rfl rfl rfl rfl fun called => absurd rfl called⟩

theorem runsOn {r : Republisher} (h : Reached r) :
    (r.handling ≠ none → ∃ r', r.Step .go r') ∧
    (r.handling = none → (∀ i < r.flights.length, ∀ status, ∃ r', r.Step (.complete i status) r') ∧
      ∀ i < r.timer.ready.length, ∃ r', r.Step (.timeout i) r') := by
  have kept := reachedKept h
  refine ⟨fun running => ?_,fun still => ⟨fun i bound status => ?_,fun i bound => ?_⟩⟩
  · obtain ⟨h,here⟩ := Option.ne_none_iff_exists'.mp running
    exact (kept.go here).imp fun _ => And.left
  · exact (kept.complete still (List.getElem?_eq_getElem bound) status).imp fun _ => And.left
  · exact (kept.timeout still (List.getElem?_eq_getElem bound)).imp fun _ => And.left

theorem Logged.status {r : Republisher} (logged : Logged r) {n : Nat} {a b : Status} (here : (n,a) ∈ r.completed)
    (there : (n,b) ∈ r.completed) : a = b := by
  have nodup : (r.completed.map Prod.fst ++ r.flights.map Flight.number).Nodup :=
    logged.finished ▸ List.nodup_range
  exact congrArg Prod.snd (List.inj_on_of_nodup_map (List.nodup_append.mp nodup).1 here there rfl)

/-- Each callback that was invoked got the result of a backend publish started after its
publish call, of the id that was the latest then; they were invoked in the order of the
calls; and when nothing is in flight all of them have been. No handler fails. -/
theorem publishesAnswered {r : Republisher} (h : Reached r) :
    (r.invoked.map Invoked.call).Pairwise (· < ·) ∧
    (∀ x ∈ r.invoked, ∃ f present, r.started[x.flight]? = some f ∧ x.call < f.calls ∧
      r.calls[f.calls - 1]? = some (f.id,present) ∧
      ∀ status, (x.flight,status) ∈ r.completed ↔ status = x.status) ∧
    (r.flights = [] → r.handling = none → r.callbacks = [] ∧ r.invoked.map Invoked.call = givenCalls r.calls) ∧
    (r.handling ≠ none → ∃ r', r.Step .go r') ∧
    (r.handling = none → (∀ i < r.flights.length, ∀ status, ∃ r', r.Step (.complete i status) r') ∧
      ∀ i < r.timer.ready.length, ∃ r', r.Step (.timeout i) r') := by
  obtain ⟨logged,stage⟩ := reachedKept h
  refine ⟨?_,fun x mem => ?_,fun none_ still => ?_,(runsOn h).1,(runsOn h).2⟩
  · have sorted := givenCallsSorted r.calls
    rw [← logged.order] at sorted
    exact (List.pairwise_append.mp sorted).1
  · obtain ⟨f,started,older,completed⟩ := logged.answers x mem
    obtain ⟨n,present,count,at_⟩ := logged.starts f (List.mem_of_getElem? started)
    refine ⟨f,present,started,older,by rw [count]; exact at_,fun status => ⟨fun there => ?_,fun same => ?_⟩⟩
    · exact logged.status there completed
    · rw [same]
      exact completed
  · cases stage with
    | idle _ _ _ empty =>
      refine ⟨empty,?_⟩
      rw [← logged.order,empty]
      simp
    | flying _ one => simp [none_] at one
    | handling _ _ here => simp [still] at here

theorem eventsReach {events : List Happening} {r r' : Republisher} (before : Reached r)
    (h : events.foldlM step r = some r') : Reached r' := Reach.events before h

theorem publishesAnsweredThrice : ∃ r, Reached r ∧ r.started.map Flight.id = [⟨[97]⟩,⟨[99]⟩] ∧
    r.invoked = [⟨0,0,.ok ()⟩,⟨1,1,.error .notFound⟩,⟨2,1,.error .notFound⟩] ∧
    r.callbacks = [] ∧ r.invoked.map Invoked.call = givenCalls r.calls := by
  have run : ([.publish ⟨[97]⟩ true,.publish ⟨[98]⟩ true,.complete 0 (.ok ()),.publish ⟨[99]⟩ true,.go,
      .complete 0 (.error .notFound),.go,.go].foldlM step fresh).any (fun r =>
        decide (r.started.map Flight.id = [⟨[97]⟩,⟨[99]⟩]) &&
        decide (r.invoked = [⟨0,0,.ok ()⟩,⟨1,1,.error .notFound⟩,⟨2,1,.error .notFound⟩]) &&
        decide (r.flights = []) && decide (r.handling = none)) = true := by decide +kernel
  obtain ⟨r,played,seen⟩ := Option.any_eq_true _ _ |>.mp run
  simp only [Bool.and_eq_true,decide_eq_true_eq] at seen
  obtain ⟨⟨⟨ids,invoked⟩,none_⟩,still⟩ := seen
  have reached := eventsReach (.start rfl) played
  exact ⟨r,reached,ids,invoked,(publishesAnswered reached).2.2.1 none_ still⟩

/-- One backend publish at a time; and when there is none, the timer will start the next. -/
theorem republishingGoesOn {r : Republisher} (h : Reached r) (outside : r.handling = none) :
    r.flights.length ≤ 1 ∧ (r.isPublishing = true ↔ r.flights.length = 1) ∧
    (r.calls ≠ [] → r.flights = [] → r.callbacks = [] ∧ r.timer.Due ∧
      ∀ i w, r.timer.ready[i]? = some (w,true) → ∃ r' f present, r.Step (.timeout i) r' ∧ r'.flights = [f] ∧
        r.calls.getLast? = some (f.id,present)) := by
  obtain ⟨logged,stage⟩ := reachedKept h
  cases stage with
  | handling _ _ here => simp [outside] at here
  | flying flag one => simp [one,flag]
  | idle flag none_ still empty due =>
    refine ⟨by simp [none_],by simp [none_,flag],fun called _ => ⟨empty,due called,fun i w at_ => ?_⟩⟩
    obtain ⟨⟨cid,present⟩,last⟩ : ∃ c, r.calls.getLast? = some c :=
      Option.isSome_iff_exists.mp (by simpa using called)
    have same : cid = r.toPublish := logged.latest _ last
    refine ⟨Republisher.timeout true { r with timer := r.timer.deliver i },
      ⟨r.toPublish,publishDuration,r.nodes,r.started.length,r.calls.length⟩,present,stepTimeout still at_,?_,
      same ▸ last⟩
    simp [Republisher.timeout,flag,startPublishing,pushBack,none_]

theorem republishingGoesOnOnce : ∃ r, Reached r ∧ r.flights = [] ∧ r.timer.Due ∧ r.timer.ready[0]? = some (0,true) ∧
    ∃ r' f present, r.Step (.timeout 0) r' ∧ r'.flights = [f] ∧ r.calls.getLast? = some (f.id,present) := by
  have run : ([.publish ⟨[97]⟩ true,.complete 0 (.ok ()),.go,.expire].foldlM step fresh).any (fun r =>
      decide (r.flights = []) && decide (r.handling = none) && decide (r.calls ≠ []) &&
      decide (r.timer.ready[0]? = some (0,true))) = true := by decide +kernel
  obtain ⟨r,played,seen⟩ := Option.any_eq_true _ _ |>.mp run
  simp only [Bool.and_eq_true,decide_eq_true_eq] at seen
  obtain ⟨⟨⟨none_,still⟩,called⟩,at_⟩ := seen
  have reached := eventsReach (.start rfl) played
  obtain ⟨_,due,next⟩ := (republishingGoesOn reached still).2.2 called none_
  exact ⟨r,reached,none_,due,at_,next 0 0 at_⟩

end IpfsCache.Republisher
