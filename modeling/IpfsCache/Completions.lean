import IpfsCache.Backend

/-! What becomes of one operation of a Backend. Each step changes what concerns one operation
in one of few ways and leaves every other operation alone, except the destruction, which
cancels those that are still linked. -/
namespace IpfsCache

structure Local (α : Type) where
  linked : Bool
  handle : Option (Option (Handle α))
  destroyed : Bool
  calls : List (Nat × Nat × α)
  posted : List (Posted α)
  invoked : List (Completed α)
  caught : Bool

inductive Gone {α : Type} : Option (Option (Handle α)) → List (Nat × Nat × α) → Prop
  | waits {args : Status × α} : Gone (some (some ⟨false,args⟩)) []
  | deleted {calls : List (Nat × Nat × α)} (called : calls ≠ []) : Gone (some none) calls

inductive Standing {α : Type} (n : Nat) : Local α → Prop
  | absent {destroyed : Bool} : Standing n ⟨false,none,destroyed,[],[],[],false⟩
  | running {args : Status × α} : Standing n ⟨true,some (some ⟨true,args⟩),false,[],[],[],false⟩
  | ready {err : Nat} {data : α} {destroyed : Bool} :
      Standing n ⟨false,some (some ⟨true,ipfsError err,data⟩),destroyed,[(n,err,data)],[.dispatched n],[],destroyed⟩
  | aborted {handle : Option (Option (Handle α))} {calls : List (Nat × Nat × α)} {data : α}
      (gone : Gone handle calls) :
      Standing n ⟨false,handle,true,calls,[.cancelled n (.error .operationAborted,data)],[],false⟩
  | own {err : Nat} {data : α} {destroyed : Bool} :
      Standing n ⟨false,some none,destroyed,[(n,err,data)],[],[⟨n,(ipfsError err,data),false⟩],false⟩
  | late {handle : Option (Option (Handle α))} {calls : List (Nat × Nat × α)} {data : α} (gone : Gone handle calls) :
      Standing n ⟨false,handle,true,calls,[],[⟨n,(.error .operationAborted,data),true⟩],false⟩
  | lost {err : Nat} {data : α} : Standing n ⟨false,some none,true,[(n,err,data)],[],[],true⟩

namespace Backend
variable {α : Type}

def view (b : Backend α) (n : Nat) : Local α :=
  ⟨decide (n ∈ b.linked),b.handles[n]?,b.wasDestroyed,b.calls.filter (·.1 = n),b.posted.filter (·.op = n),
    b.invoked.filter (·.op = n),decide (n ∈ b.caught)⟩

structure Placed (b : Backend α) : Prop where
  nodup : b.linked.Nodup
  each : ∀ n, Standing n (b.view n)

structure Looks (b : Backend α) (n : Nat) (l : Local α) : Prop where
  linked : n ∈ b.linked ↔ l.linked = true
  handle : b.handles[n]? = l.handle
  destroyed : b.wasDestroyed = l.destroyed
  calls : b.calls.filter (·.1 = n) = l.calls
  posted : b.posted.filter (·.op = n) = l.posted
  invoked : b.invoked.filter (·.op = n) = l.invoked
  caught : n ∈ b.caught ↔ l.caught = true

theorem looks (b : Backend α) (n : Nat) : Looks b n (b.view n) :=
  ⟨by simp [view],rfl,rfl,rfl,rfl,rfl,by simp [view]⟩

theorem Looks.view {b : Backend α} {n : Nat} {l : Local α} (h : Looks b n l) : b.view n = l := by
  obtain ⟨linked,handle,destroyed,calls,posted,invoked,caught⟩ := l
  simp only [Backend.view,Local.mk.injEq]
  exact ⟨by cases linked <;> simp [h.linked],h.handle,h.destroyed,h.calls,h.posted,h.invoked,
    by cases caught <;> simp [h.caught]⟩

theorem Looks.place {b : Backend α} {n : Nat} {l : Local α} (h : Looks b n l) (place : Standing n l) :
    Standing n (b.view n) := h.view ▸ place

theorem Placed.at {b : Backend α} (placed : Placed b) (n : Nat) : ∃ l, Standing n l ∧ Looks b n l :=
  ⟨_,placed.each n,looks b n⟩

theorem Placed.other {b b' : Backend α} (placed : Placed b) {n : Nat} (linked : n ∈ b'.linked ↔ n ∈ b.linked)
    (handle : b'.handles[n]? = b.handles[n]?) (destroyed : b'.wasDestroyed = b.wasDestroyed)
    (calls : b'.calls.filter (·.1 = n) = b.calls.filter (·.1 = n))
    (posted : b'.posted.filter (·.op = n) = b.posted.filter (·.op = n))
    (invoked : b'.invoked.filter (·.op = n) = b.invoked.filter (·.op = n)) (caught : n ∈ b'.caught ↔ n ∈ b.caught) :
    Standing n (b'.view n) := by
  obtain ⟨l,place,h⟩ := placed.at n
  exact Looks.place ⟨linked.trans h.linked,handle.trans h.handle,destroyed.trans h.destroyed,calls.trans h.calls,
    posted.trans h.posted,invoked.trans h.invoked,caught.trans h.caught⟩ place

theorem Placed.start [Inhabited α] {b : Backend α} (placed : Placed b) (alive : b.wasDestroyed = false) :
    Placed b.start := by
  have new : Looks b b.handles.length ⟨false,none,false,[],[],[],false⟩ := by
    obtain ⟨l,place,at_⟩ := placed.at b.handles.length
    have handle := at_.handle
    rw [List.getElem?_eq_none le_rfl] at handle
    cases place with
    | absent => cases alive.symm.trans at_.destroyed; exact at_
    | aborted gone => cases gone <;> cases handle
    | late gone => cases gone <;> cases handle
    | _ => cases handle
  have fresh : b.handles.length ∉ b.linked := fun mem => Bool.false_ne_true (new.linked.mp mem)
  refine ⟨List.nodup_append.mpr ⟨placed.nodup,List.nodup_singleton _,?_⟩,fun n => ?_⟩
  · rintro a mem _ last rfl
    cases List.mem_singleton.mp last
    exact fresh mem
  · by_cases same : n = b.handles.length
    · subst same
      refine Looks.place (l := ⟨true,_,false,[],[],[],false⟩)
        ⟨?_,List.getElem?_concat_length,alive,new.calls,new.posted,new.invoked,new.caught⟩ .running
      simp [Backend.start]
    · refine placed.other ?_ ?_ rfl rfl rfl rfl Iff.rfl
      · simp [Backend.start,same]
      · simp only [Backend.start,List.getElem?_append,List.getElem?_singleton]
        grind

theorem Placed.call {b : Backend α} (placed : Placed b) {op : Nat} (err : Nat) (data : α)
    (first : op ∉ b.calls.map Prod.fst) {h : Handle α} (here : b.handles[op]? = some (some h)) :
    ∃ b', b.call op err data = some b' ∧ Placed b' := by
  obtain ⟨l,place,at_⟩ := placed.at op
  have none_ : l.calls = [] := by
    rw [← at_.calls,List.filter_eq_nil_iff]
    exact fun c mem same => first (List.mem_map.mpr ⟨c,mem,by simpa using same⟩)
  have bound : op < b.handles.length := (List.getElem?_eq_some_iff.mp here).1
  have handle := at_.handle
  rw [here] at handle
  simp only [Backend.call,here]
  have apart {n : Nat} (other : n ≠ op) (x : Option (Handle α)) : (b.handles.set op x)[n]? = b.handles[n]? :=
    List.getElem?_set_ne (Ne.symm other)
  have calls {n : Nat} (other : n ≠ op) :
      (b.calls ++ [(op,err,data)]).filter (·.1 = n) = b.calls.filter (·.1 = n) := by
    simp [Ne.symm other]
  have mine : (b.calls ++ [(op,err,data)]).filter (·.1 = op) = [(op,err,data)] := by
    rw [List.filter_append,at_.calls,none_]
    simp
  have deleted (cb : h.cb = false) (place' : Standing op { l with handle := some none, calls := [(op,err,data)] }) :
      Placed { b with calls := b.calls ++ [(op,err,data)], handles := b.handles.set op none } := by
    refine ⟨placed.nodup,fun n => ?_⟩
    by_cases same : n = op
    · subst same
      exact Looks.place (l := { l with handle := some none, calls := [(n,err,data)] }) ⟨at_.linked,
        List.getElem?_set_self bound,at_.destroyed,mine,at_.posted,at_.invoked,at_.caught⟩ place'
    · exact placed.other Iff.rfl (apart same _) rfl (calls same) rfl rfl Iff.rfl
  cases place with
  | absent => cases handle
  | running =>
    cases handle
    refine ⟨_,if_pos rfl,placed.nodup.erase _,fun n => ?_⟩
    by_cases same : n = op
    · subst same
      have alive : b.wasDestroyed = false := at_.destroyed
      refine Looks.place
        (l := ⟨false,some (some ⟨true,ipfsError err,data⟩),false,[(n,err,data)],[.dispatched n],[],false⟩)
        ⟨?_,?_,alive,mine,?_,at_.invoked,at_.caught⟩ .ready
      · simp [placed.nodup.mem_erase_iff]
      · simp [List.getElem?_set_self bound,alive]
      · change (b.posted ++ [_]).filter _ = _
        rw [List.filter_append,at_.posted]
        simp [Posted.op]
    · refine placed.other (List.mem_erase_of_ne same) (apart same _) rfl (calls same) ?_ rfl Iff.rfl
      simp [Posted.op,Ne.symm same]
  | aborted gone =>
    cases gone with
    | waits => cases handle; exact ⟨_,if_neg Bool.false_ne_true,deleted rfl (.aborted (.deleted (by simp)))⟩
    | deleted => cases handle
  | late gone =>
    cases gone with
    | waits => cases handle; exact ⟨_,if_neg Bool.false_ne_true,deleted rfl (.late (.deleted (by simp)))⟩
    | deleted => cases handle
  | _ => cases none_

theorem Placed.run {b : Backend α} (placed : Placed b) {i : Nat} {p : Posted α} (next : b.posted[i]? = some p) :
    ∃ b', { b with posted := b.posted.eraseIdx i }.run p = some b' ∧ Placed b' := by
  obtain ⟨a,c,posted,erased⟩ : ∃ a c, b.posted = a ++ p :: c ∧ b.posted.eraseIdx i = a ++ c := by
    obtain ⟨bound,rfl⟩ := List.getElem?_eq_some_iff.mp next
    exact ⟨b.posted.take i,b.posted.drop (i + 1),by simp,List.eraseIdx_eq_take_drop_succ _ _⟩
  have others {n : Nat} (other : n ≠ p.op) :
      (b.posted.eraseIdx i).filter (·.op = n) = b.posted.filter (·.op = n) := by
    rw [erased,posted]
    simp [Ne.symm other]
  obtain ⟨l,place,at_⟩ := placed.at p.op
  have queue := at_.posted
  rw [posted,List.filter_append,List.filter_cons_of_pos (by simp)] at queue
  have emptied {x : Posted α} (one : l.posted = [x]) :
      x = p ∧ (b.posted.eraseIdx i).filter (·.op = p.op) = [] := by
    rw [one] at queue
    have length := congrArg List.length queue
    simp only [List.length_append,List.length_cons,List.length_nil] at length
    have before := List.eq_nil_of_length_eq_zero (l := a.filter (·.op = p.op)) (by omega)
    have behind := List.eq_nil_of_length_eq_zero (l := c.filter (·.op = p.op)) (by omega)
    rw [before,behind] at queue
    exact ⟨(List.cons.inj queue).1.symm,by rw [erased,List.filter_append,before,behind]; rfl⟩
  cases place with
  | @ready err data destroyed =>
    obtain ⟨same,left⟩ := emptied rfl
    generalize p.op = n at *
    subst same
    have bound : n < b.handles.length := (List.getElem?_eq_some_iff.mp at_.handle).1
    have apart {m : Nat} (other : m ≠ n) : (b.handles.set n none)[m]? = b.handles[m]? :=
      List.getElem?_set_ne (Ne.symm other)
    simp only [Backend.run,show b.handles[n]? = some (some ⟨true,ipfsError err,data⟩) from at_.handle]
    cases destroyed with
    | true =>
      have gone : b.wasDestroyed = true := at_.destroyed
      refine ⟨_,congrArg some (if_pos gone),placed.nodup,fun m => ?_⟩
      by_cases same : m = n
      · subst same
        exact Looks.place (l := ⟨false,some none,true,[(m,err,data)],[],[],true⟩) ⟨at_.linked,
          List.getElem?_set_self bound,gone,at_.calls,left,at_.invoked,at_.caught⟩ .lost
      · exact placed.other Iff.rfl (apart same) rfl rfl (others same) rfl Iff.rfl
    | false =>
      have alive : b.wasDestroyed = false := at_.destroyed
      refine ⟨_,congrArg some (if_neg (by simp [alive])),placed.nodup,fun m => ?_⟩
      by_cases same : m = n
      · subst same
        refine Looks.place (l := ⟨false,some none,false,[(m,err,data)],[],[⟨m,(ipfsError err,data),false⟩],false⟩)
          ⟨at_.linked,List.getElem?_set_self bound,alive,at_.calls,left,?_,at_.caught⟩ .own
        simp only [List.filter_append,show b.invoked.filter (·.op = m) = [] from at_.invoked,alive]
        simp
      · refine placed.other Iff.rfl (apart same) rfl rfl (others same) ?_ Iff.rfl
        simp [Ne.symm same]
  | @aborted handle calls data gone =>
    obtain ⟨same,left⟩ := emptied rfl
    generalize p.op = n at *
    subst same
    have destroyed : b.wasDestroyed = true := at_.destroyed
    refine ⟨_,rfl,placed.nodup,fun m => ?_⟩
    by_cases same : m = n
    · subst same
      refine Looks.place (l := ⟨false,handle,true,calls,[],[⟨m,(.error .operationAborted,data),true⟩],false⟩)
        ⟨at_.linked,at_.handle,destroyed,at_.calls,left,?_,at_.caught⟩ (.late gone)
      simp only [List.filter_append,show b.invoked.filter (·.op = m) = [] from at_.invoked,destroyed]
      simp
    · refine placed.other Iff.rfl rfl rfl rfl (others same) ?_ Iff.rfl
      simp [Ne.symm same]
  | _ => simp at queue

theorem cancelLooks {b : Backend α} {op : Nat} {args : Status × α} (here : b.handles[op]? = some (some ⟨true,args⟩))
    {n : Nat} {l : Local α} (h : Looks b n l) : Looks (b.cancel op) n (if n = op then { l with
      handle := some (some ⟨false,args⟩),
      posted := l.posted ++ [.cancelled op (.error .operationAborted,args.2)] } else l) := by
  have bound : op < b.handles.length := (List.getElem?_eq_some_iff.mp here).1
  have out : b.cancel op = { b with
      handles := b.handles.set op (some ⟨false,args⟩),
      posted := b.posted ++ [.cancelled op (.error .operationAborted,args.2)] } := by
    simp only [cancel,here]
  rw [out]
  by_cases same : n = op
  · subst same
    rw [if_pos rfl]
    refine ⟨h.linked,List.getElem?_set_self bound,h.destroyed,h.calls,?_,h.invoked,h.caught⟩
    simp only [List.filter_append,h.posted]
    simp [Posted.op]
  · rw [if_neg same]
    refine ⟨h.linked,(List.getElem?_set_ne (Ne.symm same)).trans h.handle,h.destroyed,h.calls,?_,h.invoked,h.caught⟩
    rw [← h.posted]
    simp [Posted.op,Ne.symm same]

theorem cancelEach (ops : List Nat) : ∀ b : Backend α, ops.Nodup →
    (∀ op ∈ ops, ∃ args, b.handles[op]? = some (some ⟨true,args⟩)) → ∀ (n : Nat) (l : Local α), Looks b n l →
      (n ∉ ops → Looks (ops.foldl cancel b) n l) ∧
      (n ∈ ops → ∃ args, l.handle = some (some ⟨true,args⟩) ∧ Looks (ops.foldl cancel b) n { l with
        handle := some (some ⟨false,args⟩),
        posted := l.posted ++ [.cancelled n (.error .operationAborted,args.2)] }) := by
  induction ops with
  | nil => exact fun b _ _ n l h => ⟨fun _ => h,fun mem => absurd mem List.not_mem_nil⟩
  | cons op ops ih =>
    intro b nodup here n l h
    obtain ⟨fresh,nodup'⟩ := List.nodup_cons.mp nodup
    obtain ⟨args,first⟩ := here op List.mem_cons_self
    have after := cancelLooks first h
    have still : ∀ m ∈ ops, ∃ args, (b.cancel op).handles[m]? = some (some ⟨true,args⟩) := fun m mem => by
      have apart : m ≠ op := fun same => fresh (same ▸ mem)
      have later := cancelLooks first (looks b m)
      rw [if_neg apart] at later
      obtain ⟨args,same⟩ := here m (List.mem_cons_of_mem _ mem)
      exact ⟨args,later.handle.trans same⟩
    obtain ⟨out,within⟩ := ih (b.cancel op) nodup' still n _ after
    by_cases same : n = op
    · subst same
      rw [if_pos rfl] at out
      exact ⟨fun free => absurd List.mem_cons_self free,fun _ => ⟨args,h.handle ▸ first,out fresh⟩⟩
    · rw [if_neg same] at out within
      exact ⟨fun free => out fun mem => free (List.mem_cons_of_mem _ mem),
        fun mem => within ((List.mem_cons.mp mem).resolve_left same)⟩

theorem Placed.destroy {b : Backend α} (placed : Placed b) (alive : b.wasDestroyed = false) : Placed b.destroy := by
  have here : ∀ op ∈ b.linked, ∃ args, b.handles[op]? = some (some ⟨true,args⟩) := fun op mem => by
    obtain ⟨l,place,at_⟩ := placed.at op
    have linked := at_.linked.mp mem
    cases place with
    | running => exact ⟨_,at_.handle⟩
    | _ => cases linked
  refine ⟨List.nodup_nil,fun n => ?_⟩
  obtain ⟨l,place,at_⟩ := placed.at n
  have destroyed : l.destroyed = false := at_.destroyed ▸ alive
  have caught : n ∈ b.posted.filterMap Posted.caught ↔ Posted.dispatched n ∈ l.posted := by
    rw [← at_.posted,List.mem_filter,List.mem_filterMap]
    constructor
    · rintro ⟨p,mem,same⟩
      cases p with
      | dispatched op => cases same; exact ⟨mem,by simp [Posted.op]⟩
      | cancelled => cases same
    · exact fun h => ⟨_,h.1,rfl⟩
  have before (c : Bool) (same : Posted.dispatched n ∈ l.posted ↔ c = true) :
      Looks b.closing n { l with destroyed := true, caught := c } :=
    ⟨at_.linked,at_.handle,rfl,at_.calls,at_.posted,at_.invoked,caught.trans same⟩
  have after {l' : Local α} (h : Looks (b.linked.foldl cancel b.closing) n l') :
      Looks b.destroy n { l' with linked := false } :=
    ⟨by simp [Backend.destroy],h.handle,h.destroyed,h.calls,h.posted,h.invoked,h.caught⟩
  have free (c : Bool) (same : Posted.dispatched n ∈ l.posted ↔ c = true) (out : l.linked = false) :
      Looks b.destroy n { l with linked := false, destroyed := true, caught := c } :=
    after ((cancelEach b.linked b.closing placed.nodup here n _ (before c same)).1 fun mem => by
      rw [at_.linked.mp mem] at out
      cases out)
  cases place with
  | absent => exact (free false (by simp) rfl).place .absent
  | running =>
    obtain ⟨args,same,looks⟩ := (cancelEach b.linked b.closing placed.nodup here n _ (before false (by simp))).2
      (at_.linked.mpr rfl)
    exact (after looks).place (.aborted .waits)
  | ready => cases destroyed; exact (free true (by simp) rfl).place .ready
  | own => cases destroyed; exact (free false (by simp) rfl).place .own
  | _ => cases destroyed

theorem stepPlaced [Inhabited α] {b b' : Backend α} {a : BackendEvent α} (placed : Placed b) (h : b.Step a b') :
    Placed b' := by
  cases a with
  | start =>
    cases destroyed : b.wasDestroyed <;> simp only [Step,step,destroyed] at h <;> cases h
    exact placed.start destroyed
  | destroy =>
    cases destroyed : b.wasDestroyed <;> simp only [Step,step,destroyed] at h <;> cases h
    exact placed.destroy destroyed
  | call op err data =>
    by_cases again : op ∈ b.calls.map Prod.fst
    · simp [Step,step,again] at h
    · simp only [Step,step,again,if_false] at h
      rcases here : b.handles[op]? with _ | _ | x
      · simp [Backend.call,here] at h
      · simp [Backend.call,here] at h
      · obtain ⟨b₁,same,placed'⟩ := placed.call err data again here
        cases same.symm.trans h
        exact placed'
  | run i =>
    cases next : b.posted[i]? with
    | none => simp [Step,step,next] at h
    | some p =>
      obtain ⟨b₁,same,placed'⟩ := placed.run next
      simp only [Step,step,next] at h
      cases same.symm.trans h
      exact placed'

theorem reachedPlaced [Inhabited α] {b : Backend α} (h : Reached b) : Placed b := by
  refine Reach.invariant (I := Placed) (fun b same => ?_) (fun _ _ _ placed step => stepPlaced placed step) h
  subst same
  exact ⟨List.nodup_nil,fun n => Looks.place (l := ⟨false,none,false,[],[],[],false⟩)
    ⟨by simp [fresh],rfl,rfl,rfl,rfl,rfl,by simp [fresh]⟩ .absent⟩

theorem neverDangles [Inhabited α] {b : Backend α} (h : Reached b) :
    (∀ op < b.handles.length, op ∉ b.calls.map Prod.fst → ∀ err data, ∃ b', b.Step (.call op err data) b') ∧
      ∀ i < b.posted.length, ∃ b', b.Step (.run i) b' := by
  have placed := reachedPlaced h
  refine ⟨fun op bound first err data => ?_,fun i bound => ?_⟩
  · obtain ⟨l,place,at_⟩ := placed.at op
    have none_ : l.calls = [] := by
      rw [← at_.calls,List.filter_eq_nil_iff]
      exact fun c mem same => first (List.mem_map.mpr ⟨c,mem,by simpa using same⟩)
    have here : ∃ x, b.handles[op]? = some (some x) := by
      have there := at_.handle
      cases place with
      | absent => rw [List.getElem?_eq_getElem bound] at there; cases there
      | running => exact ⟨_,there⟩
      | aborted gone => cases gone; exacts [⟨_,there⟩,absurd none_ ‹_›]
      | late gone => cases gone; exacts [⟨_,there⟩,absurd none_ ‹_›]
      | _ => cases none_
    obtain ⟨x,here⟩ := here
    obtain ⟨b',same,_⟩ := placed.call err data first here
    exact ⟨b',by simp only [Step,step,first,if_false]; exact same⟩
  · obtain ⟨b',same,_⟩ := placed.run (List.getElem?_eq_getElem bound)
    exact ⟨b',by simp only [Step,step,List.getElem?_eq_getElem bound]; exact same⟩

def Settled (b : Backend α) : Prop :=
  b.posted = [] ∧ (b.wasDestroyed = true ∨ ∀ op < b.handles.length, op ∈ b.calls.map Prod.fst)

/-- One invocation: before the destruction with what Go said, afterwards with the abort. -/
def CompletedOnce (b : Backend α) (op : Nat) : Prop :=
  ∃ x, b.invoked.filter (·.op = op) = [x] ∧
    if x.late then x.args.1 = .error .operationAborted
    else ∃ err data, (op,err,data) ∈ b.calls ∧ x.args = (ipfsError err,data)

/-- No callback is invoked twice, and the only ones dropped are those whose operation had
been dispatched, but not run, when the Backend was destroyed. What Go and the io_service
have to call can always be called. -/
theorem completesOnce [Inhabited α] {b : Backend α} (h : Reached b) {op : Nat} (bound : op < b.handles.length) :
    (b.invoked.filter (·.op = op)).length ≤ 1 ∧ (b.Settled → (b.CompletedOnce op ↔ op ∉ b.caught)) ∧
    (op ∉ b.calls.map Prod.fst → ∀ err data, ∃ b', b.Step (.call op err data) b') ∧
    ∀ i < b.posted.length, ∃ b', b.Step (.run i) b' := by
  obtain ⟨l,place,at_⟩ := (reachedPlaced h).at op
  obtain ⟨calls,runs⟩ := neverDangles h
  refine ⟨?_,fun ⟨empty,done⟩ => ?_,calls op bound,runs⟩
  · rw [at_.invoked]
    cases place <;> simp
  · have posted := at_.posted
    rw [empty] at posted
    rw [CompletedOnce,at_.invoked,at_.caught]
    cases place with
    | absent =>
      have handle := at_.handle
      rw [List.getElem?_eq_getElem bound] at handle
      cases handle
    | running =>
      rcases done with destroyed | each
      · cases destroyed.symm.trans at_.destroyed
      · obtain ⟨c,mem,same⟩ := List.mem_map.mp (each op bound)
        exact absurd mem (List.filter_eq_nil_iff.mp at_.calls c · (by simpa using same))
    | ready => cases posted
    | aborted => cases posted
    | @own err data =>
      have called : (op,err,data) ∈ b.calls :=
        List.mem_of_mem_filter (by rw [at_.calls]; exact List.mem_singleton_self _)
      exact iff_of_true ⟨_,rfl,err,data,called,rfl⟩ Bool.false_ne_true
    | late => exact iff_of_true ⟨_,rfl,rfl⟩ Bool.false_ne_true
    | lost => exact iff_of_false (fun ⟨_,same,_⟩ => by cases same) fun free => free rfl

theorem actsReach [Inhabited α] {acts : List (BackendEvent α)} {b b' : Backend α} (before : Reached b)
    (h : acts.foldlM step b = some b') : Reached b' := by
  refine before.schedule (fun acts b => acts.foldlM step b) (fun _ _ => True) h trivial
    (fun _ => rfl) fun a acts b b' _ h => ?_
  obtain ⟨next,first,rest⟩ := Option.bind_eq_some_iff.mp h
  exact ⟨a,next,first,trivial,rest⟩

theorem completesOnceBoth : ∃ b : Backend Nat, b.Settled ∧ b.handles.length = 2 ∧
    b.CompletedOnce 0 ∧ b.CompletedOnce 1 := by
  have run : ([.start,.start,.call 0 0 7,.run 0,.destroy,.run 0].foldlM step (fresh (α := Nat))).any (fun b =>
      b.posted.isEmpty && b.wasDestroyed && decide (b.handles.length = 2) && b.caught.isEmpty) = true := by
    decide +kernel
  obtain ⟨b,played,seen⟩ := Option.any_eq_true _ _ |>.mp run
  simp only [Bool.and_eq_true,decide_eq_true_eq,List.isEmpty_iff] at seen
  obtain ⟨⟨⟨empty,destroyed⟩,two⟩,none_⟩ := seen
  have settled : b.Settled := ⟨empty,.inl destroyed⟩
  have once (op : Nat) (bound : op < b.handles.length) :=
    ((completesOnce (actsReach (.start rfl) played) bound).2.1 settled).mpr (by simp [none_])
  exact ⟨b,settled,two,once 0 (by omega),once 1 (by omega)⟩

theorem completionDropped : ¬ ∀ b : Backend Unit, Reached b → b.Settled → ∀ op < b.handles.length,
    b.CompletedOnce op := by
  intro claim
  have run : ([.start,.call 0 0 (),.destroy,.run 0].foldlM step (fresh (α := Unit))).any (fun b =>
      b.posted.isEmpty && b.wasDestroyed && decide (b.handles.length = 1) && b.invoked.isEmpty) = true := by
    decide +kernel
  obtain ⟨b,played,seen⟩ := Option.any_eq_true _ _ |>.mp run
  simp only [Bool.and_eq_true,decide_eq_true_eq,List.isEmpty_iff] at seen
  obtain ⟨⟨⟨empty,destroyed⟩,one⟩,none_⟩ := seen
  obtain ⟨x,same,_⟩ := claim b (actsReach (.start rfl) played) ⟨empty,.inl destroyed⟩ 0 (by omega)
  rw [none_] at same
  cases same

end Backend
end IpfsCache
