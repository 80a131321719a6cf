import IpfsCache.Republishing

/-! Republisher::~Republisher, and what runs afterwards. The destructor posts a handler for
each callback in its list; the handlers of a completion and of the timer that come later,
and one that is running a callback, find the flag set and return. -/
namespace IpfsCache

structure Aftermath where
  republisher : Republisher
  posted : List Waiter
  aborted : List Nat
  empties : Nat                -- how often an empty function was invoked

def Republisher.destroy (r : Republisher) : Aftermath :=
  ⟨{ r with callbacks := [], timer := r.timer.cancel },r.callbacks,[],0⟩

inductive Late where
  | run (i : Nat)
  | go
  | complete (i : Nat) (status : Status)
  | timeout (i : Nat)

namespace Aftermath

def invoke (w : Waiter) (a : Aftermath) : Aftermath :=
  match w.call with
  | some call => { a with aborted := a.aborted ++ [call] }
  | none => { a with empties := a.empties + 1 }

def step (a : Aftermath) : Late → Option Aftermath
  | .run i =>
    match a.republisher.handling,a.posted[i]? with
    | none,some w => some ({ a with posted := a.posted.eraseIdx i }.invoke w)
    | _,_ => none
  | .go =>
    match a.republisher.handling with
    | none => none
    | some _ => some { a with republisher := { a.republisher with handling := none } }
  | .complete i status =>
    match a.republisher.handling,a.republisher.flights[i]? with
    | none,some flight => some { a with republisher := { a.republisher with
        flights := a.republisher.flights.eraseIdx i,
        completed := a.republisher.completed ++ [(flight.number,status)] } }
    | _,_ => none
  | .timeout i =>
    match a.republisher.handling,a.republisher.timer.ready[i]? with
    | none,some _ => some { a with republisher := { a.republisher with timer := a.republisher.timer.deliver i } }
    | _,_ => none

def After (r : Republisher) (a : Aftermath) : Prop :=
  Reach (· = r.destroy) (fun a e a' => a.step e = some a') a

def nulls (callbacks : List Waiter) : Nat := callbacks.countP fun w => w.call.isNone

structure Settling (r : Republisher) (a : Aftermath) : Prop where
  pending : ∀ n, a.aborted.count n + (a.posted.filterMap Waiter.call).count n =
    (r.callbacks.filterMap Waiter.call).count n
  empties : a.empties + nulls a.posted = nulls r.callbacks

theorem Settling.run {r : Republisher} {a : Aftermath} (settling : Settling r a) {i : Nat} {w : Waiter}
    (at_ : a.posted[i]? = some w) : Settling r ({ a with posted := a.posted.eraseIdx i }.invoke w) := by
  have out := Reach.taken at_
  have calls (n : Nat) := (out.filterMap Waiter.call).count_eq n
  have none_ : nulls (w :: a.posted.eraseIdx i) = nulls a.posted := out.countP_eq _
  have pending := settling.pending
  have empties := settling.empties
  unfold invoke
  cases given : w.call with
  | some call =>
    refine ⟨fun n => ?_,?_⟩
    · have before := pending n
      rw [← calls n,List.filterMap_cons_some given,List.count_cons] at before
      simp only [List.count_append,List.count_singleton]
      omega
    · rw [nulls,List.countP_cons_of_neg (by simp [given])] at none_
      simp only [nulls] at none_ empties ⊢
      omega
  | none =>
    refine ⟨fun n => ?_,?_⟩
    · have before := pending n
      rwa [← calls n,List.filterMap_cons_none given] at before
    · rw [nulls,List.countP_cons_of_pos (by simp [given])] at none_
      simp only [nulls] at none_ empties ⊢
      omega

theorem afterSettling {r : Republisher} {a : Aftermath} (h : After r a) : Settling r a := by
  refine Reach.invariant (I := Settling r) (fun a start => ?_) (fun a e a' settling step => ?_) h
  · subst start
    exact ⟨fun n => Nat.zero_add _,Nat.zero_add _⟩
  · cases e with
    | run i =>
      simp only [Aftermath.step] at step
      split at step
      · cases step
        exact settling.run (by assumption)
      · cases step
    | go =>
      simp only [Aftermath.step] at step
      split at step
      · cases step
      · cases step
        exact ⟨settling.pending,settling.empties⟩
    | complete i status =>
      simp only [Aftermath.step] at step
      split at step
      · cases step
        exact ⟨settling.pending,settling.empties⟩
      · cases step
    | timeout i =>
      simp only [Aftermath.step] at step
      split at step
      · cases step
        exact ⟨settling.pending,settling.empties⟩
      · cases step

theorem handlerRuns (r : Republisher) {i : Nat} {w : Waiter} (at_ : r.callbacks[i]? = some w) :
    ∃ a, After r a ∧ a.posted = r.callbacks.eraseIdx i ∧ a.empties = if w.call.isNone then 1 else 0 := by
  obtain ⟨a,before,still,posted,none_⟩ : ∃ a, After r a ∧ a.republisher.handling = none ∧
      a.posted = r.callbacks ∧ a.empties = 0 := by
    cases busy : r.handling with
    | none => exact ⟨r.destroy,.start rfl,busy,rfl,rfl⟩
    | some h =>
      refine ⟨{ r.destroy with republisher := { r.destroy.republisher with handling := none } },
        .step .go (.start rfl) ?_,rfl,rfl,rfl⟩
      simp only [Aftermath.step,Republisher.destroy,busy]
  refine ⟨{ a with posted := a.posted.eraseIdx i }.invoke w,.step (.run i) before ?_,?_,?_⟩
  · simp only [Aftermath.step,still,posted,at_]
  · unfold invoke
    split <;> simp [posted]
  · unfold invoke
    cases given : w.call <;> simp [none_]

end Aftermath

namespace Republisher
open Aftermath (After)

/-- Nothing is left in the air: no empty function is invoked, no callback twice, those with a
result of their publish have it, and in the end every callback has been invoked. -/
structure Settles (r : Republisher) : Prop where
  results : ∀ x ∈ r.invoked, (x.flight,x.status) ∈ r.completed
  once : ∀ a, After r a → ∀ n, a.aborted.count n + (r.invoked.map Invoked.call).count n ≤ 1
  all : ∀ a, After r a → a.posted = [] → ∀ n ∈ givenCalls r.calls,
    a.aborted.count n + (r.invoked.map Invoked.call).count n = 1
  sound : ∀ a, After r a → a.empties = 0

/-- Destroying a Republisher is safe exactly when there is no empty function in its list:
no placeholder of a publish that the timer has started, and none that a caller has given. -/
theorem destroyedSafely {r : Republisher} (h : Reached r) : Settles r ↔ ∀ w ∈ r.callbacks, w.call ≠ none := by
  have logged := (reachedKept h).logged
  have given (n : Nat) : (r.invoked.map Invoked.call).count n + (r.callbacks.filterMap Waiter.call).count n =
      (givenCalls r.calls).count n := by rw [← List.count_append,logged.order]
  have nodup : (givenCalls r.calls).Nodup := (givenCallsSorted r.calls).imp fun less => less.ne
  constructor
  · intro settles w mem null
    obtain ⟨i,at_⟩ := List.mem_iff_getElem?.mp mem
    obtain ⟨a,after,_,empties⟩ := Aftermath.handlerRuns r at_
    rw [settles.sound a after,null] at empties
    cases empties
  · intro full
    have none_ : Aftermath.nulls r.callbacks = 0 := List.countP_eq_zero.mpr fun w mem => by simpa using full w mem
    refine ⟨fun x mem => ?_,fun a after n => ?_,fun a after over_ n mem => ?_,fun a after => ?_⟩
    · obtain ⟨_,_,_,completed⟩ := logged.answers x mem
      exact completed
    · have pending := (Aftermath.afterSettling after).pending n
      have most := List.nodup_iff_count_le_one.mp nodup n
      have all := given n
      omega
    · have pending := (Aftermath.afterSettling after).pending n
      rw [over_,List.filterMap_nil,List.count_nil] at pending
      have one := List.count_eq_one_of_mem nodup mem
      have all := given n
      omega
    · have empties := (Aftermath.afterSettling after).empties
      omega

theorem destroyedSafelyThree : ∃ r, Reached r ∧ r.callbacks.length = 3 ∧ Settles r := by
  have run : ([.publish ⟨[97]⟩ true,.publish ⟨[98]⟩ true,.publish ⟨[99]⟩ true].foldlM step fresh).any (fun r =>
      decide (r.callbacks.length = 3) && r.callbacks.all (fun w => decide (w.call ≠ none))) =
        true := by decide +kernel
  obtain ⟨r,played,seen⟩ := Option.any_eq_true _ _ |>.mp run
  simp only [Bool.and_eq_true,decide_eq_true_eq,List.all_eq_true] at seen
  have reached := eventsReach (.start rfl) played
  exact ⟨r,reached,seen.1,(destroyedSafely reached).mpr seen.2⟩

theorem placeholderInvoked : ¬ ∀ r, Reached r → Settles r := by
  intro claim
  have run : ([.publish ⟨[97]⟩ true,.complete 0 (.ok ()),.go,.expire,.timeout 0].foldlM step fresh).any (fun r =>
      decide (r.callbacks[0]? = some ⟨1,none⟩)) = true := by decide +kernel
  obtain ⟨r,played,seen⟩ := Option.any_eq_true _ _ |>.mp run
  obtain ⟨a,after,_,empties⟩ := Aftermath.handlerRuns r (of_decide_eq_true seen)
  rw [(claim r (eventsReach (.start rfl) played)).sound a after] at empties
  cases empties

end Republisher
end IpfsCache
