import Mathlib.Data.List.Basic

/-! Timers of an event loop. A wait is pending until the timer expires or is cancelled; its
handler is then ready, with success or with the abort, and runs at any later time. Neither
a cancellation nor a new expiry time recalls a handler that is ready. -/

structure Timer where
  pending : List Nat
  ready : List (Nat × Bool)
  armed : Nat
  duration : Nat
  deriving DecidableEq

namespace Timer

def fresh : Timer := ⟨[],[],0,0⟩

def settle (success : Bool) (t : Timer) : Timer :=
  { t with pending := [], ready := t.ready ++ t.pending.map (·,success) }

def cancel (t : Timer) : Timer := t.settle false
def expire (t : Timer) : Timer := t.settle true
def expiresFromNow (duration : Nat) (t : Timer) : Timer := { t.cancel with duration := duration }
def asyncWait (t : Timer) : Timer := { t with pending := t.pending ++ [t.armed], armed := t.armed + 1 }

def deliver (i : Nat) (t : Timer) : Timer := { t with ready := t.ready.eraseIdx i }

def Due (t : Timer) : Prop := 0 < t.armed ∧ (t.armed - 1 ∈ t.pending ∨ (t.armed - 1,true) ∈ t.ready)

theorem dueArmed (t : Timer) : t.asyncWait.Due := ⟨Nat.succ_pos _,.inl (by simp [asyncWait])⟩

theorem Due.expire {t : Timer} (due : t.Due) : t.expire.Due := by
  refine ⟨due.1,.inr ?_⟩
  rcases due.2 with pending | ready
  · exact List.mem_append_right _ (List.mem_map_of_mem pending)
  · exact List.mem_append_left _ ready

theorem Due.deliver {t : Timer} (due : t.Due) {i w : Nat} (at_ : t.ready[i]? = some (w,false)) :
    (t.deliver i).Due := by
  refine ⟨due.1,due.2.imp id fun ready => ?_⟩
  obtain ⟨j,same⟩ := List.mem_iff_getElem?.mp ready
  have apart : j ≠ i := fun here => by
    subst here
    cases at_.symm.trans same
  exact List.mem_eraseIdx_iff_getElem?.mpr ⟨j,apart,same⟩

end Timer
