import Mathlib.Data.List.Perm.Basic
import Mathlib.Logic.Basic

/-! The states a system of labelled steps can reach, and invariants of them. -/

inductive Reach {State Event : Type} (Start : State → Prop) (Step : State → Event → State → Prop) : State → Prop
  | start {s : State} (h : Start s) : Reach Start Step s
  | step {s s' : State} (e : Event) (before : Reach Start Step s) (h : Step s e s') : Reach Start Step s'

namespace Reach
variable {State Event : Type} {Start : State → Prop} {Step Step' : State → Event → State → Prop}
    {I J : State → Prop}

/-- What holds at the start and is kept by every step holds in every state reached. -/
theorem invariant (start : ∀ s, Start s → I s) (keep : ∀ s e s', I s → Step s e s' → I s') {s : State}
    (h : Reach Start Step s) : I s := by
  induction h with
  | start h => exact start _ h
  | step e _ h ih => exact keep _ e _ ih h

theorem invariantOver (known : ∀ s, Reach Start Step s → J s) (start : ∀ s, Start s → I s)
    (keep : ∀ s e s', J s → I s → Step s e s' → I s') {s : State} (h : Reach Start Step s) : I s := by
  induction h with
  | start h => exact start _ h
  | step e before h ih => exact keep _ e _ (known _ before) ih h

theorem mono {Start' : State → Prop} (starts : ∀ s, Start s → Start' s)
    (weaker : ∀ s e s', Step s e s' → Step' s e s')
    {s : State} (h : Reach Start Step s) : Reach Start' Step' s := by
  induction h with
  | start h => exact .start (starts _ h)
  | step e _ h ih => exact .step e ih (weaker _ _ _ h)

theorem project {State' Event' : Type} {Start' : State' → Prop} {Part : State' → Event' → State' → Prop}
    (part : State → State') (start : ∀ s, Start s → I s ∧ Start' (part s))
    (keep : ∀ s e s', I s → Step s e s' → I s' ∧ (part s' = part s ∨ ∃ e', Part (part s) e' (part s'))) {s : State}
    (h : Reach Start Step s) : I s ∧ Reach Start' Part (part s) := by
  induction h with
  | start h => exact ⟨(start _ h).1,.start (start _ h).2⟩
  | step e _ h ih =>
    obtain ⟨holds,stays | ⟨e',step⟩⟩ := keep _ e _ ih.1 h
    · exact ⟨holds,stays.symm ▸ ih.2⟩
    · exact ⟨holds,.step e' ih.2 step⟩

/-- What a schedule plays, a step for each of its acts, is a run; `J` is known of the acts
still to come and the state they start from. -/
theorem schedule {Act : Type} (play : List Act → State → Option State) (J : List Act → State → Prop)
    {acts : List Act} {s s' : State} (before : Reach Start Step s) (played : play acts s = some s') (known : J acts s)
    (stop : ∀ s, play [] s = some s)
    (go : ∀ a acts s s', J (a :: acts) s → play (a :: acts) s = some s' →
      ∃ e s₁, Step s e s₁ ∧ J acts s₁ ∧ play acts s₁ = some s') : Reach Start Step s' := by
  induction acts generalizing s with
  | nil =>
    cases (stop s).symm.trans played
    exact before
  | cons a acts ih =>
    obtain ⟨e,s₁,step,known',rest⟩ := go a acts s s' known played
    exact ih (before.step e step) rest known'

theorem events {step : State → Event → Option State} {es : List Event} {s s' : State}
    (before : Reach Start (fun s e s' => step s e = some s') s) (played : es.foldlM step s = some s') :
    Reach Start (fun s e s' => step s e = some s') s' := by
  refine before.schedule (fun es s => es.foldlM step s) (fun _ _ => True) played trivial
    (fun _ => rfl) fun e es s s' _ h => ?_
  obtain ⟨next,first,rest⟩ := Option.bind_eq_some_iff.mp h
  exact ⟨e,next,first,trivial,rest⟩

theorem replaced {A B : Type} {xs : List A} {i : Nat} {x : A} (at_ : xs[i]? = some x) (x' : A) (f : A → List B) :
    ((xs.set i x').flatMap f ++ f x).Perm (xs.flatMap f ++ f x') := by
  induction xs generalizing i with
  | nil => cases at_
  | cons y xs ih =>
    cases i with
    | zero =>
      cases at_
      simp only [List.set_cons_zero,List.flatMap_cons]
      refine List.perm_append_comm.trans ?_
      rw [List.append_assoc]
      exact List.perm_append_comm.append_left _
    | succ i =>
      simp only [List.set_cons_succ,List.flatMap_cons,List.append_assoc]
      exact (ih at_).append_left _

theorem modified {A : Type} {xs : List A} {i : Nat} {x : A} (at_ : xs[i]? = some x) (f : A → A) :
    xs.modify i f = xs.set i (f x) := by
  refine List.ext_getElem? fun k => ?_
  rw [List.getElem?_modify,List.getElem?_set]
  split
  · rename_i same
    rw [← same,at_]
    simp [(List.getElem?_eq_some_iff.mp at_).1]
  · cases xs[k]? <;> rfl

theorem taken {A : Type} {waiting : List A} {i : Nat} {a : A} (at_ : waiting[i]? = some a) :
    (a :: waiting.eraseIdx i).Perm waiting := by
  obtain ⟨less,same⟩ := List.getElem?_eq_some_iff.mp at_
  exact same ▸ List.getElem_cons_eraseIdx_perm less

end Reach
