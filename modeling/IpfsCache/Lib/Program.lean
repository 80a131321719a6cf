import Mathlib.Logic.Basic

/-! Programs that wait for replies. Between two requests a program computes on its
own; at a request it shows a view of the data it works on and continues from the
reply. The world that answers has a state of its own. -/

inductive Program (Request Reply View α : Type) where
  | done (result : α)
  | await (request : Request) (view : View) (next : Reply → Program Request Reply View α)

namespace Program
variable {Request Reply View View' α β World : Type}

def bind (f : α → Program Request Reply View' β) (v : View → View') :
    Program Request Reply View α → Program Request Reply View' β
  | done result => f result
  | await request view next => await request (v view) (fun reply => (next reply).bind f v)

def run (answer : World → Request → Reply × World) : Program Request Reply View α → World → α × World
  | done result,w => (result,w)
  | await request _ next,w => (next (answer w request).1).run answer (answer w request).2

def requests (answer : World → Request → Reply × World) : Program Request Reply View α → World → List Request
  | done _,_ => []
  | await request _ next,w => request :: (next (answer w request).1).requests answer (answer w request).2

/-- The weakest precondition: whatever the world may answer, every view shown meets `Shown`
and the result meets `Post`. -/
def Wp (Answers : World → Request → Reply → World → Prop) (Shown : World → View → Prop)
    (Post : World → α → Prop) : Program Request Reply View α → World → Prop
  | done result,w => Post w result
  | await request view next,w =>
    Shown w view ∧ ∀ reply w', Answers w request reply w' → (next reply).Wp Answers Shown Post w'

section rules
variable {Answers : World → Request → Reply → World → Prop} {Shown : World → View → Prop}
  {Post Post' : World → α → Prop}

theorem wpBind {Shown' : World → View' → Prop} {PostB : World → β → Prop} {v : View → View'}
    {f : α → Program Request Reply View' β} (views : ∀ w view, Shown w view → Shown' w (v view))
    (rest : ∀ w result, Post w result → (f result).Wp Answers Shown' PostB w)
    (p : Program Request Reply View α) : ∀ w, p.Wp Answers Shown Post w →
    (p.bind f v).Wp Answers Shown' PostB w := by
  induction p with
  | done result => exact fun w h => rest w result h
  | await request view next ih =>
    exact fun w h => ⟨views w view h.1,fun reply w' a => ih reply w' (h.2 reply w' a)⟩

theorem wpMono {Shown' : World → View → Prop} (views : ∀ w view, Shown w view → Shown' w view)
    (post : ∀ w result, Post w result → Post' w result) (p : Program Request Reply View α) :
    ∀ w, p.Wp Answers Shown Post w → p.Wp Answers Shown' Post' w := by
  induction p with
  | done result => exact fun w h => post w result h
  | await request view next ih =>
    exact fun w h => ⟨views w view h.1,fun reply w' a => ih reply w' (h.2 reply w' a)⟩

theorem wpAnd {Shown' : World → View → Prop} (p : Program Request Reply View α) :
    ∀ w, p.Wp Answers Shown Post w → p.Wp Answers Shown' Post' w →
      p.Wp Answers (fun w view => Shown w view ∧ Shown' w view)
      (fun w result => Post w result ∧ Post' w result) w := by
  induction p with
  | done result => exact fun w h h' => ⟨h,h'⟩
  | await request view next ih =>
    exact fun w h h' => ⟨⟨h.1,h'.1⟩,fun reply w' a => ih reply w' (h.2 reply w' a) (h'.2 reply w' a)⟩

theorem wpRun (answer : World → Request → Reply × World)
    (answers : ∀ w request, Answers w request (answer w request).1 (answer w request).2)
    (p : Program Request Reply View α) :
    ∀ w, p.Wp Answers Shown Post w → Post (p.run answer w).2 (p.run answer w).1 := by
  induction p with
  | done result => exact fun w h => h
  | await request view next ih => exact fun w h => ih _ _ (h.2 _ _ (answers w request))

theorem runKeeps (answer : World → Request → Reply × World) {I : World → Prop}
    (keep : ∀ w request, I w → I (answer w request).2) (p : Program Request Reply View α) :
    ∀ w, I w → I (p.run answer w).2 := by
  induction p with
  | done result => exact fun w h => h
  | await request view next ih => exact fun w h => ih _ _ (keep w request h)

theorem runBind {answer : World → Request → Reply × World} {v : View → View'}
    {f : α → Program Request Reply View' β} (p : Program Request Reply View α) (w : World) :
    (p.bind f v).run answer w = (f (p.run answer w).1).run answer (p.run answer w).2 := by
  induction p generalizing w with
  | done result => rfl
  | await request view next ih => exact ih _ _

theorem requestsBind {answer : World → Request → Reply × World} {v : View → View'}
    {f : α → Program Request Reply View' β} (p : Program Request Reply View α) (w : World) :
    (p.bind f v).requests answer w =
      p.requests answer w ++ (f (p.run answer w).1).requests answer (p.run answer w).2 := by
  induction p generalizing w with
  | done result => rfl
  | await request view next ih => exact congrArg (request :: ·) (ih _ _)

end rules

def Asks (Proper : Reply → Prop) (At : View → (Reply → Program Request Reply View α) → Prop) (Post : α → Prop) :
    Program Request Reply View α → Prop
  | done result => Post result
  | await _ view next => At view next ∧ ∀ reply, Proper reply → (next reply).Asks Proper At Post

theorem asksBind {Proper : Reply → Prop} {At : View → (Reply → Program Request Reply View α) → Prop}
    {At' : View' → (Reply → Program Request Reply View' β) → Prop} {Post : α → Prop} {Post' : β → Prop}
    {v : View → View'} {f : α → Program Request Reply View' β}
    (lift : ∀ view next, At view next → At' (v view) fun reply => (next reply).bind f v)
    (rest : ∀ result, Post result → (f result).Asks Proper At' Post')
    (p : Program Request Reply View α) : p.Asks Proper At Post → (p.bind f v).Asks Proper At' Post' := by
  induction p with
  | done result => exact rest result
  | await request view next ih => exact fun h => ⟨lift view next h.1,fun reply proper => ih reply (h.2 reply proper)⟩

def Later (next' next : Reply → Program Request Reply View α) : Prop :=
  ∃ reply request view, next reply = .await request view next'

theorem laterWellFounded : WellFounded (@Later Request Reply View α) := by
  have acc (p : Program Request Reply View α) :
      ∀ request view next, p = .await request view next → Acc Later next := by
    induction p with
    | done => exact fun _ _ _ same => by cases same
    | await request view next ih =>
      rintro _ _ _ ⟨⟩
      exact ⟨_,fun next' ⟨reply,request,view,same⟩ => ih reply request view next' same⟩
  exact ⟨fun next => ⟨_,fun next' ⟨reply,request,view,same⟩ => acc (next reply) request view next' same⟩⟩

end Program
