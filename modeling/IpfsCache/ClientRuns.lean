import IpfsCache.Client
import IpfsCache.Lib.Reach
import Mathlib.Algebra.BigOperators.Group.List.Basic
import Mathlib.Algebra.Order.BigOperators.Group.List
import Mathlib.Algebra.Order.Group.Nat

/-! What a client's databases and the callers that wait for an update go through, in every
interleaving of the client's calls, the coroutines and the posted handlers. -/
namespace IpfsCache

def ClientEvent.resumes (i : Nat) : ClientEvent → Prop
  | .begins j | .resolved j _ | .woken j => j = i
  | _ => False

namespace Client
variable {σ : Type} {json : JsonLib} {S : Storage σ} {s s' : Client σ} {e : ClientEvent}

inductive Moved (json : JsonLib) (S : Storage σ) (s : Client σ) : ClientEvent → Client σ → Prop
  | replaced (ipns : StdString) (alive : s.gone = false) :
      Moved json S s (.setIpns ipns) { s.destroyDb with dbs := s.destroyDb.dbs ++ [.make s.pathToRepo ipns] }
  | destroyed (alive : s.gone = false) : Moved json S s .destroy { s.destroyDb with gone := true }
  | waits {d : Downloader} (alive : s.gone = false) (at_ : s.dbs[s.current]? = some d) :
      Moved json S s .wait
        { s.put s.current (d.waits s.calls.length) with calls := s.calls ++ [⟨s.current,d.ids.length⟩] }
  | late {i : Nat} {d : Downloader} {e : ClientEvent} (own : e.resumes i) (at_ : s.dbs[i]? = some d)
      (gone_ : d.wasDestroyed = true) (phase : d.phase ≠ .ended) : Moved json S s e (s.put i d.returns)
  | begins {i : Nat} {d : Downloader} (at_ : s.dbs[i]? = some d) (here : d.wasDestroyed = false)
      (phase : d.phase = .spawned) : Moved json S s (.begins i)
        { s.put i (d.begins json S s.files s.world).1 with world := (d.begins json S s.files s.world).2 }
  | downloads {i : Nat} {d : Downloader} (outcome : Except ErrorCode StdString) (at_ : s.dbs[i]? = some d)
      (here : d.wasDestroyed = false) (phase : d.phase = .resolving) : Moved json S s (.resolved i outcome)
        { s.put i (d.downloads json S outcome s.files s.world).1 with
          files := (d.downloads json S outcome s.files s.world).2.1,
          world := (d.downloads json S outcome s.files s.world).2.2 }
  | wakes {i : Nat} {d : Downloader} (at_ : s.dbs[i]? = some d) (here : d.wasDestroyed = false)
      (phase : d.phase = .sleeping) : Moved json S s (.woken i) (s.put i { d with phase := .resolving })
  | runs {i j : Nat} {d : Downloader} {x : Nat × Status} (at_ : s.dbs[i]? = some d)
      (posted : d.db.posted[j]? = some x) :
      Moved json S s (.run i j) { s.put i (d.ran j) with invoked := s.invoked ++ [x] }

theorem moved (h : s.Step json S e s') : s.Moved json S e s' := by
  cases e with
  | setIpns ipns =>
    simp only [Step,step] at h
    split at h
    · cases h
    · cases h
      exact .replaced ipns (Bool.eq_false_of_not_eq_true ‹_›)
  | destroy =>
    simp only [Step,step] at h
    split at h
    · cases h
    · cases h
      exact .destroyed (Bool.eq_false_of_not_eq_true ‹_›)
  | wait =>
    simp only [Step,step] at h
    split at h
    · cases h
      exact .waits ‹_› ‹_›
    · cases h
  | begins i =>
    simp only [Step,step] at h
    split at h
    · split at h
      · rename_i phase
        split at h <;> cases h
        · exact .late rfl ‹_› ‹_› (by simp [phase])
        · exact .begins ‹_› (Bool.eq_false_of_not_eq_true ‹_›) phase
      · cases h
    · cases h
  | resolved i outcome =>
    simp only [Step,step] at h
    split at h
    · split at h
      · rename_i phase
        split at h <;> cases h
        · exact .late rfl ‹_› ‹_› (by simp [phase])
        · exact .downloads outcome ‹_› (Bool.eq_false_of_not_eq_true ‹_›) phase
      · cases h
    · cases h
  | woken i =>
    simp only [Step,step] at h
    split at h
    · split at h
      · rename_i phase
        split at h <;> cases h
        · exact .late rfl ‹_› ‹_› (by simp [phase])
        · exact .wakes ‹_› (Bool.eq_false_of_not_eq_true ‹_›) phase
      · cases h
    · cases h
  | run i j =>
    simp only [Step,step] at h
    split at h
    · split at h
      · cases h
        exact .runs ‹_› ‹_›
      · cases h
    · cases h

def held (d : Downloader) : List (Nat × Option Status) :=
  d.db.waiting.map (·,none) ++ d.db.posted.map fun x => (x.1,some x.2)

def places (s : Client σ) : List Nat := (s.dbs.flatMap held).map Prod.fst ++ s.invoked.map Prod.fst

/-- What a call has to do with where it is: it waits as long as there is no newer id; it is
answered with success when there is one, and with operation_aborted when there never was. -/
inductive Fits (d : Downloader) (c : WaitCall) : Option Status → Prop
  | waits (same : c.ids = d.ids.length) (here : d.wasDestroyed = false) : Fits d c none
  | succeeds (newer : c.ids < d.ids.length) : Fits d c (some (.ok ()))
  | aborted (same : c.ids = d.ids.length) (gone_ : d.wasDestroyed = true) :
      Fits d c (some (.error .operationAborted))

structure Goes (d d' : Downloader) : Prop where
  same : ∀ w, ((held d').map Prod.fst).count w = ((held d).map Prod.fst).count w
  answers : ∀ c status, Fits d c (some status) → Fits d' c (some status)
  holds : ∀ x ∈ held d', ∃ y ∈ held d, y.1 = x.1 ∧ ∀ c, Fits d c y.2 → Fits d' c x.2

theorem fitsSame {d d' : Downloader} (ids : d'.ids = d.ids) (gone_ : d'.wasDestroyed = d.wasDestroyed)
    {c : WaitCall} {x : Option Status} (fits : Fits d c x) : Fits d' c x := by
  cases fits with
  | waits same here => exact .waits (by rw [ids]; exact same) (gone_.trans here)
  | succeeds newer => exact .succeeds (by rw [ids]; exact newer)
  | aborted same here => exact .aborted (by rw [ids]; exact same) (gone_.trans here)

theorem goesSame {d d' : Downloader} (waiting : d'.db.waiting = d.db.waiting) (posted : d'.db.posted = d.db.posted)
    (ids : d'.ids = d.ids) (gone_ : d'.wasDestroyed = d.wasDestroyed) : Goes d d' := by
  have places_ : held d' = held d := by rw [held,held,waiting,posted]
  exact ⟨fun w => by rw [places_],fun _ _ => fitsSame ids gone_,
    fun x mem => ⟨x,places_ ▸ mem,rfl,fun _ => fitsSame ids gone_⟩⟩

theorem goesFlushed {d d' : Downloader} (status : Status) (waiting : d'.db.waiting = [])
    (posted : d'.db.posted = d.db.posted ++ d.db.waiting.map (·,status))
    (answers : ∀ c status, Fits d c (some status) → Fits d' c (some status))
    (flushed : ∀ c, Fits d c none → Fits d' c (some status)) : Goes d d' := by
  have there : held d' = d.db.posted.map (fun x => (x.1,some x.2)) ++ d.db.waiting.map (·,some status) := by
    rw [held,waiting,posted,List.map_append,List.map_map]
    rfl
  refine ⟨fun w => ?_,answers,fun x mem => ?_⟩
  · have names (s : Option Status) : (d.db.waiting.map (·,s)).map Prod.fst = d.db.waiting := by
      rw [List.map_map]
      exact List.map_id _
    rw [there,held,List.map_append,List.map_append,names,names,List.count_append,List.count_append,Nat.add_comm]
  · rw [there] at mem
    rcases List.mem_append.mp mem with mem | mem
    · obtain ⟨⟨w,old⟩,inside,rfl⟩ := List.mem_map.mp mem
      exact ⟨_,List.mem_append_right _ (List.mem_map_of_mem inside),rfl,fun c => answers c old⟩
    · obtain ⟨w,inside,rfl⟩ := List.mem_map.mp mem
      exact ⟨(w,none),List.mem_append_left _ (List.mem_map_of_mem inside),rfl,flushed⟩

theorem goesDownloads {d : Downloader} (here : d.wasDestroyed = false) (outcome : Except ErrorCode StdString)
    (files : Files) (world : σ) : Goes d (d.downloads json S outcome files world).1 := by
  cases outcome with
  | error ec => exact goesSame rfl rfl (List.append_nil _) rfl
  | ok id =>
    have more (c : WaitCall) (less : c.ids ≤ d.ids.length) : c.ids < (d.ids ++ [id]).length := by
      simp only [List.length_append,List.length_singleton]
      omega
    refine goesFlushed (.ok ()) rfl rfl (fun c status fits => ?_) fun c fits => ?_
    · cases fits with
      | succeeds newer => exact .succeeds (more c newer.le)
      | aborted _ gone_ =>
        rw [here] at gone_
        cases gone_
    · cases fits with
      | waits same _ => exact .succeeds (more c same.le)

theorem goesDestroy {d : Downloader} (here : d.wasDestroyed = false) : Goes d d.destroy := by
  refine goesFlushed (.error .operationAborted) rfl rfl (fun c status fits => ?_) fun c fits => ?_
  · cases fits with
    | succeeds newer => exact .succeeds newer
    | aborted _ gone_ =>
      rw [here] at gone_
      cases gone_
  · cases fits with
    | waits same _ => exact .aborted same rfl

theorem putAt {i : Nat} {d : Downloader} (at_ : s.dbs[i]? = some d) (d' : Downloader) (k : Nat) :
    (s.put i d').dbs[k]? = if i = k then some d' else s.dbs[k]? := by
  rw [put,List.getElem?_set]
  simp [(List.getElem?_eq_some_iff.mp at_).1]

theorem countPut {i : Nat} {d : Downloader} (at_ : s.dbs[i]? = some d) (d' : Downloader) (w : Nat) :
    (s.put i d').places.count w + ((held d).map Prod.fst).count w =
      s.places.count w + ((held d').map Prod.fst).count w := by
  have here := (Reach.replaced at_ d' fun d => (held d).map Prod.fst).count_eq w
  simp only [places,put,List.map_flatMap,List.count_append] at here ⊢
  omega

structure Callers (s : Client σ) : Prop where
  once : ∀ w, s.places.count w = if w < s.calls.length then 1 else 0
  holds : ∀ i d, s.dbs[i]? = some d → ∀ x ∈ held d, ∃ c, s.calls[x.1]? = some c ∧ c.db = i ∧ Fits d c x.2
  answered : ∀ x ∈ s.invoked, ∃ c d, s.calls[x.1]? = some c ∧ s.dbs[c.db]? = some d ∧ Fits d c (some x.2)

theorem Callers.of {s' : Client σ} (callers : s.Callers) (dbs : s'.dbs = s.dbs) (calls : s'.calls = s.calls)
    (invoked : s'.invoked = s.invoked) : s'.Callers := by
  have places_ : s'.places = s.places := by rw [places,dbs,invoked,places]
  exact ⟨by rw [places_,calls]; exact callers.once,by rw [dbs,calls]; exact callers.holds,
    by rw [dbs,calls,invoked]; exact callers.answered⟩

theorem Callers.nobody (callers : s.Callers) {i : Nat} {d : Downloader} (at_ : s.dbs[i]? = some d)
    (gone_ : d.wasDestroyed = true) : d.db.waiting = [] := by
  refine List.eq_nil_iff_forall_not_mem.mpr fun w mem => ?_
  obtain ⟨c,_,_,fits⟩ := callers.holds i d at_ (w,none) (List.mem_append_left _ (List.mem_map_of_mem mem))
  cases fits with
  | waits _ here =>
    rw [gone_] at here
    cases here

theorem Callers.answeredPut (callers : s.Callers) {i : Nat} {d : Downloader} (at_ : s.dbs[i]? = some d)
    (d' : Downloader) (answers : ∀ c status, Fits d c (some status) → Fits d' c (some status)) :
    ∀ x ∈ s.invoked, ∃ c d₁, s.calls[x.1]? = some c ∧ (s.put i d').dbs[c.db]? = some d₁ ∧ Fits d₁ c (some x.2) := by
  intro x mem
  obtain ⟨c,d₀,call,there,fits⟩ := callers.answered x mem
  refine ⟨c,if i = c.db then d' else d₀,call,?_,?_⟩
  · rw [putAt at_]
    split
    · rfl
    · exact there
  · split
    · rename_i same
      rw [← same,at_] at there
      cases there
      exact answers c x.2 fits
    · exact fits

theorem Callers.holdsPut (callers : s.Callers) {i : Nat} {d : Downloader} (at_ : s.dbs[i]? = some d)
    {d' : Downloader} (holds : ∀ x ∈ held d', ∃ c, s.calls[x.1]? = some c ∧ c.db = i ∧ Fits d' c x.2) :
    ∀ k d₁, (s.put i d').dbs[k]? = some d₁ →
      ∀ x ∈ held d₁, ∃ c, s.calls[x.1]? = some c ∧ c.db = k ∧ Fits d₁ c x.2 := by
  intro k d₁ at₁ x mem
  rw [putAt at_] at at₁
  split at at₁
  · rename_i same
    cases at₁
    exact same ▸ holds x mem
  · exact callers.holds k d₁ at₁ x mem

theorem Callers.put (callers : s.Callers) {i : Nat} {d : Downloader} (at_ : s.dbs[i]? = some d) (d' : Downloader)
    (goes : Goes d d') : (s.put i d').Callers := by
  refine ⟨fun w => ?_,callers.holdsPut at_ fun x mem => ?_,callers.answeredPut at_ d' goes.answers⟩
  · have counted := countPut at_ d' w
    rw [goes.same] at counted
    exact (Nat.add_right_cancel counted).trans (callers.once w)
  · obtain ⟨y,inside,name,fits⟩ := goes.holds x mem
    obtain ⟨c,call,own,before⟩ := callers.holds i d at_ y inside
    exact ⟨c,name ▸ call,own,fits c before⟩

structure Alive (s : Client σ) : Prop where
  some_ : s.current < s.dbs.length
  flags : ∀ i d, s.dbs[i]? = some d → (d.wasDestroyed = false ↔ i = s.current ∧ s.gone = false)

theorem Alive.at (alive : s.Alive) : ∃ d, s.dbs[s.current]? = some d ∧ d.wasDestroyed = s.gone := by
  refine ⟨_,List.getElem?_eq_getElem alive.some_,?_⟩
  have flag := alive.flags s.current _ (List.getElem?_eq_getElem alive.some_)
  cases gone_ : s.gone with
  | false => exact flag.mpr ⟨rfl,gone_⟩
  | true =>
    refine Bool.eq_true_of_not_eq_false fun here => ?_
    rw [(flag.mp here).2] at gone_
    cases gone_

theorem Alive.of {s' : Client σ} (alive : s.Alive) (dbs : s'.dbs = s.dbs) (gone_ : s'.gone = s.gone) : s'.Alive := by
  have current_ : s'.current = s.current := by rw [current,dbs,current]
  exact ⟨by rw [current_,dbs]; exact alive.some_,by rw [current_,dbs,gone_]; exact alive.flags⟩

theorem Alive.put (alive : s.Alive) {i : Nat} {d : Downloader} (at_ : s.dbs[i]? = some d) (d' : Downloader)
    (same : d'.wasDestroyed = d.wasDestroyed) : (s.put i d').Alive := by
  have long : (s.put i d').dbs.length = s.dbs.length := List.length_set
  have current_ : (s.put i d').current = s.current := by rw [current,long,current]
  refine ⟨by rw [current_,long]; exact alive.some_,fun k d₁ at₁ => ?_⟩
  rw [current_]
  rw [putAt at_] at at₁
  split at at₁
  · rename_i here
    cases at₁
    rw [same,← here]
    exact alive.flags i d at_
  · exact alive.flags k d₁ at₁

theorem destroyDbPut {d : Downloader} (at_ : s.dbs[s.current]? = some d) :
    s.destroyDb = s.put s.current d.destroy := by
  rw [destroyDb,Client.put,Reach.modified at_]

theorem Callers.destroyDb (callers : s.Callers) (alive : s.Alive) (here : s.gone = false) :
    s.destroyDb.Callers := by
  obtain ⟨d,at_,flag⟩ := alive.at
  rw [destroyDbPut at_]
  exact callers.put at_ _ (goesDestroy (flag.trans here))

theorem Alive.destroyed (alive : s.Alive) {k : Nat} {d : Downloader} (at_ : s.destroyDb.dbs[k]? = some d) :
    d.wasDestroyed = true := by
  obtain ⟨d₀,last,_⟩ := alive.at
  rw [destroyDbPut last,putAt last] at at_
  split at at_
  · cases at_
    rfl
  · rename_i other
    refine Bool.eq_true_of_not_eq_false fun here => other ?_
    exact ((alive.flags k d at_).mp here).1.symm

theorem Alive.step (alive : s.Alive) (moved : s.Moved json S e s') : s'.Alive := by
  have long : s.destroyDb.dbs.length = s.dbs.length := List.length_modify ..
  cases moved with
  | replaced ipns here =>
    refine ⟨by simp [current],fun k d at_ => ?_⟩
    rw [List.getElem?_append] at at_
    simp only [current,List.length_append,List.length_singleton,Nat.add_sub_cancel]
    split at at_
    · rename_i less
      rw [alive.destroyed at_]
      simp only [Bool.true_eq_false,false_iff,not_and]
      omega
    · rename_i most
      have same : k = s.destroyDb.dbs.length := by
        have := (List.getElem?_eq_some_iff.mp at_).1
        simp only [List.length_singleton] at this
        omega
      rw [same,Nat.sub_self] at at_
      cases at_
      exact ⟨fun _ => ⟨same,here⟩,fun _ => rfl⟩
  | destroyed here =>
    refine ⟨by simp only [current,long]; exact alive.some_,fun k d at_ => ?_⟩
    rw [alive.destroyed at_]
    simp
  | waits _ at_ => exact (alive.put at_ (Downloader.waits _ _) rfl).of rfl rfl
  | late _ at_ _ _ => exact alive.put at_ _ rfl
  | begins at_ _ _ => exact (alive.put at_ (Downloader.begins json S _ _ _).1 rfl).of rfl rfl
  | downloads outcome at_ _ _ => exact (alive.put at_ (Downloader.downloads json S outcome _ _ _).1 rfl).of rfl rfl
  | wakes at_ _ _ => exact alive.put at_ _ rfl
  | runs at_ _ => exact (alive.put at_ (Downloader.ran _ _) rfl).of rfl rfl

theorem Callers.waits (callers : s.Callers) {i : Nat} {d : Downloader} (at_ : s.dbs[i]? = some d)
    (here : d.wasDestroyed = false) :
    Callers { s.put i (d.waits s.calls.length) with calls := s.calls ++ [⟨i,d.ids.length⟩] } := by
  have fits_ {c : WaitCall} {x : Option Status} : Fits d c x → Fits (d.waits s.calls.length) c x :=
    fitsSame (show (d.waits s.calls.length).ids = d.ids from rfl) rfl
  have old {w : Nat} {c : WaitCall} (call : s.calls[w]? = some c) :
      (s.calls ++ [⟨i,d.ids.length⟩])[w]? = some c := by
    rw [List.getElem?_append_left (List.getElem?_eq_some_iff.mp call).1]
    exact call
  have new : (s.calls ++ [⟨i,d.ids.length⟩])[s.calls.length]? = some ⟨i,d.ids.length⟩ := by simp
  refine ⟨fun w => ?_,fun k d₁ at₁ x mem => ?_,fun x mem => ?_⟩
  · have counted := countPut at_ (d.waits s.calls.length) w
    have one : ((held (d.waits s.calls.length)).map Prod.fst).count w =
        ((held d).map Prod.fst).count w + if s.calls.length = w then 1 else 0 := by
      simp only [held,Downloader.waits,ClientDb.waitForDbUpdate,List.map_append,List.count_append,List.map_cons,
        List.map_nil,List.count_singleton,beq_iff_eq]
      omega
    have before := callers.once w
    rw [one,before] at counted
    change (s.put i (d.waits s.calls.length)).places.count w = _
    rw [List.length_append,List.length_singleton]
    split_ifs at counted ⊢ <;> omega
  · change (s.put i (d.waits s.calls.length)).dbs[k]? = some d₁ at at₁
    rw [putAt at_] at at₁
    split at at₁
    · rename_i same
      cases at₁
      simp only [held,Downloader.waits,ClientDb.waitForDbUpdate,List.map_append,List.map_cons,List.map_nil,
        List.mem_append,List.mem_singleton] at mem
      rcases mem with (mem | rfl) | mem
      · obtain ⟨c,call,own,fits⟩ := callers.holds i d at_ x (List.mem_append_left _ mem)
        exact ⟨c,old call,own.trans same,fits_ fits⟩
      · exact ⟨_,new,same,.waits rfl here⟩
      · obtain ⟨c,call,own,fits⟩ := callers.holds i d at_ x (List.mem_append_right _ mem)
        exact ⟨c,old call,own.trans same,fits_ fits⟩
    · obtain ⟨c,call,own,fits⟩ := callers.holds k d₁ at₁ x mem
      exact ⟨c,old call,own,fits⟩
  · obtain ⟨c,d₀,call,there,fits⟩ := callers.answeredPut at_ (d.waits s.calls.length) (fun _ _ => fits_) x mem
    exact ⟨c,d₀,old call,there,fits⟩

theorem Callers.runs (callers : s.Callers) {i j : Nat} {d : Downloader} {x : Nat × Status}
    (at_ : s.dbs[i]? = some d) (posted : d.db.posted[j]? = some x) :
    Callers { s.put i (d.ran j) with invoked := s.invoked ++ [x] } := by
  have fits_ {c : WaitCall} {x : Option Status} : Fits d c x → Fits (d.ran j) c x :=
    fitsSame (show (d.ran j).ids = d.ids from rfl) rfl
  have answered := callers.answeredPut at_ (d.ran j) fun _ _ => fits_
  refine ⟨fun w => ?_,callers.holdsPut at_ fun y mem => ?_,fun y mem => ?_⟩
  · have counted := countPut at_ (d.ran j) w
    have out := ((Reach.taken posted).map Prod.fst).count_eq w
    have names (l : List (Nat × Status)) : (l.map fun x => (x.1,some x.2)).map Prod.fst = l.map Prod.fst := by
      rw [List.map_map]
      rfl
    simp only [held,Downloader.ran,List.map_append,List.count_append,names] at counted
    simp only [List.map_cons,List.count_cons] at out
    have before := callers.once w
    rw [before] at counted
    have whole : ({ s.put i (d.ran j) with invoked := s.invoked ++ [x] } : Client σ).places.count w =
        (s.put i (d.ran j)).places.count w + if x.1 == w then 1 else 0 := by
      simp only [places,Client.put,List.map_append,List.count_append,List.map_cons,List.map_nil,List.count_singleton]
      omega
    rw [whole]
    change _ = if w < s.calls.length then 1 else 0
    simp only [Downloader.ran] at *
    omega
  · have inside : y ∈ held d := by
      rcases List.mem_append.mp mem with mem | mem
      · exact List.mem_append_left _ mem
      · obtain ⟨z,here,rfl⟩ := List.mem_map.mp mem
        exact List.mem_append_right _ (List.mem_map_of_mem (List.mem_of_mem_eraseIdx here))
    obtain ⟨c,call,own,fits⟩ := callers.holds i d at_ y inside
    exact ⟨c,call,own,fits_ fits⟩
  · rcases List.mem_append.mp mem with old | new
    · exact answered y old
    · cases List.mem_singleton.mp new
      obtain ⟨c,call,own,fits⟩ := callers.holds i d at_ (x.1,some x.2)
        (List.mem_append_right _ (List.mem_map.mpr ⟨x,List.mem_of_getElem? posted,rfl⟩))
      refine ⟨c,d.ran j,call,?_,fits_ fits⟩
      change (s.put i (d.ran j)).dbs[c.db]? = _
      rw [putAt at_,if_pos own.symm]

theorem Callers.step (callers : s.Callers) (alive : s.Alive) (moved : s.Moved json S e s') : s'.Callers := by
  cases moved with
  | replaced ipns here =>
    have closed := callers.destroyDb alive here
    refine ⟨fun w => ?_,fun k d at_ x mem => ?_,fun x mem => ?_⟩
    · have none_ : held (.make s.pathToRepo ipns) = [] := rfl
      have same := closed.once w
      simp only [places,List.flatMap_append,List.flatMap_singleton,none_,List.append_nil] at same ⊢
      exact same
    · rw [List.getElem?_append] at at_
      split at at_
      · exact closed.holds k d at_ x mem
      · have one : d = .make s.pathToRepo ipns := by
          have inside := List.mem_of_getElem? at_
          simpa using inside
        rw [one] at mem
        cases mem
    · obtain ⟨c,d,call,there,fits⟩ := closed.answered x mem
      exact ⟨c,d,call,List.getElem?_append_left (List.getElem?_eq_some_iff.mp there).1 ▸ there,fits⟩
  | destroyed here => exact ⟨(callers.destroyDb alive here).once,(callers.destroyDb alive here).holds,
      (callers.destroyDb alive here).answered⟩
  | waits here at_ =>
    obtain ⟨d₀,last,flag⟩ := alive.at
    cases last.symm.trans at_
    exact callers.waits at_ (flag.trans here)
  | late _ at_ _ _ => exact callers.put at_ _ (goesSame rfl rfl rfl rfl)
  | begins at_ _ _ =>
    exact (callers.put at_ (Downloader.begins json S _ _ _).1 (goesSame rfl rfl rfl rfl)).of rfl rfl rfl
  | downloads outcome at_ here _ => exact (callers.put at_ _ (goesDownloads here outcome _ _)).of rfl rfl rfl
  | wakes at_ _ _ => exact callers.put at_ _ (goesSame rfl rfl rfl rfl)
  | runs at_ posted => exact callers.runs at_ posted

theorem initialAlive (pathToRepo ipns : StdString) (files : Files) (world : σ) :
    (initial pathToRepo ipns files world).Alive := by
  refine ⟨Nat.one_pos,fun i d at_ => ?_⟩
  cases i with
  | zero =>
    cases at_
    exact ⟨fun _ => ⟨rfl,rfl⟩,fun _ => rfl⟩
  | succ i => cases at_

theorem initialCallers (pathToRepo ipns : StdString) (files : Files) (world : σ) :
    (initial pathToRepo ipns files world).Callers := by
  refine ⟨fun w => rfl,fun i d at_ x mem => ?_,fun x mem => by cases mem⟩
  cases i with
  | zero =>
    cases at_
    cases mem
  | succ i => cases at_

theorem reachedCallers (h : s.Reached json S) : s.Alive ∧ s.Callers := by
  refine Reach.invariant (I := fun s => s.Alive ∧ s.Callers) (fun s start => ?_)
    (fun s e s' inv step => ⟨inv.1.step (moved step),inv.2.step inv.1 (moved step)⟩) h
  obtain ⟨pathToRepo,ipns,files,world,rfl⟩ := start
  exact ⟨initialAlive ..,initialCallers ..⟩

def stage (d : Downloader) : List StdString × Bool := (d.ids,d.wasDestroyed)

def toRun (s : Client σ) : Nat := (s.dbs.map fun d => d.db.posted.length).sum

theorem ranLess {i : Nat} {d : Downloader} {x : Nat × Status} {rest : List (Nat × Status)}
    (at_ : s.dbs[i]? = some d) (posted : d.db.posted = x :: rest) :
    (s.put i (d.ran 0)).toRun + 1 = s.toRun := by
  obtain ⟨less,same⟩ := List.getElem?_eq_some_iff.mp at_
  have own : (s.dbs.map fun d => d.db.posted.length).set i d.db.posted.length =
      s.dbs.map fun d => d.db.posted.length := by
    rw [← same,← List.map_set,List.set_getElem_self]
  have before := List.sum_set (s.dbs.map fun d => d.db.posted.length) i d.db.posted.length
  have after := List.sum_set (s.dbs.map fun d => d.db.posted.length) i rest.length
  rw [own] at before
  rw [if_pos (by simpa using less)] at before after
  have long : d.db.posted.length = rest.length + 1 := by rw [posted]; rfl
  have whole : ((s.put i (d.ran 0)).dbs.map fun d => d.db.posted.length) =
      (s.dbs.map fun d => d.db.posted.length).set i rest.length := by
    simp [Client.put,List.map_set,Downloader.ran,posted]
  rw [toRun,toRun,whole,after,before,long]
  omega

theorem handlersRun (n : Nat) : ∀ s : Client σ, s.toRun = n → s.Reached json S →
    ∃ (es : List ClientEvent) (s' : Client σ),
      (∀ e ∈ es, ∃ i j, e = .run i j) ∧ es.foldlM (step json S) s = some s' ∧ s'.Reached json S ∧
      s'.calls = s.calls ∧ (∀ d ∈ s'.dbs, d.db.posted = []) ∧
      ∀ k : Nat, s'.dbs[k]?.map stage = s.dbs[k]?.map stage := by
  induction n with
  | zero =>
    intro s none_ reached
    refine ⟨[],s,by simp,rfl,reached,rfl,fun d mem => ?_,fun _ => rfl⟩
    exact List.length_eq_zero_iff.mp (List.sum_eq_zero_iff.mp none_ _ (List.mem_map_of_mem mem))
  | succ n ih =>
    intro s more reached
    obtain ⟨d,mem,some_⟩ : ∃ d ∈ s.dbs, d.db.posted ≠ [] := by
      by_contra none_
      push Not at none_
      have zero : s.toRun = 0 := List.sum_eq_zero_iff.mpr fun x mem => by
        obtain ⟨d,inside,rfl⟩ := List.mem_map.mp mem
        rw [none_ d inside]
        rfl
      omega
    obtain ⟨i,less,same⟩ := List.mem_iff_getElem.mp mem
    have at_ : s.dbs[i]? = some d := by rw [List.getElem?_eq_getElem less,same]
    obtain ⟨x,rest,posted⟩ := List.exists_cons_of_ne_nil some_
    have ran_ : s.step json S (.run i 0) = some { s.put i (d.ran 0) with invoked := s.invoked ++ [x] } := by
      simp only [step,at_,posted,List.getElem?_cons_zero]
    have fewer : ({ s.put i (d.ran 0) with invoked := s.invoked ++ [x] } : Client σ).toRun = n := by
      have less := ranLess at_ posted
      change (s.put i (d.ran 0)).toRun = n
      omega
    obtain ⟨es,s',runs,played,reached',calls,done_,stages⟩ := ih _ fewer (reached.step (.run i 0) ran_)
    refine ⟨ClientEvent.run i 0 :: es,s',List.forall_mem_cons.mpr ⟨⟨i,0,rfl⟩,runs⟩,?_,reached',calls,done_,fun k => ?_⟩
    · rw [List.foldlM_cons,ran_]
      exact played
    · rw [stages]
      change (s.put i (d.ran 0)).dbs[k]?.map stage = _
      rw [putAt at_]
      split
      · rename_i same
        rw [← same,at_]
        rfl
      · rfl

theorem Callers.due (callers : s.Callers) (ran : ∀ d ∈ s.dbs, d.db.posted = []) {w : Nat} {c : WaitCall}
    (call : s.calls[w]? = some c) : ∃ d, s.dbs[c.db]? = some d ∧
      ((s.invoked.map Prod.fst).count w = 1 ↔ c.ids < d.ids.length ∨ d.wasDestroyed = true) := by
  have once := callers.once w
  rw [if_pos (List.getElem?_eq_some_iff.mp call).1,places,List.count_append] at once
  by_cases answered : w ∈ s.invoked.map Prod.fst
  · obtain ⟨x,mem,rfl⟩ := List.mem_map.mp answered
    obtain ⟨c',d,call',there,fits⟩ := callers.answered x mem
    cases call.symm.trans call'
    have positive := List.count_pos_iff.mpr answered
    refine ⟨d,there,⟨fun _ => ?_,fun _ => by omega⟩⟩
    generalize x.2 = status at fits
    cases fits with
    | succeeds newer => exact .inl newer
    | aborted _ gone_ => exact .inr gone_
  · have none_ := List.count_eq_zero.mpr answered
    have waiting : w ∈ (s.dbs.flatMap held).map Prod.fst := List.count_pos_iff.mp (by omega)
    obtain ⟨x,mem,rfl⟩ := List.mem_map.mp waiting
    obtain ⟨d,there,here⟩ := List.mem_flatMap.mp mem
    obtain ⟨k,less,same⟩ := List.mem_iff_getElem.mp there
    have at_ : s.dbs[k]? = some d := by rw [List.getElem?_eq_getElem less,same]
    obtain ⟨c',call',rfl,fits⟩ := callers.holds k d at_ x here
    cases call.symm.trans call'
    refine ⟨d,at_,⟨fun one => by omega,fun closed => ?_⟩⟩
    have still : x.2 = none := by
      rcases List.mem_append.mp here with inside | inside
      · obtain ⟨_,_,rfl⟩ := List.mem_map.mp inside
        rfl
      · rw [ran d there] at inside
        cases inside
    rw [still] at fits
    cases fits with
    | waits same here =>
      rcases closed with newer | gone_
      · omega
      · rw [gone_] at here
        cases here

/-- Every call of wait_for_db_update is answered at most once, and, when the handlers in the
io_service have run, exactly if a new id has come to its database since or the database was
destroyed: with success in the first case, else with operation_aborted. -/
theorem waitsAnswered (h : s.Reached json S) :
    (∀ w, (s.invoked.map Prod.fst).count w ≤ 1) ∧
    (∀ x ∈ s.invoked, ∃ c d, s.calls[x.1]? = some c ∧ s.dbs[c.db]? = some d ∧
      (x.2 = .ok () ∧ c.ids < d.ids.length ∨
        x.2 = .error .operationAborted ∧ d.wasDestroyed = true ∧ c.ids = d.ids.length)) ∧
    ∃ (es : List ClientEvent) (s' : Client σ), (∀ e ∈ es, ∃ i j, e = .run i j) ∧ es.foldlM (step json S) s = some s' ∧
      (∀ d ∈ s'.dbs, d.db.posted = []) ∧ ∀ w c, s.calls[w]? = some c → ∃ d, s.dbs[c.db]? = some d ∧
        ((s'.invoked.map Prod.fst).count w = 1 ↔ c.ids < d.ids.length ∨ d.wasDestroyed = true) := by
  obtain ⟨alive,callers⟩ := reachedCallers h
  obtain ⟨es,s',runs,played,reached',calls,done_,stages⟩ := handlersRun _ s rfl h
  obtain ⟨_,after⟩ := reachedCallers reached'
  refine ⟨fun w => ?_,fun x mem => ?_,es,s',runs,played,done_,fun w c call => ?_⟩
  · have once := callers.once w
    rw [places,List.count_append] at once
    split at once <;> omega
  · obtain ⟨c,d,call,there,fits⟩ := callers.answered x mem
    refine ⟨c,d,call,there,?_⟩
    generalize x.2 = status at fits
    cases fits with
    | succeeds newer => exact .inl ⟨rfl,newer⟩
    | aborted same gone_ => exact .inr ⟨rfl,gone_,same⟩
  · obtain ⟨d',there,due⟩ := after.due done_ (calls ▸ call)
    have same := stages c.db
    rw [there] at same
    obtain ⟨d,here,equal⟩ := Option.map_eq_some_iff.mp same.symm
    have ids : d.ids = d'.ids := congrArg Prod.fst equal
    have flag : d.wasDestroyed = d'.wasDestroyed := congrArg Prod.snd equal
    exact ⟨d,here,by rw [ids,flag]; exact due⟩

def twoCallers : List ClientEvent :=
  [.wait,.begins 0,.resolved 0 (.ok Downloads.someCid),.wait,.setIpns (letter 98),.woken 0,.run 0 0,.run 0 0]

theorem waitsAnsweredTwo : ∃ s : Client MockStorage,
    s.invoked = [(0,.ok ()),(1,.error .operationAborted)] ∧
    (∀ w, (s.invoked.map Prod.fst).count w ≤ 1) ∧
    (∀ x ∈ s.invoked, ∃ c d, s.calls[x.1]? = some c ∧ s.dbs[c.db]? = some d ∧
      (x.2 = .ok () ∧ c.ids < d.ids.length ∨
        x.2 = .error .operationAborted ∧ d.wasDestroyed = true ∧ c.ids = d.ids.length)) ∧
    ∃ (es : List ClientEvent) (s' : Client MockStorage), (∀ e ∈ es, ∃ i j, e = .run i j) ∧
      es.foldlM (step nlohmann MockStorage.storage) s = some s' ∧
      (∀ d ∈ s'.dbs, d.db.posted = []) ∧ ∀ w c, s.calls[w]? = some c → ∃ d, s.dbs[c.db]? = some d ∧
        ((s'.invoked.map Prod.fst).count w = 1 ↔ c.ids < d.ids.length ∨ d.wasDestroyed = true) := by
  have run : (twoCallers.foldlM (step nlohmann MockStorage.storage)
      (initial (letter 114) (letter 97) ⟨fun _ => none,fun _ => true⟩ .empty)).any (fun s =>
        decide (s.invoked = [(0,.ok ()),(1,.error .operationAborted)])) = true := by
    decide +kernel
  obtain ⟨s,played,invoked⟩ := Option.any_eq_true _ _ |>.mp run
  exact ⟨s,of_decide_eq_true invoked,waitsAnswered (Reach.events (.start ⟨_,_,_,_,rfl⟩) played)⟩

end Client
end IpfsCache
