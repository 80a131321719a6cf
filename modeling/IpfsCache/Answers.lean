import IpfsCache.Beside
import IpfsCache.Traffic
import Mathlib.Logic.Hydra

/-! Any run of a client's BTree: what its finds are answered with, and that they are. -/
namespace IpfsCache
open Node

namespace Traffic
section runs
variable {cfg : Config} {content : Hash → Option Value}

def Waits (cfg : Config) (content : Hash → Option Value) (s : Traffic) (f : Fetch) : Prop :=
  ∃ n h H, s.objects[f.object]? = some ⟨some n,h⟩ ∧ s.loaded[f.object]? = some H ∧ f.lookup.began = some H ∧
    Way f.lookup.key n H f.path ⟨[]⟩ f.hash ∧ BlockReach cfg content H f.hash

def Apart (f g : Fetch) : Prop := f.object = g.object → f.path ≠ g.path

def Sound (cfg : Config) (content : Hash → Option Value) (r : Reply) : Prop :=
  ∀ v, r.result = .ok v → r.lookup.key.isEmpty = false ∧
    ∃ H, r.lookup.began = some H ∧ StoredBelow cfg content H r.lookup.key v

structure Kept (cfg : Config) (content : Hash → Option Value) (s : Traffic) : Prop where
  lengths : s.loaded.length = s.objects.length
  sane : ∀ (j : Nat) (r : Root) (H : Hash), s.objects[j]? = some r → s.loaded[j]? = some H → Sane cfg content H r.node
  current : ∀ j, s.current = some j → ∃ r : Root, s.objects[j]? = some r ∧ s.loaded[j]? = some r.hash
  waits : ∀ f ∈ s.fetching, s.Waits cfg content f
  apart : s.fetching.Pairwise Apart
  sound : ∀ r ∈ s.served, Sound cfg content r

theorem Kept.goesOn {s : Traffic} (kept : s.Kept cfg content) {key : Key} {H : Hash} {j : Nat} {step : FindStep}
    (answer : ∀ v, step = .done (.ok v) → key.isEmpty = false ∧ StoredBelow cfg content H key v)
    (asks : ∀ path g, step = .cat path g → s.Waits cfg content ⟨⟨key,some H⟩,j,path,g⟩ ∧
      ∀ f ∈ s.fetching, f.object = j → path ≠ f.path) : (s.goesOn ⟨key,some H⟩ j step).Kept cfg content := by
  cases step with
  | done result =>
    refine { kept with sound := fun r mem => ?_ }
    rcases List.mem_append.mp mem with old | new
    · exact kept.sound r old
    · rw [List.mem_singleton.mp new]
      exact fun v same => ⟨(answer v (congrArg _ same)).1,H,rfl,(answer v (congrArg _ same)).2⟩
  | cat path g =>
    obtain ⟨waits,free⟩ := asks path g rfl
    refine { kept with waits := fun f mem => ?_, apart := ?_ }
    · rcases List.mem_append.mp mem with old | new
      · exact kept.waits f old
      · rw [List.mem_singleton.mp new]
        exact waits
    · refine List.pairwise_append.mpr ⟨kept.apart,List.pairwise_singleton ..,fun f mem f' mem' same => ?_⟩
      rw [List.mem_singleton.mp mem'] at same ⊢
      exact (free f mem same).symm

theorem Kept.worked {s : Traffic} (kept : s.Kept cfg content) {key : Key} {j : Nat} {x : Option Node} {h H : Hash}
    {but : List NodeId → Prop} {out : Option Node × FindStep} (at_ : s.objects[j]? = some ⟨x,h⟩)
    (loaded : s.loaded[j]? = some H) (others : ∀ f ∈ s.fetching, f.object = j → ¬ but f.path)
    (worked : Worked cfg content key H but x out) :
    ((s.put j (some ⟨out.1,h⟩)).goesOn ⟨key,some H⟩ j out.2).Kept cfg content := by
  have inside := (List.getElem?_eq_some_iff.mp at_).1
  have here : (s.objects.set j ⟨out.1,h⟩)[j]? = some ⟨out.1,h⟩ := List.getElem?_set_self inside
  have elsewhere {j' : Nat} (other : j ≠ j') : (s.objects.set j ⟨out.1,h⟩)[j']? = s.objects[j']? :=
    List.getElem?_set_ne other
  have beside {f : Fetch} (mem : f ∈ s.fetching) (same : f.object = j) :
      (∃ n, out.1 = some n ∧ Way f.lookup.key n H f.path ⟨[]⟩ f.hash) ∧ f.lookup.began = some H ∧
      BlockReach cfg content H f.hash ∧ ∀ path g, out.2 = .cat path g → path ≠ f.path := by
    obtain ⟨n,h',H',there,loaded',began,way,reach⟩ := kept.waits f mem
    cases (same ▸ there).symm.trans at_
    cases (same ▸ loaded').symm.trans loaded
    obtain ⟨found,apart⟩ := worked.beside _ _ _ n rfl way (others f mem same)
    exact ⟨found,began,reach,apart⟩
  refine Kept.goesOn ?_ worked.answer fun path g asks => ?_
  · refine ⟨?_,fun j' r H' at' loaded' => ?_,fun j' same => ?_,fun f mem => ?_,kept.apart,kept.sound⟩
    · exact kept.lengths.trans (List.length_set ..).symm
    · change (s.objects.set j ⟨out.1,h⟩)[j']? = some r at at'
      by_cases same : j = j'
      · subst same
        cases here.symm.trans at'
        cases loaded.symm.trans loaded'
        exact worked.sane
      · rw [elsewhere same] at at'
        exact kept.sane j' r H' at' loaded'
    · obtain ⟨r,at',loaded'⟩ := kept.current j' same
      by_cases hit : j = j'
      · subst hit
        cases at_.symm.trans at'
        exact ⟨_,here,loaded'⟩
      · exact ⟨r,(elsewhere hit).trans at',loaded'⟩
    · by_cases same : f.object = j
      · obtain ⟨⟨n,some_,way⟩,began,reach,_⟩ := beside mem same
        refine ⟨n,h,H,?_,same ▸ loaded,began,way,reach⟩
        rw [same,← some_]
        exact here
      · obtain ⟨n,h',H',there,rest⟩ := kept.waits f mem
        exact ⟨n,h',H',(elsewhere (Ne.symm same)).trans there,rest⟩
  · obtain ⟨reach,n,some_,way⟩ := worked.asks path g asks
    refine ⟨⟨n,h,H,?_,loaded,rfl,way,reach⟩,fun f mem same => (beside mem same).2.2.2 path g asks⟩
    rw [← some_]
    exact here

theorem fromFind (key : Key) (r : Root) : BTree.find key ⟨some r,[],false⟩ =
    (⟨some ⟨(BTree.lazyFind r.hash r.node key).1,r.hash⟩,[],false⟩,(BTree.lazyFind r.hash r.node key).2) := rfl

theorem Kept.find {s : Traffic} (kept : s.Kept cfg content) (key : Key) : (s.find key).Kept cfg content := by
  rw [Traffic.find]
  split
  · refine { kept with sound := fun r mem => ?_ }
    rcases List.mem_append.mp mem with old | new
    · exact kept.sound r old
    · rw [List.mem_singleton.mp new]
      exact fun v same => by cases same
  · rename_i j current
    obtain ⟨⟨x,h⟩,at_,loaded⟩ := kept.current j current
    have begun : Kept cfg content { s with begun := s.begun ++ [⟨key,some h⟩] } := { kept with }
    have worked := lazyFindWorked key (kept.sane j _ _ at_ loaded)
    rw [at_]
    exact begun.worked at_ loaded (fun _ _ _ => id) worked

theorem leftNode (s : Traffic) (k : Nat) : (s.left[k]?).map Root.node = (s.objects[k]?).map Root.node := by
  rw [left]
  split
  · rename_i j old current at_
    rw [current,Option.bind_some] at at_
    rw [List.getElem?_set]
    split
    · rename_i same
      subst same
      rw [if_pos (List.getElem?_eq_some_iff.mp at_).1,at_]
      rfl
    · rfl
  · rfl

theorem leftLength (s : Traffic) : s.left.length = s.objects.length := by
  rw [left]
  split
  · exact List.length_set
  · rfl

theorem Kept.load {s : Traffic} (kept : s.Kept cfg content) (hash : Hash) : (s.load hash).Kept cfg content := by
  rw [Traffic.load]
  split
  · exact kept
  · have long := s.leftLength
    have older {k : Nat} {H : Hash} (loaded : s.loaded[k]? = some H) : (s.loaded ++ [hash])[k]? = some H :=
      List.getElem?_append_left (List.getElem?_eq_some_iff.mp loaded).1 ▸ loaded
    refine ⟨?_,fun k r H at_ loaded => ?_,fun k same => ?_,fun f mem => ?_,kept.apart,kept.sound⟩
    · simp [long,kept.lengths]
    · by_cases old : k < s.left.length
      · rw [List.getElem?_append_left old] at at_
        rw [List.getElem?_append_left (by rw [kept.lengths,← long]; exact old)] at loaded
        have before := s.leftNode k
        rw [at_] at before
        obtain ⟨r',at',same⟩ := Option.map_eq_some_iff.mp before.symm
        rw [← same]
        exact kept.sane k r' H at' loaded
      · have new := (List.getElem?_append_right (Nat.le_of_not_lt old)).symm.trans at_
        rw [List.getElem?_singleton] at new
        split at new
        · cases new
          exact fun n same => by cases same
        · cases new
    · cases same
      refine ⟨⟨none,hash⟩,List.getElem?_concat_length,?_⟩
      rw [long,← kept.lengths]
      exact List.getElem?_concat_length
    · obtain ⟨n,h,H,at_,loaded,rest⟩ := kept.waits f mem
      have after := s.leftNode f.object
      rw [at_] at after
      obtain ⟨⟨x,h'⟩,at',same⟩ := Option.map_eq_some_iff.mp after
      cases same
      exact ⟨n,h',H,List.getElem?_append_left (List.getElem?_eq_some_iff.mp at').1 ▸ at',older loaded,rest⟩

theorem fromResume (cfg : Config) (key : Key) (data : Except ErrorCode Value) (path : List NodeId) (n : Node)
    (h : Hash) : BTree.resume cfg key data path ⟨some ⟨some n,h⟩,[],false⟩ =
      (⟨some ⟨some (n.resume cfg key data path).1,h⟩,[],false⟩,(n.resume cfg key data path).2) := rfl

theorem Kept.block {s : Traffic} (kept : s.Kept cfg content) {i : Nat} {f : Fetch} (at_ : s.fetching[i]? = some f)
    {data : Except ErrorCode Value} (serves : ∀ text, data = .ok text → content f.hash = some text) :
    (Traffic.block cfg data f { s with fetching := s.fetching.eraseIdx i }).Kept cfg content := by
  have taken := Reach.taken at_
  have inside : ∀ g ∈ s.fetching.eraseIdx i, g ∈ s.fetching := fun g => List.mem_of_mem_eraseIdx
  have apart := List.pairwise_cons.mp ((taken.pairwise_iff fun h same => (h same.symm).symm).mpr kept.apart)
  have rest : Kept cfg content { s with fetching := s.fetching.eraseIdx i } :=
    { kept with waits := fun g mem => kept.waits g (inside g mem), apart := apart.2 }
  rw [Traffic.block]
  split
  · refine { rest with sound := fun r mem => ?_ }
    rcases List.mem_append.mp mem with old | new
    · exact kept.sound r old
    · rw [List.mem_singleton.mp new]
      cases data <;> exact fun v same => by cases same
  · obtain ⟨n,h,H,there,loaded,began,way,reach⟩ := kept.waits f (List.mem_of_getElem? at_)
    obtain ⟨⟨key,_⟩,object,path,hash⟩ := f
    cases began
    have worked := resumeWorked (kept.sane _ _ _ there loaded) way reach serves
    rw [there]
    exact rest.worked there loaded (fun g mem same hit => apart.1 g mem same.symm hit.symm) worked

theorem stepCases {s s' : Traffic} {e : TrafficEvent} (step : Step cfg content s e s') :
    (∃ key, e = .find key ∧ s' = s.find key) ∨ (∃ hash, e = .load hash ∧ s' = s.load hash) ∨
    (∃ i data f, e = .block i data ∧ s.fetching[i]? = some f ∧
      (∀ text, data = .ok text → content f.hash = some text) ∧
      s' = Traffic.block cfg data f { s with fetching := s.fetching.eraseIdx i }) ∨
    e = .destroy ∧ s' = { s with destroyed := true, current := none } := by
  obtain ⟨serves,step⟩ := step
  cases e with
  | find key =>
    obtain ⟨_,same⟩ := Option.ite_none_left_eq_some.mp step
    exact .inl ⟨key,rfl,(Option.some.inj same).symm⟩
  | load hash =>
    obtain ⟨_,same⟩ := Option.ite_none_left_eq_some.mp step
    exact .inr (.inl ⟨hash,rfl,(Option.some.inj same).symm⟩)
  | block i data =>
    obtain ⟨f,at_,same⟩ := Option.map_eq_some_iff.mp step
    exact .inr (.inr (.inl ⟨i,data,f,rfl,at_,fun text => serves f text at_,same.symm⟩))
  | destroy =>
    obtain ⟨_,same⟩ := Option.ite_none_left_eq_some.mp step
    exact .inr (.inr (.inr ⟨rfl,(Option.some.inj same).symm⟩))

theorem reachedKept {s : Traffic} (run : s.Reached cfg content) : s.Kept cfg content := by
  refine Reach.invariant (fun s start => ?_) (fun s e s' kept step => ?_) run
  · cases start
    exact ⟨rfl,by simp [fresh],by simp [fresh],by simp [fresh],.nil,by simp [fresh]⟩
  · rcases stepCases step with ⟨key,_,rfl⟩ | ⟨hash,_,rfl⟩ | ⟨i,data,f,_,at_,serves,rfl⟩ | ⟨_,rfl⟩
    · exact kept.find key
    · exact kept.load hash
    · exact kept.block at_ serves
    · exact { kept with current := fun j same => by cases same }

def known (s : Traffic) : List Lookup := s.fetching.map Fetch.lookup ++ s.served.map Reply.lookup

theorem goesOnKnown (s : Traffic) (lookup : Lookup) (j : Nat) (step : FindStep) :
    (s.goesOn lookup j step).known.Perm (lookup :: s.known) := by
  cases step with
  | done result =>
    have last : (s.goesOn lookup j (.done result)).known = s.known ++ [lookup] := by simp [goesOn,known]
    rw [last]
    exact List.perm_append_singleton _ _
  | cat path g =>
    have between : (s.goesOn lookup j (.cat path g)).known =
        s.fetching.map Fetch.lookup ++ lookup :: s.served.map Reply.lookup := by simp [goesOn,known]
    rw [between]
    exact List.perm_middle

theorem goesOnBegun (s : Traffic) (lookup : Lookup) (j : Nat) (step : FindStep) :
    (s.goesOn lookup j step).begun = s.begun := by cases step <;> rfl

theorem putSame (j : Nat) (root : Option Root) (s : Traffic) :
    (s.put j root).begun = s.begun ∧ (s.put j root).known = s.known := by cases root <;> exact ⟨rfl,rfl⟩

theorem reachedKnown {s : Traffic} (run : s.Reached cfg content) : s.begun.Perm s.known := by
  refine Reach.invariant (I := fun s => s.begun.Perm s.known) (fun s start => ?_) (fun s e s' known step => ?_) run
  · cases start
    exact .nil
  · rcases stepCases step with ⟨key,_,rfl⟩ | ⟨hash,_,rfl⟩ | ⟨i,data,f,_,at_,_,rfl⟩ | ⟨_,rfl⟩
    · rw [Traffic.find]
      split
      · exact (List.perm_append_singleton _ _).trans
          ((known.cons _).trans (goesOnKnown s ⟨key,none⟩ 0 (.done (.error .notFound))).symm)
      · dsimp only
        rw [goesOnBegun,(putSame _ _ _).1]
        refine .trans ?_ (goesOnKnown _ _ _ _).symm
        rw [(putSame _ _ _).2]
        exact (List.perm_append_singleton _ _).trans (known.cons _)
    · rw [Traffic.load]
      split <;> exact known
    · have all : (f.lookup :: Traffic.known { s with fetching := s.fetching.eraseIdx i }).Perm s.known :=
        ((Reach.taken at_).map Fetch.lookup).append_right (s.served.map Reply.lookup)
      rw [Traffic.block]
      split
      · exact known.trans (all.symm.trans (goesOnKnown _ f.lookup 0 (.done (aborted data))).symm)
      · dsimp only
        rw [goesOnBegun,(putSame _ _ _).1]
        refine known.trans (all.symm.trans (.trans ?_ (goesOnKnown _ _ _ _).symm))
        rw [(putSame _ _ _).2]
    · exact known

/-- Finds in any number, roots loaded while they wait, blocks in any order or missing: every
find is answered once or still waits at the node that it has made, no two of them at the same
one, and a string it is answered with is stored under its key below the root it began to read. -/
theorem answersSound {s : Traffic} (run : s.Reached cfg content) :
    s.begun.Perm (s.fetching.map Fetch.lookup ++ s.served.map Reply.lookup) ∧
    (∀ r ∈ s.served, ∀ v, r.result = .ok v → r.lookup.key.isEmpty = false ∧
      ∃ H, r.lookup.began = some H ∧ StoredBelow cfg content H r.lookup.key v) ∧
    (∀ f ∈ s.fetching, s.Waits cfg content f) ∧ s.fetching.Pairwise Apart :=
  have kept := reachedKept run
  ⟨reachedKnown run,kept.sound,kept.waits,kept.apart⟩

def Delivered (cfg : Config) (content : Hash → Option Value) (s s' : Traffic) : Prop :=
  ∃ i data, Step cfg content s (.block i data) s'

def awaited (s : Traffic) : Multiset Hash := (s.fetching.map Fetch.hash : List Hash)

theorem resumeAsks {key : Key} {n : Node} {H g h : Hash} {path q : List NodeId} (way : Way key n H path ⟨[]⟩ g)
    {data : Except ErrorCode Value} (serves : ∀ text, data = .ok text → content g = some text)
    (asks : (resume cfg key data path n).2 = .cat q h) : Relation.TransGen (Refers cfg content) h g := by
  have below := (@fetchedBelow cfg content g key data serves).2
  rw [(resumeWay cfg data way).2.1] at asks
  rw [fetched] at below
  cases out : (resume cfg key data [] ⟨[]⟩).2 with
  | done result =>
    rw [out] at asks
    cases asks
  | cat path' g' =>
    rw [out] at asks below
    cases asks
    exact below

theorem blockAsks {s : Traffic} (kept : s.Kept cfg content) {i : Nat} {f : Fetch} (at_ : s.fetching[i]? = some f)
    {data : Except ErrorCode Value} (serves : ∀ text, data = .ok text → content f.hash = some text)
    (rest : List Fetch) :
    (Traffic.block cfg data f { s with fetching := rest }).fetching = rest ∨
    ∃ g, (Traffic.block cfg data f { s with fetching := rest }).fetching = rest ++ [g] ∧
      Relation.TransGen (Refers cfg content) g.hash f.hash := by
  rw [Traffic.block]
  split
  · exact .inl rfl
  · obtain ⟨n,h,H,there,_,_,way,_⟩ := kept.waits f (List.mem_of_getElem? at_)
    rw [there,fromResume]
    cases out : (resume cfg f.lookup.key data f.path n).2 with
    | done result => exact .inl rfl
    | cat q g => exact .inr ⟨⟨f.lookup,f.object,q,g⟩,rfl,resumeAsks way serves out⟩

theorem deliveredLess {s s' : Traffic} (kept : s.Kept cfg content) (step : Delivered cfg content s s') :
    Relation.CutExpand (Relation.TransGen (Refers cfg content)) s'.awaited s.awaited := by
  obtain ⟨i,data,step⟩ := step
  rcases stepCases step with ⟨_,event,_⟩ | ⟨_,event,_⟩ | ⟨_,_,f,event,at_,serves,rfl⟩ | ⟨event,_⟩ <;> cases event
  have whole : f.hash ::ₘ ((s.fetching.eraseIdx i).map Fetch.hash : Multiset Hash) = s.awaited :=
    Multiset.coe_eq_coe.mpr ((Reach.taken at_).map Fetch.hash)
  rw [← whole]
  have ends (rest : Multiset Hash) (t : Multiset Hash)
      (below : ∀ h ∈ t, Relation.TransGen (Refers cfg content) h f.hash) :
      Relation.CutExpand (Relation.TransGen (Refers cfg content)) (rest + t) (f.hash ::ₘ rest) := by
    refine ⟨t,f.hash,below,?_⟩
    rw [← Multiset.singleton_add,add_comm (rest + t),add_assoc]
  rcases blockAsks kept at_ serves (s.fetching.eraseIdx i) with none_ | ⟨g,more,below⟩
  · have less := ends ((s.fetching.eraseIdx i).map Fetch.hash : Multiset Hash) 0 (by simp)
    rw [add_zero] at less
    rwa [awaited,none_]
  · have less := ends ((s.fetching.eraseIdx i).map Fetch.hash : Multiset Hash) {g.hash}
      fun h mem => Multiset.mem_singleton.mp mem ▸ below
    rw [awaited,more]
    simpa only [List.map_append,List.map_cons,List.map_nil,← Multiset.coe_add,Multiset.coe_singleton] using less

theorem deliveriesEnd (acyclic : WellFounded (Refers cfg content)) {s : Traffic} (run : s.Reached cfg content) :
    Acc (fun after before => Delivered cfg content before after) s := by
  generalize measured : s.awaited = m
  induction m using acyclic.transGen.cutExpand.induction generalizing s with
  | _ m ih =>
    subst measured
    refine .intro s fun s' step => ?_
    obtain ⟨i,data,taken⟩ := id step
    exact ih _ (deliveredLess (reachedKept run) step) (run.step _ taken) rfl

theorem deliverable {s : Traffic} (waits : s.fetching ≠ []) : ∃ s', Delivered cfg content s s' := by
  obtain ⟨f,rest,same⟩ := List.exists_cons_of_ne_nil waits
  refine ⟨Traffic.block cfg (.error .notFound) f { s with fetching := s.fetching.eraseIdx 0 },0,.error .notFound,
    fun g text _ ok => (by cases ok),?_⟩
  rw [step,same]
  rfl

theorem deliveredBegun {s s' : Traffic} (step : Delivered cfg content s s') : s'.begun = s.begun := by
  obtain ⟨i,data,step⟩ := step
  rcases stepCases step with ⟨_,event,_⟩ | ⟨_,event,_⟩ | ⟨_,_,f,event,at_,_,rfl⟩ | ⟨event,_⟩ <;> cases event
  rw [Traffic.block]
  split
  · rfl
  · exact (goesOnBegun _ _ _ _).trans (putSame _ _ _).1

theorem deliveredAll {s s' : Traffic} (run : s.Reached cfg content)
    (steps : Relation.ReflTransGen (Delivered cfg content) s s') : s'.Reached cfg content ∧ s'.begun = s.begun := by
  induction steps with
  | refl => exact ⟨run,rfl⟩
  | tail _ last ih =>
    obtain ⟨i,data,step⟩ := id last
    exact ⟨ih.1.step _ step,(deliveredBegun last).trans ih.2⟩

/-- The blocks come one by one, each or its error to a find that waits for it. This cannot go
on for ever, and when it has to stop every find that was begun has been answered once. -/
theorem answersCome (acyclic : WellFounded (Refers cfg content)) {s : Traffic} (run : s.Reached cfg content) :
    Acc (fun after before => Delivered cfg content before after) s ∧
    ∀ s', Relation.ReflTransGen (Delivered cfg content) s s' → (∀ next, ¬ Delivered cfg content s' next) →
      s'.begun = s.begun ∧ s.begun.Perm (s'.served.map Reply.lookup) := by
  refine ⟨deliveriesEnd acyclic run,fun s' steps stuck => ?_⟩
  obtain ⟨run',begun⟩ := deliveredAll run steps
  have none_ : s'.fetching = [] := by
    by_contra waits
    obtain ⟨next,step⟩ := deliverable waits
    exact stuck next step
  have known := reachedKnown run'
  rw [begun,Traffic.known,none_] at known
  exact ⟨begun,known⟩

theorem workedAlive (s : Traffic) (j : Nat) (root : Option Root) (lookup : Lookup) (step : FindStep) :
    ((s.put j root).goesOn lookup j step).destroyed = s.destroyed := by cases step <;> cases root <;> rfl

def Going (cfg : Config) (content : Hash → Option Value) (s : Traffic) : Prop :=
  s.Reached cfg content ∧ s.destroyed = false

theorem Going.find {s : Traffic} (going : s.Going cfg content) (key : Key) : (s.find key).Going cfg content := by
  refine ⟨going.1.step (.find key) ⟨trivial,by simp [step,going.2]⟩,?_⟩
  rw [Traffic.find,← going.2]
  split
  · rfl
  · exact workedAlive _ _ _ _ _

theorem Going.load {s : Traffic} (going : s.Going cfg content) (hash : Hash) : (s.load hash).Going cfg content := by
  refine ⟨going.1.step (.load hash) ⟨trivial,by simp [step,going.2]⟩,?_⟩
  rw [Traffic.load,← going.2]
  split <;> rfl

end runs

def twoRoots : Traffic :=
  ((((fresh.load (letter 114)).find (letter 107)).find (letter 122)).load (letter 120)).find (letter 107)

theorem twoRootsGoing : twoRoots.Going (mockConfig 4) halfStore :=
  have started : fresh.Going (mockConfig 4) halfStore := ⟨.start rfl,rfl⟩
  ((((started.load _).find _).find _).load _).find _

theorem answersSoundMock : ∃ s : Traffic,
    ⟨⟨letter 107,some (letter 114)⟩,.ok (letter 118)⟩ ∈ s.served ∧ s.fetching.length = 1 ∧
    s.begun.Perm (s.fetching.map Fetch.lookup ++ s.served.map Reply.lookup) ∧
    (∀ r ∈ s.served, ∀ v, r.result = .ok v → r.lookup.key.isEmpty = false ∧
      ∃ H, r.lookup.began = some H ∧ StoredBelow (mockConfig 4) halfStore H r.lookup.key v) ∧
    (∀ f ∈ s.fetching, s.Waits (mockConfig 4) halfStore f) ∧ s.fetching.Pairwise Apart := by
  have run : (twoRoots.step (mockConfig 4) (.block 0 (.ok (nlohmann.dump halfReadable)))).any (fun s =>
      decide (⟨⟨letter 107,some (letter 114)⟩,.ok (letter 118)⟩ ∈ s.served) && decide (s.fetching.length = 1)) =
        true := by
    decide +kernel
  obtain ⟨s,step,seen⟩ := Option.any_eq_true _ _ |>.mp run
  simp only [Bool.and_eq_true,decide_eq_true_eq] at seen
  have hash : (twoRoots.fetching[0]?).map Fetch.hash = some (letter 114) := by decide +kernel
  have served : twoRoots.Served halfStore (.block 0 (.ok (nlohmann.dump halfReadable))) := fun f text at_ same => by
    rw [at_] at hash
    cases same
    rw [show f.hash = letter 114 from Option.some.inj hash]
    rfl
  exact ⟨s,seen.1,seen.2,answersSound (twoRootsGoing.1.step _ ⟨served,step⟩)⟩

theorem halfStoreAcyclic : WellFounded (Refers (mockConfig 4) halfStore) := by
  have bottom : Acc (Refers (mockConfig 4) halfStore) (letter 120) :=
    .intro _ fun child refers => absurd (halfStoreRefers refers).1 (by decide)
  exact ⟨fun hash => .intro hash fun child refers => (halfStoreRefers refers).2 ▸ bottom⟩

theorem answersComeMock :
    Acc (fun after before => Delivered (mockConfig 4) halfStore before after) twoRoots ∧
    ∀ s', Relation.ReflTransGen (Delivered (mockConfig 4) halfStore) twoRoots s' →
      (∀ next, ¬ Delivered (mockConfig 4) halfStore s' next) →
      s'.begun = twoRoots.begun ∧ twoRoots.begun.Perm (s'.served.map Reply.lookup) :=
  answersCome halfStoreAcyclic twoRootsGoing.1

end Traffic
end IpfsCache
