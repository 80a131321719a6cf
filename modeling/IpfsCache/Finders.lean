import IpfsCache.RoundTrip
import IpfsCache.Lib.Reach

/-! Finds that run concurrently on one BTree. Each is a coroutine that runs until it ends
or waits for a block; the others meet what it has left in the tree. -/
namespace IpfsCache
open OrderedMap (Sorted)
open Node Entries

def Node.meetsEmpty (key : Key) : Node → Bool
  | ⟨[]⟩ => true
  | ⟨p :: es⟩ =>
    match at_ : OrderedMap.lowerBound (key : NodeId) (p :: es) with
    | [] => false
    | (i,e) :: _ =>
      if i = key then false
      else
        match child : e.child with
        | none => false
        | some c =>
          have := childSmaller (lowerBoundMem at_) child
          c.meetsEmpty key
termination_by n => sizeOf n

def BTree.meetsEmpty (key : Key) (bt : BTree) : Bool :=
  match bt.root with
  | some ⟨some n,_⟩ => n.meetsEmpty key
  | _ => false

structure Call where
  key : Key
  met : Bool
  deriving DecidableEq

structure Finder where
  call : Call
  asked : Nat
  path : List NodeId
  hash : Hash

structure Answered where
  call : Call
  asked : Nat
  result : Except ErrorCode Value
  deriving DecidableEq

def FindStep.waits (call : Call) (asked : Nat) : FindStep → List Finder
  | .done _ => []
  | .cat path hash => [⟨call,asked + 1,path,hash⟩]

def FindStep.returns (call : Call) (asked : Nat) : FindStep → List Answered
  | .done result => [⟨call,asked,result⟩]
  | .cat _ _ => []

structure Finders (World : Type) where
  tree : BTree
  world : World
  begun : List Call
  waiting : List Finder
  answered : List Answered

inductive Turn where
  | start (key : Key)
  | block (finder : Nat)

namespace Finders
variable {World : Type}

def loaded (cfg : Config) (S : Storage World) (hash : Hash) (world : World) : Finders World :=
  let out := BTree.load cfg S hash .fresh world
  ⟨out.1,out.2,[],[],[]⟩

def step (cfg : Config) (S : Storage World) (s : Finders World) : Turn → Option (Finders World)
  | .start key =>
    let call : Call := ⟨key,s.tree.meetsEmpty key⟩
    let out := s.tree.find key
    some ⟨out.1,s.world,s.begun ++ [call],s.waiting ++ out.2.waits call 0,s.answered ++ out.2.returns call 0⟩
  | .block i =>
    match s.waiting[i]? with
    | none => none
    | some f =>
      let data := S.cat s.world f.hash
      let out := s.tree.resume cfg f.call.key data.1 f.path
      some ⟨out.1,data.2,s.begun,s.waiting.eraseIdx i ++ out.2.waits f.call f.asked,
        s.answered ++ out.2.returns f.call f.asked⟩

def Step (cfg : Config) (S : Storage World) (s : Finders World) (t : Turn) (s' : Finders World) : Prop :=
  s.step cfg S t = some s'

def play (cfg : Config) (S : Storage World) : List Turn → Finders World → Option (Finders World)
  | [],s => some s
  | t :: turns,s => (s.step cfg S t).bind (play cfg S turns)

end Finders

theorem meetsEmptyAt {key : Key} {es post : Entries} {i : NodeId} {e : Entry Node}
    (at_ : OrderedMap.lowerBound (key : NodeId) es = (i,e) :: post) :
    meetsEmpty key ⟨es⟩ = true ↔ i ≠ key ∧ ∃ c, e.child = some c ∧ c.meetsEmpty key = true := by
  cases es with
  | nil => cases at_
  | cons p es =>
    rw [meetsEmpty]
    split
    · rename_i same
      cases at_.symm.trans same
    · rename_i same
      cases at_.symm.trans same
      by_cases hit : i = key
      · simp [hit]
      · rw [if_neg hit]
        split
        · rename_i null
          simp [null]
        · rename_i c child
          simp [child,hit]

theorem emptyEnds (key : Key) (n : Node) : n.meetsEmpty key = true → n.find key = (n,.done (.error .notFound)) := by
  induction n using Node.induct with
  | step es ih =>
    intro met
    cases at_ : OrderedMap.lowerBound (key : NodeId) es with
    | nil => exact findEnd at_
    | cons q post =>
      obtain ⟨i,v,x,hash⟩ := q
      obtain ⟨other,c,child,below⟩ := (meetsEmptyAt at_).mp met
      cases child
      have whole : OrderedMap.before (key : NodeId) es ++ (i,(⟨v,some c,hash⟩ : Entry Node)) :: post = es := by
        rw [← at_,OrderedMap.cut]
      rw [findDown at_ other]
      simp only [BTree.lazyFind,ih _ (lowerBoundMem at_) c rfl below,Prod.map_apply,id_eq,FindStep.under,whole]

theorem waitingMeets {key : Key} {T c : Node} {h g : Hash} {path : List NodeId} (way : Way key T h path c g) :
    ∀ (pend : List NodeId → Prop) (n : Node), SearchTree T → Seen pend (some n) T → pend path →
    n.meetsEmpty key = true := by
  induction way with
  | here =>
    intro pend n _ seen held
    cases seen with
    | waiting => simp [meetsEmpty]
    | read filled => exact absurd held filled
  | @down es post i v c c' x h g path at_ other below ih =>
    intro pend n tree seen held
    obtain ⟨whole,cut⟩ := cutOf at_
    have inside : (i,(⟨v,some c,x⟩ : Entry Node)) ∈ es := lowerBoundMem at_
    cases seen with
    | waiting _ free => exact absurd held (free _ (by simp))
    | @read p _ filled view =>
      have ordered := tree.ordered.here
      rw [whole] at ordered view
      rcases view.cutAt ordered cut with ⟨P₁,f,P₂,rfl,_,at',_,entry,_⟩ | ⟨_,_,none_⟩
      · have seenChild := entry.child c rfl
        obtain ⟨m,y⟩ := seenChild.there held
        rw [y] at seenChild
        exact (meetsEmptyAt at').mpr ⟨other,m,y,ih _ m (tree.child inside rfl) seenChild held⟩
      · cases none_

theorem sizePos (n : Node) : 0 < sizeOf n := by
  obtain ⟨es⟩ := n
  rw [Node.mk.sizeOf_spec]
  omega

section run
variable {World : Type} {cfg : Config} {S : Storage World} {h : Hash} {T : Node}

abbrev Right (T : Node) (x : Answered) : Prop :=
  x.result = answer (OrderedMap.find x.call.key T.flatten) ↔ x.call.key ∉ T.keys ∨ x.call.met = false

def Finder.OnWay (h : Hash) (T : Node) (f : Finder) : Prop :=
  f.call.met = false ∧ ∃ c, Way f.call.key T h f.path c f.hash ∧ f.asked + sizeOf c ≤ sizeOf T + 1

structure Waiting (h : Hash) (T : Node) (x : Option Node) (waiting : List Finder) : Prop where
  seen : Seen (fun q => q ∈ waiting.map Finder.path) x T
  onWay : ∀ f ∈ waiting, f.OnWay h T
  apart : (waiting.map Finder.path).Nodup

structure Finding (cfg : Config) (S : Storage World) (h : Hash) (T : Node) (s : Finders World) : Prop where
  tree : ∃ x, s.tree = ⟨some ⟨x,h⟩,[],false⟩ ∧ Waiting h T x s.waiting
  readable : Readable cfg S s.world h T
  right : ∀ x ∈ s.answered, x.asked ≤ sizeOf T ∧ Right T x
  accounted : s.begun.Perm (s.waiting.map Finder.call ++ s.answered.map Answered.call)

theorem Looked.keeps {pend : List NodeId → Prop} {rest : List Finder} (call : Call) (asked : Nat) {bound : Nat}
    {out : Option Node × FindStep}
    (looked : Looked pend call.key T h bound out) (pends : pend = fun q => q ∈ rest.map Finder.path)
    (clear : call.met = false)
    (few : asked + bound ≤ sizeOf T + 1) (some_ : 0 < bound) (onWay : ∀ f ∈ rest, f.OnWay h T)
    (apart : (rest.map Finder.path).Nodup) :
    Waiting h T out.1 (rest ++ out.2.waits call asked) ∧ ∀ x ∈ out.2.returns call asked, x.asked ≤ sizeOf T ∧
    Right T x := by
  subst pends
  cases looked with
  | found seen =>
    rw [show FindStep.waits call asked _ = [] from rfl,List.append_nil]
    refine ⟨⟨seen,onWay,apart⟩,fun x mem => ?_⟩
    cases List.mem_singleton.mp mem
    exact ⟨by dsimp only; omega,iff_of_true rfl (.inr clear)⟩
  | @asks x path c g way free smaller seen =>
    have fresh : path ∉ rest.map Finder.path := fun mem => free [] (by simpa using mem)
    refine ⟨⟨?_,fun f mem => ?_,?_⟩,fun x mem => by cases mem⟩
    · have paths : (fun q => q ∈ (rest ++ FindStep.waits call asked (.cat path g)).map Finder.path) =
          fun q => q ∈ rest.map Finder.path ∨ q = path := funext fun q => by
        rw [List.map_append,List.mem_append]
        exact congrArg _ (propext List.mem_singleton)
      exact paths ▸ seen
    · rcases List.mem_append.mp mem with old | new
      · exact onWay f old
      · cases List.mem_singleton.mp new
        exact ⟨clear,c,way,by dsimp only; omega⟩
    · rw [List.map_append,List.nodup_append']
      exact ⟨apart,List.nodup_singleton _,by simpa [FindStep.waits] using fresh⟩

theorem handOver {call : Call} {begun : List Call} {rest : List Finder} {answered : List Answered}
    (asked : Nat) (out : FindStep)
    (before : begun.Perm (call :: (rest.map Finder.call ++ answered.map Answered.call))) :
    begun.Perm ((rest ++ out.waits call asked).map Finder.call ++
    (answered ++ out.returns call asked).map Answered.call) := by
  refine before.trans ?_
  rw [List.map_append,List.map_append]
  cases out with
  | done result =>
    rw [show FindStep.waits call asked (.done result) = [] from rfl,List.map_nil,List.append_nil,
      ← List.append_assoc]
    exact (List.perm_append_singleton call _).symm
  | cat path hash =>
    rw [show FindStep.returns call asked (.cat path hash) = [] from rfl,List.map_nil,List.append_nil,
      List.append_assoc]
    exact List.perm_middle.symm

theorem findLooked {x : Option Node} (key : Key) :
    BTree.find key ⟨some ⟨x,h⟩,[],false⟩ = (⟨some ⟨(BTree.lazyFind h x key).1,h⟩,[],false⟩,
    (BTree.lazyFind h x key).2) := rfl

theorem resumeLooked {key : Key} {data : Except ErrorCode Value} {path : List NodeId} {n : Node} :
    BTree.resume cfg key data path ⟨some ⟨some n,h⟩,[],false⟩ =
      (⟨some ⟨some (n.resume cfg key data path).1,h⟩,[],false⟩,(n.resume cfg key data path).2) := rfl

theorem Finding.start (proper : h.isEmpty = false) (tree : SearchTree T) {s s' : Finders World}
    (finding : Finding cfg S h T s)
    (key : Key) (step : Finders.Step cfg S s (.start key) s') : Finding cfg S h T s' := by
  obtain ⟨bt,world,begun,waiting,answered⟩ := s
  obtain ⟨⟨x,same,seen,onWay,apart⟩,readable,right,accounted⟩ := finding
  cases same
  cases step
  rw [findLooked]
  have count (call : Call) : (begun ++ [call]).Perm
      (call :: (waiting.map Finder.call ++ answered.map Answered.call)) :=
    (List.perm_append_singleton call begun).trans (accounted.cons call)
  cases met : BTree.meetsEmpty key ⟨some ⟨x,h⟩,[],false⟩ with
  | true =>
    cases x with
    | none => cases met
    | some n =>
      have out : BTree.lazyFind h (some n) key = (some n,.done (.error .notFound)) := by
        rw [BTree.lazyFind,emptyEnds key n met]
        rfl
      rw [out]
      refine ⟨⟨_,rfl,?_⟩,readable,fun y mem => ?_,handOver 0 _ (count _)⟩
      · rw [show FindStep.waits _ 0 (.done _) = [] from rfl,List.append_nil]
        exact ⟨seen,onWay,apart⟩
      · rcases List.mem_append.mp mem with old | new
        · exact right y old
        · cases List.mem_singleton.mp new
          refine ⟨Nat.zero_le _,?_⟩
          simp only [Right,Node.keys,Bool.true_eq_false,or_false]
          rw [← OrderedMap.findNone tree.sorted]
          cases OrderedMap.find key T.flatten <;> simp [answer]
  | false =>
    rcases lazyFindLooks key T _ h x (sizeOf T + 1) tree (fun _ => proper) seen (by omega) (fun _ => by omega)
      with looked | ⟨path,c,g,way,held,_⟩
    · obtain ⟨waits,returns⟩ := Looked.keeps ⟨key,false⟩ 0 looked rfl rfl (by omega) (by omega) onWay apart
      exact ⟨⟨_,rfl,waits⟩,readable,fun y mem => (List.mem_append.mp mem).elim (right y) (returns y),
        handOver 0 _ (count _)⟩
    · obtain ⟨n,rfl⟩ := seen.there held
      refine absurd (waitingMeets way _ n tree seen held) ?_
      rw [show n.meetsEmpty key = false from met]
      decide

theorem Finding.goesOn (faithful : S.Faithful) (back : cfg.json.ParsesBack) (proper : h.isEmpty = false)
    (tree : SearchTree T)
    {s s' : Finders World} (finding : Finding cfg S h T s) (i : Nat) (step : Finders.Step cfg S s (.block i) s') :
    Finding cfg S h T s' := by
  obtain ⟨bt,world,begun,waiting,answered⟩ := s
  obtain ⟨⟨x,same,seen,onWay,apart⟩,readable,right,accounted⟩ := finding
  cases same
  simp only [Finders.Step,Finders.step] at step
  split at step
  · cases step
  · rename_i f at_
    cases step
    have inside : f ∈ waiting := List.mem_of_getElem? at_
    obtain ⟨clear,c,way,few⟩ := onWay f inside
    obtain ⟨own,stored⟩ := readable proper
    have data := (stored.way way own).1
    rw [show (S.cat world f.hash).1 = .ok (block cfg c) from data]
    obtain ⟨n,rfl⟩ := seen.there (List.mem_map_of_mem inside)
    have next := resumeLooks back utf8Usable way _ n tree stored seen (List.mem_map_of_mem inside)
    have pathsOrder := (Reach.taken at_).map Finder.path
    obtain ⟨alone,others⟩ := List.nodup_cons.mp (pathsOrder.nodup_iff.mpr apart)
    have paths : (fun q => q ∈ waiting.map Finder.path ∧ q ≠ f.path) = fun q =>
        q ∈ (waiting.eraseIdx i).map Finder.path :=
      funext fun q => propext (by
        rw [← pathsOrder.mem_iff,List.map_cons,List.mem_cons]
        constructor
        · exact fun ⟨mem,other⟩ => mem.resolve_left other
        · exact fun mem => ⟨.inr mem,fun same => alone (same ▸ mem)⟩)
    obtain ⟨waits,returns⟩ := Looked.keeps f.call f.asked next paths clear few (sizePos c)
      (fun g mem => onWay g (List.mem_of_mem_eraseIdx mem)) others
    refine ⟨⟨_,rfl,waits⟩,readable.mono (catHolds faithful world f.hash),
      fun y mem => (List.mem_append.mp mem).elim (right y) (returns y),?_⟩
    exact handOver f.asked _ (accounted.trans (((Reach.taken at_).map Finder.call).symm.append_right _))

end run

end IpfsCache
