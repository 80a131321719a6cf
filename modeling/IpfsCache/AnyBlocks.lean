import IpfsCache.Descent
import IpfsCache.Opened
import IpfsCache.MockStorage
import Mathlib.Logic.Relation
import Mathlib.Order.WellFoundedSet

/-! Finds over blocks of any content, whose child references do not go round in circles:
content addressing sees to that. A node in memory, filled in part or whole, has nothing
that is not in the block its hash stands for, however many finds have failed before. -/
namespace IpfsCache
open Node
open OrderedMap (Sorted)

section blocks
variable (cfg : Config) (content : Hash → Option Value)

def BlockMember (hash : Hash) (k : StdString) (v : Json) : Prop :=
  ∃ text members, content hash = some text ∧ cfg.json.parse text = some (.object members) ∧ (k,v) ∈ members

def Refers (child hash : Hash) : Prop :=
  ∃ k v, BlockMember cfg content hash k v ∧ restoreChild v = some child ∧ child.isEmpty = false

def BlockReach (root hash : Hash) : Prop :=
  Relation.ReflTransGen (fun hash child => Refers cfg content child hash) root hash

def StoredBelow (root : Hash) (key : Key) (value : Value) : Prop :=
  ∃ hash v, BlockReach cfg content root hash ∧ BlockMember cfg content hash key v ∧ restoreValue v = some value

def EntryOf (hash : Hash) (i : NodeId) (value : Value) (childHash : Hash) : Prop :=
  ∃ k v, BlockMember cfg content hash k v ∧ i = (if k.isEmpty then ⊤ else (k : NodeId)) ∧
    restoreValue v = some value ∧ restoreChild v = some childHash

inductive Came : Hash → Node → Prop
  | mk {hash : Hash} {es : Entries} (each : ∀ p ∈ es, EntryOf cfg content hash p.1 p.2.value p.2.childHash)
      (proper : ∀ p ∈ es, ∀ c, p.2.child = some c → p.2.childHash.isEmpty = false)
      (below : ∀ p ∈ es, ∀ c, p.2.child = some c → Came p.2.childHash c) : Came hash ⟨es⟩

end blocks

section came
variable {cfg : Config} {content : Hash → Option Value} {hash root : Hash} {key : Key}

theorem cameEmpty : Came cfg content hash ⟨[]⟩ := .mk (by simp) (by simp) (by simp)

theorem Came.put {pre post : Entries} {i : NodeId} {v : Value} {x : Option Node} {childHash : Hash} {c : Node}
    (came : Came cfg content hash ⟨pre ++ (i,⟨v,x,childHash⟩) :: post⟩) (some_ : childHash.isEmpty = false)
    (child : Came cfg content childHash c) : Came cfg content hash ⟨pre ++ (i,⟨v,some c,childHash⟩) :: post⟩ := by
  cases came with
  | mk each proper below =>
    have origin : EntryOf cfg content hash i v childHash := each (i,⟨v,x,childHash⟩) (by simp)
    refine .mk (fun p mem => ?_) (fun p mem d same => ?_) (fun p mem d same => ?_) <;>
      rcases OrderedMap.memReplace (i,(⟨v,x,childHash⟩ : Entry Node)) mem with rfl | old
    · exact origin
    · exact each p old
    · exact some_
    · exact proper p old d same
    · cases same
      exact child
    · exact below p old d same

theorem camePlacewise : Placewise (Came cfg content) where
  child x es p c came mem child := by
    cases came with
    | mk _ _ below => exact below p mem c child
  put x pre i v c hash post c' came filled := by
    have whole := came
    cases came with
    | mk _ proper _ => exact whole.put (proper (i,⟨v,some c,hash⟩) (by simp) c rfl) filled

theorem restoreLoopCame {members rest : List (StdString × Json)} {text : Value}
    (block : content hash = some text) (parsed : cfg.json.parse text = some (.object members))
    (inside : ∀ m ∈ rest, m ∈ members) : ∀ es : Entries,
      (∀ p ∈ es, p.2.child = none ∧ EntryOf cfg content hash p.1 p.2.value p.2.childHash) →
      ∀ p ∈ (restoreLoop rest es).1, p.2.child = none ∧ EntryOf cfg content hash p.1 p.2.value p.2.childHash := by
  induction rest with
  | nil => exact fun es all => all
  | cons m rest ih =>
    intro es all
    obtain ⟨k,v⟩ := m
    rw [restoreLoop]
    split
    · rename_i childHash value child_ value_
      refine ih (fun m mem => inside m (List.mem_cons_of_mem _ mem)) _ fun p mem => ?_
      rcases OrderedMap.memInsert mem with rfl | old
      · exact ⟨rfl,k,v,⟨text,members,block,parsed,inside _ List.mem_cons_self⟩,rfl,value_,child_⟩
      · exact all p old
    · exact all

theorem restoreCame (data : Except ErrorCode Value) (serves : ∀ text, data = .ok text → content hash = some text) :
    Came cfg content hash (restore cfg data ⟨[]⟩).1 := by
  cases data with
  | error ec => exact cameEmpty
  | ok text =>
    have block := serves text rfl
    have loop (members : List (StdString × Json)) (parsed : cfg.json.parse text = some (.object members)) :
        Came cfg content hash ⟨(restoreLoop members []).1⟩ := by
      have all := restoreLoopCame block parsed (fun _ => id) [] (by simp)
      exact .mk (fun p mem => (all p mem).2) (fun p mem c child => by simp [(all p mem).1] at child)
        fun p mem c child => by simp [(all p mem).1] at child
    rw [restore]
    split
    · exact cameEmpty
    · rename_i members parsed
      have here := loop members parsed
      split <;> rename_i same <;> rw [same] at here <;> exact here
    · exact cameEmpty
    · exact cameEmpty
    · exact cameEmpty

def StepBelow (cfg : Config) (content : Hash → Option Value) (key : Key) (hash : Hash) : FindStep → Prop
  | .done result => ∀ v, result = .ok v → StoredBelow cfg content hash key v
  | .cat _ g => Relation.TransGen (Refers cfg content) g hash

theorem StoredBelow.up {child : Hash} {v : Value} (stored : StoredBelow cfg content child key v)
    (refers : Refers cfg content child hash) : StoredBelow cfg content hash key v := by
  obtain ⟨h,j,reach,rest⟩ := stored
  exact ⟨h,j,reach.head refers,rest⟩

theorem findBelow (n : Node) : ∀ {hash : Hash}, Came cfg content hash n →
    Came cfg content hash (n.find key).1 ∧ StepBelow cfg content key hash (n.find key).2 := by
  induction n using Node.induct with
  | step es ih =>
    intro hash came
    cases at_ : OrderedMap.lowerBound (key : NodeId) es with
    | nil =>
      rw [findEnd at_]
      exact ⟨came,fun v same => by cases same⟩
    | cons p post =>
      obtain ⟨i,v,x,childHash⟩ := p
      have mem := lowerBoundMem at_
      have whole := came
      cases came with
      | mk each proper below =>
        obtain ⟨k,j,member,same,value,child⟩ := each _ mem
        by_cases here : i = key
        · subst here
          rw [findHere at_]
          refine ⟨whole,fun w found => ?_⟩
          cases found
          by_cases empty : k.isEmpty = true
          · simp [empty] at same
          · rw [if_neg empty] at same
            cases same
            exact ⟨hash,j,.refl,member,value⟩
        · rw [findDown at_ here]
          have cut := (cutOf at_).1
          cases x with
          | none =>
            by_cases empty : childHash.isEmpty = true
            · simp only [BTree.lazyFind,empty,if_true,FindStep.under]
              rw [← cut]
              exact ⟨whole,fun v same => by cases same⟩
            · have some_ : childHash.isEmpty = false := by simpa using empty
              simp only [BTree.lazyFind,empty,if_false,FindStep.under,Bool.false_eq_true]
              rw [cut] at whole
              exact ⟨whole.put some_ cameEmpty,.single ⟨k,j,member,child,some_⟩⟩
          | some c =>
            have some_ := proper _ mem c rfl
            have refers : Refers cfg content childHash hash := ⟨k,j,member,child,some_⟩
            obtain ⟨came',step⟩ := ih _ mem c rfl (below _ mem c rfl)
            rw [cut] at whole
            refine ⟨whole.put some_ came',?_⟩
            cases out : (c.find key).2 with
            | done result =>
              rw [out] at step
              simp only [BTree.lazyFind,Prod.map,id,out,FindStep.under]
              exact fun w found => (step w found).up refers
            | cat path g =>
              rw [out] at step
              simp only [BTree.lazyFind,Prod.map,id,out,FindStep.under]
              exact step.tail refers

theorem fetchedBelow (data : Except ErrorCode Value) (serves : ∀ text, data = .ok text → content hash = some text) :
    Came cfg content hash (fetched cfg key data).1 ∧ StepBelow cfg content key hash (fetched cfg key data).2 := by
  have restored := @restoreCame cfg _ _ data serves
  rw [fetched,resume]
  split
  · rename_i same
    rw [same] at restored
    exact ⟨restored,fun v same => by cases same⟩
  · rename_i same
    rw [same] at restored
    exact findBelow _ restored

def LoadedOver (cfg : Config) (content : Hash → Option Value) (root : Hash) (bt : BTree) : Prop :=
  bt.insertBuffer = [] ∧ ∃ x, bt.root = some ⟨x,root⟩ ∧ ∀ n, x = some n → Came cfg content root n

theorem reachBelow {g : Hash} (below : Relation.TransGen (Refers cfg content) g hash) :
    BlockReach cfg content hash g := by
  induction below using Relation.TransGen.head_induction_on with
  | single refers => exact .single refers
  | head refers _ ih => exact ih.tail refers

theorem StoredBelow.reach {h : Hash} {v : Value} (stored : StoredBelow cfg content h key v)
    (reach : BlockReach cfg content root h) : StoredBelow cfg content root key v := by
  obtain ⟨h',j,reach',rest⟩ := stored
  exact ⟨h',j,reach.trans reach',rest⟩

def Storage.Serves {σ : Type} (S : Storage σ) (content : Hash → Option Value) : Prop :=
  ∀ st hash text, (S.cat st hash).1 = .ok text → content hash = some text

section runs
variable {σ : Type} {S : Storage σ}

theorem finishBelow (acyclic : WellFounded (Refers cfg content)) (serves : S.Serves content) (g : Hash) :
    ∀ (bt : BTree) (n : Node) (path : List NodeId) (st : σ), bt.insertBuffer = [] → bt.root = some ⟨some n,root⟩ →
      Came cfg content root n → Way key n root path ⟨[]⟩ g → BlockReach cfg content root g →
      ∃ fuel result bt' st', BTree.finish cfg S key fuel (bt,.cat path g) st = some (result,bt',st') ∧
        LoadedOver cfg content root bt' ∧ ∀ v, result = .ok v → StoredBelow cfg content root key v := by
  induction g using acyclic.transGen.induction with
  | _ g ih =>
    intro bt n path st free at_ came way reach
    have data := serves st g
    obtain ⟨way',goes,put⟩ := resumeWay cfg (S.cat st g).1 way
    obtain ⟨fetched_,step⟩ := @fetchedBelow cfg _ _ key (S.cat st g).1 data
    have came' := put _ camePlacewise came fetched_
    have resumed := @resumeRoot cfg key _ _ bt at_ (S.cat st g).1 path
    cases out : fetched cfg key (S.cat st g).1 with
    | mk m next =>
      rw [out] at step
      rw [fetched] at out
      rw [out] at goes way'
      cases next with
      | done result =>
        refine ⟨1,result,{ bt with root := some ⟨some (n.resume cfg key (S.cat st g).1 path).1,root⟩ },
          (S.cat st g).2,?_, ⟨free,_,rfl,fun n same => ?_⟩,fun v same => (step v same).reach reach⟩
        · rw [BTree.finish,resumed,goes]
          rfl
        · cases same
          exact came'
      | cat path' g' =>
        have below := reach.trans (reachBelow step)
        obtain ⟨fuel,result,bt',st',run,rest⟩ := ih g' step
          { bt with root := some ⟨some (n.resume cfg key (S.cat st g).1 path).1,root⟩ } _ (path ++ path')
          (S.cat st g).2 free rfl came' (way'.trans (resumeHereWay out)) below
        exact ⟨fuel + 1,result,bt',st',by rw [BTree.finish,resumed,goes]; exact run,rest⟩

theorem findEnds (acyclic : WellFounded (Refers cfg content)) (serves : S.Serves content) (key : Key) {bt : BTree}
    (loaded : LoadedOver cfg content root bt) (st : σ) :
    ∃ fuel result bt' st', BTree.findAlone cfg S fuel key bt st = some (result,bt',st') ∧
      LoadedOver cfg content root bt' ∧ ∀ v, result = .ok v → StoredBelow cfg content root key v := by
  obtain ⟨free,x,at_,came⟩ := loaded
  have nothing : OrderedMap.find key bt.insertBuffer = none := by rw [free]; rfl
  cases x with
  | none =>
    by_cases empty : root.isEmpty = true
    · refine ⟨0,.error .notFound,{ bt with root := some ⟨none,root⟩ },st,?_,
        ⟨free,none,rfl,fun n same => by cases same⟩,fun v same => by cases same⟩
      simp only [BTree.findAlone,BTree.find,nothing,at_,BTree.lazyFind,empty,if_true]
      rfl
    · have run := @finishBelow cfg content _ key _ _ acyclic serves root
        { bt with root := some ⟨some ⟨[]⟩,root⟩ } ⟨[]⟩ [] st
        free rfl cameEmpty .here .refl
      simpa only [BTree.findAlone,BTree.find,nothing,at_,BTree.lazyFind,empty,if_false,Bool.false_eq_true] using run
  | some n =>
    obtain ⟨came',step⟩ := @findBelow cfg content key n _ (came n rfl)
    cases out : n.find key with
    | mk n' next =>
      rw [out] at came' step
      have looked : bt.find key = ({ bt with root := some ⟨some n',root⟩ },next) := by
        simp only [BTree.find,nothing,at_,BTree.lazyFind,out,Prod.map,id]
      cases next with
      | done result =>
        refine ⟨0,result,{ bt with root := some ⟨some n',root⟩ },st,?_,
          ⟨free,some n',rfl,fun n same => by cases same; exact came'⟩,step⟩
        rw [BTree.findAlone,looked]
        rfl
      | cat path g =>
        simpa only [BTree.findAlone,looked] using finishBelow acyclic serves g
          { bt with root := some ⟨some n',root⟩ } n'
          path st free rfl came' (findWay key n out) (reachBelow step)

theorem findEachMore {fuel fuel' : Nat} (more : fuel ≤ fuel') : ∀ {keys : List Key} {bt : BTree} {st : σ}
    {out : List (Except ErrorCode Value) × BTree × σ},
    BTree.findEach cfg S fuel keys bt st = some out → BTree.findEach cfg S fuel' keys bt st = some out := by
  intro keys
  induction keys with
  | nil => exact fun run => run
  | cons k keys ih =>
    intro bt st out run
    rw [BTree.findEach] at run ⊢
    split at run
    · cases run
    · rename_i result bt' st' found
      obtain ⟨tail,rest,same⟩ := Option.map_eq_some_iff.mp run
      rw [findMore more found]
      exact Option.map_eq_some_iff.mpr ⟨tail,ih rest,same⟩

theorem findsEnd (acyclic : WellFounded (Refers cfg content)) (serves : S.Serves content) (keys : List Key) :
    ∀ {bt : BTree} (st : σ), LoadedOver cfg content root bt →
    ∃ fuel results bt' st', BTree.findEach cfg S fuel keys bt st = some (results,bt',st') ∧
      List.Forall₂ (fun key result => ∀ v, result = .ok v → StoredBelow cfg content root key v) keys results := by
  induction keys with
  | nil => exact fun st _ => ⟨0,[],_,st,rfl,.nil⟩
  | cons k keys ih =>
    intro bt st loaded
    obtain ⟨fuel,result,bt₁,st₁,found,loaded₁,sound⟩ := findEnds acyclic serves k loaded st
    obtain ⟨fuel',results,bt',st',rest,sounds⟩ := ih st₁ loaded₁
    refine ⟨max fuel fuel',result :: results,bt',st',?_,.cons sound sounds⟩
    rw [BTree.findEach,findMore (Nat.le_max_left _ _) found]
    exact Option.map_eq_some_iff.mpr ⟨_,findEachMore (Nat.le_max_right _ _) rest,rfl⟩

/-- Finds one after another on a tree loaded with any root over any blocks end, each with
an error or with the string stored under exactly its key in some block below the root. -/
theorem anyBlocksSound (acyclic : WellFounded (Refers cfg content)) (serves : S.Serves content) (root : Hash)
    (st : σ) (keys : List Key) :
    ∃ fuel results bt' st', BTree.findEach cfg S fuel keys (BTree.fresh.load cfg S root st).1
        (BTree.fresh.load cfg S root st).2 = some (results,bt',st') ∧
      List.Forall₂ (fun key result => ∀ v, result = .ok v → StoredBelow cfg content root key v) keys results :=
  findsEnd acyclic serves keys _ ⟨rfl,none,rfl,fun n same => by cases same⟩

end runs
end came

theorem finiteAcyclic {cfg : Config} {content : Hash → Option Value} (finite : {hash | (content hash).isSome}.Finite)
    (acyclic : ∀ hash, ¬ Relation.TransGen (Refers cfg content) hash hash) : WellFounded (Refers cfg content) := by
  have there {child hash : Hash} (refers : Refers cfg content child hash) :
      hash ∈ {hash | (content hash).isSome} := by
    obtain ⟨_,_,⟨text,_,block,_,_⟩,_⟩ := refers
    simp [block]
  have order : IsStrictOrder Hash (Relation.TransGen (Refers cfg content)) :=
    { irrefl := acyclic, trans := fun _ _ _ => Relation.TransGen.trans }
  have stored := Set.wellFoundedOn_iff.mp (finite.wellFoundedOn (r := Relation.TransGen (Refers cfg content)))
  refine ⟨fun hash => ?_⟩
  induction hash using stored.induction with
  | _ hash ih =>
    refine .intro hash fun child refers => ?_
    by_cases mem : child ∈ {hash | (content hash).isSome}
    · exact ih child ⟨.single refers,mem,there refers⟩
    · exact .intro child fun _ below => absurd (there below) mem

def halfReadable : Json :=
  .object [(⟨[]⟩,.object [(childField,.string (letter 120))]),
    (letter 107,.object [(valueField,.string (letter 118))])]

def halfStore (hash : Hash) : Option Value :=
  if hash = letter 114 then some (nlohmann.dump halfReadable) else if hash = letter 120 then some ⟨[0]⟩ else none

theorem halfReadableBack : nlohmann.parse (nlohmann.dump halfReadable) = some halfReadable := by
  have field (f s : StdString) :
      Json.ObjectOver (fun _ => True) (Json.StringOver fun _ => True) (.object [(f,.string s)]) :=
    ⟨_,rfl,List.pairwise_singleton ..,List.forall_mem_singleton.mpr ⟨trivial,s,rfl,trivial⟩⟩
  have document : Json.NodeDocument (fun _ => True) halfReadable :=
    ⟨_,rfl,OrderedMap.sortedCons.mpr ⟨by simpa using StdString.emptyLess rfl,List.pairwise_singleton ..⟩,
      List.forall_mem_cons.mpr ⟨⟨trivial,field _ _⟩,List.forall_mem_singleton.mpr ⟨trivial,field _ _⟩⟩⟩
  exact JsonText.readDocumentBack document

theorem halfStoreRefers {m : Nat} {child hash : Hash} (refers : Refers (mockConfig m) halfStore child hash) :
    hash = letter 114 ∧ child = letter 120 := by
  obtain ⟨k,v,⟨text,members,block,parsed,mem⟩,child_,proper⟩ := refers
  unfold halfStore at block
  split at block
  · rename_i root
    refine ⟨root,?_⟩
    cases block
    cases halfReadableBack.symm.trans parsed
    rcases List.mem_cons.mp mem with same | mem
    · cases same
      exact (Option.some.inj child_).symm
    · cases List.mem_singleton.mp mem
      cases child_
      cases proper
  · split at block
    · cases block
      have none_ : (nlohmann.parse ⟨[0]⟩).isNone = true := by decide +kernel
      rw [show nlohmann.parse ⟨[0]⟩ = _ from parsed] at none_
      cases none_
    · cases block

def halfStorage : Storage Unit :=
  ⟨fun _ hash => ((halfStore hash).elim (.error .notFound) .ok,()),fun _ _ => (.error .operationAborted,()),
    fun _ _ => ()⟩

theorem anyBlocksSoundMock : ∃ fuel results bt' st',
    BTree.findEach (mockConfig 4) halfStorage fuel [letter 107,letter 122,letter 107]
      (BTree.fresh.load (mockConfig 4) halfStorage (letter 114) ()).1
      (BTree.fresh.load (mockConfig 4) halfStorage (letter 114) ()).2 = some (results,bt',st') ∧
    List.Forall₂ (fun key result => ∀ v, result = .ok v → StoredBelow (mockConfig 4) halfStore (letter 114) key v)
      [letter 107,letter 122,letter 107] results := by
  refine anyBlocksSound (finiteAcyclic ?_ fun hash around => ?_) (fun st hash text found => ?_) (letter 114) () _
  · refine (Set.toFinite {letter 114,letter 120}).subset fun hash there => ?_
    by_contra other
    simp only [Set.mem_insert_iff,Set.mem_singleton_iff,not_or] at other
    simp [halfStore,other.1,other.2] at there
  · obtain ⟨child,_,first⟩ := Relation.TransGen.tail'_iff.mp around
    obtain ⟨top,rest⟩ := Relation.TransGen.head'_iff.mp around
    have bottom := (halfStoreRefers rest.1).2
    have root := (halfStoreRefers first).1
    rw [root] at bottom
    exact absurd bottom (by decide)
  · simp only [halfStorage] at found
    cases block : halfStore hash with
    | none => rw [block] at found; cases found
    | some x => rw [block] at found; cases found; rfl

end IpfsCache
