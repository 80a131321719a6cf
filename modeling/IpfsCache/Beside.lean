import IpfsCache.AnyBlocks
import IpfsCache.Suspended

/-! A find changes the tree where its own way leads. Another find that waits still has its
way to the empty node it has made, and no two wait for the same node. -/
namespace IpfsCache
open OrderedMap (Sorted)
open Node

section frames
variable {cfg : Config} {key key' : Key} {H g g' : Hash} {path path' : List NodeId}

theorem entrySame {es : Entries} {i : NodeId} {e e' : Entry Node} (sorted : Sorted es) (mem : (i,e) ∈ es)
    (mem' : (i,e') ∈ es) : e = e' := by
  have first := (OrderedMap.findSome sorted).mpr mem
  rw [(OrderedMap.findSome sorted).mpr mem'] at first
  exact (Option.some.inj first).symm

theorem wayNowhere (way : Way key ⟨[]⟩ H path ⟨[]⟩ g) : path = [] := by
  cases way with
  | here => rfl
  | down at_ => cases at_

theorem wayApart {pre post : Entries} {i : NodeId} {e : Entry Node} {x : Option Node}
    (sorted : Sorted (pre ++ (i,e) :: post)) (way : Way key' ⟨pre ++ (i,e) :: post⟩ H path' ⟨[]⟩ g')
    (through : ∀ c q, e.child = some c → path' = i :: q → Way key' c e.childHash q ⟨[]⟩ g' →
      ∃ c', x = some c' ∧ Way key' c' e.childHash q ⟨[]⟩ g') :
    Way key' ⟨pre ++ (i,{ e with child := x }) :: post⟩ H path' ⟨[]⟩ g' := by
  let exchange (p : NodeId × Entry Node) : NodeId × Entry Node := if p.1 = i then (i,{ e with child := x }) else p
  have kept : ∀ p, (exchange p).1 = p.1 := fun p => by
    by_cases same : p.1 = i
    · simp only [exchange,same,if_true]
    · simp only [exchange,same,if_false]
  have apart := OrderedMap.keysNodup sorted
  simp only [OrderedMap.keys,List.map_append,List.map_cons,List.nodup_append,List.nodup_cons,List.mem_map] at apart
  have others (l : Entries) (free : ∀ p ∈ l, p.1 ≠ i) : l.map exchange = l :=
    (List.map_congr_left fun p mem => by simp only [exchange,free p mem,if_false,id]).trans (List.map_id l)
  have whole : (pre ++ (i,e) :: post).map exchange = pre ++ (i,{ e with child := x }) :: post := by
    rw [List.map_append,List.map_cons,others pre,others post]
    · simp only [exchange,if_true]
    · rintro p mem rfl
      exact apart.2.1.1 ⟨p,mem,rfl⟩
    · rintro p mem same
      exact apart.2.2 p.1 ⟨p,mem,rfl⟩ i List.mem_cons_self same
  generalize same : (⟨pre ++ (i,e) :: post⟩ : Node) = n at way
  cases way with
  | here => cases pre <;> cases same
  | @down es rest j v c _ y _ _ q at_ other below =>
    cases same
    have moved := OrderedMap.lowerBoundMap exchange kept (key' : NodeId) (pre ++ (i,e) :: post)
    rw [at_,whole,List.map_cons] at moved
    by_cases here : j = i
    · subst here
      cases entrySame sorted (List.mem_append_right pre List.mem_cons_self) (lowerBoundMem at_)
      obtain ⟨c',rfl,below'⟩ := through c q rfl rfl below
      simp only [exchange,if_true] at moved
      exact .down moved other below'
    · simp only [exchange,here,if_false] at moved
      exact .down moved other below

theorem findApart (key : Key) (n : Node) : ∀ {H : Hash} {path' : List NodeId}, Ordered n →
    Way key' n H path' ⟨[]⟩ g' →
      Way key' (n.find key).1 H path' ⟨[]⟩ g' ∧ ∀ path g, (n.find key).2 = .cat path g → path ≠ path' := by
  induction n using Node.induct with
  | step es ih =>
    intro H path' ordered way
    cases at_ : OrderedMap.lowerBound (key : NodeId) es with
    | nil =>
      rw [findEnd at_]
      exact ⟨way,fun path g same => by cases same⟩
    | cons p post =>
      obtain ⟨i,v,x,hash⟩ := p
      by_cases hit : i = key
      · subst hit
        rw [findHere at_]
        exact ⟨way,fun path g same => by cases same⟩
      · rw [findDown at_ hit]
        have mem := lowerBoundMem at_
        have cut := (cutOf at_).1
        have sorted := ordered.here
        have inside : ∀ q, Way key' ⟨es⟩ H (i :: q) ⟨[]⟩ g' → ∃ c, x = some c ∧ Way key' c hash q ⟨[]⟩ g' := by
          intro q way
          cases way with
          | down at' other below =>
            cases entrySame sorted mem (lowerBoundMem at')
            exact ⟨_,rfl,below⟩
        cases x with
        | none =>
          have past : path' = [] ∨ ∃ j q, path' = j :: q ∧ j ≠ i := by
            cases path' with
            | nil => exact .inl rfl
            | cons j q =>
              refine .inr ⟨j,q,rfl,?_⟩
              rintro rfl
              obtain ⟨c,none_,_⟩ := inside q way
              cases none_
          rw [cut] at way sorted
          refine ⟨wayApart sorted way fun c q child => (by cases child),fun path g asks => ?_⟩
          by_cases empty : hash.isEmpty = true
          · simp only [BTree.lazyFind,empty,if_true,FindStep.under,reduceCtorEq] at asks
          · simp only [BTree.lazyFind,empty,if_false,FindStep.under,FindStep.cat.injEq,Bool.false_eq_true] at asks
            rintro rfl
            rcases past with none_ | ⟨j,q,same,other⟩
            · cases asks.1.trans none_
            · exact other (List.cons.inj (asks.1.trans same)).1.symm
        | some c =>
          have below (q : List NodeId) (way : Way key' c hash q ⟨[]⟩ g') :=
            ih _ mem c rfl (ordered.child mem rfl) way
          have far (q : List NodeId) (same : path' = i :: q) : Way key' c hash q ⟨[]⟩ g' := by
            obtain ⟨c',here,way'⟩ := inside q (same ▸ way)
            cases here
            exact way'
          have way' := way
          rw [cut] at way' sorted
          refine ⟨wayApart sorted way' fun c' q child same way => ?_,fun path g asks => ?_⟩
          · cases child
            exact ⟨_,rfl,(below q way).1⟩
          · change (c.find key).2.under i = .cat path g at asks
            cases out : (c.find key).2 with
            | done result => rw [out] at asks; cases asks
            | cat q h =>
              rw [out] at asks
              cases asks
              rintro rfl
              exact (below q (far q rfl)).2 q _ out rfl

theorem resumeApart (cfg : Config) (data : Except ErrorCode Value) {n m : Node} (way : Way key n H path m g) :
    ∀ {path' : List NodeId}, m = ⟨[]⟩ → Ordered n → Way key' n H path' ⟨[]⟩ g' → path' ≠ path →
      Way key' (resume cfg key data path n).1 H path' ⟨[]⟩ g' ∧
      ∀ q h, (resume cfg key data path n).2 = .cat q h → q ≠ path' := by
  induction way with
  | here =>
    rintro path' rfl _ other apart
    exact absurd (wayNowhere other) apart
  | @down es post i v c c' x h g path at_ hit below ih =>
    rintro path' rfl ordered other apart
    obtain ⟨whole,cut⟩ := cutOf at_
    have mem := lowerBoundMem at_
    have less : ∀ p ∈ OrderedMap.before (key : NodeId) es, p.1 < i := fun p mem => (cut.less p mem).trans_le cut.ge
    have at' := OrderedMap.cutAt (b := (i,(⟨v,some c,x⟩ : Entry Node)) :: post) less (by simp)
    have sorted := ordered.here
    have inside (q : List NodeId) (same : path' = i :: q) :
        Way key' (resume cfg key data path c).1 x q ⟨[]⟩ g' ∧
        ∀ q' h, (resume cfg key data path c).2 = .cat q' h → q' ≠ q := by
      subst same
      refine ih rfl (ordered.child mem rfl) ?_ fun same => apart (congrArg _ same)
      cases other with
      | down at₂ _ below =>
        cases entrySame sorted mem (lowerBoundMem at₂)
        exact below
    rw [← whole] at at'
    rw [resumeDown at'.2 rfl,at'.1]
    rw [whole] at sorted other
    refine ⟨wayApart sorted other fun c' q child same _ => ?_,fun q h asks => ?_⟩
    · exact ⟨_,rfl,(inside q same).1⟩
    · cases out : (resume cfg key data path c).2 with
      | done result => rw [out] at asks; cases asks
      | cat q' h' =>
        rw [out] at asks
        cases asks
        rintro rfl
        exact (inside q' rfl).2 q' _ out rfl

end frames

section ordered
variable {cfg : Config} {key : Key}

theorem orderedPlacewise : Placewise fun _ => Ordered where
  child _ _ _ _ ordered mem child := ordered.child mem child
  put _ _ _ v _ hash _ _ ordered filled := orderedReplace ordered filled v hash

theorem findOrdered (n : Node) : Ordered n → Ordered (n.find key).1 := by
  induction n using Node.induct with
  | step es ih =>
    intro ordered
    cases at_ : OrderedMap.lowerBound (key : NodeId) es with
    | nil => rwa [findEnd at_]
    | cons p post =>
      obtain ⟨i,v,x,hash⟩ := p
      by_cases hit : i = key
      · subst hit
        rwa [findHere at_]
      · rw [findDown at_ hit]
        have mem := lowerBoundMem at_
        have child := ih _ mem
        have below := fun c => ordered.child (c := c) mem
        have cut := (cutOf at_).1
        rw [cut] at ordered
        cases x with
        | none =>
          by_cases empty : hash.isEmpty = true
          · simpa only [BTree.lazyFind,empty,if_true] using ordered
          · simp only [BTree.lazyFind,empty,if_false,Bool.false_eq_true]
            exact orderedReplace ordered emptyOrdered v hash
        | some c => exact orderedReplace ordered (child c rfl (below c rfl)) v hash

def Flat (es : Entries) : Prop := Sorted es ∧ ∀ p ∈ es, p.2.child = none

theorem Flat.ordered {es : Entries} (flat : Flat es) : Ordered ⟨es⟩ :=
  .mk flat.1 fun p mem c child => by simp [flat.2 p mem] at child

theorem restoreLoopFlat (members : List (StdString × Json)) : ∀ {es : Entries}, Flat es →
    Flat (restoreLoop members es).1 := by
  induction members with
  | nil => exact fun flat => flat
  | cons m members ih =>
    intro es flat
    rw [restoreLoop]
    split
    · refine ih ⟨OrderedMap.insertSorted _ _ flat.1,fun p mem => ?_⟩
      rcases OrderedMap.memInsert mem with rfl | old
      · rfl
      · exact flat.2 p old
    · exact flat

theorem restoreOrdered (data : Except ErrorCode Value) : Ordered (restore cfg data ⟨[]⟩).1 := by
  cases data with
  | error ec => exact emptyOrdered
  | ok text =>
    have loop (members : List (StdString × Json)) : Flat (restoreLoop members []).1 :=
      restoreLoopFlat members ⟨.nil,by simp⟩
    rw [restore]
    split
    · exact emptyOrdered
    · rename_i members _
      have flat := loop members
      split <;> rename_i same <;> rw [same] at flat <;> exact flat.ordered
    all_goals exact emptyOrdered

theorem fetchedOrdered (data : Except ErrorCode Value) : Ordered (fetched cfg key data).1 := by
  have restored := @restoreOrdered cfg data
  rw [fetched,resume]
  split <;> rename_i same <;> rw [same] at restored
  · exact restored
  · exact findOrdered _ restored

end ordered

section proper
variable {cfg : Config} {content : Hash → Option Value} {key : Key} {value : Value}

theorem foundProper (n : Node) : ∀ {H : Hash}, Came cfg content H n → (n.find key).2 = .done (.ok value) →
    key.isEmpty = false := by
  induction n using Node.induct with
  | step es ih =>
    intro H came found
    cases at_ : OrderedMap.lowerBound (key : NodeId) es with
    | nil =>
      rw [findEnd at_] at found
      cases found
    | cons p post =>
      obtain ⟨i,v,x,hash⟩ := p
      have mem := lowerBoundMem at_
      cases came with
      | mk each _ below =>
        by_cases hit : i = key
        · obtain ⟨k,_,_,same,_⟩ := each _ mem
          by_cases empty : k.isEmpty = true
          · simp [hit,empty] at same
          · rw [if_neg empty,hit] at same
            cases same
            simpa using empty
        · rw [findDown at_ hit] at found
          cases x with
          | none =>
            by_cases empty : hash.isEmpty = true
            · simp only [BTree.lazyFind,empty,if_true] at found
              cases found
            · simp only [BTree.lazyFind,empty,if_false,Bool.false_eq_true] at found
              cases found
          | some c =>
            change (c.find key).2.under i = _ at found
            cases out : (c.find key).2 with
            | done result =>
              rw [out] at found
              cases found
              exact ih _ mem c rfl (below _ mem c rfl) out
            | cat path g =>
              rw [out] at found
              cases found

theorem fetchedProper {H : Hash} {data : Except ErrorCode Value}
    (serves : ∀ text, data = .ok text → content H = some text)
    (found : (fetched cfg key data).2 = .done (.ok value)) : key.isEmpty = false := by
  have restored := @restoreCame cfg _ _ data serves
  rw [fetched,resume] at found
  split at found
  · cases found
  · rename_i same
    rw [same] at restored
    exact foundProper _ restored found

end proper

section worked
variable {cfg : Config} {content : Hash → Option Value} {key : Key} {H : Hash}

def Sane (cfg : Config) (content : Hash → Option Value) (H : Hash) (x : Option Node) : Prop :=
  ∀ n, x = some n → Came cfg content H n ∧ Ordered n

structure Worked (cfg : Config) (content : Hash → Option Value) (key : Key) (H : Hash) (but : List NodeId → Prop)
    (x : Option Node) (out : Option Node × FindStep) : Prop where
  sane : Sane cfg content H out.1
  beside : ∀ key' path' g' n, x = some n → Way key' n H path' ⟨[]⟩ g' → ¬ but path' →
    (∃ n', out.1 = some n' ∧ Way key' n' H path' ⟨[]⟩ g') ∧ ∀ path g, out.2 = .cat path g → path ≠ path'
  answer : ∀ v, out.2 = .done (.ok v) → key.isEmpty = false ∧ StoredBelow cfg content H key v
  asks : ∀ path g, out.2 = .cat path g → BlockReach cfg content H g ∧ ∃ n, out.1 = some n ∧ Way key n H path ⟨[]⟩ g

theorem lazyFindWorked (key : Key) {x : Option Node} (sane : Sane cfg content H x) :
    Worked cfg content key H (fun _ => False) x (BTree.lazyFind H x key) := by
  cases x with
  | none =>
    by_cases empty : H.isEmpty = true
    · have out : BTree.lazyFind H none key = (none,.done (.error .notFound)) := by
        simp only [BTree.lazyFind,empty,if_true]
      rw [out]
      exact ⟨sane,fun _ _ _ _ same => (by cases same),fun _ same => (by cases same),fun _ _ same => (by cases same)⟩
    · have out : BTree.lazyFind H none key = (some ⟨[]⟩,.cat [] H) := by
        simp only [BTree.lazyFind,empty,if_false,Bool.false_eq_true]
      rw [out]
      refine ⟨fun n same => ?_,fun _ _ _ _ same => (by cases same),fun _ same => (by cases same),
        fun path g same => ?_⟩
      · cases same
        exact ⟨cameEmpty,emptyOrdered⟩
      · cases same
        exact ⟨.refl,⟨[]⟩,rfl,.here⟩
  | some n =>
    obtain ⟨came,ordered⟩ := sane n rfl
    obtain ⟨came',below⟩ := @findBelow cfg content key n _ came
    have ordered' := @findOrdered key n ordered
    change Worked cfg content key H _ (some n) (some (n.find key).1,(n.find key).2)
    refine ⟨fun n' same => ?_,fun key' path' g' m same way _ => ?_,fun v same => ?_,fun path g same => ?_⟩
    · cases same
      exact ⟨came',ordered'⟩
    · cases same
      obtain ⟨way',apart⟩ := findApart key n ordered way
      exact ⟨⟨_,rfl,way'⟩,apart⟩
    · change (n.find key).2 = _ at same
      rw [same] at below
      exact ⟨foundProper n came same,below v rfl⟩
    · change (n.find key).2 = _ at same
      rw [same] at below
      exact ⟨reachBelow below,_,rfl,findWay key n (Prod.ext rfl same)⟩

theorem resumeWorked {n : Node} {path : List NodeId} {g : Hash} (sane : Sane cfg content H (some n))
    (way : Way key n H path ⟨[]⟩ g) (reach : BlockReach cfg content H g) {data : Except ErrorCode Value}
    (serves : ∀ text, data = .ok text → content g = some text) :
    Worked cfg content key H (· = path) (some n)
      (some (resume cfg key data path n).1,(resume cfg key data path n).2) := by
  obtain ⟨came,ordered⟩ := sane n rfl
  obtain ⟨filled,goes,put⟩ := resumeWay cfg data way
  obtain ⟨came',below⟩ := @fetchedBelow cfg content g key data serves
  have ordered' := @fetchedOrdered cfg key data
  refine ⟨fun n' same => ?_,fun key' path' g' m same other apart => ?_,fun v same => ?_,fun path' g' same => ?_⟩
  · cases same
    exact ⟨put _ camePlacewise came came',put _ orderedPlacewise ordered ordered'⟩
  · cases same
    obtain ⟨way',apart'⟩ := resumeApart cfg data way rfl ordered other apart
    exact ⟨⟨_,rfl,way'⟩,apart'⟩
  all_goals
    change (resume cfg key data path n).2 = _ at same
    rw [goes] at same
    rw [fetched] at below
    cases out : (resume cfg key data [] ⟨[]⟩).2
  · rw [out] at same below
    cases same
    exact ⟨fetchedProper serves out,(below v rfl).reach reach⟩
  · rw [out] at same
    cases same
  · rw [out] at same
    cases same
  · rename_i rest h
    rw [out] at same below
    cases same
    exact ⟨reach.trans (reachBelow below),_,rfl,filled.trans (resumeHereWay (Prod.ext rfl out))⟩

end worked

end IpfsCache
