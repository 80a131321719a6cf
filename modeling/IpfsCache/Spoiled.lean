import IpfsCache.Lookup

/-! A tree in memory some nodes of which are not what was stored: the fetch failed, or it
brought something else. `bad` says at which paths. What a find does that meets none of
them it also does on the tree in which they are emptied. -/
namespace IpfsCache
open OrderedMap (Sorted)
open Node Entries

namespace Node
mutual
def blank (bad : List NodeId → Bool) : Node → Node
  | ⟨es⟩ => if bad [] then ⟨[]⟩ else ⟨blankEntries bad es⟩

def blankEntries (bad : List NodeId → Bool) : Entries → Entries
  | [] => []
  | (i,⟨value,none,hash⟩) :: rest => (i,⟨value,none,hash⟩) :: blankEntries bad rest
  | (i,⟨value,some c,hash⟩) :: rest =>
    (i,⟨value,some (c.blank fun q => bad (i :: q)),hash⟩) :: blankEntries bad rest
end

def met (key : Key) (bad : List NodeId → Bool) : Node → Option Node
  | ⟨es⟩ =>
    if bad [] then some ⟨es⟩
    else
      match at_ : OrderedMap.lowerBound (key : NodeId) es with
      | [] => none
      | (i,e) :: _ =>
        if i = key then none
        else
          match child : e.child with
          | none => none
          | some c =>
            have := childSmaller (lowerBoundMem at_) child
            c.met key fun q => bad (i :: q)
termination_by n => sizeOf n

end Node

section blank
variable {bad : List NodeId → Bool} {key : Key} {es : Entries} {i : NodeId} {e : Entry Node}

def blankPair (bad : List NodeId → Bool) : NodeId × Entry Node → NodeId × Entry Node
  | (i,e) => (i,{ e with child := e.child.map (blank fun q => bad (i :: q)) })

theorem blankEntriesMap (bad : List NodeId → Bool) (es : Entries) :
    blankEntries bad es = es.map (blankPair bad) := by
  induction es with
  | nil => rfl
  | cons p es ih =>
    obtain ⟨i,v,child,hash⟩ := p
    cases child <;> simp only [blankEntries,ih] <;> rfl

theorem blankHere (here : bad [] = true) (n : Node) : n.blank bad = ⟨[]⟩ := by
  obtain ⟨es⟩ := n
  rw [blank,if_pos here]

theorem blankBelow (clear : bad [] = false) (es : Entries) :
    blank bad ⟨es⟩ = ⟨es.map (blankPair bad)⟩ := by
  rw [blank,clear,blankEntriesMap]
  rfl

theorem blankNothing (free : ∀ q, bad q = false) (n : Node) : n.blank bad = n := by
  induction n using Node.induct generalizing bad with
  | step es ih =>
    rw [blankBelow (free [])]
    refine congrArg Node.mk ((List.map_congr_left fun p mem => ?_).trans (List.map_id' es))
    obtain ⟨i,v,child,hash⟩ := p
    cases child with
    | none => rfl
    | some c =>
      simp only [blankPair,Option.map_some,ih _ mem c rfl fun q => free (i :: q)]

theorem blankTwice {bad' : List NodeId → Bool} (more : ∀ q, bad q = true → bad' q = true) (n : Node) :
    (n.blank bad).blank bad' = n.blank bad' := by
  induction n using Node.induct generalizing bad bad' with
  | step es ih =>
    cases here : bad' [] with
    | true => rw [blankHere here,blankHere here]
    | false =>
      have clear : bad [] = false := Bool.eq_false_iff.mpr fun held => by simp [more _ held] at here
      rw [blankBelow clear,blankBelow here,blankBelow here,List.map_map]
      refine congrArg Node.mk (List.map_congr_left fun p mem => ?_)
      obtain ⟨i,v,child,hash⟩ := p
      cases child with
      | none => rfl
      | some c => simp only [Function.comp,blankPair,Option.map_some,ih _ mem c rfl fun q => more (i :: q)]

theorem blankEmpty (bad : List NodeId → Bool) : (⟨[]⟩ : Node).blank bad = ⟨[]⟩ := by
  rw [blank]
  split <;> rfl

theorem beforeBlank (bad : List NodeId → Bool) (i : NodeId) (es : Entries) :
    OrderedMap.before i (es.map (blankPair bad)) = (OrderedMap.before i es).map (blankPair bad) :=
  OrderedMap.beforeMap (blankPair bad) (fun _ => rfl) i es

theorem lowerBoundBlank (bad : List NodeId → Bool) (i : NodeId) (es : Entries) :
    OrderedMap.lowerBound i (es.map (blankPair bad)) = (OrderedMap.lowerBound i es).map (blankPair bad) :=
  OrderedMap.lowerBoundMap (blankPair bad) (fun _ => rfl) i es

theorem metHere (here : bad [] = true) (n : Node) : n.met key bad = some n := by
  obtain ⟨es⟩ := n
  rw [met,if_pos here]

theorem metHit {post : Entries} (at_ : OrderedMap.lowerBound (key : NodeId) es = ((key : NodeId),e) :: post)
    (clear : bad [] = false) : met key bad ⟨es⟩ = none := by
  rw [met,clear]
  simp only [Bool.false_eq_true,if_false]
  split
  · rfl
  · rename_i same
    cases at_.symm.trans same
    exact if_pos rfl

theorem metDown {post : Entries} (clear : bad [] = false)
    (at_ : OrderedMap.lowerBound (key : NodeId) es = (i,e) :: post) (other : i ≠ key) :
    met key bad ⟨es⟩ = e.child.bind (met key fun q => bad (i :: q)) := by
  rw [met,clear]
  simp only [Bool.false_eq_true,if_false]
  split
  · rename_i same
    cases at_.symm.trans same
  · rename_i same
    cases at_.symm.trans same
    rw [if_neg other]
    split
    · rename_i null
      rw [null]
      rfl
    · rename_i c child
      rw [child]
      rfl

theorem blankAt {pre post : Entries} (clear : bad [] = false) (v : Value) (x : Option Node) (hash : Hash) :
    blank bad ⟨pre ++ (i,⟨v,x,hash⟩) :: post⟩ =
      ⟨pre.map (blankPair bad) ++ (i,⟨v,x.map (blank fun q => bad (i :: q)),hash⟩) :: post.map (blankPair bad)⟩ := by
  rw [blankBelow clear,List.map_append]
  rfl

theorem underApart (clear : bad [] = false) {step : FindStep}
    (below : ∀ path g, step = .cat path g → ∀ p, p <+: path → p ≠ path → bad (i :: p) = false) :
    ∀ path g, step.under i = .cat path g → ∀ p, p <+: path → p ≠ path → bad p = false := by
  intro path g same p inside other
  cases step with
  | done => cases same
  | cat path' g' =>
    cases same
    cases p with
    | nil => exact clear
    | cons j p =>
      obtain ⟨rfl,inner⟩ := List.cons_prefix_cons.mp inside
      exact below path' _ rfl p inner fun same => other (congrArg _ same)

theorem findBlank (key : Key) (n : Node) : ∀ bad : List NodeId → Bool, n.met key bad = none →
    (n.blank bad).find key = ((n.find key).1.blank bad,(n.find key).2) ∧
    ∀ path g, (n.find key).2 = .cat path g → ∀ p, p <+: path → p ≠ path → bad p = false := by
  induction n using Node.induct with
  | step es ih =>
    intro bad none_
    have clear : bad [] = false := Bool.eq_false_iff.mpr fun here => by
      rw [metHere here] at none_
      cases none_
    have at' := lowerBoundBlank bad key es
    rw [blankBelow clear]
    cases at_ : OrderedMap.lowerBound (key : NodeId) es with
    | nil =>
      rw [at_] at at'
      rw [findEnd at_,findEnd at',blankBelow clear]
      exact ⟨rfl,fun _ _ same => by cases same⟩
    | cons q post =>
      obtain ⟨i,v,x,hash⟩ := q
      rw [at_] at at'
      by_cases hit : i = key
      · subst hit
        rw [findHere at_,findHere at',blankBelow clear]
        exact ⟨rfl,fun _ _ same => by cases same⟩
      · rw [metDown clear at_ hit] at none_
        have at'' : OrderedMap.lowerBound (key : NodeId) (es.map (blankPair bad)) =
            (i,⟨v,x.map (blank fun q => bad (i :: q)),hash⟩) :: post.map (blankPair bad) := at'
        have below : BTree.lazyFind hash (x.map (blank fun q => bad (i :: q))) key =
            ((BTree.lazyFind hash x key).1.map (blank fun q => bad (i :: q)),(BTree.lazyFind hash x key).2) ∧
            ∀ path g, (BTree.lazyFind hash x key).2 = .cat path g → ∀ p, p <+: path → p ≠ path →
              bad (i :: p) = false := by
          cases x with
          | none =>
            cases empty : hash.isEmpty
            · simp [BTree.lazyFind,empty,blankEmpty]
            · simp [BTree.lazyFind,empty]
          | some c =>
            obtain ⟨same,apart⟩ := ih _ (lowerBoundMem at_) c rfl (fun q => bad (i :: q)) none_
            simp only [BTree.lazyFind,Option.map_some,same]
            exact ⟨rfl,apart⟩
        obtain ⟨same,apart⟩ := below
        rw [findDown at_ hit,findDown at'' hit,blankAt clear,beforeBlank,same]
        exact ⟨rfl,underApart clear apart⟩

theorem underWithin {step : FindStep}
    (below : ∀ path g, step = .cat path g → ∃ p, p <+: path ∧ bad (i :: p) = true) :
    ∀ path g, step.under i = .cat path g → ∃ p, p <+: path ∧ bad p = true := by
  intro path g same
  cases step with
  | done => cases same
  | cat path' g' =>
    cases same
    obtain ⟨p,inside,here⟩ := below path' _ rfl
    exact ⟨i :: p,List.cons_prefix_cons.mpr ⟨rfl,inside⟩,here⟩

theorem findBeside (key : Key) (n : Node) : ∀ bad : List NodeId → Bool, n.met key bad ≠ none →
    (n.find key).1.blank bad = n.blank bad ∧
    ∀ path g, (n.find key).2 = .cat path g → ∃ p, p <+: path ∧ bad p = true := by
  induction n using Node.induct with
  | step es ih =>
    intro bad some_
    cases clear : bad [] with
    | true => exact ⟨by rw [blankHere clear,blankHere clear],fun path _ _ => ⟨[],List.nil_prefix,clear⟩⟩
    | false =>
      cases at_ : OrderedMap.lowerBound (key : NodeId) es with
      | nil =>
        rw [findEnd at_]
        exact ⟨rfl,fun _ _ same => by cases same⟩
      | cons q post =>
        obtain ⟨i,v,x,hash⟩ := q
        by_cases hit : i = key
        · subst hit
          rw [findHere at_]
          exact ⟨rfl,fun _ _ same => by cases same⟩
        · rw [metDown clear at_ hit] at some_
          cases x with
          | none => exact absurd rfl some_
          | some c =>
            have whole : es = OrderedMap.before (key : NodeId) es ++ (i,⟨v,some c,hash⟩) :: post := by
              rw [← at_,OrderedMap.cut]
            obtain ⟨same,within⟩ := ih _ (lowerBoundMem at_) c rfl (fun q => bad (i :: q)) some_
            have below : BTree.lazyFind hash (some c) key = (some (c.find key).1,(c.find key).2) := rfl
            rw [findDown at_ hit,below,blankAt clear]
            refine ⟨?_,underWithin within⟩
            rw [Option.map_some,same]
            conv => rhs; rw [whole,blankAt clear,Option.map_some]

theorem findMeetsEmpty (key : Key) (n : Node) : ∀ bad : List NodeId → Bool, n.met key bad = some ⟨[]⟩ →
    n.find key = (n,.done (.error .notFound)) := by
  induction n using Node.induct with
  | step es ih =>
    intro bad empty
    cases clear : bad [] with
    | true =>
      cases (metHere clear _).symm.trans empty
      exact findEnd rfl
    | false =>
      cases at_ : OrderedMap.lowerBound (key : NodeId) es with
      | nil => rw [findEnd at_]
      | cons q post =>
        obtain ⟨i,v,x,hash⟩ := q
        by_cases hit : i = key
        · subst hit
          rw [metHit at_ clear] at empty
          cases empty
        · rw [metDown clear at_ hit] at empty
          cases x with
          | none => cases empty
          | some c =>
            have whole : OrderedMap.before (key : NodeId) es ++ (i,(⟨v,some c,hash⟩ : Entry Node)) :: post = es := by
              rw [← at_,OrderedMap.cut]
            have below : BTree.lazyFind hash (some c) key = (some c,.done (.error .notFound)) := by
              rw [BTree.lazyFind,ih _ (lowerBoundMem at_) c rfl (fun q => bad (i :: q)) empty]
              rfl
            rw [findDown at_ hit,below,whole]
            rfl

section resume
variable {cfg : Config} {data : Except ErrorCode Value}

theorem resumeElse {path : List NodeId}
    (gone : ∀ e c rest, OrderedMap.lowerBound i es = (i,e) :: rest → e.child ≠ some c) :
    resume cfg key data (i :: path) ⟨es⟩ = (⟨es⟩,.done (.error .operationAborted)) := by
  rw [resume]
  split
  · rename_i j e rest at_
    by_cases same : j = i
    · subst same
      simp only [if_true]
      split
      · rename_i c child
        exact absurd child (gone e c rest at_)
      · rfl
    · simp only [if_neg same]
  · rfl

theorem resumeCut (cfg : Config) (key : Key) (data : Except ErrorCode Value) (i : NodeId) (path : List NodeId)
    (es : Entries) : (∃ v c hash rest, OrderedMap.lowerBound i es = (i,⟨v,some c,hash⟩) :: rest) ∨
    ((∀ e c rest, OrderedMap.lowerBound i es = (i,e) :: rest → e.child ≠ some c) ∧
      resume cfg key data (i :: path) ⟨es⟩ = (⟨es⟩,.done (.error .operationAborted))) := by
  by_cases there : ∃ v c hash rest, OrderedMap.lowerBound i es = (i,(⟨v,some c,hash⟩ : Entry Node)) :: rest
  · exact .inl there
  · have gone : ∀ (e : Entry Node) c rest, OrderedMap.lowerBound i es = (i,e) :: rest → e.child ≠ some c := by
      rintro ⟨v,x,hash⟩ c rest at_ child
      cases child
      exact there ⟨v,c,hash,rest,at_⟩
    exact .inr ⟨gone,resumeElse gone⟩

theorem resumeExtends (path : List NodeId) : ∀ (n : Node) path' g,
    (n.resume cfg key data path).2 = .cat path' g → path <+: path' := by
  induction path with
  | nil => exact fun _ _ _ _ => List.nil_prefix
  | cons i path ih =>
    rintro ⟨es⟩ path' g step
    rcases resumeCut cfg key data i path es with ⟨v,c,hash,rest,at_⟩ | ⟨_,ends⟩
    · rw [resumeDown at_ rfl] at step
      cases below : (c.resume cfg key data path).2 with
      | done =>
        simp only [below,FindStep.under] at step
        cases step
      | cat p g' =>
        simp only [below,FindStep.under] at step
        cases step
        exact List.cons_prefix_cons.mpr ⟨rfl,ih c p _ below⟩
    · rw [ends] at step
      cases step

theorem resumeBeside (cfg : Config) (key : Key) (data : Except ErrorCode Value) (path : List NodeId) :
    ∀ (bad : List NodeId → Bool) (n : Node),
    (∃ p, p <+: path ∧ bad p = true) → (n.resume cfg key data path).1.blank bad = n.blank bad ∧
    ∀ path' g, (n.resume cfg key data path).2 = .cat path' g → ∃ p, p <+: path' ∧ bad p = true := by
  induction path with
  | nil =>
    rintro bad n ⟨p,inside,here⟩
    cases List.prefix_nil.mp inside
    exact ⟨by rw [blankHere here,blankHere here],fun path _ _ => ⟨[],List.nil_prefix,here⟩⟩
  | cons i path ih =>
    rintro bad ⟨es⟩ ⟨p,inside,held⟩
    cases clear : bad [] with
    | true => exact ⟨by rw [blankHere clear,blankHere clear],fun path _ _ => ⟨[],List.nil_prefix,clear⟩⟩
    | false =>
      have below : ∃ p, p <+: path ∧ bad (i :: p) = true := by
        cases p with
        | nil => rw [clear] at held; cases held
        | cons j p =>
          obtain ⟨rfl,inner⟩ := List.cons_prefix_cons.mp inside
          exact ⟨p,inner,held⟩
      rcases resumeCut cfg key data i path es with ⟨v,c,hash,rest,at_⟩ | ⟨_,ends⟩
      · obtain ⟨same,within⟩ := ih (fun q => bad (i :: q)) c below
        have whole : es = OrderedMap.before i es ++ (i,⟨v,some c,hash⟩) :: rest := by rw [← at_,OrderedMap.cut]
        rw [resumeDown at_ rfl,blankAt clear]
        refine ⟨?_,underWithin within⟩
        rw [Option.map_some,same]
        conv => rhs; rw [whole,blankAt clear,Option.map_some]
      · rw [ends]
        exact ⟨rfl,fun _ _ same => by cases same⟩

theorem resumeBlank (path : List NodeId) : ∀ (bad : List NodeId → Bool) (n : Node),
    (∀ p, p <+: path → bad p = false) → (∀ q, bad (path ++ q) = false) →
    (n.blank bad).resume cfg key data path =
      ((n.resume cfg key data path).1.blank bad,(n.resume cfg key data path).2) := by
  induction path with
  | nil =>
    intro bad n _ free
    have none_ : ∀ q, bad q = false := free
    rw [blankNothing none_,blankNothing none_]
  | cons i path ih =>
    rintro bad ⟨es⟩ apart free
    have clear : bad [] = false := apart [] List.nil_prefix
    rw [blankBelow clear]
    rcases resumeCut cfg key data i path es with ⟨v,c,hash,rest,at_⟩ | ⟨gone,ends⟩
    · have same := ih (fun q => bad (i :: q)) c
        (fun p inside => apart (i :: p) (List.cons_prefix_cons.mpr ⟨rfl,inside⟩)) free
      have at' : OrderedMap.lowerBound i (es.map (blankPair bad)) =
          (i,⟨v,some (c.blank fun q => bad (i :: q)),hash⟩) :: rest.map (blankPair bad) := by
        rw [lowerBoundBlank,at_]
        rfl
      rw [resumeDown at_ rfl,resumeDown at' rfl,blankAt clear,beforeBlank,same,Option.map_some]
    · rcases resumeCut cfg key data i path (es.map (blankPair bad)) with ⟨v,c,hash,rest,at'⟩ | ⟨_,ends'⟩
      · rw [lowerBoundBlank] at at'
        obtain ⟨⟨j,w,x,g⟩,post,at_,same,_⟩ := List.map_eq_cons_iff.mp at'
        cases x with
        | none => cases same
        | some c' =>
          cases same
          exact absurd rfl (gone _ c' post at_)
      · rw [ends,ends',blankBelow clear]

end resume

theorem Seen.blank {T : Node} : ∀ {pend : List NodeId → Prop} {bad : List NodeId → Bool} {x : Option Node},
    Seen pend x T → (∀ q, bad q = true → pend q) → x.map (Node.blank bad) = x := by
  induction T using Node.induct with
  | step es ih =>
    intro pend bad x seen within
    cases seen with
    | unread => rfl
    | waiting => rw [Option.map_some,blankEmpty]
    | @read p _ filled view =>
      have clear : bad [] = false := Bool.eq_false_iff.mpr fun here => filled (within [] here)
      have each : ∀ (T' P : Entries), (∀ t ∈ T', t ∈ es) → View pend P T' → P.map (blankPair bad) = P := by
        intro T'
        induction T' with
        | nil =>
          intro P _ view
          cases view
          rfl
        | cons t T' ih' =>
          intro P inside view
          obtain ⟨i,e⟩ := t
          rcases view.head with ⟨⟨v,y,hash⟩,P',rfl,entry,rest⟩ | ⟨rfl,_⟩
          · rw [List.map_cons,ih' P' (fun t mem => inside t (List.mem_cons_of_mem _ mem)) rest]
            obtain ⟨w,z,hash'⟩ := e
            have same : y.map (Node.blank fun q => bad (i :: q)) = y := by
              cases z with
              | none =>
                obtain ⟨null,_⟩ := entry.bare rfl
                cases null
                rfl
              | some c => exact ih _ (inside _ List.mem_cons_self) c rfl (entry.child c rfl) fun q => within (i :: q)
            rw [blankPair,same]
          · rfl
      rw [Option.map_some,blankBelow clear,each es p (fun _ => id) view]

end blank
end IpfsCache
