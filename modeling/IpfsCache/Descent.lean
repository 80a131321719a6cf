import IpfsCache.Lookup

/-! A find over blocks of any content, on any tree in memory. Whatever has been read, a
find that waits for a block goes on from the node it has made for it, and what it does
then depends on the block alone. -/
namespace IpfsCache
open Node Entries

def FindStep.below (path : List NodeId) : FindStep → FindStep
  | .done result => .done result
  | .cat path' hash => .cat (path ++ path') hash

theorem FindStep.belowUnder (i : NodeId) (path : List NodeId) (step : FindStep) :
    (step.below path).under i = step.below (i :: path) := by cases step <;> rfl

def Node.fetched (cfg : Config) (key : Key) (data : Except ErrorCode Value) : Node × FindStep :=
  resume cfg key data [] ⟨[]⟩

structure Placewise (P : Hash → Node → Prop) : Prop where
  child : ∀ x es p c, P x ⟨es⟩ → p ∈ es → p.2.child = some c → P p.2.childHash c
  put : ∀ x pre i v c hash post c', P x ⟨pre ++ (i,⟨v,some c,hash⟩) :: post⟩ → P hash c' →
    P x ⟨pre ++ (i,⟨v,some c',hash⟩) :: post⟩

section ways
variable {cfg : Config} {key : Key} {data : Except ErrorCode Value} {H g g' : Hash} {n m m' : Node}
  {path path' : List NodeId}

theorem Way.trans (way : Way key n H path m g) (rest : Way key m g path' m' g') :
    Way key n H (path ++ path') m' g' := by
  induction way with
  | here => exact rest
  | down at_ other _ ih => exact .down at_ other (ih rest)

theorem findWay (key : Key) (n : Node) : ∀ {H g : Hash} {n' : Node} {path : List NodeId},
    n.find key = (n',.cat path g) → Way key n' H path ⟨[]⟩ g := by
  induction n using Node.induct with
  | step es ih =>
    intro H g n' path run
    cases at_ : OrderedMap.lowerBound (key : NodeId) es with
    | nil =>
      rw [findEnd at_] at run
      cases run
    | cons p post =>
      obtain ⟨i,v,x,hash⟩ := p
      by_cases same : i = key
      · subst same
        rw [findHere at_] at run
        cases run
      · rw [findDown at_ same] at run
        obtain ⟨_,cut⟩ := cutOf at_
        cases x with
        | none =>
          by_cases empty : hash.isEmpty = true
          · simp [BTree.lazyFind,empty,FindStep.under] at run
          · simp only [BTree.lazyFind,empty,if_false,FindStep.under,Prod.mk.injEq,FindStep.cat.injEq,
              Bool.false_eq_true] at run
            obtain ⟨rfl,rfl,rfl⟩ := run
            exact .down (lowerBoundCut cut) same .here
        | some c =>
          simp only [BTree.lazyFind] at run
          cases out : c.find key with
          | mk c' step =>
            rw [out] at run
            cases step with
            | done result => cases run
            | cat path' g' =>
              simp only [Prod.map,id,FindStep.under,Prod.mk.injEq,FindStep.cat.injEq] at run
              obtain ⟨rfl,rfl,rfl⟩ := run
              exact .down (lowerBoundCut cut) same (ih _ (lowerBoundMem at_) c rfl out)

theorem resumeHereWay {n' : Node} (run : resume cfg key data [] m = (n',.cat path g')) :
    Way key n' H path ⟨[]⟩ g' := by
  rw [resume] at run
  split at run
  · cases run
  · exact findWay key _ run

theorem resumeWay (cfg : Config) (data : Except ErrorCode Value) (way : Way key n H path m g) :
    Way key (resume cfg key data path n).1 H path (resume cfg key data [] m).1 g ∧
    (resume cfg key data path n).2 = (resume cfg key data [] m).2.below path ∧
    ∀ P : Hash → Node → Prop, Placewise P → P H n → P g (resume cfg key data [] m).1 →
      P H (resume cfg key data path n).1 := by
  induction way with
  | here => exact ⟨.here,by cases (resume cfg key data [] _).2 <;> rfl,fun _ _ _ => id⟩
  | @down es post i v c c' x h g path at_ other below ih =>
    obtain ⟨whole,cut⟩ := cutOf at_
    have less : ∀ p ∈ OrderedMap.before (key : NodeId) es, p.1 < i := fun p mem => (cut.less p mem).trans_le cut.ge
    have at' := OrderedMap.cutAt (b := (i,(⟨v,some c,x⟩ : Entry Node)) :: post) less (by simp)
    rw [← whole] at at'
    rw [resumeDown at'.2 rfl,at'.1]
    refine ⟨.down (lowerBoundCut cut) other ih.1,by rw [ih.2.1,FindStep.belowUnder],fun P placewise h filled => ?_⟩
    have child := placewise.child _ _ _ _ h (lowerBoundMem at_) rfl
    rw [whole] at h
    exact placewise.put _ _ _ _ _ _ _ _ h (ih.2.2 P placewise child filled)

theorem resumeRoot {bt : BTree} (root : bt.root = some ⟨some n,H⟩) (data : Except ErrorCode Value)
    (path : List NodeId) : bt.resume cfg key data path =
      ({ bt with root := some ⟨some (n.resume cfg key data path).1,H⟩ },(n.resume cfg key data path).2) := by
  rw [BTree.resume,root]

end ways

section seek
variable {σ : Type} {cfg : Config} {S : Storage σ} {key : Key}

def seek (cfg : Config) (S : Storage σ) (key : Key) : Nat → FindStep → σ → Option (Except ErrorCode Value × σ)
  | _,.done result,st => some (result,st)
  | 0,.cat _ _,_ => none
  | fuel + 1,.cat _ hash,st => seek cfg S key fuel (fetched cfg key (S.cat st hash).1).2 (S.cat st hash).2

theorem seekBelow (fuel : Nat) (path : List NodeId) (step : FindStep) (st : σ) :
    seek cfg S key fuel (step.below path) st = seek cfg S key fuel step st := by
  cases step <;> cases fuel <;> rfl

theorem finishSeek (fuel : Nat) : ∀ {bt : BTree} {n : Node} {H : Hash} {step : FindStep} {st : σ},
    bt.root = some ⟨some n,H⟩ → (∀ path g, step = .cat path g → Way key n H path ⟨[]⟩ g) →
    (BTree.finish cfg S key fuel (bt,step) st).map (fun out => (out.1,out.2.2)) = seek cfg S key fuel step st := by
  induction fuel with
  | zero =>
    intro bt n H step st _ _
    cases step <;> rfl
  | succ fuel ih =>
    intro bt n H step st root waits
    cases step with
    | done result => rfl
    | cat path g =>
      have way := waits path g rfl
      obtain ⟨filled,goes,_⟩ := resumeWay cfg (S.cat st g).1 way
      rw [BTree.finish,seek,← seekBelow fuel path,fetched,← goes]
      rw [resumeRoot root]
      refine ih rfl fun path' g' same => ?_
      rw [goes] at same
      cases out : resume cfg key (S.cat st g).1 [] ⟨[]⟩ with
      | mk m step =>
        rw [out] at same filled
        cases step with
        | done result => cases same
        | cat path₂ g₂ =>
          cases same
          exact filled.trans (resumeHereWay out)

end seek
end IpfsCache
