import IpfsCache.Invariant

/-! What an insert does with the subtrees its key does not lead to. The hash of a subtree
stands in the entry it hangs from; entries that a split moves keep it, but the child of the
entry in the middle is moved without. -/
namespace IpfsCache
open OrderedMap (Sorted)

namespace Node

def pathHashes (key : Key) : Node → List Hash
  | ⟨es⟩ =>
    match at_ : OrderedMap.lowerBound (key : NodeId) es with
    | (i,⟨_,some c,hash⟩) :: _ =>
      have := childSmaller (lowerBoundMem at_) rfl
      if i = key then [] else hash :: pathHashes key c
    | _ => []
termination_by n => sizeOf n

def splits (m : Nat) (key : Key) : Node → Bool
  | ⟨es⟩ =>
    match at_ : OrderedMap.lowerBound (key : NodeId) es with
    | (i,⟨_,some c,_⟩) :: _ =>
      have := childSmaller (lowerBoundMem at_) rfl
      i ≠ key && Entries.size es = m && splits m key c
    | (i,⟨_,none,_⟩) :: _ => i ≠ key && Entries.size es = m
    | [] => Entries.size es = m
termination_by n => sizeOf n

/-- Whether a node on the way is split in the middle at another entry than the one the key
passes, or the one before it, where the middle of the split child comes. -/
def splitsBeside (m : Nat) (key : Key) : Node → Bool
  | ⟨es⟩ =>
    match at_ : OrderedMap.lowerBound (key : NodeId) es with
    | (i,⟨_,some c,_⟩) :: _ =>
      have := childSmaller (lowerBoundMem at_) rfl
      let place := (OrderedMap.before (key : NodeId) es).length
      i ≠ key && (splitsBeside m key c ||
        (Entries.size es = m && splits m key c && place ≠ (m + 1) / 2 && place + 1 ≠ (m + 1) / 2))
    | _ => false
termination_by n => sizeOf n

end Node

open Node Entries

inductive OffPath (key : Key) (c : Node) (h : Hash) : Node → Prop
  | beside {pre post : Entries} {i : NodeId} {e : Entry Node} {p : NodeId × Entry Node} (cut : CutAt key pre i)
      (mem : p ∈ pre ∨ p ∈ post) (child : p.2.child = some c) (hash : p.2.childHash = h) :
      OffPath key c h ⟨pre ++ (i,e) :: post⟩
  | under {pre post : Entries} {e : Entry Node} (cut : CutAt key pre key) (child : e.child = some c)
      (hash : e.childHash = h) : OffPath key c h ⟨pre ++ ((key : NodeId),e) :: post⟩
  | deeper {pre post : Entries} {i : NodeId} {e : Entry Node} {d : Node} (cut : CutAt key pre i) (other : i ≠ key)
      (child : e.child = some d) (below : OffPath key c h d) : OffPath key c h ⟨pre ++ (i,e) :: post⟩

inductive Hangs (c : Node) (h : Hash) : Node → Prop
  | here {es : Entries} {p : NodeId × Entry Node} (mem : p ∈ es) (child : p.2.child = some c)
      (hash : p.2.childHash = h) : Hangs c h ⟨es⟩
  | deeper {es : Entries} {p : NodeId × Entry Node} {d : Node} (mem : p ∈ es) (child : p.2.child = some d)
      (below : Hangs c h d) : Hangs c h ⟨es⟩

inductive StoreCalled (d : Node) : Node → Prop
  | here : StoreCalled d d
  | deeper {es : Entries} {p : NodeId × Entry Node} {c : Node} (mem : p ∈ es) (child : p.2.child = some c)
      (unknown : p.2.childHash.isEmpty = true) (below : StoreCalled d c) : StoreCalled d ⟨es⟩

namespace Node

mutual
def storeCalls : Node → List Node
  | ⟨es⟩ => storeCallsBelow es ++ [⟨es⟩]

def storeCallsBelow : Entries → List Node
  | [] => []
  | (_,⟨_,none,_⟩) :: rest => storeCallsBelow rest
  | (_,⟨_,some c,hash⟩) :: rest => (if hash.isEmpty then c.storeCalls else []) ++ storeCallsBelow rest
end

end Node

theorem storeCallsBelowMem {es : Entries} {d : Node} : d ∈ storeCallsBelow es ↔
    ∃ p ∈ es, ∃ c, p.2.child = some c ∧ p.2.childHash.isEmpty = true ∧ d ∈ c.storeCalls := by
  induction es with
  | nil => simp [storeCallsBelow]
  | cons p rest ih =>
    obtain ⟨i,v,x,hash⟩ := p
    cases x with
    | none => simp [storeCallsBelow,ih]
    | some c => cases empty : hash.isEmpty <;> simp [storeCallsBelow,ih,empty]

theorem storeCallsMem {n d : Node} : d ∈ n.storeCalls ↔ StoreCalled d n := by
  constructor
  · induction n using Node.induct with
    | step es ih =>
      rw [storeCalls,List.mem_append,List.mem_singleton,storeCallsBelowMem]
      rintro (⟨p,mem,c,child,unknown,below⟩ | rfl)
      · exact .deeper mem child unknown (ih p mem c child below)
      · exact .here
  · intro called
    induction called with
    | here =>
      obtain ⟨es⟩ := d
      simp [storeCalls]
    | deeper mem child unknown _ ih =>
      rw [storeCalls,List.mem_append,storeCallsBelowMem]
      exact .inl ⟨_,mem,_,child,unknown,ih⟩

section adds
variable {σ : Type} {cfg : Config} {S : Storage σ}

def AddsCalls (cfg : Config) (S : Storage σ) (calls : List Node) (n : Node) (p : StoreProgram) : Prop :=
  ∀ st, ∃ xs n' hash st', p.requests S.add st = xs ++ [block cfg n'] ∧
    List.Forall₂ (fun d x => ∃ d', Alike d d' ∧ x = block cfg d') calls xs ∧
    p.run S.add st = ((n',.stored hash),st') ∧ Alike n n' ∧ hash.isEmpty = false

theorem AddsCalls.next {calls : List Node} {n n₁ : Node} {p : StoreProgram} (alike : Alike n n₁)
    (adds : AddsCalls cfg S calls n₁ p) : AddsCalls cfg S calls n p := by
  intro st
  obtain ⟨xs,n',hash,st',made,each,run,same,proper⟩ := adds st
  exact ⟨xs,n',hash,st',made,each,run,alike.trans same,proper⟩

theorem storeLoopAdds (adds : ∀ st x, ∃ hash st', S.add st x = (.ok hash,st') ∧ hash.isEmpty = false)
    (rest : Entries) : (∀ p ∈ rest, ∀ c, p.2.child = some c →
      AddsCalls cfg S (storeCallsBelow c.entries) c (c.store cfg)) →
    ∀ done : Entries,
      AddsCalls cfg S (storeCallsBelow rest) ⟨done ++ rest⟩ (storeLoop cfg done (nodeJson done) rest) := by
  induction rest with
  | nil =>
    intro _ done st
    obtain ⟨hash,st',added,proper⟩ := adds st (block cfg ⟨done⟩)
    have added' : S.add st (cfg.json.dump (nodeJson done)) = (.ok hash,st') := added
    rw [List.append_nil,storeLoop]
    refine ⟨[],⟨done⟩,hash,st',?_,.nil,?_,.refl _,proper⟩
    · simp only [Program.requests,added']
      rfl
    · simp only [Program.run,added']
  | cons p rest ih =>
    intro children done
    obtain ⟨i,v,x,hash⟩ := p
    have next (e : Entry Node) : AddsCalls cfg S (storeCallsBelow rest) ⟨done ++ (i,e) :: rest⟩
        (storeLoop cfg (done ++ [(i,e)]) (fileEntry (nodeJson done) (i,e)) rest) := by
      have step := ih (fun p mem => children p (List.mem_cons_of_mem _ mem)) (done ++ [(i,e)])
      rwa [nodeJsonSnoc,List.append_assoc,List.singleton_append] at step
    by_cases unknown : hash.isEmpty = true
    · cases x with
      | none => simpa [storeLoop,storeCallsBelow,fileEntry,unknown] using next ⟨v,none,hash⟩
      | some c =>
        intro st
        obtain ⟨xs,c',h,st₁,made,each,run,alike,proper⟩ := children (i,⟨v,some c,hash⟩) (by simp) c rfl st
        have filled : AddsCalls cfg S (storeCallsBelow rest) ⟨done ++ (i,⟨v,some c,hash⟩) :: rest⟩
            (storeLoop cfg (done ++ [(i,⟨v,some c',h⟩)]) (fileEntry (nodeJson done) (i,⟨v,some c',h⟩)) rest) :=
          (next ⟨v,some c',h⟩).next alike.child
        obtain ⟨ys,n',h',st',more,others,run',whole,proper'⟩ := filled st₁
        simp only [fileEntry,proper,if_false,Bool.false_eq_true] at more run'
        have own : c.storeCalls = storeCallsBelow c.entries ++ [c] := by
          obtain ⟨cs⟩ := c
          rw [storeCalls]
          rfl
        refine ⟨xs ++ [block cfg c'] ++ ys,n',h',st',?_,?_,?_,whole,proper'⟩
        · simp only [storeLoop,unknown,if_true,Program.requestsBind,made,run,more,List.append_assoc]
        · rw [storeCallsBelow,if_pos unknown,own]
          exact List.rel_append (List.rel_append each (.cons ⟨c',alike,rfl⟩ .nil)) others
        · simp only [storeLoop,unknown,if_true,Program.runBind,run,run']
    · have known : hash.isEmpty = false := by simpa using unknown
      have step := next ⟨v,x,hash⟩
      rw [storeLoopKnown known]
      have same : storeCallsBelow ((i,⟨v,x,hash⟩) :: rest) = storeCallsBelow rest := by
        cases x <;> simp [storeCallsBelow,known]
      rw [same]
      simpa only [fileEntry,known,if_false,Bool.false_eq_true] using step

theorem storeAdds (adds : ∀ st x, ∃ hash st', S.add st x = (.ok hash,st') ∧ hash.isEmpty = false) (n : Node)
    (st : σ) : List.Forall₂ (fun d x => ∃ d', Alike d d' ∧ x = block cfg d') n.storeCalls
      ((n.store cfg).requests S.add st) := by
  have all : ∀ n : Node, AddsCalls cfg S (storeCallsBelow n.entries) n (n.store cfg) := by
    intro n
    induction n using Node.induct with
    | step es ih =>
      rw [store]
      exact storeLoopAdds adds es ih []
  obtain ⟨xs,n',hash,st',made,each,_,alike,_⟩ := all n st
  obtain ⟨es⟩ := n
  rw [made,storeCalls]
  exact List.rel_append each (.cons ⟨n',alike,rfl⟩ .nil)

end adds

section cut
variable {m : Nat} {key : Key} {pre post : Entries} {i : NodeId} {e : Entry Node} {c : Node}

theorem pathHashesHit (cut : CutAt key pre key) : pathHashes key ⟨pre ++ ((key : NodeId),e) :: post⟩ = [] := by
  have at_ := @lowerBoundCut key pre post _ e cut
  rw [pathHashes]
  split
  · rename_i same
    cases at_.symm.trans same
    rw [if_pos rfl]
  · rfl

theorem pathHashesDown (cut : CutAt key pre i) (other : i ≠ key) (child : e.child = some c) :
    pathHashes key ⟨pre ++ (i,e) :: post⟩ = e.childHash :: pathHashes key c := by
  have at_ := @lowerBoundCut key pre post _ e cut
  obtain ⟨v,x,hash⟩ := e
  cases child
  rw [pathHashes]
  split
  · rename_i same
    cases at_.symm.trans same
    rw [if_neg other]
  · rename_i none_
    exact absurd at_ (none_ _ _ _ _ _)

theorem splitsDown (cut : CutAt key pre i) (other : i ≠ key) (child : e.child = some c) :
    splits m key ⟨pre ++ (i,e) :: post⟩ = (decide (Entries.size (pre ++ (i,e) :: post) = m) && splits m key c) := by
  have at_ := @lowerBoundCut key pre post _ e cut
  obtain ⟨v,x,hash⟩ := e
  cases child
  rw [splits]
  split
  · rename_i same
    cases at_.symm.trans same
    simp [other]
  · rename_i same
    cases at_.symm.trans same
  · rename_i same
    cases at_.symm.trans same

theorem splitsBesideHit (cut : CutAt key pre key) :
    splitsBeside m key ⟨pre ++ ((key : NodeId),e) :: post⟩ = false := by
  have at_ := @lowerBoundCut key pre post _ e cut
  rw [splitsBeside]
  split
  · rename_i same
    cases at_.symm.trans same
    simp
  · rfl

theorem splitsBesideDown (cut : CutAt key pre i) (other : i ≠ key) (child : e.child = some c) :
    splitsBeside m key ⟨pre ++ (i,e) :: post⟩ = true ↔ splitsBeside m key c = true ∨
      Entries.size (pre ++ (i,e) :: post) = m ∧ splits m key c = true ∧
      pre.length ≠ (m + 1) / 2 ∧ pre.length + 1 ≠ (m + 1) / 2 := by
  have at_ := @lowerBoundCut key pre post _ e cut
  have before := @beforeCut key pre post _ e cut
  obtain ⟨v,x,hash⟩ := e
  cases child
  rw [splitsBeside]
  split
  · rename_i same
    cases at_.symm.trans same
    simp [other,before,and_assoc]
  · rename_i none_
    exact absurd at_ (none_ _ _ _ _ _)

theorem splitsHit (cut : CutAt key pre key) : splits m key ⟨pre ++ ((key : NodeId),e) :: post⟩ = false := by
  have at_ := @lowerBoundCut key pre post _ e cut
  rw [splits]
  split <;> rename_i same <;> cases at_.symm.trans same <;> simp

theorem bareLowerBound {es : Entries} (bare : Bare es) {v : Value} {x : Hash}
    (at_ : OrderedMap.lowerBound (key : NodeId) es = (i,⟨v,some c,x⟩) :: post) : False := by
  have null := (bare _ (lowerBoundMem at_)).1
  cases null

theorem splitsBesideLeaf {es : Entries} (bare : Bare es) : splitsBeside m key ⟨es⟩ = false := by
  rw [splitsBeside]
  split
  · rename_i at_
    exact (bareLowerBound bare at_).elim
  · rfl

theorem splitsLeaf {a b : Entries} (bare : Bare (a ++ b)) (less : ∀ p ∈ a, p.1 < (key : NodeId))
    (greater : ∀ p ∈ b, (key : NodeId) < p.1) :
    splits m key ⟨a ++ b⟩ = decide (Entries.size (a ++ b) = m) := by
  have at_ : OrderedMap.lowerBound (key : NodeId) (a ++ b) = b :=
    (OrderedMap.cutAt less fun p head => (OrderedMap.headOfAll greater p head).le).2
  rw [splits]
  split
  · rename_i same
    exact (bareLowerBound bare same).elim
  · rename_i i v x rest same
    have mem : (i,(⟨v,none,x⟩ : Entry Node)) ∈ b := by
      rw [← at_,same]
      exact List.mem_cons_self
    simp [(greater _ mem).ne']
  · rfl

theorem cutUnique {pre' post' : Entries} {i' : NodeId} {e' : Entry Node} (cut : CutAt key pre i)
    (cut' : CutAt key pre' i') (same : pre ++ (i,e) :: post = pre' ++ (i',e') :: post') :
    pre = pre' ∧ (i,e) = (i',e') ∧ post = post' := by
  have before := @beforeCut key pre post _ e cut
  have behind := @lowerBoundCut key pre post _ e cut
  rw [same,beforeCut cut'] at before
  rw [same,lowerBoundCut cut'] at behind
  cases behind
  exact ⟨before.symm,rfl,rfl⟩

theorem OffPath.at {h : Hash} (cut : CutAt key pre i) (off : OffPath key c h ⟨pre ++ (i,e) :: post⟩) :
    (∃ p, (p ∈ pre ∨ p ∈ post) ∧ p.2.child = some c ∧ p.2.childHash = h) ∨
      (i = key ∧ e.child = some c ∧ e.childHash = h) ∨
      (i ≠ key ∧ ∃ d, e.child = some d ∧ OffPath key c h d) := by
  generalize whole : Node.mk (pre ++ (i,e) :: post) = n at off
  cases off with
  | beside cut' mem child hash =>
    injection whole with whole
    obtain ⟨rfl,_,rfl⟩ := cutUnique cut cut' whole
    exact .inl ⟨_,mem,child,hash⟩
  | under cut' child hash =>
    injection whole with whole
    obtain ⟨_,same,_⟩ := cutUnique cut cut' whole
    cases same
    exact .inr (.inl ⟨rfl,child,hash⟩)
  | deeper cut' other child below =>
    injection whole with whole
    obtain ⟨_,same,_⟩ := cutUnique cut cut' whole
    cases same
    exact .inr (.inr ⟨other,_,child,below⟩)

end cut

theorem middleOf {A : Type} {L R pre post : List A} {p a b : A} (whole : pre ++ a :: b :: post = L ++ p :: R) :
    (L.length = pre.length ∧ p = a) ∨ (L.length = pre.length + 1 ∧ p = b) ∨
      (pre.length ≠ L.length ∧ pre.length + 1 ≠ L.length ∧ (p ∈ pre ∨ p ∈ post)) := by
  have at_ : (pre ++ a :: b :: post)[L.length]? = some p := by rw [whole]; simp
  rcases lt_or_ge L.length pre.length with less | ge
  · rw [List.getElem?_append_left less] at at_
    exact .inr (.inr ⟨by omega,by omega,.inl (List.mem_of_getElem? at_)⟩)
  · obtain ⟨k,len⟩ := Nat.exists_eq_add_of_le ge
    rw [List.getElem?_append_right ge,len,Nat.add_sub_cancel_left] at at_
    match k,len,at_ with
    | 0,len,at_ => exact .inl ⟨len,(Option.some.inj at_).symm⟩
    | 1,len,at_ => exact .inr (.inl ⟨len,(Option.some.inj at_).symm⟩)
    | k + 2,len,at_ => exact .inr (.inr ⟨by omega,by omega,.inr (List.mem_of_getElem? (i := k) at_)⟩)

section grown
variable {cfg : Config} {key : Key} {value : Value}

theorem grownSplits (two : 2 ≤ cfg.maxNodeSize) {d : Nat} {es es' : Entries} {ps : List Pause}
    (grown : Grown cfg key value d es ps es') (good : GoodAt cfg.maxNodeSize d es) :
    size es' = cfg.maxNodeSize + 1 ↔ splits cfg.maxNodeSize key ⟨es⟩ = true := by
  induction grown with
  | @leaf es bare =>
    have sorted : Sorted es := good.level.sorted
    have fits := good.fits
    rcases OrderedMap.cases (key : NodeId) es sorted with ⟨a,e,b,rfl,less,_⟩ | ⟨a,b,rfl,less,greater⟩
    · rw [OrderedMap.insertHit less,splitsHit ⟨less,le_rfl⟩]
      exact ⟨fun full => (by omega),fun none_ => by cases none_⟩
    · rw [sizeNew sorted less greater,splitsLeaf bare less greater,decide_eq_true_eq]
      omega
  | @hit d pre post e less =>
    have fits := good.fits
    rw [splitsHit ⟨less,le_rfl⟩,sizeReplace good.level.sorted]
    exact ⟨fun full => (by omega),fun none_ => by cases none_⟩
  | @pass d pre post c es' i e ps cut other child below fits' ih =>
    have whole := ih (good.child child)
    have fits := good.fits
    rw [splitsDown cut other child,show size (pre ++ (i,refill e es') :: post) = size (pre ++ (i,e) :: post) from
      sizeReplace good.level.sorted,Bool.and_eq_true,← whole]
    exact ⟨fun full => (by omega),fun full => (by omega)⟩
  | @absorb d pre post c L R i e x κ ps cut other child below full mid ih =>
    have whole := ih (good.child child)
    have after := (grownLevel two (.absorb cut other child below full mid) good).1.sorted
    rw [splitsDown cut other child,sizeAbsorb after good.level.sorted,Bool.and_eq_true,decide_eq_true_eq,← whole]
    exact ⟨fun room => ⟨by omega,full⟩,fun both => by omega⟩

theorem centredBelow {m : Nat} {pre post : Entries} {i : NodeId} {e : Entry Node} {c : Node} (cut : CutAt key pre i)
    (other : i ≠ key) (child : e.child = some c) (centred : splitsBeside m key ⟨pre ++ (i,e) :: post⟩ = false) :
    splitsBeside m key c = false := by
  by_contra beside
  rw [(splitsBesideDown cut other child).mpr (.inl (by simpa using beside))] at centred
  cases centred

theorem noHashEmpty : noHash.isEmpty = true := rfl

theorem middleFresh (two : 2 ≤ cfg.maxNodeSize) {d : Nat} {es L R : Entries} {κ : Key} {x : Entry Node}
    {ps : List Pause} (grown : Grown cfg key value d es ps (L ++ ((κ : NodeId),x) :: R))
    (good : GoodAt cfg.maxNodeSize d es) (centred : splitsBeside cfg.maxNodeSize key ⟨es⟩ = false)
    (full : size (L ++ ((κ : NodeId),x) :: R) = cfg.maxNodeSize + 1) (mid : L.length = (cfg.maxNodeSize + 1) / 2) :
    x.childHash = noHash := by
  have splitsHere := (grownSplits two grown good).mp full
  generalize whole : L ++ ((κ : NodeId),x) :: R = es' at grown full
  cases grown with
  | leaf bare =>
    have mem : ((κ : NodeId),x) ∈ L ++ ((κ : NodeId),x) :: R := by simp
    rw [whole] at mem
    rcases OrderedMap.memInsert mem with same | old
    · cases same
      rfl
    · exact (bare _ old).2
  | hit less =>
    rw [splitsHit ⟨less,le_rfl⟩] at splitsHere
    cases splitsHere
  | @pass d pre post c es' i e ps cut other child below fits' =>
    have same : size (pre ++ (i,refill e es') :: post) = size (pre ++ (i,e) :: post) := sizeReplace good.level.sorted
    have fits := good.fits
    omega
  | @absorb d pre post c L' R' i e x' κ' ps' cut other child below full' mid' =>
    rw [splitsDown cut other child,Bool.and_eq_true,decide_eq_true_eq] at splitsHere
    have place := (@splitsBesideDown cfg.maxNodeSize key pre post i e _ cut other child).not.mp (by simp [centred])
    rcases middleOf whole.symm with ⟨_,same⟩ | ⟨_,same⟩ | ⟨first,second,_⟩
    · cases same
      rfl
    · cases same
      rfl
    · exact absurd (.inr ⟨splitsHere.1,splitsHere.2,by omega,by omega⟩) place

theorem splitHangs {L R : Entries} {κ : Key} {x : Entry Node} (fresh : x.childHash = noHash) {c : Node} {h : Hash}
    (proper : h.isEmpty = false) (hangs : Hangs c h ⟨L ++ ((κ : NodeId),x) :: R⟩) :
    Hangs c h ⟨L ++ [(⊤,⟨⟨[]⟩,x.child,noHash⟩)]⟩ ∨ Hangs c h ⟨R⟩ := by
  cases hangs with
  | here mem child hash =>
    rcases List.mem_append.mp mem with left | right
    · exact .inl (.here (List.mem_append_left _ left) child hash)
    · rcases List.mem_cons.mp right with rfl | right
      · rw [show x.childHash = h from hash] at fresh
        rw [fresh] at proper
        cases proper
      · exact .inr (.here right child hash)
  | deeper mem child below =>
    rcases List.mem_append.mp mem with left | right
    · exact .inl (.deeper (List.mem_append_left _ left) child below)
    · rcases List.mem_cons.mp right with rfl | right
      · exact .inl (.deeper (p := ((⊤ : NodeId),(⟨⟨[]⟩,x.child,noHash⟩ : Entry Node))) (by simp) child below)
      · exact .inr (.deeper right child below)

theorem offPathHangs (two : 2 ≤ cfg.maxNodeSize) {c : Node} {h : Hash} (proper : h.isEmpty = false) {d : Nat}
    {es es' : Entries} {ps : List Pause} (grown : Grown cfg key value d es ps es')
    (good : GoodAt cfg.maxNodeSize d es)
    (centred : splitsBeside cfg.maxNodeSize key ⟨es⟩ = false) (off : OffPath key c h ⟨es⟩) : Hangs c h ⟨es'⟩ := by
  induction grown with
  | @leaf es bare =>
    have null {p : NodeId × Entry Node} {d : Node} (mem : p ∈ es) (child : p.2.child = some d) : False := by
      rw [(bare p mem).1] at child
      cases child
    cases off with
    | beside _ mem child => exact (null (by rcases mem with mem | mem <;> simp [mem]) child).elim
    | @under _ _ e _ child => exact (null (p := ((key : NodeId),e)) (by simp) child).elim
    | @deeper _ _ i e _ _ _ child => exact (null (p := (i,e)) (by simp) child).elim
  | @hit d pre post e less =>
    rcases off.at ⟨less,le_rfl⟩ with ⟨p,mem,child,hash⟩ | ⟨_,child,hash⟩ | ⟨other,_⟩
    · exact .here (by rcases mem with mem | mem <;> simp [mem]) child hash
    · exact .here (p := ((key : NodeId),{ e with value := value })) (by simp) child hash
    · exact absurd rfl other
  | @pass d pre post c₀ es' i e ps cut other child₀ below fits' ih =>
    rcases off.at cut with ⟨p,mem,child,hash⟩ | ⟨same,_⟩ | ⟨_,c₁,child₁,off'⟩
    · exact .here (by rcases mem with mem | mem <;> simp [mem]) child hash
    · exact absurd same other
    · cases child₀.symm.trans child₁
      have hangs := ih (good.child child₀) (centredBelow cut other child₀ centred) off'
      exact .deeper (p := (i,refill e es')) (by simp) rfl hangs
  | @absorb d pre post c₀ L R i e x κ ps cut other child₀ below full mid ih =>
    rcases off.at cut with ⟨p,mem,child,hash⟩ | ⟨same,_⟩ | ⟨_,c₁,child₁,off'⟩
    · exact .here (by rcases mem with mem | mem <;> simp [mem]) child hash
    · exact absurd same other
    · cases child₀.symm.trans child₁
      have centred' := centredBelow cut other child₀ centred
      have fresh := middleFresh two below (good.child child₀) centred' full mid
      rcases splitHangs fresh proper (ih (good.child child₀) centred' off') with left | right
      · exact .deeper (p := ((κ : NodeId),upper L x)) (by simp) rfl left
      · exact .deeper (p := (i,refill e R)) (by simp) rfl right

theorem tryRemoveMost (cfg : Config) (hash : Hash) (tree : Node) (held : Option Node) :
    hashes (tryRemove cfg hash tree held) ≤ {hash} := by
  unfold tryRemove
  split
  · exact Multiset.zero_le _
  · split
    · exact le_rfl
    · exact Multiset.zero_le _

theorem removedOnPath (two : 2 ≤ cfg.maxNodeSize) {d : Nat} {es es' : Entries} {ps : List Pause}
    (grown : Grown cfg key value d es ps es') (good : GoodAt cfg.maxNodeSize d es)
    (centred : splitsBeside cfg.maxNodeSize key ⟨es⟩ = false) :
    hashes ps ≤ (pathHashes key ⟨es⟩ : Multiset Hash) := by
  induction grown with
  | leaf => exact Multiset.zero_le _
  | hit => exact Multiset.zero_le _
  | @pass d pre post c es' i e ps cut other child below fits' ih =>
    have rest := ih (good.child child) (centredBelow cut other child centred)
    rw [hashesAppend,hashesInside,pathHashesDown cut other child,← Multiset.cons_coe,← Multiset.singleton_add,
      add_comm]
    exact add_le_add (tryRemoveMost ..) rest
  | @absorb d pre post c L R i e x κ ps cut other child below full mid ih =>
    have centred' := centredBelow cut other child centred
    have fresh := middleFresh two below (good.child child) centred' full mid
    have nothing : tryRemove cfg x.childHash ⟨((κ : NodeId),upper L x) :: R⟩ none = [] := by
      rw [fresh,tryRemove,if_pos noHashEmpty]
    rw [nothing,List.append_nil,hashesAppend,hashesInside,pathHashesDown cut other child,← Multiset.cons_coe,
      ← Multiset.singleton_add,add_comm]
    exact add_le_add (tryRemoveMost ..) (ih (good.child child) centred')

def StoredBelowOf (d : Node) (es : Entries) : Prop :=
  ∃ p ∈ es, ∃ c, p.2.child = some c ∧ p.2.childHash.isEmpty = true ∧ StoreCalled d c

theorem storedHalves {L R : Entries} {κ : Key} {x : Entry Node} {d : Node}
    (stored : StoredBelowOf d (L ++ ((κ : NodeId),x) :: R)) :
    StoreCalled d ⟨L ++ [(⊤,⟨⟨[]⟩,x.child,noHash⟩)]⟩ ∨ StoreCalled d ⟨R⟩ := by
  obtain ⟨p,mem,c,child,unknown,below⟩ := stored
  rcases List.mem_append.mp mem with left | right
  · exact .inl (.deeper (List.mem_append_left _ left) child unknown below)
  · rcases List.mem_cons.mp right with rfl | right
    · exact .inl (.deeper (p := ((⊤ : NodeId),(⟨⟨[]⟩,x.child,noHash⟩ : Entry Node)))
        (by simp) child noHashEmpty below)
    · exact .inr (.deeper right child unknown below)

theorem middleStored {L : Entries} {x : Entry Node} {c : Node} (child : x.child = some c) :
    StoreCalled c ⟨L ++ [(⊤,⟨⟨[]⟩,x.child,noHash⟩)]⟩ :=
  .deeper (p := ((⊤ : NodeId),(⟨⟨[]⟩,x.child,noHash⟩ : Entry Node))) (by simp) child noHashEmpty .here

theorem besideStored (two : 2 ≤ cfg.maxNodeSize) {d : Nat} {es es' : Entries} {ps : List Pause}
    (grown : Grown cfg key value d es ps es') (good : GoodAt cfg.maxNodeSize d es)
    (beside : splitsBeside cfg.maxNodeSize key ⟨es⟩ = true) :
    (∃ c h, OffPath key c h ⟨es⟩ ∧ StoredBelowOf c es') ∨
      (size es' = cfg.maxNodeSize + 1 ∧ ∀ (L R : Entries) (κ : Key) (x : Entry Node),
      es' = L ++ ((κ : NodeId),x) :: R →
        L.length = (cfg.maxNodeSize + 1) / 2 → ∃ c, x.child = some c ∧ OffPath key c x.childHash ⟨es⟩) := by
  induction grown with
  | leaf bare =>
    rw [splitsBesideLeaf bare] at beside
    cases beside
  | hit less =>
    rw [splitsBesideHit ⟨less,le_rfl⟩] at beside
    cases beside
  | @pass d pre post c es' i e ps cut other child below fits' ih =>
    rcases (splitsBesideDown cut other child).mp beside with deeper | ⟨_,splitsChild,_⟩
    · rcases ih (good.child child) deeper with ⟨c',h,off,p,mem,c'',child',unknown,stored⟩ | ⟨full,_⟩
      · exact .inl ⟨c',h,.deeper cut other child off,(i,refill e es'),by simp,⟨es'⟩,rfl,noHashEmpty,
          .deeper mem child' unknown stored⟩
      · omega
    · have full := (grownSplits two below (good.child child)).mpr splitsChild
      omega
  | @absorb d pre post c L R i e x κ ps cut other child below full mid ih =>
    rcases (splitsBesideDown cut other child).mp beside with deeper | ⟨room,splitsChild,first,second⟩
    · refine .inl ?_
      rcases ih (good.child child) deeper with ⟨c',h,off,stored⟩ | ⟨_,middle_⟩
      · refine ⟨c',h,.deeper cut other child off,?_⟩
        rcases storedHalves stored with left | right
        · exact ⟨((κ : NodeId),upper L x),by simp,_,rfl,noHashEmpty,left⟩
        · exact ⟨(i,refill e R),by simp,_,rfl,noHashEmpty,right⟩
      · obtain ⟨c',child',off⟩ := middle_ L R κ x rfl mid
        exact ⟨c',_,.deeper cut other child off,((κ : NodeId),upper L x),by simp,_,rfl,noHashEmpty,
          middleStored child'⟩
    · refine .inr ⟨?_,fun L' R' κ' x' whole mid' => ?_⟩
      · have grown' : Grown cfg key value (d + 1) (pre ++ (i,e) :: post) _ _ := .absorb cut other child below full mid
        exact (grownSplits two grown' good).mpr
          (by rw [splitsDown cut other child]; simp [room,splitsChild])
      · rcases middleOf whole with ⟨len,_⟩ | ⟨len,_⟩ | ⟨_,_,mem⟩
        · omega
        · omega
        · obtain ⟨c',child',_⟩ := good.level.2.2 ((κ' : NodeId),x') (by rcases mem with mem | mem <;> simp [mem])
          exact ⟨c',child',.beside cut mem child' rfl⟩

end grown
end IpfsCache
