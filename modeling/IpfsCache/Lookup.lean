import IpfsCache.PartialTree
import IpfsCache.BTree

/-! A find on a tree that is partly in memory. It follows the search path of its key and
either has its answer, or asks for the block of the first node that is not there; when the
block has come it goes on from that node. -/
namespace IpfsCache
open OrderedMap (Sorted)
open Node Entries

inductive Stored (cfg : Config) (R : Hash → Value → Prop) : Node → Prop
  | mk {es : Entries} (doc : Printable StdString.ValidUtf8 es) (bound : Bound es)
      (blocks : ∀ p ∈ es, ∀ c, p.2.child = some c → R p.2.childHash (block cfg c))
      (below : ∀ p ∈ es, ∀ c, p.2.child = some c → Stored cfg R c) : Stored cfg R ⟨es⟩

inductive Way (key : Key) : Node → Hash → List NodeId → Node → Hash → Prop
  | here {T : Node} {h : Hash} : Way key T h [] T h
  | down {es post : Entries} {i : NodeId} {v : Value} {c c' : Node} {x h g : Hash} {path : List NodeId}
      (at_ : OrderedMap.lowerBound (key : NodeId) es = (i,⟨v,some c,x⟩) :: post) (other : i ≠ key)
      (below : Way key c x path c' g) : Way key ⟨es⟩ h (i :: path) c' g

inductive Looked (pend : List NodeId → Prop) (key : Key) (T : Node) (h : Hash) (bound : Nat) :
    Option Node × FindStep → Prop
  | found {x : Option Node} (seen : Seen pend x T) :
      Looked pend key T h bound (x,.done (answer (OrderedMap.find key T.flatten)))
  | asks {x : Option Node} {path : List NodeId} {c : Node} {g : Hash} (way : Way key T h path c g)
      (free : ∀ q, ¬ pend (path ++ q)) (smaller : sizeOf c < bound) (seen : Seen (fun q => pend q ∨ q = path) x T) :
      Looked pend key T h bound (x,.cat path g)

def Blocked (pend : List NodeId → Prop) (key : Key) (T : Node) (h : Hash) (x : Option Node)
    (out : Option Node × FindStep) : Prop :=
  ∃ path c g, Way key T h path c g ∧ pend path ∧ out = (x,.done (.error .notFound))

theorem findEnd {key : Key} {es : Entries} (at_ : OrderedMap.lowerBound (key : NodeId) es = []) :
    Node.find key ⟨es⟩ = (⟨es⟩,.done (.error .notFound)) := by
  unfold Node.find
  split
  · rfl
  · rename_i same
    rw [at_] at same
    cases same

theorem findHere {key : Key} {es post : Entries} {e : Entry Node}
    (at_ : OrderedMap.lowerBound (key : NodeId) es = ((key : NodeId),e) :: post) :
    Node.find key ⟨es⟩ = (⟨es⟩,.done (.ok e.value)) := by
  unfold Node.find
  split
  · rename_i same
    rw [at_] at same
    cases same
  · rename_i same
    cases at_.symm.trans same
    rw [if_pos rfl]

theorem findDown {key : Key} {es post : Entries} {i : NodeId} {e : Entry Node}
    (at_ : OrderedMap.lowerBound (key : NodeId) es = (i,e) :: post) (other : i ≠ key) :
    Node.find key ⟨es⟩ =
      (⟨OrderedMap.before (key : NodeId) es ++ (i,{ e with child := (BTree.lazyFind e.childHash e.child key).1 }) :: post⟩,
        (BTree.lazyFind e.childHash e.child key).2.under i) := by
  have whole : OrderedMap.before (key : NodeId) es ++ (i,e) :: post = es := by rw [← at_,OrderedMap.cut]
  unfold Node.find
  split
  · rename_i same
    rw [at_] at same
    cases same
  · rename_i same
    cases at_.symm.trans same
    dsimp only
    rw [if_neg other]
    split
    · rename_i null
      obtain ⟨v,x,hash⟩ := e
      cases null
      by_cases empty : hash.isEmpty = true
      · simp [BTree.lazyFind,empty,FindStep.under,whole]
      · simp [BTree.lazyFind,empty,FindStep.under]
    · rename_i c child
      obtain ⟨v,x,hash⟩ := e
      cases child
      rfl

section looks
variable {pend : List NodeId → Prop} {key : Key} {pre post P₁ P₂ : Entries} {i : NodeId} {v w : Value}
    {c : Node} {g h : Hash}
  {bound : Nat}

theorem Looked.up (tree : SearchTree ⟨pre ++ (i,⟨w,some c,g⟩) :: post⟩) (cut : CutAt key pre i) (other : i ≠ key)
    (filled : ¬ pend []) (left : View pend P₁ pre) (right : View pend P₂ post) (value : i ≠ ⊤ → v = w)
    {out : Option Node × FindStep} (proper : out.1 = none → g.isEmpty = false)
    (below : Looked (fun q => pend (i :: q)) key c g bound out) :
    Looked pend key ⟨pre ++ (i,⟨w,some c,g⟩) :: post⟩ h bound (some ⟨P₁ ++ (i,⟨v,out.1,g⟩) :: P₂⟩,
    out.2.under i) := by
  obtain ⟨x,step⟩ := out
  have sorted := tree.ordered.here
  have entry {pend' : List NodeId → Prop} (seen : Seen (fun q => pend' (i :: q)) x c) :
      EntrySeen pend' i ⟨v,x,g⟩ ⟨w,some c,g⟩ :=
    ⟨rfl,value,fun none_ => (by cases none_),fun c' same => (by cases same; exact seen),
      fun _ _ none_ => proper none_⟩
  cases below with
  | found seen =>
    have look := tree.lookupBelow cut other
    rw [show belowEntry (⟨w,some c,g⟩ : Entry Node).child = c.flatten from rfl] at look
    rw [← look]
    exact .found (.read filled (.replace sorted left (entry seen) right fun _ _ _ => Iff.rfl))
  | @asks _ path c' g' way free smaller seen =>
    refine .asks (.down (lowerBoundCut cut) other way) free smaller
      (.read (fun held => ?_) (.replace sorted left (entry ?_) right ?_))
    · exact held.elim filled fun same => by cases same
    · have paths : (fun q => pend (i :: q) ∨ i :: q = i :: path) = fun q => pend (i :: q) ∨ q = path :=
        funext fun q => by rw [List.cons.injEq,and_iff_right rfl]
      change Seen (fun q => pend (i :: q) ∨ i :: q = i :: path) x c
      rw [paths]
      exact seen
    · intro j apart q
      have differ : j :: q ≠ i :: path := fun same => apart (List.cons.inj same).1
      simp [differ]

theorem lazyFindLooks (key : Key) (T : Node) :
    ∀ (pend : List NodeId → Prop) (h : Hash) (x : Option Node) (bound : Nat), SearchTree T →
    (x = none → h.isEmpty = false) → Seen pend x T → sizeOf T ≤ bound → (x = none → sizeOf T < bound) →
      Looked pend key T h bound (BTree.lazyFind h x key) ∨ Blocked pend key T h x (BTree.lazyFind h x key) := by
  induction T using Node.induct with
  | step es ih =>
    intro pend h x bound tree proper seen most strict
    cases seen with
    | unread free =>
      refine .inl ?_
      simp only [BTree.lazyFind,proper rfl,if_false,Bool.false_eq_true]
      exact .asks .here free (strict rfl) (.waiting (.inr rfl) fun q some_ held => held.elim (free q) some_)
    | waiting here _ =>
      refine .inr ⟨[],_,h,.here,here,?_⟩
      rw [BTree.lazyFind,findEnd (show OrderedMap.lowerBound (key : NodeId) [] = [] from rfl)]
      rfl
    | @read p _ filled view =>
      rw [show BTree.lazyFind h (some ⟨p⟩) key = (Node.find key ⟨p⟩).map some id from rfl]
      cases at_ : OrderedMap.lowerBound (key : NodeId) es with
      | nil =>
        have none_ : OrderedMap.find key (flatten ⟨es⟩) = none := tree.lookupEnd at_
        have out : Looked pend key ⟨es⟩ h bound (some ⟨p⟩,_) := .found (.read filled view)
        rw [none_] at out
        rw [findEnd (view.atEnd at_)]
        exact .inl out
      | cons q post =>
        obtain ⟨i,e⟩ := q
        obtain ⟨whole,cut⟩ := cutOf at_
        have inside : (i,e) ∈ es := lowerBoundMem at_
        have tree' := tree
        rw [whole] at tree' view
        rcases view.cutAt tree'.ordered.here cut with ⟨P₁,f,P₂,rfl,before_,at',left,entry,right⟩ | ⟨at',top,none_⟩
        · by_cases hit : i = key
          · subst hit
            have found : OrderedMap.find key (flatten ⟨es⟩) = some e.value := by
              rw [whole]
              exact tree'.lookupHere cut
            have out : Looked pend key _ h bound (some ⟨P₁ ++ (_,f) :: P₂⟩,_) := .found (.read filled view)
            rw [← whole,found] at out
            rw [findHere at',entry.value WithTop.coe_ne_top]
            exact .inl out
          · rw [findDown at' hit,before_]
            obtain ⟨v,y,g⟩ := f
            obtain ⟨w,child,g'⟩ := e
            have same : g = g' := entry.hash
            subst same
            cases child with
            | none =>
              obtain ⟨null,empty,_⟩ := entry.bare rfl
              cases null
              have empty' : g = noHash := empty
              subst empty'
              have look := tree'.lookupBelow cut hit
              have out : Looked pend key _ h bound (some ⟨P₁ ++ (i,⟨v,none,noHash⟩) :: P₂⟩,_) :=
                  .found (.read filled view)
              rw [look,← whole] at out
              exact .inl out
            | some c =>
              have smaller : sizeOf c < sizeOf (Node.mk es) := by
                rw [Node.mk.sizeOf_spec]
                exact childSmaller inside rfl
              rcases ih _ inside c rfl _ g y bound (tree.child inside rfl)
                (fun none_ => entry.proper c rfl none_) (entry.child c rfl)
                (by omega) (fun _ => by omega) with looked | ⟨path,c',g',way,held,out⟩
              · have up := Looked.up (h := h) tree' cut hit filled left right entry.value (fun none_ => ?_) looked
                · rw [← whole] at up
                  exact .inl up
                · cases y with
                  | none => exact entry.proper c rfl rfl
                  | some n => simp [BTree.lazyFind] at none_
              · refine .inr ⟨i :: path,c',g',.down at_ hit way,held,?_⟩
                rw [out]
                rfl
        · have out : Looked pend key _ h bound (some ⟨p⟩,_) := .found (.read filled view)
          have look := tree'.lookupBelow cut (by rw [top]; exact WithTop.top_ne_coe)
          rw [none_] at look
          rw [look,← whole] at out
          rw [findEnd at']
          exact .inl out

theorem resumeDown {cfg : Config} {data : Except ErrorCode Value} {path : List NodeId} {es rest : Entries}
    {e : Entry Node} {n : Node} (at_ : OrderedMap.lowerBound i es = (i,e) :: rest) (child : e.child = some n) :
    resume cfg key data (i :: path) ⟨es⟩ =
      (⟨OrderedMap.before i es ++ (i,{ e with child := some (resume cfg key data path n).1 }) :: rest⟩,
        (resume cfg key data path n).2.under i) := by
  rw [resume,at_]
  simp only [if_true,child]

theorem resumeLooks {cfg : Config} (back : cfg.json.ParsesBack) (usable : Usable StdString.ValidUtf8)
    {R : Hash → Value → Prop}
    {T c : Node} {path : List NodeId} (way : Way key T h path c g) :
    ∀ (pend : List NodeId → Prop) (n : Node), SearchTree T → Stored cfg R T → Seen pend (some n) T → pend path →
      Looked (fun q => pend q ∧ q ≠ path) key T h (sizeOf c)
      ((n.resume cfg key (.ok (block cfg c)) path).map some id) := by
  induction way with
  | @here T h =>
    intro pend n tree stored seen held
    cases stored with
    | @mk es doc bound _ _ =>
      have empty : (fun q => pend q ∧ q ≠ []) = fun _ => False := by
        cases seen with
        | waiting _ free => exact funext fun q => eq_false fun h => free q h.2 h.1
        | read filled _ => exact absurd held filled
      have filled : View (fun _ => False) (stubs es) es := viewStubs doc.keyed.sorted bound fun _ _ => id
      have step : (n.resume cfg key (.ok (block cfg ⟨es⟩)) []).map some id = BTree.lazyFind h
          (some ⟨stubs es⟩) key := by
        rw [resume,restoreBlock back usable doc]
        rfl
      rw [empty,step]
      rcases lazyFindLooks key ⟨es⟩ (fun _ => False) h (some ⟨stubs es⟩) (sizeOf (Node.mk es)) tree
        (fun none_ => by cases none_)
        (.read id filled) le_rfl (fun none_ => by cases none_) with looked | ⟨_,_,_,_,held,_⟩
      · exact looked
      · exact held.elim
  | @down es post i v c c' x h g path at_ other below ih =>
    intro pend n tree stored seen held
    obtain ⟨whole,cut⟩ := cutOf at_
    have inside : (i,(⟨v,some c,x⟩ : Entry Node)) ∈ es := lowerBoundMem at_
    cases stored with
    | mk _ _ _ storedBelow =>
      cases seen with
      | waiting _ free => exact absurd held (free _ (by simp))
      | @read p _ filled view =>
        have tree' := tree
        rw [whole] at tree' view
        rcases view.cutAt tree'.ordered.here cut with ⟨P₁,f,P₂,rfl,_,_,left,entry,right⟩ | ⟨_,_,none_⟩
        · obtain ⟨v',y,x'⟩ := f
          have same : x' = x := entry.hash
          subst same
          have seenChild : Seen (fun q => pend (i :: q)) y c := entry.child c rfl
          obtain ⟨m,rfl⟩ := seenChild.there held
          have looked := ih _ m (tree.child inside rfl) (storedBelow _ inside c rfl) seenChild held
          have paths : (fun q => pend (i :: q) ∧ i :: q ≠ i :: path) = fun q => pend (i :: q) ∧ q ≠ path :=
            funext fun q => by rw [ne_eq,List.cons.injEq,and_iff_right rfl]
          have less : ∀ q ∈ P₁, q.1 < i := fun q mem => by
            obtain ⟨t,within,same⟩ := left.keys q mem
            rw [← same]
            exact (OrderedMap.sortedAppend.mp tree'.ordered.here).2.2 t within _ List.mem_cons_self
          have at' := OrderedMap.cutAt (b := (i,(⟨v',some m,x'⟩ : Entry Node)) :: P₂) less (by simp)
          have others : ∀ j, j ≠ i → ∀ q, (pend (j :: q) ∧ j :: q ≠ i :: path) ↔ pend (j :: q) := fun j apart q =>
            and_iff_left fun same => apart (List.cons.inj same).1
          have parts := OrderedMap.sortedAppend.mp tree'.ordered.here
          have above := (OrderedMap.sortedCons.mp parts.2.1).1
          have left' : View (fun q => pend q ∧ q ≠ i :: path) P₁ (OrderedMap.before (key : NodeId) es) :=
            left.congr fun t mem => others t.1 (parts.2.2 t mem _ List.mem_cons_self).ne
          have right' : View (fun q => pend q ∧ q ≠ i :: path) P₂ post := right.congr fun t mem =>
              others t.1 (above t mem).ne'
          have up := Looked.up (h := h) tree' cut other (fun held => filled held.1) left' right' entry.value
            (fun none_ => by cases none_) (paths ▸ looked)
          rw [← whole] at up
          rw [resumeDown at'.2 rfl,at'.1]
          exact up
        · cases none_

end looks
end IpfsCache
