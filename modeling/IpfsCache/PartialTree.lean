import IpfsCache.Distinct

/-! A tree of which a part is in memory. A child may be unread, its node may be there and
still empty because a find waits for its block, or it has been read; an INF entry that was
not worth storing may be missing. `pend` has the paths at which a find is waiting. -/
namespace IpfsCache
open OrderedMap (Sorted)
open Node Entries

inductive View : (List NodeId → Prop) → Entries → Entries → Prop
  | nil {pend : List NodeId → Prop} : View pend [] []
  | idle {pend : List NodeId → Prop} {v : Value} : View pend [] [(⊤,⟨v,none,noHash⟩)]
  | bare {pend : List NodeId → Prop} {i : NodeId} {v w : Value} {P T : Entries} (value : i ≠ ⊤ → v = w)
      (free : ∀ q, ¬ pend (i :: q)) (rest : View pend P T) :
      View pend ((i,⟨v,none,noHash⟩) :: P) ((i,⟨w,none,noHash⟩) :: T)
  | unread {pend : List NodeId → Prop} {i : NodeId} {v w : Value} {hash : Hash} {c : Node} {P T : Entries}
      (value : i ≠ ⊤ → v = w) (proper : hash.isEmpty = false) (free : ∀ q, ¬ pend (i :: q)) (rest : View pend P T) :
      View pend ((i,⟨v,none,hash⟩) :: P) ((i,⟨w,some c,hash⟩) :: T)
  | waiting {pend : List NodeId → Prop} {i : NodeId} {v w : Value} {hash : Hash} {c : Node} {P T : Entries}
      (value : i ≠ ⊤ → v = w) (here : pend [i]) (free : ∀ q, q ≠ [] → ¬ pend (i :: q)) (rest : View pend P T) :
      View pend ((i,⟨v,some ⟨[]⟩,hash⟩) :: P) ((i,⟨w,some c,hash⟩) :: T)
  | read {pend : List NodeId → Prop} {i : NodeId} {v w : Value} {hash : Hash} {p c P T : Entries}
      (value : i ≠ ⊤ → v = w) (filled : ¬ pend [i]) (below : View (fun q => pend (i :: q)) p c)
        (rest : View pend P T) :
      View pend ((i,⟨v,some ⟨p⟩,hash⟩) :: P) ((i,⟨w,some ⟨c⟩,hash⟩) :: T)

inductive Seen (pend : List NodeId → Prop) : Option Node → Node → Prop
  | unread {c : Node} (free : ∀ q, ¬ pend q) : Seen pend none c
  | waiting {c : Node} (here : pend []) (free : ∀ q, q ≠ [] → ¬ pend q) : Seen pend (some ⟨[]⟩) c
  | read {p c : Entries} (filled : ¬ pend []) (below : View pend p c) : Seen pend (some ⟨p⟩) ⟨c⟩

theorem Seen.there {pend : List NodeId → Prop} {x : Option Node} {c : Node} (seen : Seen pend x c) {q : List NodeId}
    (held : pend q) : ∃ n, x = some n := by
  cases seen with
  | unread free => exact absurd held (free q)
  | waiting => exact ⟨_,rfl⟩
  | read => exact ⟨_,rfl⟩

structure EntrySeen (pend : List NodeId → Prop) (i : NodeId) (f e : Entry Node) : Prop where
  hash : f.childHash = e.childHash
  value : i ≠ ⊤ → f.value = e.value
  bare : e.child = none → f.child = none ∧ e.childHash = noHash ∧ ∀ q, ¬ pend (i :: q)
  child : ∀ c, e.child = some c → Seen (fun q => pend (i :: q)) f.child c
  proper : ∀ c, e.child = some c → f.child = none → e.childHash.isEmpty = false

section view
variable {pend pend' : List NodeId → Prop} {i : NodeId} {e f : Entry Node} {P T : Entries}

theorem View.cons (entry : EntrySeen pend i f e) (rest : View pend P T) : View pend ((i,f) :: P) ((i,e) :: T) := by
  obtain ⟨v,x,hash⟩ := f
  obtain ⟨w,y,hash'⟩ := e
  have same : hash = hash' := entry.hash
  subst same
  cases y with
  | none =>
    obtain ⟨none_,empty,free⟩ := entry.bare rfl
    cases none_
    have hash_ : hash = noHash := empty
    subst hash_
    exact .bare entry.value free rest
  | some c =>
    have seen : Seen _ x c := entry.child c rfl
    cases seen with
    | unread free => exact .unread entry.value (entry.proper c rfl rfl) free rest
    | waiting here free => exact .waiting entry.value here free rest
    | read filled below => exact .read entry.value filled below rest

theorem View.head (h : View pend P ((i,e) :: T)) :
    (∃ f P', P = (i,f) :: P' ∧ EntrySeen pend i f e ∧ View pend P' T) ∨
    (P = [] ∧ i = ⊤ ∧ e.child = none ∧ e.childHash = noHash ∧ T = []) := by
  cases h with
  | idle => exact .inr ⟨rfl,rfl,rfl,rfl,rfl⟩
  | bare value free rest =>
    exact .inl ⟨_,_,rfl,⟨rfl,value,fun _ => ⟨rfl,rfl,free⟩,fun c same => (by cases same),
      fun c same => (by cases same)⟩,rest⟩
  | unread value proper free rest =>
    refine .inl ⟨_,_,rfl,⟨rfl,value,fun same => ?_,fun c same => ?_,fun _ _ _ => proper⟩,rest⟩ <;> cases same
    exact .unread free
  | waiting value here free rest =>
    refine .inl ⟨_,_,rfl,⟨rfl,value,fun same => ?_,fun c same => ?_,fun c _ same => ?_⟩,rest⟩ <;> cases same
    exact .waiting here free
  | read value filled below rest =>
    refine .inl ⟨_,_,rfl,⟨rfl,value,fun same => ?_,fun c same => ?_,fun c _ same => ?_⟩,rest⟩ <;> cases same
    exact .read filled below

theorem View.keys (h : View pend P T) : ∀ p ∈ P, ∃ t ∈ T, t.1 = p.1 := by
  induction T generalizing P with
  | nil => cases h; simp
  | cons t T ih =>
    rcases h.head with ⟨f,P',rfl,_,rest⟩ | ⟨rfl,_⟩
    · exact List.forall_mem_cons.mpr ⟨⟨t,by simp,rfl⟩,
        fun p mem => (ih rest p mem).imp fun _ h => ⟨List.mem_cons_of_mem _ h.1,h.2⟩⟩
    · simp

theorem View.append {P' T' : Entries} (real : ∀ t ∈ T, t.1 ≠ ⊤) (h : View pend P T) (h' : View pend P' T') :
    View pend (P ++ P') (T ++ T') := by
  induction T generalizing P with
  | nil => cases h; exact h'
  | cons t T ih =>
    obtain ⟨i,e⟩ := t
    rcases h.head with ⟨f,P₁,rfl,entry,rest⟩ | ⟨_,top,_⟩
    · exact .cons entry (ih (fun t mem => real t (List.mem_cons_of_mem _ mem)) rest)
    · exact absurd top (real (i,e) (by simp))

theorem View.split {T' : Entries} (real : ∀ t ∈ T, t.1 ≠ ⊤) (h : View pend P (T ++ T')) :
    ∃ P₁ P₂, P = P₁ ++ P₂ ∧ View pend P₁ T ∧ View pend P₂ T' := by
  induction T generalizing P with
  | nil => exact ⟨[],P,rfl,.nil,h⟩
  | cons t T ih =>
    obtain ⟨i,e⟩ := t
    rcases h.head with ⟨f,P',rfl,entry,rest⟩ | ⟨_,top,_⟩
    · obtain ⟨P₁,P₂,rfl,left,right⟩ := ih (fun t mem => real t (List.mem_cons_of_mem _ mem)) rest
      exact ⟨(i,f) :: P₁,P₂,rfl,.cons entry left,right⟩
    · exact absurd top (real (i,e) (by simp))

theorem View.congr (h : View pend P T) (same : ∀ t ∈ T, ∀ q, pend' (t.1 :: q) ↔ pend (t.1 :: q)) :
    View pend' P T := by
  induction T generalizing P with
  | nil => cases h; exact .nil
  | cons t T ih =>
    obtain ⟨i,e⟩ := t
    have here (q : List NodeId) : pend' (i :: q) ↔ pend (i :: q) := same (i,e) (by simp) q
    have paths : (fun q => pend' (i :: q)) = fun q => pend (i :: q) := funext fun q => propext (here q)
    rcases h.head with ⟨f,P',rfl,entry,rest⟩ | ⟨rfl,rfl,none_,empty,rfl⟩
    · refine .cons ⟨entry.hash,entry.value,fun none_ => ?_,fun c child => ?_,entry.proper⟩
        (ih rest fun t mem => same t (List.mem_cons_of_mem _ mem))
      · obtain ⟨null,empty,free⟩ := entry.bare none_
        exact ⟨null,empty,fun q held => free q ((here q).mp held)⟩
      · rw [paths]
        exact entry.child c child
    · obtain ⟨v,x,hash⟩ := e
      cases none_
      have hash_ : hash = noHash := empty
      subst hash_
      exact .idle

theorem View.cutAt {key : Key} {pre post : Entries} (sorted : Sorted (pre ++ (i,e) :: post)) (cut : CutAt key pre i)
    (h : View pend P (pre ++ (i,e) :: post)) :
    (∃ P₁ f P₂, P = P₁ ++ (i,f) :: P₂ ∧ OrderedMap.before (key : NodeId) P = P₁ ∧
      OrderedMap.lowerBound (key : NodeId) P = (i,f) :: P₂ ∧
      View pend P₁ pre ∧ EntrySeen pend i f e ∧ View pend P₂ post) ∨
    (OrderedMap.lowerBound (key : NodeId) P = [] ∧ i = ⊤ ∧ e.child = none) := by
  obtain ⟨P₁,P₂,rfl,left,right⟩ := h.split (realBefore sorted)
  have less : ∀ p ∈ P₁, p.1 < (key : NodeId) := fun p mem => by
    obtain ⟨t,inside,same⟩ := left.keys p mem
    rw [← same]
    exact cut.less t inside
  rcases right.head with ⟨f,P',rfl,entry,rest⟩ | ⟨rfl,top,none_,_⟩
  · have at_ := OrderedMap.cutAt (b := (i,f) :: P') less (by simpa using cut.ge)
    exact .inl ⟨P₁,f,P',rfl,at_.1,at_.2,left,entry,rest⟩
  · exact .inr ⟨(OrderedMap.cutAt (b := []) less (by simp)).2,top,none_⟩

theorem View.atEnd {key : Key} (h : View pend P T) (at_ : OrderedMap.lowerBound (key : NodeId) T = []) :
    OrderedMap.lowerBound (key : NodeId) P = [] := by
  have whole := OrderedMap.cut (key : NodeId) T
  rw [at_,List.append_nil] at whole
  have less : ∀ p ∈ P, p.1 < (key : NodeId) := fun p mem => by
    obtain ⟨t,inside,same⟩ := h.keys p mem
    rw [← same]
    exact OrderedMap.beforeLess (whole.symm ▸ inside)
  have out := (OrderedMap.cutAt (b := []) less (by simp)).2
  rwa [List.append_nil] at out

theorem View.replace {pre post P₁ P₂ : Entries} (sorted : Sorted (pre ++ (i,e) :: post)) (left : View pend P₁ pre)
    (entry : EntrySeen pend' i f e) (right : View pend P₂ post)
    (same : ∀ j, j ≠ i → ∀ q, pend' (j :: q) ↔ pend (j :: q)) :
    View pend' (P₁ ++ (i,f) :: P₂) (pre ++ (i,e) :: post) := by
  have parts := OrderedMap.sortedAppend.mp sorted
  have above := (OrderedMap.sortedCons.mp parts.2.1).1
  refine .append (realBefore sorted) (left.congr fun t mem => same t.1 (parts.2.2 t mem (i,e) (by simp)).ne)
    (.cons entry (right.congr fun t mem => same t.1 (above t mem).ne'))

end view

structure Bound (es : Entries) : Prop where
  leaf : ∀ p ∈ es, p.2.child = none → p.2.childHash = noHash
  inner : ∀ p ∈ es, ∀ c, p.2.child = some c → p.2.childHash.isEmpty = false

theorem viewStubs {pend : List NodeId → Prop} {es : Entries} (sorted : Sorted es) (bound : Bound es)
    (free : ∀ i q, ¬ pend (i :: q)) : View pend (stubs es) es := by
  induction es with
  | nil => exact .nil
  | cons p es ih =>
    obtain ⟨i,v,x,hash⟩ := p
    have rest := ih (OrderedMap.sortedCons.mp sorted).2
      ⟨fun q mem => bound.leaf q (List.mem_cons_of_mem _ mem),
        fun q mem => bound.inner q (List.mem_cons_of_mem _ mem)⟩
    by_cases gone : i = ⊤ ∧ x = none
    · obtain ⟨rfl,rfl⟩ := gone
      have hash_ : hash = noHash := bound.leaf (⊤,⟨v,none,hash⟩) (by simp) rfl
      subst hash_
      obtain rfl : es = [] := @infLast [] es _ sorted
      exact .idle
    · have traced : (decide (i ≠ ⊤) || !hash.isEmpty) = true := by
        cases x with
        | none => simp [show i ≠ ⊤ from fun top => gone ⟨top,rfl⟩]
        | some c => simp [show hash.isEmpty = false from bound.inner (i,⟨v,some c,hash⟩) (by simp) c rfl]
      have whole : stubs ((i,⟨v,x,hash⟩) :: es) = stub (i,⟨v,x,hash⟩) :: stubs es := by
        simp only [stubs,kept,List.filter_cons,traced,if_true,List.map_cons]
      rw [whole]
      refine .cons ⟨rfl,fun real => if_neg real,fun none_ =>
        ⟨rfl,bound.leaf _ (List.mem_cons_self) none_,free i⟩,fun c _ => ?_,
        fun c child _ => bound.inner _ (List.mem_cons_self) c child⟩ rest
      exact .unread (free i)

end IpfsCache
