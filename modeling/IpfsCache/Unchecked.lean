import IpfsCache.Invariant

/-! What Node::check_invariants leaves out. It compares the keys of a node with the
separator its parent has behind them; it does not compare them with the one before, nor
what lies under an INF entry with any separator further up. -/
namespace IpfsCache
open OrderedMap (Sorted)
open Node Entries

def Bounded (root : Node) : Prop :=
  ∀ (depth : Nat) (pre post : Entries) (i : NodeId) (e : Entry Node) (c : Node) (k : Key),
    At root depth ⟨pre ++ (i,e) :: post⟩ → e.child = some c → k ∈ c.keys →
      (∀ q ∈ pre, q.1 < (k : NodeId)) ∧ (k : NodeId) < i

inductive Spine (pick : Entries → Option (NodeId × Entry Node)) (c : Node) : Node → Prop
  | top : Spine pick c c
  | down {es : Entries} {p : NodeId × Entry Node} {d : Node} (before : Spine pick c ⟨es⟩) (picked : pick es = some p)
      (child : p.2.child = some d) : Spine pick c d

def atInf (es : Entries) : Option (NodeId × Entry Node) := es.find? (fun p => decide (p.1 = ⊤))

/-- The comparisons that are not made: the separator before an entry with the nodes down the
left of its subtree, and an entry's key with the nodes down the INF entries of its child. -/
inductive Compared : Node → Prop
  | mk {es : Entries}
      (above : ∀ pre p post c s, es = pre ++ p :: post → p.2.child = some c → Spine List.head? c s →
        ∀ q ∈ pre.getLast?, ∀ r ∈ s.entries, q.1 < r.1)
      (under : ∀ p ∈ es, ∀ c q d s, p.2.child = some c → atInf c.entries = some q → q.2.child = some d →
        Spine atInf d s → ∀ r ∈ s.entries, r.1 = ⊤ ∨ r.1 < p.1)
      (below : ∀ p ∈ es, ∀ c, p.2.child = some c → Compared c) : Compared ⟨es⟩

theorem atInfMem {es : Entries} {p : NodeId × Entry Node} (at_ : atInf es = some p) : p ∈ es ∧ p.1 = ⊤ :=
  ⟨List.mem_of_find?_eq_some at_,by simpa using List.find?_some at_⟩

theorem atInfOf {es : Entries} (sorted : Sorted es) {p : NodeId × Entry Node} (mem : p ∈ es) (inf : p.1 = ⊤) :
    atInf es = some p := by
  obtain ⟨pre,post,rfl⟩ := List.append_of_mem mem
  have real := realBefore sorted
  rw [atInf,List.find?_append,List.find?_eq_none.mpr (by simpa using fun a b h => real (a,b) h)]
  simp [inf]

section spine
variable {pick : Entries → Option (NodeId × Entry Node)} {es : Entries} {s : Node}

theorem Spine.over {p : NodeId × Entry Node} {d : Node} (picked : pick es = some p) (child : p.2.child = some d)
    (h : Spine pick d s) : Spine pick ⟨es⟩ s := by
  induction h with
  | top => exact .down .top picked child
  | down _ picked' child' ih => exact .down ih picked' child'

theorem Spine.first (h : Spine pick ⟨es⟩ s) :
    s = ⟨es⟩ ∨ ∃ p d, pick es = some p ∧ p.2.child = some d ∧ Spine pick d s := by
  induction h with
  | top => exact .inl rfl
  | @down es' p' d' before picked child ih =>
    refine .inr ?_
    rcases ih with same | ⟨p,d,first,there,rest⟩
    · cases same
      exact ⟨p',d',picked,child,.top⟩
    · exact ⟨p,d,first,there,.down rest picked child⟩

theorem Spine.inside (member : ∀ es p, pick es = some p → p ∈ es) {c : Node} (h : Spine pick c s) :
    ∀ x ∈ s.flatten, x ∈ c.flatten := by
  induction h with
  | top => exact fun x mem => mem
  | down _ picked child ih => exact fun x mem => ih x (belowInside (member _ _ picked) child mem)

end spine

theorem keysAfter {c : Node} (compared : Compared c) {lo : NodeId}
    (spine : ∀ s, Spine List.head? c s → ∀ r ∈ s.entries, lo < r.1) : ∀ x ∈ c.flatten, lo < (x.1 : NodeId) := by
  induction c using Node.induct generalizing lo with
  | step es ih =>
    intro x mem
    cases compared with
    | mk above under below =>
      rw [flattenEq] at mem
      obtain ⟨p,here,inside⟩ := List.mem_flatMap.mp mem
      rcases List.mem_append.mp inside with inside | own
      · cases child : p.2.child with
        | none => simp [belowEntry,child] at inside
        | some d =>
          rw [child] at inside
          obtain ⟨pre,post,rfl⟩ := List.append_of_mem here
          rcases pre.eq_nil_or_concat' with rfl | ⟨pre,q,rfl⟩
          · exact ih p here d child (below p here d child) (fun s h => spine s (h.over rfl child)) x inside
          · have behind := ih p here d child (below p here d child)
              (fun s h r mem => above _ p post d s rfl child h q (by simp) r mem) x inside
            exact (spine _ .top q (by simp [entries])).trans behind
      · rw [ownPairKey own]
        exact spine _ .top p here

theorem keysBefore {m : Nat} {c : Node} (compared : Compared c) (fitting : Fitting m c) (ordered : Ordered c)
    {hi : NodeId} (spine : ∀ s, Spine atInf c s → ∀ r ∈ s.entries, r.1 = ⊤ ∨ r.1 < hi) :
    ∀ x ∈ c.flatten, (x.1 : NodeId) < hi := by
  induction c using Node.induct generalizing hi with
  | step es ih =>
    intro x mem
    cases compared with
    | mk above under below =>
      cases fitting with
      | mk fits checked fitting =>
        have there (p : NodeId × Entry Node) (here : p ∈ es) := (spine _ .top p here)
        rw [flattenEq] at mem
        obtain ⟨p,here,inside⟩ := List.mem_flatMap.mp mem
        rcases List.mem_append.mp inside with inside | own
        · cases child : p.2.child with
          | none => simp [belowEntry,child] at inside
          | some d =>
            rw [child] at inside
            have deeper := fun {hi} => @ih p here d child (below p here d child) (fitting p here d child)
              (ordered.child here child) hi
            by_cases inf : p.1 = ⊤
            · exact deeper (fun s h => spine s (h.over (atInfOf ordered.here here inf) child)) x inside
            · have less := (there p here).resolve_left inf
              refine (deeper (fun s h r mem => ?_) x inside).trans less
              obtain ⟨ds⟩ := d
              rcases h.first with rfl | ⟨q,d',picked,child',rest⟩
              · exact checked p here _ child r mem
              · exact under p here _ q d' s child picked child' rest r mem
        · have same := ownPairKey own
          rw [same]
          exact (there p here).resolve_left (by rw [← same]; exact WithTop.coe_ne_top)

theorem atParts {m : Nat} {root n : Node} {depth : Nat} (h : At root depth n) (compared : Compared root)
    (fitting : Fitting m root) (ordered : Ordered root) : Compared n ∧ Fitting m n ∧ Ordered n := by
  induction h with
  | root => exact ⟨compared,fitting,ordered⟩
  | child _ mem child ih =>
    obtain ⟨⟨_,_,below⟩,⟨_,_,fits⟩,sorted⟩ := ih
    exact ⟨below _ mem _ child,fits _ mem _ child,sorted.child mem child⟩

theorem comparedBounded {m : Nat} {root : Node} (compared : Compared root) (fitting : Fitting m root)
    (ordered : Ordered root) : Bounded root := by
  intro depth pre post i e c k at_ child mem
  obtain ⟨⟨above,under,below⟩,⟨_,checked,fits⟩,sorted⟩ := atParts at_ compared fitting ordered
  obtain ⟨x,inside,rfl⟩ := List.mem_map.mp mem
  have here : (i,e) ∈ pre ++ (i,e) :: post := by simp
  have below_ := below (i,e) here c child
  constructor
  · rcases pre.eq_nil_or_concat' with rfl | ⟨pre,q,rfl⟩
    · exact fun q mem => by cases mem
    · have behind : q.1 < (x.1 : NodeId) :=
        keysAfter below_ (fun s h r mem => above _ (i,e) post c s rfl child h q (by simp) r mem) x inside
      have before := (OrderedMap.sortedAppend.mp (OrderedMap.sortedAppend.mp sorted.here).1).2.2
      intro r mem
      rcases List.mem_append.mp mem with mem | last
      · exact (before r mem q (by simp)).trans behind
      · rwa [List.mem_singleton.mp last]
  · refine keysBefore below_ (fits (i,e) here c child) (sorted.child here child) (fun s h r own => ?_) x inside
    obtain ⟨cs⟩ := c
    rcases h.first with rfl | ⟨q,d,picked,child',rest⟩
    · exact checked (i,e) here _ child r own
    · exact under (i,e) here _ q d s child picked child' rest r own

theorem boundedCompared {n : Node} (bounded : Bounded n) (ordered : Ordered n) : Compared n := by
  induction n using Node.induct with
  | step es ih =>
    have own {s : Node} {r : NodeId × Entry Node} (mem : r ∈ s.entries) {k : Key} (key : r.1 = k) : k ∈ s.keys := by
      obtain ⟨rs⟩ := s
      exact List.mem_map.mpr ⟨_,ownInside mem key,rfl⟩
    have up {s c : Node} (sub : ∀ x ∈ s.flatten, x ∈ c.flatten) {k : Key} (mem : k ∈ s.keys) : k ∈ c.keys := by
      obtain ⟨x,inside,rfl⟩ := List.mem_map.mp mem
      exact List.mem_map.mpr ⟨x,sub x inside,rfl⟩
    refine .mk (fun pre p post c s same child h q last r mem => ?_)
      (fun p here c q d s child picked child' h r mem => ?_)
      fun p mem c child => ih p mem c child (fun depth pre post i e c' k at_ =>
        bounded (depth + 1) pre post i e c' k (atOver mem child at_)) (ordered.child mem child)
    · subst same
      have before := List.mem_of_mem_getLast? last
      rcases key : r.1 with _ | k
      · exact lt_top_iff_ne_top.mpr (realBefore ordered.here q before)
      · exact (bounded 0 pre post p.1 p.2 c k .root child
          (up (h.inside fun es p picked => List.mem_of_mem_head? picked) (own mem key))).1 q before
    · rcases key : r.1 with _ | k
      · exact .inl rfl
      · obtain ⟨pre,post,rfl⟩ := List.append_of_mem here
        obtain ⟨cs⟩ := c
        have inside := up (h.inside fun es p picked => (atInfMem picked).1) (own mem key)
        have inside' : k ∈ (Node.mk cs).keys := up (fun x => belowInside (atInfMem picked).1 child') inside
        exact .inr (bounded 0 pre post p.1 p.2 _ k .root child inside').2

theorem boundedTree {n : Node} (bounded : Bounded n) (ordered : Ordered n) : SearchTree n := by
  refine ⟨ordered,?_⟩
  induction n using Node.induct with
  | step es ih =>
    have below (p : NodeId × Entry Node) (mem : p ∈ es) : (∀ x ∈ belowEntry p.2.child, (x.1 : NodeId) < p.1) ∧
        ∀ q ∈ es, q.1 < p.1 → ∀ x ∈ belowEntry p.2.child, q.1 < (x.1 : NodeId) := by
      cases child : p.2.child with
      | none => exact ⟨fun x inside => (by cases inside),fun _ _ _ x inside => (by cases inside)⟩
      | some c =>
        obtain ⟨pre,post,rfl⟩ := List.append_of_mem mem
        have between := fun (x : Key × Value) (inside : x ∈ c.flatten) =>
          bounded 0 pre post p.1 p.2 c x.1 .root child (List.mem_map.mpr ⟨x,inside,rfl⟩)
        refine ⟨fun x inside => (between x inside).2,fun q here less x inside => (between x inside).1 q ?_⟩
        rcases List.mem_append.mp here with before | after
        · exact before
        · rcases List.mem_cons.mp after with rfl | after
          · exact absurd less (lt_irrefl _)
          · have parts := OrderedMap.sortedCons.mp (OrderedMap.sortedAppend.mp ordered.here).2.1
            exact absurd less (parts.1 q after).not_gt
    rw [flattenEq,Sorted,List.pairwise_flatMap]
    refine ⟨fun p mem => ?_,ordered.here.imp_of_mem fun {p q} memP memQ less x inP y inQ => ?_⟩
    · refine OrderedMap.sortedAppend.mpr ⟨?_,?_,fun x inside y own => ?_⟩
      · cases child : p.2.child with
        | none => exact List.Pairwise.nil
        | some c =>
          exact ih p mem c child (fun depth pre post i e c' k at_ =>
            bounded (depth + 1) pre post i e c' k (atOver mem child at_)) (ordered.child mem child)
      · obtain ⟨i,e⟩ := p
        cases i using WithTop.recTopCoe <;> simp [ownPair,Sorted]
      · exact WithTop.coe_lt_coe.mp ((below p mem).1 x inside |>.trans_eq (ownPairKey own).symm)
    · have most : (x.1 : NodeId) ≤ p.1 := by
        rcases List.mem_append.mp inP with inside | own
        · exact ((below p memP).1 x inside).le
        · exact (ownPairKey own).le
      have least : p.1 < (y.1 : NodeId) := by
        rcases List.mem_append.mp inQ with inside | own
        · exact (below q memQ).2 p memP less y inside
        · rwa [ownPairKey own]
      exact WithTop.coe_lt_coe.mp (most.trans_lt least)

/-- What passes the check is a search tree exactly when it also passes the comparisons that
are not made; find then reaches every key. -/
theorem checkedBounded {m : Nat} {n : Node} (ordered : Ordered n) (loaded : Loaded n)
    (checked : n.checkInvariants m = true) :
    (Bounded n ∧ ∀ x ∈ n.flatten, n.find x.1 = (n,.done (.ok x.2))) ↔ Compared n := by
  constructor
  · exact fun sound => boundedCompared sound.1 ordered
  · intro compared
    have bounded := comparedBounded compared ((checkIff m n).mp checked).1 ordered
    have tree := boundedTree bounded ordered
    refine ⟨bounded,fun x mem => ?_⟩
    rw [findIsLookup x.1 n tree loaded,(OrderedMap.findSome tree.sorted).mpr mem]
    rfl

def leafOf (k : Key) : Node := ⟨[((k : NodeId),⟨letter 120,none,noHash⟩)]⟩

def twoLeaves (a b : Key) : Node :=
  ⟨[(((letter 109 : Key) : NodeId),⟨letter 120,some (leafOf a),noHash⟩),(⊤,⟨⟨[]⟩,some (leafOf b),noHash⟩)]⟩

theorem twoLeavesChild {a b : Key} {p : NodeId × Entry Node} (mem : p ∈ (twoLeaves a b).entries) :
    ∃ k, p.2.child = some (leafOf k) := by
  rcases List.mem_cons.mp mem with rfl | mem
  · exact ⟨a,rfl⟩
  · cases List.mem_singleton.mp mem
    exact ⟨b,rfl⟩

theorem leafChild {k : Key} {p : NodeId × Entry Node} (mem : p ∈ (leafOf k).entries) : p.2.child = none := by
  cases List.mem_singleton.mp mem
  rfl

theorem twoLeavesOrdered (a b : Key) : Ordered (twoLeaves a b) := by
  refine .mk (OrderedMap.sortedCons.mpr ⟨by simp,List.pairwise_singleton ..⟩) fun p mem c child => ?_
  obtain ⟨k,leaf⟩ := twoLeavesChild mem
  cases leaf.symm.trans child
  exact .mk (List.pairwise_singleton ..) fun p mem c child => by cases (leafChild mem).symm.trans child

theorem twoLeavesLoaded (a b : Key) : Loaded (twoLeaves a b) := by
  refine .mk (fun p mem null => ?_) fun p mem c child => ?_ <;> obtain ⟨k,leaf⟩ := twoLeavesChild mem
  · cases leaf.symm.trans null
  · cases leaf.symm.trans child
    exact .mk (fun p mem _ => by cases List.mem_singleton.mp mem; rfl)
      fun p mem c child => by cases (leafChild mem).symm.trans child

theorem spineLeaf {pick : Entries → Option (NodeId × Entry Node)} (member : ∀ es p, pick es = some p → p ∈ es)
    {k : Key} {s : Node} (h : Spine pick (leafOf k) s) : s = leafOf k := by
  rcases h.first with same | ⟨p,d,picked,child,_⟩
  · exact same
  · cases (leafChild (member _ _ picked)).symm.trans child

theorem twoLeavesCompared (a : Key) {b : Key} (less : letter 109 < b) : Compared (twoLeaves a b) := by
  refine .mk (fun pre p post c s same child h q last r mem => ?_) (fun p mem c q d s child picked child' _ _ _ => ?_)
    fun p mem c child => ?_
  · rcases pre with _ | ⟨x,_ | ⟨y,pre⟩⟩
    · cases last
    · cases same
      cases last
      cases child
      rw [spineLeaf (fun _ _ => List.mem_of_mem_head?) h] at mem
      cases List.mem_singleton.mp mem
      exact WithTop.coe_lt_coe.mpr less
    · have short := congrArg List.length same
      simp at short
  · obtain ⟨k,leaf⟩ := twoLeavesChild mem
    cases leaf.symm.trans child
    cases (leafChild (atInfMem picked).1).symm.trans child'
  · obtain ⟨k,leaf⟩ := twoLeavesChild mem
    cases leaf.symm.trans child
    refine .mk (fun pre p post c s same child => ?_) (fun p mem c q d s child => ?_) fun p mem c child => ?_
    · cases (leafChild (k := k) (p := p) (by simp [leafOf,entries,same])).symm.trans child
    · cases (leafChild (k := k) mem).symm.trans child
    · cases (leafChild (k := k) mem).symm.trans child

theorem checkedBoundedPair : (twoLeaves (letter 97) (letter 122)).checkInvariants 2 = true ∧
    Bounded (twoLeaves (letter 97) (letter 122)) ∧ ∀ x ∈ (twoLeaves (letter 97) (letter 122)).flatten,
      (twoLeaves (letter 97) (letter 122)).find x.1 = (twoLeaves (letter 97) (letter 122),.done (.ok x.2)) :=
  have checked : (twoLeaves (letter 97) (letter 122)).checkInvariants 2 = true := by decide +kernel
  ⟨checked,(checkedBounded (twoLeavesOrdered _ _) (twoLeavesLoaded _ _) checked).mpr
    (twoLeavesCompared _ (by decide +kernel))⟩

theorem misplacedPasses : ¬ ∀ m n, Ordered n → Loaded n → n.checkInvariants m = true →
    Bounded n ∧ ∀ x ∈ n.flatten, n.find x.1 = (n,.done (.ok x.2)) := by
  intro claim
  obtain ⟨_,finds⟩ := claim 2 (twoLeaves (letter 97) (letter 98)) (twoLeavesOrdered _ _) (twoLeavesLoaded _ _)
    (by decide +kernel)
  have found := congrArg Prod.snd (finds (letter 98,letter 120) (by decide +kernel))
  have missed : ((twoLeaves (letter 97) (letter 98)).find (letter 98)).2 = .done
      (.error .notFound) := by decide +kernel
  cases missed.symm.trans found

end IpfsCache
