import IpfsCache.Sequential

/-! The B-tree representation invariant, node by node, and BTree's own check of it. -/
namespace IpfsCache
open OrderedMap (Sorted)
open Node Entries

inductive Node.At (root : Node) : Nat → Node → Prop
  | root : At root 0 root
  | child {depth : Nat} {es : Entries} {p : NodeId × Entry Node} {c : Node} (parent : At root depth ⟨es⟩)
      (mem : p ∈ es)
      (child : p.2.child = some c) : At root (depth + 1) c

structure BTreeInvariant (m : Nat) (root : Node) : Prop where
  ordered : ∀ (depth : Nat) (pre post : Entries) (i : NodeId) (e : Entry Node) (c : Node) (k : Key),
    At root depth ⟨pre ++ (i,e) :: post⟩ → e.child = some c → k ∈ c.keys →
      (k : NodeId) < i ∧ ∀ q ∈ pre.getLast?, q.1 < (k : NodeId)
  once : root.keys.Nodup
  balanced : ∃ height, ∀ depth n, At root depth n → n.isLeaf = true → depth = height
  kinds : ∀ (depth : Nat) (es : Entries), At root depth ⟨es⟩ →
    (∀ p ∈ es, p.2.child = none) ∨ ((∃ e, ((⊤ : NodeId),e) ∈ es) ∧ ∀ p ∈ es, p.2.child.isSome)
  most : ∀ depth n, At root depth n → n.size ≤ m
  least : ∀ depth n, At root depth n → 0 < depth → m / 2 ≤ n.size

theorem atTrans {root n n' : Node} {depth depth' : Nat} (h : At root depth n) (h' : At n depth' n') :
    At root (depth + depth') n' := by
  induction h' with
  | root => exact h
  | child _ mem child ih => exact .child ih mem child

theorem atOver {es : Entries} {p : NodeId × Entry Node} {c n : Node} {depth : Nat} (mem : p ∈ es)
    (child : p.2.child = some c) (h : At c depth n) : At ⟨es⟩ (depth + 1) n := by
  induction h with
  | root => exact .child .root mem child
  | child _ mem' child' ih => exact .child ih mem' child'

theorem atSmaller {root n : Node} {depth : Nat} (h : At root depth n) : sizeOf n + depth ≤ sizeOf root := by
  induction h with
  | root => exact le_rfl
  | child _ mem child ih =>
    have less := childSmaller mem child
    simp only [Node.mk.sizeOf_spec] at ih
    omega

theorem atInside {root n : Node} {depth : Nat} (h : At root depth n) : ∀ x ∈ n.flatten, x ∈ root.flatten := by
  induction h with
  | root => exact fun x mem => mem
  | child _ mem child ih => exact fun x inside => ih x (belowInside mem child inside)

theorem atGood {m d : Nat} {root : Node} (tree : SearchTree root) (level : Level m d root.entries)
    (fits : root.size ≤ m) {depth : Nat} {n : Node} (at_ : At root depth n) :
    ∃ rest, depth + rest = d ∧ SearchTree n ∧ Level m rest n.entries ∧ n.size ≤ m ∧
    (0 < depth → m / 2 ≤ n.size) := by
  induction at_ with
  | root => exact ⟨d,by omega,tree,level,fits,by simp⟩
  | @child depth es p c parent mem child ih =>
    obtain ⟨rest,sum,tree',level',_,_⟩ := ih
    cases rest with
    | zero => exact absurd child (by rw [(level'.bare p mem).1]; simp)
    | succ rest =>
      have below := level'.child mem child
      exact ⟨rest,by omega,tree'.child mem child,below.1,below.2.2,fun _ => below.2.1⟩

theorem goodInvariant {m : Nat} {root : Node} (good : Good m root) : BTreeInvariant m root := by
  obtain ⟨d,level⟩ := good.level
  have at_ {depth : Nat} {n : Node} (here : At root depth n) := atGood good.tree level good.fits here
  constructor
  · intro depth pre post i e c k here child mem
    obtain ⟨_,_,tree,_⟩ := at_ here
    obtain ⟨x,inside,rfl⟩ := List.mem_map.mp mem
    have between := childBetween tree (x := x) (by rw [child]; exact inside)
    exact ⟨between.2,fun q last => between.1 q (List.mem_of_mem_getLast? last)⟩
  · exact OrderedMap.keysNodup good.tree.sorted
  · refine ⟨d,fun depth n here leaf => ?_⟩
    obtain ⟨rest,sum,_,level',_⟩ := at_ here
    cases rest with
    | zero => omega
    | succ rest => exact absurd leaf (by rw [Node.isLeaf,levelInner level']; simp)
  · intro depth es here
    obtain ⟨rest,_,_,level',_⟩ := at_ here
    cases rest with
    | zero => exact .inl fun p mem => (level'.bare p mem).1
    | succ rest =>
      obtain ⟨pre,e,same⟩ := level'.inf
      refine .inr ⟨⟨e,?_⟩,fun p mem => ?_⟩
      · change (⊤,e) ∈ (Node.mk es).entries
        rw [same]
        simp
      · obtain ⟨c,child,_⟩ := level'.2.2 p mem
        simp [child]
  · intro depth n here
    obtain ⟨_,_,_,_,fits,_⟩ := at_ here
    exact fits
  · intro depth n here
    obtain ⟨_,_,_,_,_,half⟩ := at_ here
    exact half

variable {σ : Type} {cfg : Config} {S : Storage σ}

/-- After any sequence of inserts the tree meets the representation invariant, and the
assertion at the end of the next raw_insert holds. -/
theorem insertsKeepInvariant (two : 2 ≤ cfg.maxNodeSize) (adds : S.AddsSucceed cfg) (kvs : List (Key × Value))
    (st : σ) : ∃ bt st', BTree.insertEach cfg S kvs BTree.fresh st = some (bt,st') ∧
      BTreeInvariant cfg.maxNodeSize (top bt.root) ∧
      ∀ key value, ∃ ps n hash, BTree.rawInsert cfg key value bt.root = some (ps,⟨some n,hash⟩) ∧
        n.checkInvariants cfg.maxNodeSize = true := by
  obtain ⟨bt,st',run,rest,_⟩ := insertEachRests two adds kvs st
  refine ⟨bt,st',run,goodInvariant rest.good,fun key value => ?_⟩
  obtain ⟨ps,n,raw,inserted⟩ := rawInserts two rest.good key value
  exact ⟨ps,n,_,raw,inserted.good.checks⟩

theorem insertsKeepInvariantMock : ∃ bt st', BTree.insertEach (mockConfig 2) MockStorage.storage
      [(letter 99,letter 120),(letter 97,letter 120),(letter 98,letter 120),(letter 100,letter 120)]
      BTree.fresh MockStorage.empty = some (bt,st') ∧
    BTreeInvariant 2 (top bt.root) ∧
    ∀ key value, ∃ ps n hash, BTree.rawInsert (mockConfig 2) key value bt.root = some (ps,⟨some n,hash⟩) ∧
      n.checkInvariants 2 = true :=
  insertsKeepInvariant (by decide) (MockStorage.addsSucceed _) _ _

end IpfsCache
