import IpfsCache.Custody
import Mathlib.Data.Finset.Card

/-! Storage accounting: when an insert completes, the ids added and not yet removed are
those recorded in the tree, each of them once. -/
namespace IpfsCache
open OrderedMap (Sorted)
open Node Entries

namespace Node
mutual
def childHashes : Node → Multiset Hash
  | ⟨es⟩ => childHashesOf es

def childHashesOf : Entries → Multiset Hash
  | [] => 0
  | (_,⟨_,none,_⟩) :: rest => childHashesOf rest
  | (_,⟨_,some c,hash⟩) :: rest => {hash} + c.childHashes + childHashesOf rest
end
end Node

theorem childHashesIds (n : Node) : n.everyNodeHasHash = true → n.ids = n.childHashes := by
  induction n using Node.induct with
  | step es ih =>
    rw [everyNodeHasHashIff,ids,childHashes]
    induction es with
    | nil => exact fun _ => rfl
    | cons p rest ih' =>
      intro hashed
      have tail := ih' (fun q mem => ih q (List.mem_cons_of_mem _ mem)) fun q mem =>
          hashed q (List.mem_cons_of_mem _ mem)
      obtain ⟨i,v,_ | c,x⟩ := p
      · exact tail
      · have own := hashed (i,⟨v,some c,x⟩) (by simp) c rfl
        have below := ih (i,⟨v,some c,x⟩) (by simp) c rfl own.2
        rw [idsOf,childHashesOf,tail,below,ownIdSome own.1]

theorem countHashes (n : Node) : n.localNodeCount = n.childHashes.card + 1 := by
  induction n using Node.induct with
  | step es ih =>
    rw [localNodeCount,childHashes]
    refine congrArg (· + 1) ?_
    induction es with
    | nil => rfl
    | cons p rest ih' =>
      have tail := ih' fun q mem => ih q (List.mem_cons_of_mem _ mem)
      obtain ⟨i,v,_ | c,x⟩ := p
      · exact tail
      · have below := ih (i,⟨v,some c,x⟩) (by simp) c rfl
        rw [localNodeCounts,childHashesOf,tail,below,Multiset.card_add,Multiset.card_add,Multiset.card_singleton]
        omega

section
variable {World : Type} {cfg : Config} {env : Env World} {live : World → Finset Hash}

structure FreshIds (env : Env World) (live : World → Finset Hash) : Prop where
  adds : ∀ {w x r w'}, env.adds w x r w' → ∃ id, r = .ok id ∧ id.isEmpty = false ∧ id ∉ live w ∧
    live w' = insert id (live w)
  removes : ∀ {w h w'}, env.removes w h w' → live w' = (live w).erase h

theorem FreshIds.custody (fresh : FreshIds env live) (remove : cfg.removeOp = true) :
    Custody cfg env (fun _ _ _ => True) (fun w ids => (live w).val = ids)
    (fun w ids => (live w).val = ids) fun _ => True where
  add := by
    refine ⟨fun given => ?_,fun given own => ?_,fun given => ?_,fun _ _ => trivial⟩
      <;> obtain ⟨id,same,proper,new,live_⟩ := fresh.adds given
    · cases same
      exact ⟨proper,trivial⟩
    · cases same
      rw [live_,Finset.insert_val_of_notMem new,own,← Multiset.singleton_add,add_comm]
    · cases same
  removes := by
    intro w h w' ids gone own
    refine ⟨?_,fun _ _ _ _ => trivial⟩
    rw [fresh.removes gone,Finset.erase_val,own,Multiset.singleton_add,Multiset.erase_cons_head]
  loses := by
    intro w lost ids absent
    rw [remove] at absent
    cases absent
  settles := by
    intro w w' n out _ _ own _ post
    obtain ⟨new,given,account⟩ := post.account
    rw [account,add_comm]
    exact given _ own

/-- No block leaks and none is missing: whenever an insert completes, the live ids are the
root hash and the child hashes, each once, as many as there are nodes. -/
theorem blocksAccounted (two : 2 ≤ cfg.maxNodeSize) (add : cfg.addOp = true) (remove : cfg.removeOp = true)
    (fresh : FreshIds env live) {s s' : System World} {e : Event World}
    (h : Reach (fun s => ∃ world, s = .fresh world ∧ live world = ∅) (Step cfg env) s) (step : Step cfg env s e s')
    (completed : s'.ended = s.ended ++ [.completed]) :
    (live s'.world).val = s'.tree.rootHash ::ₘ (top s'.tree.root).childHashes ∧
      (s'.tree.rootHash ::ₘ (top s'.tree.root).childHashes).Nodup ∧
      (live s'.world).card = s'.tree.localNodeCount := by
  have reach : Reach (StartsWith fun w ids => (live w).val = ids) (FitStep cfg env fun _ => True) s := h.mono
    (fun _ ⟨world,same,none_⟩ => ⟨world,same,congrArg Finset.val none_⟩) fun _ _ _ step =>
      ⟨step,fun _ _ _ => trivial⟩
  obtain ⟨_,_,⟨n,hash,root,proper,_,hashed⟩,secured⟩ :=
    completes two add (fresh.custody remove) reach ⟨step,fun _ _ _ => trivial⟩ completed
  have owned := secured.owned
  have rootHash : s'.tree.rootHash = hash := by rw [BTree.rootHash,root]
  rw [root] at owned ⊢
  have all : (live s'.world).val = hash ::ₘ n.childHashes := by
    rw [← childHashesIds n hashed,← Multiset.singleton_add,← ownIdSome proper]
    exact owned
  rw [rootHash]
  refine ⟨all,?_,?_⟩
  · rw [show top (some ⟨some n,hash⟩) = n from rfl,← all]
    exact (live s'.world).nodup
  · rw [Finset.card_def,all,Multiset.card_cons,← countHashes,BTree.localNodeCount,root]

end

theorem mockFreshIds : FreshIds MockStorage.storage.env fun s => (OrderedMap.keys s.blocks).toFinset where
  adds := by
    intro s x r s' given
    cases given
    refine ⟨_,rfl,StdString.decimalProper _,?_,?_⟩
    · rw [List.mem_toFinset]
      exact s.addFresh
    · ext id
      rw [List.mem_toFinset,Finset.mem_insert,List.mem_toFinset]
      exact OrderedMap.keysAssign s.sorted
  removes := by
    rintro s h s' rfl
    ext id
    rw [List.mem_toFinset,Finset.mem_erase,List.mem_toFinset]
    simp [MockStorage.storage,MockStorage.remove,OrderedMap.keys,OrderedMap.erase,and_comm]

theorem blocksAccountedMock : ∃ s : System MockStorage, s.ended.length = 5 ∧
    (OrderedMap.keys s.world.blocks).toFinset.val = s.tree.rootHash ::ₘ (top s.tree.root).childHashes ∧
    (s.tree.rootHash ::ₘ (top s.tree.root).childHashes).Nodup ∧
    (OrderedMap.keys s.world.blocks).toFinset.card = s.tree.localNodeCount := by
  have run : ((System.fresh MockStorage.empty).play (mockConfig 2) MockStorage.storage (fun _ _ => true)
      (.call (letter 97) (letter 49) :: List.replicate 4 (.resume 0) ++ .call (letter 98) (letter 49) :: .call
        (letter 99) (letter 49) ::
        .call (letter 100) (letter 49) :: .call (letter 101) (letter 49) :: List.replicate 13 (.resume 0))).any
      (fun s => (s.step (mockConfig 2) (.resume 0 .go s.world)).any
        fun s' => decide (s'.ended.length = 5) && decide (s'.ended = s.ended ++ [.completed])) = true := by
    decide +kernel
  obtain ⟨s,played,seen⟩ := Option.any_eq_true _ _ |>.mp run
  obtain ⟨s',stepped,last⟩ := Option.any_eq_true _ _ |>.mp seen
  simp only [Bool.and_eq_true,decide_eq_true_eq] at last
  have reach : Reach (fun s => ∃ world, s = .fresh world ∧ (OrderedMap.keys world.blocks).toFinset = ∅)
      (fun s e s' => Step (mockConfig 2) MockStorage.storage.env s e s' ∧ True) s :=
        playReach (P := fun _ _ => True)
    (fun _ _ _ => trivial) (.start ⟨_,rfl,rfl⟩) played
  have allowed : Allowed MockStorage.storage.env s (.resume 0 .go s.world) := fun frame _ => by cases frame <;> rfl
  exact ⟨s',last.1,blocksAccounted (by decide) rfl rfl mockFreshIds (reach.mono (fun _ => id) fun _ _ _ => And.left)
    ⟨allowed,stepped⟩ last.2⟩

end IpfsCache
