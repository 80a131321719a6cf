import IpfsCache.Ready
import IpfsCache.BTree

/-! The store of a tree that is partly in memory: the same blocks, under the same hashes,
as for the whole tree. -/
namespace IpfsCache
open OrderedMap (Sorted)
open Node Entries

section
variable {σ : Type} {cfg : Config} {S : Storage σ}

def StoredAlike (out whole : (Node × StoreOutcome) × σ) : Prop :=
  out.2 = whole.2 ∧ out.1.2 = whole.1.2 ∧ View NoneWaits out.1.1.entries whole.1.1.entries

theorem storeLoopViews (rest : Entries) (children : ∀ t ∈ rest, ∀ c, t.2.child = some c → ∀ (p : Node) (st : σ),
      View NoneWaits p.entries c.entries → StoredAlike ((p.store cfg).run S.add st) ((c.store cfg).run S.add st)) :
    ∀ (P done done' : Entries) (json : Json) (st : σ), Sorted (done ++ rest) → View NoneWaits done' done →
    View NoneWaits P rest →
      StoredAlike ((storeLoop cfg done' json P).run S.add st) ((storeLoop cfg done json rest).run S.add st) := by
  have last (done done' : Entries) (json : Json) (st : σ) (view : View NoneWaits done' done) :
      StoredAlike ((storeLoop cfg done' json []).run S.add st) ((storeLoop cfg done json []).run S.add st) := by
    simp only [storeLoop,Program.run]
    rcases S.add st (cfg.json.dump json) with ⟨_ | _,st'⟩ <;> exact ⟨rfl,rfl,view⟩
  induction rest with
  | nil =>
    intro P done done' json st sorted before view
    cases view
    exact last done done' json st before
  | cons t rest ih =>
    intro P done done' json st sorted before view
    obtain ⟨i,w,child,hash⟩ := t
    have real := realBefore sorted
    have sorted' (e : Entry Node) : Sorted (done ++ [(i,e)] ++ rest) := by
      rw [List.append_assoc,List.singleton_append]
      rw [OrderedMap.sortedKeys] at sorted ⊢
      simpa [OrderedMap.keys] using sorted
    rcases view.head with ⟨⟨v,y,x⟩,P,rfl,entry,right⟩ | ⟨rfl,rfl,null,empty,rfl⟩
    · have same : x = hash := entry.hash
      subst same
      have next {f e : Entry Node} (json : Json) (st : σ) (entry : EntrySeen NoneWaits i f e) :
          StoredAlike ((storeLoop cfg (done' ++ [(i,f)]) json P).run S.add st)
            ((storeLoop cfg (done ++ [(i,e)]) json rest).run S.add st) :=
        ih (fun t mem => children t (List.mem_cons_of_mem _ mem)) P _ _ json st (sorted' e)
          (before.append real (.cons entry .nil)) right
      have value : storeValue i v json = storeValue i w json := by
        unfold storeValue
        split
        · rfl
        · rename_i other
          rw [show v = w from entry.value other]
      by_cases cached : x.isEmpty = true
      · cases child with
        | none =>
          have none_ : y = none := (entry.bare rfl).1
          subst none_
          simp only [storeLoop,cached,if_true,value]
          exact next _ st entry
        | some c =>
          have seen : Seen _ y c := entry.child c rfl
          cases seen with
          | unread =>
            have proper : x.isEmpty = false := entry.proper c rfl rfl
            rw [cached] at proper
            cases proper
          | waiting held => exact held.elim
          | @read p c _ inside =>
            have below := children (i,⟨w,some ⟨c⟩,x⟩) (by simp) _ rfl ⟨p⟩ st inside
            simp only [storeLoop,cached,if_true,value,Program.runBind]
            generalize (store cfg ⟨p⟩).run S.add st = out' at below ⊢
            generalize (store cfg ⟨c⟩).run S.add st = out at below ⊢
            obtain ⟨⟨⟨p'⟩,outcome'⟩,st'⟩ := out'
            obtain ⟨⟨⟨c'⟩,outcome⟩,st₁⟩ := out
            obtain ⟨states,outcomes,inside'⟩ := below
            cases states
            cases outcomes
            have stored (g : Hash) : EntrySeen NoneWaits i ⟨v,some ⟨p'⟩,g⟩ ⟨w,some ⟨c'⟩,g⟩ :=
              ⟨rfl,entry.value,fun none_ => (by cases none_),fun d same => (by cases same; exact .read id inside'),
                fun _ _ none_ => by cases none_⟩
            cases outcome' with
            | stored h => exact next _ st' (stored h)
            | _ => exact ⟨rfl,rfl,before.append real (.cons (stored x) right)⟩
      · rw [storeLoopKnown (by simpa using cached),storeLoopKnown (by simpa using cached),value]
        exact next _ st entry
    · have null' : child = none := null
      have empty' : hash = noHash := empty
      subst null' empty'
      have whole : storeLoop cfg done json [((⊤ : NodeId),(⟨w,none,noHash⟩ : Entry Node))] =
          storeLoop cfg (done ++ [(⊤,⟨w,none,noHash⟩)]) json [] := by
        simp [storeLoop,storeValue,noHash,StdString.isEmpty]
      rw [whole]
      have after := before.append real (View.idle : View NoneWaits [] [(⊤,⟨w,none,noHash⟩)])
      rw [List.append_nil] at after
      exact last _ _ json st after

theorem storeViews (cfg : Config) (S : Storage σ) (T : Node) :
    ∀ (P : Node) (st : σ), Ordered T → View NoneWaits P.entries T.entries →
    StoredAlike ((P.store cfg).run S.add st) ((T.store cfg).run S.add st) := by
  induction T using Node.induct with
  | step es ih =>
    intro ⟨P⟩ st ordered view
    simp only [store]
    exact storeLoopViews es (fun t mem c child p st inside =>
      ih t mem c child p st (ordered.child mem child) inside) P [] [] .null st
      ordered.here .nil view

end
end IpfsCache
