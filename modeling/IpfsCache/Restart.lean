import IpfsCache.NoneDropped

/-! Inserts after a restart. A map that has been given a root hash but no node runs like one
whose node is there and empty: nothing looks at the node before raw_insert makes it. -/
namespace IpfsCache
open OrderedMap (Sorted)
open Node Entries

def Root.settled (r : Root) : Root := ⟨some (r.node.getD ⟨[]⟩),r.hash⟩

section
variable {World : Type} {cfg : Config} {env : Env World} {R : World → Hash → Value → Prop}

def System.settled (s : System World) : System World :=
  { s with tree := { s.tree with root := s.tree.root.map Root.settled } }

theorem settledSame {s : System World} (memory : InMemory s.tree.root) : s.settled = s := by
  obtain ⟨⟨root,buffer,flag⟩,frames,w,calls,handed,ended⟩ := s
  rcases memory with none_ | ⟨n,hash,some_⟩
  · cases none_
    rfl
  · cases some_
    rfl

structure Blank (s : System World) : Prop where
  root : ∃ hash, s.tree.root = some ⟨none,hash⟩
  frames : s.frames = [] ∨ (s.frames = [.loop] ∧ s.tree.insertBuffer ≠ []) ∨
    ∃ kv buf, s.frames = [.batch (kv :: buf)]

theorem callSettled (key : Key) (value : Value) (s : System World) :
    (s.call key value).settled = s.settled.call key value := by
  obtain ⟨⟨root,buffer,flag⟩,frames,w,calls,handed,ended⟩ := s
  cases flag <;> rfl

theorem rawInsertNode {k : Key} {v : Value} {root : Option Root} {ps : List Pause} {after : Root}
    (raw : BTree.rawInsert cfg k v root = some (ps,after)) : ∃ n, after = ⟨some n,topHash root⟩ := by
  simp only [BTree.rawInsert] at raw
  split at raw
  · cases raw
  · rename_i out _
    split at raw
    · cases raw
      exact ⟨out.ret.getD out.node,by cases root <;> rfl⟩
    · cases raw

theorem blankStep {s s' : System World} {e : Event World} (blank : Blank s)
    (still : s.frames = [] → s.tree.isInserting = false) (h : Step cfg env s e s') :
    Step cfg env s.settled e s'.settled ∧ (Blank s' ∨ InMemory s'.tree.root) := by
  obtain ⟨hash,root_⟩ := blank.root
  obtain ⟨allowed,step⟩ := h
  obtain ⟨⟨root,buffer,flag⟩,frames,w,calls,handed,ended⟩ := s
  cases root_
  cases e with
  | call key value =>
    simp only [System.step] at step
    split at step
    · rename_i wait
      cases step
      refine ⟨⟨trivial,?_⟩,.inl ?_⟩
      · rw [callSettled]
        exact if_pos wait
      · rcases blank.frames with none_ | ⟨loop,_⟩ | ⟨kv,buf,batch⟩
        · cases none_
          cases still rfl
          exact ⟨⟨hash,rfl⟩,.inr (.inl ⟨rfl,OrderedMap.insertNotEmpty _ _ _⟩)⟩
        · cases loop
          cases wait
        · cases batch
          cases wait
    · cases step
  | resume i by_ world =>
    rcases blank.frames with none_ | ⟨loop,full⟩ | ⟨⟨k,v⟩,buf,batch⟩
    · cases none_
      cases step
    · cases loop
      cases i <;> try cases step
      cases by_ <;> try cases step
      obtain ⟨kv,rest,filled⟩ := List.exists_cons_of_ne_nil full
      cases filled
      cases step
      exact ⟨⟨fun frame here => allowed frame here,rfl⟩,.inl ⟨⟨hash,rfl⟩,.inr (.inr ⟨kv,rest,rfl⟩)⟩⟩
    · cases batch
      cases i <;> try cases step
      cases by_ <;> try cases step
      simp only [System.step,List.getElem?_cons_zero,List.eraseIdx_cons_zero,List.all_nil,if_true,advance] at step
      obtain ⟨a,advanced,rfl⟩ := Option.map_eq_some_iff.mp step
      obtain ⟨⟨ps,after⟩,raw,rfl⟩ := Option.map_eq_some_iff.mp advanced
      have memory : InMemory (System.after ⟨⟨some ⟨none,hash⟩,buffer,flag⟩,[.batch ((k,v) :: buf)],w,calls,handed,
          ended⟩ 0 (.batch ((k,v) :: buf)) world
          (pauseOn ⟨some ⟨none,hash⟩,buffer,flag⟩ after buf ps)).tree.root := by
        obtain ⟨n,rfl⟩ := rawInsertNode raw
        cases ps <;> exact .inr ⟨_,_,rfl⟩
      rw [settledSame memory]
      refine ⟨⟨fun frame here => allowed frame here,?_⟩,.inr memory⟩
      have raw' : BTree.rawInsert cfg k v (some (Root.settled ⟨none,hash⟩)) = some (ps,after) := raw
      simp only [System.step,System.settled,List.getElem?_cons_zero,List.eraseIdx_cons_zero,List.all_nil,if_true,
        advance,raw',Option.map_some]
      cases ps <;> rfl

structure Carried (cfg : Config) (env : Env World) (R : World → Hash → Value → Prop) (s : System World) : Prop where
  sound : ∃ frame, Sound cfg env s.settled frame
  kept : Kept s.settled.outline
  fit : ∀ x ∈ s.calls, Clean (fun _ => True) x
  held : s.settled.Held cfg env R (fun _ _ => True) (fun _ ids => ids.Nodup) (Clean fun _ => True)
  settles : Blank s ∨ InMemory s.tree.root

theorem carriedStart {s : System World} (idle : s.frames = []) (buffer : s.tree.insertBuffer = [])
    (flag : s.tree.isInserting = false) (none_ : s.calls = [] ∧ s.handed = [])
    (load : s.tree.root = none ∨ ∃ hash, s.tree.root = some ⟨none,hash⟩) : Carried cfg env R s := by
  obtain ⟨⟨root,_,_⟩,_,w,_,_,ended⟩ := s
  cases idle
  cases buffer
  cases flag
  obtain ⟨calls,handed⟩ := none_
  cases calls
  cases handed
  have bare : Backed (OwnBlock cfg (R w)) ⟨[]⟩ := .bare (by simp [Bare])
  have none_ : Kept ⟨[],[],[],[],[],ended⟩ := by
    refine ⟨fun x mem => ?_,fun k => Iff.rfl,fun k mem => by cases mem⟩
    rcases mem with h | h | h <;> cases h
  rcases load with load | ⟨hash,load⟩ <;> cases load
  · exact ⟨⟨none,rfl,rfl,List.Pairwise.nil,.inl rfl,goodEmpty _⟩,none_,by simp,
      ⟨Multiset.nodup_zero,bare⟩,.inr (.inl rfl)⟩
  · refine ⟨⟨none,rfl,rfl,List.Pairwise.nil,.inr ⟨_,_,rfl⟩,goodEmpty _⟩,none_,by simp,
      ⟨?_,bare⟩,.inl ⟨⟨hash,rfl⟩,.inl rfl⟩⟩
    change (ownId hash + 0).Nodup
    unfold ownId
    split <;> simp

theorem Carried.step (two : 2 ≤ cfg.maxNodeSize) (here : cfg.addOp = true)
    (custody : Custody cfg env R (fun _ _ => True) (fun _ ids => ids.Nodup) (Clean fun _ => True))
    {s s' : System World} {e : Event World} (carried : Carried cfg env R s)
    (h : FitStep cfg env (Clean fun _ => True) s e s') :
    Step cfg env s.settled e s'.settled ∧ Carried cfg env R s' := by
  obtain ⟨⟨frame,sound⟩,kept,fit,held,settles⟩ := carried
  have next : Step cfg env s.settled e s'.settled ∧ (Blank s' ∨ InMemory s'.tree.root) := by
    rcases settles with blank | memory
    · refine blankStep blank (fun none_ => ?_) h.1
      have flag := sound.flag
      have frames := sound.frames
      rw [show s.settled.frames = [] from none_] at frames
      cases frame with
      | none => exact flag
      | some f => cases frames
    · rw [settledSame memory] at sound ⊢
      obtain ⟨_,sound'⟩ := (stepSound two sound h.1).1
      rw [settledSame sound'.whole.1]
      exact ⟨h.1,.inr sound'.whole.1⟩
  have after := stepSound two sound next.1
  have fit' : ∀ x ∈ s'.settled.calls, Clean (fun _ => True) x := fitKept sound fit ⟨next.1,h.2⟩
  exact ⟨next.1,after.1,effectKept sound kept after.2,fit',
    heldKept two here custody sound (fun x mem => fit x (kept.given x (.inl mem))) held next.1,next.2⟩

theorem settledHash (s : System World) : s.settled.tree.rootHash = s.tree.rootHash := by
  obtain ⟨⟨_ | _,_,_⟩,_,_,_,_,_⟩ := s <;> rfl

theorem Carried.completes {Ok : StdString → Prop} {s s' : System World} {e : Event World}
    (carried : Carried cfg env R s) (step : Step cfg env s.settled e s'.settled) (carried' : Carried cfg env R s')
    (clean : ∀ x ∈ s'.calls, Clean Ok x) (completed : s'.ended = s.ended ++ [.completed]) :
    ∃ n, s'.tree.rootHash.isEmpty = false ∧ OwnBlock cfg (R s'.world) s'.tree.rootHash n ∧
      Written cfg Ok (R s'.world) n ∧ ∀ key ∈ OrderedMap.keys s'.calls, key ∈ n.keys := by
  obtain ⟨_,sound⟩ := carried.sound
  obtain ⟨frame,sound'⟩ := carried'.sound
  obtain ⟨frames,buffer,published,secured⟩ := heldCompletes sound carried.held step completed
  have none_ : frame = none := by
    have same := sound'.frames
    rw [frames] at same
    cases frame with
    | none => rfl
    | some f => cases same
  subst none_
  rw [← settledHash s']
  exact publishedWritten sound' carried'.kept clean buffer published secured

end
end IpfsCache
