import IpfsCache.Distinct

/-! No insert is dropped, whichever calls overlap and whichever stores fail: a key is in
the tree, in the buffer or in the hands of the call past the guard, and when that call
completes the root's hash denotes a tree that has every key. -/
namespace IpfsCache
open OrderedMap (Sorted)
open Node Entries

def Frame.localBatch : Frame → List (Key × Value)
  | .batch buf => buf
  | .inserting _ _ _ buf => buf
  | _ => []

/-- A key of the tree that a hash denotes, each block read by Node::restore as lazy_find calls it. -/
inductive Denotes (cfg : Config) (R : Hash → Value → Prop) (key : Key) : Hash → Prop
  | here {h : Hash} {x : Value} {n : Node} {e : Entry Node} (there : R h x)
      (restored : restore cfg (.ok x) ⟨[]⟩ = (n,.ok ()))
      (found : OrderedMap.find (key : NodeId) n.entries = some e) : Denotes cfg R key h
  | down {h : Hash} {x : Value} {n : Node} {post : Entries} {i : NodeId} {e : Entry Node} (there : R h x)
      (restored : restore cfg (.ok x) ⟨[]⟩ = (n,.ok ()))
      (at_ : OrderedMap.lowerBound (key : NodeId) n.entries = (i,e) :: post)
      (other : i ≠ key) (inner : Denotes cfg R key e.childHash) : Denotes cfg R key h

def denotesWithin (cfg : Config) (cat : Hash → Except ErrorCode Value) (key : Key) : Nat → Hash → Bool
  | 0,_ => false
  | blocks + 1,h =>
    match restore cfg (cat h) ⟨[]⟩ with
    | (n,.ok ()) =>
      match OrderedMap.lowerBound (key : NodeId) n.entries with
      | [] => false
      | (i,e) :: _ => i = key || denotesWithin cfg cat key blocks e.childHash
    | _ => false

theorem denotesWithinSound {cfg : Config} {cat : Hash → Except ErrorCode Value} {key : Key} {blocks : Nat} {h : Hash}
    (found : denotesWithin cfg cat key blocks h = true) : Denotes cfg (fun h x => cat h = .ok x) key h := by
  induction blocks generalizing h with
  | zero => cases found
  | succ blocks ih =>
    rw [denotesWithin] at found
    split at found
    · rename_i n restored
      cases there : cat h with
      | error ec =>
        rw [there] at restored
        cases congrArg Prod.snd restored
      | ok x =>
        rw [there] at restored
        split at found
        · cases found
        · rename_i i e post at_
          by_cases hit : i = key
          · exact .here there restored (e := e) (by rw [OrderedMap.find,at_]; simp [hit])
          · exact .down there restored at_ hit (ih (by simpa [hit] using found))
    · cases found

theorem Written.denotes {cfg : Config} {R : Hash → Value → Prop} (back : cfg.json.ParsesBack)
    (legible : Legible cfg StdString.ValidUtf8 R) {key : Key} (n : Node) :
    Written cfg StdString.ValidUtf8 R n → ∀ h, OwnBlock cfg R h n → key ∈ n.keys → Denotes cfg R key h := by
  induction n using Node.induct with
  | step es ih =>
    intro w h own mem
    have hashed := everyNodeHasHashIff.mp own.2
    have doc := w.printable legible own.2 fun none_ => by
      rw [Node.keys,none_] at mem
      cases mem
    have restored := restoreBlock back legible.usable doc ⟨[]⟩
    cases at_ : OrderedMap.lowerBound (key : NodeId) es with
    | nil =>
      have none_ := (OrderedMap.findNone w.tree.sorted).mp (w.tree.lookupEnd at_)
      exact absurd mem none_
    | cons p post =>
      obtain ⟨i,e⟩ := p
      obtain ⟨whole,cut⟩ := cutOf at_
      have inside : (i,e) ∈ es := lowerBoundMem at_
      by_cases hit : i = key
      · have stubbed := (stubsAt post e cut (.inl (by rw [hit]; exact WithTop.coe_ne_top))).2
        rw [← whole] at stubbed
        refine .here own.1 restored (e := (stub (i,e)).2) ?_
        rw [Node.entries,OrderedMap.find,stubbed]
        simp [stub,hit]
      · have look : OrderedMap.find key (flatten ⟨es⟩) = OrderedMap.find key (belowEntry e.child) := by
          have tree := w.tree
          rw [whole] at tree ⊢
          exact tree.lookupBelow cut hit
        cases child : e.child with
        | none =>
          rw [child] at look
          exact absurd mem ((OrderedMap.findNone w.tree.sorted).mp look)
        | some c =>
          rw [child] at look
          have wc := (w.child inside child).1
          have proper := hashed _ inside c child
          have below : key ∈ c.keys := by
            by_contra free
            rw [show belowEntry (some c) = c.flatten from rfl,(OrderedMap.findNone wc.tree.sorted).mpr free] at look
            exact (OrderedMap.findNone w.tree.sorted).mp look mem
          have stubbed := (stubsAt post e cut (.inr proper.1)).2
          rw [← whole] at stubbed
          exact .down own.1 restored stubbed hit
            (ih _ inside c child wc _ (w.backed.here inside child proper.1) below)

section
variable {World : Type} {cfg : Config} {env : Env World} {R : World → Hash → Value → Prop}

def System.localBatch (s : System World) : List (Key × Value) := s.frames.flatMap Frame.localBatch

def ProperCalls (cfg : Config) (env : Env World) : System World → Event World → System World → Prop :=
  FitStep cfg env fun x => ProperKey x.1 ∧ x.1.ValidUtf8

def InReach (s : System World) (key : Key) : Prop :=
  key ∈ (top s.tree.root).keys ∨ key ∈ OrderedMap.keys s.tree.insertBuffer ∨ key ∈ OrderedMap.keys s.localBatch

theorem Sound.batch {s : System World} {frame : Option Frame} (sound : Sound cfg env s frame) :
    s.outline.batch = s.localBatch := by
  rw [System.outline,System.localBatch,sound.frames]
  rcases frame with _ | _ | _ | _ | _ | _ | _ <;> simp [batchOf,Frame.localBatch]

theorem publishedWritten {Ok : StdString → Prop} {P : World → Multiset Hash → Prop} {s : System World}
    (sound : Sound cfg env s none) (kept : Kept s.outline) (fit : ∀ x ∈ s.calls, Clean Ok x)
    (buffer : s.tree.insertBuffer = []) (published : Published cfg R s.world s.tree.root)
    (secured : Secured cfg R P s.world (ownId (topHash s.tree.root)) (top s.tree.root)) :
    ∃ n, s.tree.rootHash.isEmpty = false ∧ OwnBlock cfg (R s.world) s.tree.rootHash n ∧
      Written cfg Ok (R s.world) n ∧ ∀ key ∈ OrderedMap.keys s.calls, key ∈ n.keys := by
  obtain ⟨n,hash,root,proper,own⟩ := published
  have whole : Whole cfg s.tree.root := sound.sits
  have good := whole.good
  have backed := secured.backed
  rw [root] at good backed
  have content : s.outline.content = n.flatten := by
    rw [System.outline,sound.frames,root]
    rfl
  have hash_ : s.tree.rootHash = hash := by rw [BTree.rootHash,root]
  rw [hash_]
  refine ⟨n,proper,own,⟨good.tree,good.level,backed,fun x mem => fit x (kept.given x (.inl (content ▸ mem)))⟩,
    fun key mem => ?_⟩
  rcases kept.called key mem with h | h | h
  · rwa [content] at h
  · rw [sound.batch,System.localBatch,sound.frames] at h
    cases h
  · rw [show s.outline.buffer = s.tree.insertBuffer from rfl,buffer] at h
    cases h

/-- In every state a key is where the code keeps keys, or in the node that split has cut
off and that the running insert holds; when an insert completes, everything is stored. -/
theorem noInsertDropped (two : 2 ≤ cfg.maxNodeSize) (here : cfg.addOp = true) (retains : Retains env R)
    (text : ∀ w h x, R w h x → h.ValidUtf8) (injective : cfg.json.DumpInjective fun _ => True)
    (back : cfg.json.ParsesBack) {s : System World} (h : Reach Starts (ProperCalls cfg env) s) :
    (∀ key ∈ OrderedMap.keys s.calls, InReach s key ∨ key ∈ OrderedMap.keys s.held) ∧
      s.frames.length ≤ 1 ∧
      ∀ e s', ProperCalls cfg env s e s' → s'.ended = s.ended ++ [.completed] →
        s'.tree.insertBuffer = [] ∧ ((∀ x ∈ s'.calls, x.2.ValidUtf8) →
          ∀ key ∈ OrderedMap.keys s'.calls, Denotes cfg (R s'.world) key s'.tree.rootHash) := by
  have reach := FitStep.reach (P := fun _ ids => ids.Nodup)
      (h.mono (fun s ⟨world,same⟩ => ⟨world,same,Multiset.nodup_zero⟩) fun _ _ _ => id)
  obtain ⟨frame,sound⟩ := reachSound two reach
  have kept := reachKept two reach
  refine ⟨fun key mem => ?_,?_,fun e s' step completed => ?_⟩
  · by_cases held : key ∈ OrderedMap.keys s.held
    · exact .inr held
    · refine .inl ?_
      rcases kept.called key mem with content | batch | buffer
      · obtain ⟨x,inside,rfl⟩ := List.mem_map.mp content
        exact .inl (List.mem_map_of_mem ((sound.seen x).mpr ⟨inside,held⟩))
      · exact .inr (.inr (sound.batch ▸ batch))
      · exact .inr (.inl buffer)
  · rw [sound.frames]
    cases frame <;> simp
  · have legible (w : World) : Legible cfg (fun _ => True) (R w) :=
      ⟨two,⟨trivial,trivial,trivial⟩,injective,retains.one,fun _ => trivial⟩
    have run : Reach (StartsWith fun _ ids => ids.Nodup) (FitStep cfg env (Clean fun _ => True)) s :=
      h.mono (fun s ⟨world,same⟩ => ⟨world,same,Multiset.nodup_zero⟩) fun _ _ _ step =>
        ⟨step.1,fun key value call => ⟨(step.2 key value call).1,trivial,trivial⟩⟩
    have fit : FitStep cfg env (Clean fun _ => True) s e s' :=
      ⟨step.1,fun key value call => ⟨(step.2 key value call).1,trivial,trivial⟩⟩
    obtain ⟨frames,buffer,published,secured⟩ := completes two here (retains.custody legible) run fit completed
    have run' := run.step e fit
    obtain ⟨frame',sound'⟩ := reachSound two (FitStep.reach run')
    have none_ : frame' = none := by
      have same := sound'.frames
      rw [frames] at same
      cases frame' with
      | none => rfl
      | some f => cases same
    subst none_
    refine ⟨buffer,fun values key mem => ?_⟩
    have keys_ := reachFit (P := fun _ ids => ids.Nodup) two
      ((h.step e step).mono (fun s ⟨world,same⟩ => ⟨world,same,Multiset.nodup_zero⟩) fun _ _ _ => id)
    obtain ⟨n,_,own,written,inside⟩ := publishedWritten sound' (reachKept two (FitStep.reach run'))
      (fun x mem => ⟨(keys_ x mem).1,(keys_ x mem).2,values x mem⟩) buffer published secured
    have told : Legible cfg StdString.ValidUtf8 (R s'.world) :=
      ⟨two,utf8Usable,back.injective,retains.one,text _ _ _⟩
    exact written.denotes back told n _ own (inside key mem)

end

theorem mockRetains : Retains MockStorage.storage.env fun s h x => s.cat h = .ok x where
  one := fun h h' => Except.ok.inj (h.symm.trans h')
  adds := fun given => ⟨(MockStorage.faithful.stores given).1,(MockStorage.faithful.stores given).2.2⟩
  addKeeps := fun given there => MockStorage.faithful.addKeeps given there
  removeKeeps := by
    rintro w h _ g y rfl other there
    exact MockStorage.faithful.removeKeeps other there

def properCall {World : Type} (_ : System World) : Event World → Bool
  | .call key _ => decide (ProperKey key) && decide key.Ascii
  | .resume .. => true

theorem properReach {acts : List Act} {s : System MockStorage}
    (h : (System.fresh MockStorage.empty).play (mockConfig 2) MockStorage.storage properCall acts = some s) :
    Reach Starts (ProperCalls (mockConfig 2) MockStorage.storage.env) s :=
  playReach (P := fun _ e => ∀ key value, e = .call key value → ProperKey key ∧ key.ValidUtf8)
    (fun s e ok key value same => by
      subst same
      simp only [properCall,Bool.and_eq_true,decide_eq_true_eq] at ok
      exact ⟨ok.1,asciiUtf8 ok.2⟩) (.start ⟨_,rfl⟩) h

theorem mockText (s : MockStorage) (h : Hash) (x : Value) (known : s.cat h = .ok x) : h.ValidUtf8 := by
  have mem := (OrderedMap.findSome s.sorted).mp (MockStorage.catSome.mp known)
  obtain ⟨n,_,rfl⟩ := s.given h (List.mem_map_of_mem mem)
  exact StdString.ofCharsValid _

theorem noInsertDroppedMock : ∃ s s' : System MockStorage, s'.calls.length = 5 ∧
    s'.ended = s.ended ++ [.completed] ∧ s'.tree.insertBuffer = [] ∧
    ∀ key ∈ OrderedMap.keys s'.calls, Denotes (mockConfig 2)
    (fun h x => s'.world.cat h = .ok x) key s'.tree.rootHash := by
  have run : ((System.fresh MockStorage.empty).play (mockConfig 2) MockStorage.storage properCall
      (splitting ++ List.replicate 7 (.resume 0))).any
      (fun s => (s.step (mockConfig 2) (.resume 0 .go s.world)).any
        fun s' => decide (s'.calls.length = 5) && decide (s'.ended = s.ended ++ [.completed]) &&
          s'.calls.all fun x => decide x.2.Ascii) = true := by
    decide +kernel
  obtain ⟨s,played,seen⟩ := Option.any_eq_true _ _ |>.mp run
  obtain ⟨s',stepped,last⟩ := Option.any_eq_true _ _ |>.mp seen
  simp only [Bool.and_eq_true,decide_eq_true_eq,List.all_eq_true] at last
  obtain ⟨⟨five,completed⟩,values⟩ := last
  have allowed : Allowed MockStorage.storage.env s (.resume 0 .go s.world) := fun frame _ => by cases frame <;> rfl
  have kept := (noInsertDropped (by decide) rfl mockRetains mockText nlohmannDumpInjective nlohmannParsesBack
    (properReach played)).2.2 _ _ ⟨⟨allowed,stepped⟩,fun _ _ same => by cases same⟩ completed
  exact ⟨s,s',five,completed,kept.1,kept.2 fun x mem => asciiUtf8 (values x mem)⟩

theorem heldByInsert : ∃ s, Reach Starts (ProperCalls (mockConfig 2) MockStorage.storage.env) s ∧
    (∀ frame ∈ s.frames, frame.waits = true) ∧ ∃ key ∈ OrderedMap.keys s.calls, ¬ InReach s key := by
  have run : ((System.fresh MockStorage.empty).play (mockConfig 2) MockStorage.storage properCall splitting).any
      (fun s => s.frames.all Frame.waits && decide (letter 99 ∈ OrderedMap.keys s.calls) &&
        decide (letter 99 ∉ (top s.tree.root).keys) && decide (letter 99 ∉ OrderedMap.keys s.tree.insertBuffer) &&
        decide (letter 99 ∉ OrderedMap.keys s.localBatch)) = true := by
    decide +kernel
  obtain ⟨s,played,seen⟩ := Option.any_eq_true _ _ |>.mp run
  simp only [Bool.and_eq_true,decide_eq_true_eq,List.all_eq_true] at seen
  obtain ⟨⟨⟨⟨wait,called⟩,tree⟩,buffer⟩,batch⟩ := seen
  exact ⟨s,properReach played,wait,_,called,fun h => h.elim tree fun h => h.elim buffer batch⟩

end IpfsCache
