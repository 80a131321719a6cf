import IpfsCache.Accepted

/-! Who is responsible for which stored block while inserts overlap: the ids a suspended
raw_insert still has to remove, the root's hash, and the hashes cached in the tree. -/
namespace IpfsCache
open OrderedMap (Sorted)
open Node Entries

/-- What the storage guarantees of the ids it is answerable for, `P`, and of the blocks behind
them, `R`; `Fit` are the pairs the calls are made with. -/
structure Custody {World : Type} (cfg : Config) (env : Env World) (R : World → Hash → Value → Prop)
    (Ledger P : World → Multiset Hash → Prop) (Fit : Key × Value → Prop) : Prop where
  add : AddSpec env.adds R Ledger
  removes : ∀ {w h w' ids}, env.removes w h w' → P w ({h} + ids) →
    P w' ids ∧ ∀ g ∈ ids, ∀ y, R w g y → R w' g y
  loses : ∀ {w lost ids}, cfg.removeOp = false → P w (lost + ids) → P w ids
  settles : ∀ {w w' n out}, Good cfg.maxNodeSize n → (∀ x ∈ n.flatten, Fit x) → P w n.ids → Alike n out.1 →
    StorePost cfg R Ledger n w w' out → P w' (out.2.ids + out.1.ids)

section
variable {World : Type} {cfg : Config} {env : Env World} {R : World → Hash → Value → Prop}
  {Ledger P : World → Multiset Hash → Prop} {Fit : Key × Value → Prop}

def Published (cfg : Config) (R : World → Hash → Value → Prop) (world : World) (root : Option Root) : Prop :=
  ∃ n hash, root = some ⟨some n,hash⟩ ∧ hash.isEmpty = false ∧ OwnBlock cfg (R world) hash n

structure Secured (cfg : Config) (R : World → Hash → Value → Prop) (P : World → Multiset Hash → Prop)
    (world : World) (own : Multiset Hash) (n : Node) : Prop where
  owned : P world (own + n.ids)
  backed : Backed (OwnBlock cfg (R world)) n

def Held (cfg : Config) (env : Env World) (R : World → Hash → Value → Prop)
    (Ledger P : World → Multiset Hash → Prop)
    (Fit : Key × Value → Prop) (world : World) (tree : BTree) : Option Frame → Prop
  | none => Secured cfg R P world (ownId (topHash tree.root)) (top tree.root)
  | some .loop => Secured cfg R P world (ownId (topHash tree.root)) (top tree.root) ∧
      (tree.insertBuffer ≠ [] ∨ Published cfg R world tree.root)
  | some (.batch buf) => Secured cfg R P world (ownId (topHash tree.root)) (top tree.root) ∧
      (buf = [] → ∃ n hash, tree.root = some ⟨some n,hash⟩)
  | some (.inserting p ps after _) => ∃ n hash, after = ⟨some n,hash⟩ ∧
      Secured cfg R P world (hashes (p :: ps) + ownId hash) n
  | some (.unhooking hash) => ∃ n, tree.root = some ⟨some n,noHash⟩ ∧ Secured cfg R P world {hash} n
  | some .unhooked => ∃ n, tree.root = some ⟨some n,noHash⟩ ∧ Secured cfg R P world 0 n
  | some (.storing x next) => ∃ n view w₀, tree.root = some ⟨some view,noHash⟩ ∧ Good cfg.maxNodeSize n ∧
      (∀ x ∈ n.flatten, Fit x) ∧ P w₀ n.ids ∧
      (Program.await x view next).Wp env.adds (fun _ => Alike n)
        (fun w' out => Alike n out.1 ∧ StorePost cfg R Ledger n w₀ w' out) world

def System.Held (cfg : Config) (env : Env World) (R : World → Hash → Value → Prop)
    (Ledger P : World → Multiset Hash → Prop) (Fit : Key × Value → Prop) (s : System World) : Prop :=
  IpfsCache.Held cfg env R Ledger P Fit s.world s.tree s.frames.head?

theorem Secured.remove (custody : Custody cfg env R Ledger P Fit) {w w' : World} {h : Hash}
    {own : Multiset Hash} {n : Node}
    (secured : Secured cfg R P w ({h} + own) n) (gone : env.removes w h w') : Secured cfg R P w' own n := by
  have owned := secured.owned
  rw [add_assoc] at owned
  obtain ⟨owned',kept⟩ := custody.removes gone owned
  exact ⟨owned',secured.backed.mono fun g mem c block =>
    ⟨kept g (Multiset.mem_add.mpr (.inr mem)) _ block.1,block.2⟩⟩

theorem Secured.lose (custody : Custody cfg env R Ledger P Fit) (lost : Multiset Hash) {w : World}
    {own : Multiset Hash} {n : Node}
    (secured : Secured cfg R P w (lost + own) n) (forgets : cfg.removeOp = true → lost = 0) :
    Secured cfg R P w own n := by
  by_cases here : cfg.removeOp = true
  · have none_ := forgets here
    subst none_
    rwa [zero_add] at secured
  · have owned := secured.owned
    rw [add_assoc] at owned
    exact ⟨custody.loses (by simpa using here) owned,secured.backed⟩

theorem Secured.insert (custody : Custody cfg env R Ledger P Fit) {w : World} {own : Multiset Hash}
    {n n' : Node} {key : Key}
    {value : Value} {ps : List Pause} (secured : Secured cfg R P w own n)
    (inserted : RawInserted cfg key value n ps n') : Secured cfg R P w (hashes ps + own) n' := by
  obtain ⟨lost,account,forgets⟩ := inserted.account
  refine Secured.lose custody lost ⟨?_,inserted.backed _ secured.backed⟩ forgets
  have owned := secured.owned
  rw [← account] at owned
  rw [show lost + (hashes ps + own) + n'.ids = own + (hashes ps + lost + n'.ids) by abel]
  exact owned

theorem storeOnHeld (custody : Custody cfg env R Ledger P Fit) (tree : BTree) {p : StoreProgram} {n : Node}
    {w₀ w : World} (good : Good cfg.maxNodeSize n) (fit : ∀ x ∈ n.flatten, Fit x) (owned : P w₀ n.ids)
    (wp : p.Wp env.adds (fun _ => Alike n) (fun w' out => Alike n out.1 ∧ StorePost cfg R Ledger n w₀ w' out) w) :
    (∀ tree' frame, storeOn tree noHash p = .goes tree' frame →
    IpfsCache.Held cfg env R Ledger P Fit w tree' (some frame)) ∧
    (∀ tree' outcome, storeOn tree noHash p = .ends tree' outcome →
    IpfsCache.Held cfg env R Ledger P Fit w tree' none) := by
  cases p with
  | await x view next =>
    refine ⟨fun _ _ same => ?_,fun _ _ same => ?_⟩ <;> cases same
    exact ⟨n,view,w₀,rfl,good,fit,owned,wp⟩
  | done out =>
    obtain ⟨n',outcome⟩ := out
    obtain ⟨alike,post⟩ := wp
    have settled := custody.settles good fit owned alike post
    cases outcome with
    | stored hash =>
      obtain ⟨proper,own⟩ := post.stored hash rfl
      refine ⟨fun _ _ same => ?_,fun _ _ same => ?_⟩ <;> cases same
      refine ⟨⟨?_,post.backed⟩,.inr ⟨n',hash,rfl,proper,own⟩⟩
      change P w (ownId hash + n'.ids)
      rw [ownIdSome proper]
      exact settled
    | _ =>
      refine ⟨fun _ _ same => ?_,fun _ _ same => ?_⟩ <;> cases same
      exact ⟨settled,post.backed⟩

theorem pauseOnHeld {tree : BTree} {n : Node} {hash : Hash} {buf : List (Key × Value)} {ps : List Pause} {w : World}
    (secured : Secured cfg R P w (hashes ps + ownId hash) n) {tree' : BTree} {frame : Frame}
    (same : pauseOn tree ⟨some n,hash⟩ buf ps = .goes tree' frame) :
    IpfsCache.Held cfg env R Ledger P Fit w tree' (some frame) := by
  cases ps with
  | nil =>
    cases same
    refine ⟨?_,fun _ => ⟨n,hash,rfl⟩⟩
    rwa [show hashes [] = 0 from rfl,zero_add] at secured
  | cons p ps =>
    cases same
    exact ⟨n,hash,rfl,secured⟩

theorem pauseOnGoes (tree : BTree) (after : Root) (buf : List (Key × Value)) (ps : List Pause) :
    ∃ tree' frame, pauseOn tree after buf ps = .goes tree' frame := by
  cases ps <;> exact ⟨_,_,rfl⟩

theorem callHeld {s : System World} {frame : Option Frame} (sound : Sound cfg env s frame)
    (held : IpfsCache.Held cfg env R Ledger P Fit s.world s.tree frame) (wait : ∀ f, frame = some f → f.waits = true)
    (key : Key) (value : Value) : (s.call key value).Held cfg env R Ledger P Fit := by
  have some_ : OrderedMap.insert key value s.tree.insertBuffer ≠ [] := OrderedMap.insertNotEmpty _ _ _
  have flag := sound.flag
  have frames := sound.frames
  obtain ⟨⟨root,buffer,inserting⟩,frames',w,calls,handed,ended⟩ := s
  cases flag
  cases frames
  cases frame with
  | none => exact ⟨held,.inl some_⟩
  | some f =>
    have waits := wait f rfl
    cases f with
    | inserting p ps after buf => exact held
    | unhooking hash => exact held
    | storing x next => exact held
    | _ => cases waits

theorem advanceHeld (two : 2 ≤ cfg.maxNodeSize) (here : cfg.addOp = true) (custody : Custody cfg env R Ledger P Fit)
    {s : System World} {f : Frame} (sound : Sound cfg env s (some f)) (fitting : ∀ x ∈ s.outline.content, Fit x)
    (held : IpfsCache.Held cfg env R Ledger P Fit s.world s.tree (some f)) {by_ : Resumption} {world : World}
    {a : Advance} (answers : env.Answers s.world f by_ world) (advanced : Advanced cfg s.tree f by_ a) :
    (s.after 0 f world a).Held cfg env R Ledger P Fit := by
  have sits := sound.sits
  have goes (tree' : BTree) (frame' : Frame) :
    (s.after 0 f world (.goes tree' frame')).Held cfg env R Ledger P Fit =
      IpfsCache.Held cfg env R Ledger P Fit world tree' (some frame') := by
    simp [System.Held,System.after,sound.frames]
  have ends (tree' : BTree) (outcome : InsertOutcome) :
      (s.after 0 f world (.ends tree' outcome)).Held cfg env R Ledger P Fit =
      IpfsCache.Held cfg env R Ledger P Fit world tree' none := by
    simp [System.Held,System.after,sound.frames]
  obtain ⟨⟨root,buffer,inserting⟩,frames',w,calls,handed,ended⟩ := s
  have frames := sound.frames
  cases frames
  cases advanced with
  | finished =>
    rw [ends]
    cases answers
    exact held.1
  | drained =>
    rw [goes]
    cases answers
    exact ⟨held.1,by simp⟩
  | @raw _ k v buf ps after raw =>
    cases answers
    obtain ⟨ps',n,raw',inserted⟩ := rawInserts two sits.1.good k v
    cases raw.symm.trans raw'
    obtain ⟨tree',frame',same⟩ := pauseOnGoes ⟨root,buffer,inserting⟩ ⟨some n,topHash root⟩ buf ps
    rw [same,goes]
    exact pauseOnHeld (held.1.insert custody inserted) same
  | @removed _ p ps after buf =>
    obtain ⟨n,hash,rfl,secured⟩ := held
    obtain ⟨tree',frame',same⟩ := pauseOnGoes ⟨root,buffer,inserting⟩ ⟨some n,hash⟩ buf ps
    rw [same,goes]
    refine pauseOnHeld (Secured.remove (h := p.hash) custody ?_ answers) same
    rwa [← add_assoc]
  | rootless =>
    obtain ⟨n,hash,none_⟩ := held.2 rfl
    cases none_
  | @forgotten node hash _ _ forgets =>
    rw [goes]
    cases answers
    obtain ⟨n,hash',root_⟩ := held.2 rfl
    cases root_
    refine ⟨n,rfl,Secured.lose custody (ownId hash) (by rw [add_zero]; exact held.1) fun present => ?_⟩
    rcases forgets with empty | absent
    · simp [ownId,empty]
    · rw [present] at absent
      cases absent
  | @unhooks node hash _ _ proper present =>
    rw [goes]
    cases answers
    obtain ⟨n,hash',root_⟩ := held.2 rfl
    cases root_
    have secured := held.1
    rw [show topHash (some ⟨some n,hash⟩) = hash from rfl,ownIdSome proper] at secured
    exact ⟨n,rfl,secured⟩
  | unhooked =>
    rw [goes]
    obtain ⟨n,root_,secured⟩ := held
    exact ⟨n,root_,Secured.remove custody (by rwa [add_zero]) answers⟩
  | skipped none_ =>
    obtain ⟨n,root_,_⟩ := held
    rcases none_ with absent | missing
    · rw [here] at absent
      cases absent
    · exact absurd root_ (missing n noHash)
  | @stores n hash =>
    cases answers
    obtain ⟨n',root_,secured⟩ := held
    cases root_
    have owned := secured.owned
    rw [zero_add] at owned
    have keeps : (n.store cfg).Wp env.adds (fun _ => Alike n) (fun _ => StoreKeeps env.adds n) w := storeKeeps n w
    have wp := Program.wpAnd _ _ keeps (storeWp custody.add n w secured.backed)
    have next := storeOnHeld custody ⟨some ⟨some n,noHash⟩,buffer,inserting⟩ sits.1.good fitting owned
      (Program.wpMono (fun _ _ => And.left) (fun _ _ both => ⟨both.1.1,both.2⟩) _ w wp)
    rcases out : storeOn ⟨some ⟨some n,noHash⟩,buffer,inserting⟩ noHash
      (n.store cfg) with ⟨tree',frame'⟩ | ⟨tree',outcome⟩
    · rw [goes]
      exact next.1 _ _ out
    · rw [ends]
      exact next.2 _ _ out
  | @added _ x next reply =>
    obtain ⟨n,view,w₀,root_,good,fit',owned,wp⟩ := held
    cases root_
    have after := storeOnHeld custody ⟨some ⟨some view,noHash⟩,buffer,inserting⟩ good fit' owned
        (wp.2 reply world answers)
    rcases out : storeOn ⟨some ⟨some view,noHash⟩,buffer,inserting⟩ noHash
      (next reply) with ⟨tree',frame'⟩ | ⟨tree',outcome⟩
    · dsimp only [BTree.rootHash]
      rw [out,goes]
      exact after.1 _ _ out
    · dsimp only [BTree.rootHash]
      rw [out,ends]
      exact after.2 _ _ out

theorem heldKept (two : 2 ≤ cfg.maxNodeSize) (here : cfg.addOp = true) (custody : Custody cfg env R Ledger P Fit)
    {s s' : System World} {e : Event World} {frame : Option Frame} (sound : Sound cfg env s frame)
    (fitting : ∀ x ∈ s.outline.content, Fit x) (held : s.Held cfg env R Ledger P Fit) (step : Step cfg env s e s') :
    s'.Held cfg env R Ledger P Fit := by
  have headOf : s.frames.head? = frame := by
    rw [sound.frames]
    cases frame <;> rfl
  rw [System.Held,headOf] at held
  rcases stepCases sound.frames step with ⟨key,value,rfl,wait,rfl⟩ | ⟨f,by_,world,a,rfl,rfl,answers,advanced,rfl⟩
  · exact callHeld sound held wait key value
  · exact advanceHeld two here custody sound fitting held answers advanced

theorem callLogs (s : System World) (key : Key) (value : Value) :
    (s.call key value).calls = s.calls ++ [(key,value)] ∧
    ((s.call key value).ended = s.ended ∨ (s.call key value).ended = s.ended ++ [.buffered]) := by
  obtain ⟨⟨root,buffer,inserting⟩,frames,w,calls,handed,ended⟩ := s
  cases inserting
  · exact ⟨rfl,.inl rfl⟩
  · exact ⟨rfl,.inr rfl⟩

theorem advancedCompletes {tree tree' : BTree} {frame : Frame} {by_ : Resumption} {a : Advance}
    (h : Advanced cfg tree frame by_ a) (same : a = .ends tree' .completed) :
    frame = .loop ∧ tree.insertBuffer = [] ∧ tree'.insertBuffer = [] ∧ tree'.root = tree.root := by
  have never (tree : BTree) (hash : Hash) (p : StoreProgram) : storeOn tree hash p ≠ .ends tree' .completed := by
    rcases p with ⟨n,_ | _ | _⟩ | _ <;> simp [storeOn,BTree.afterStore]
  have goes (tree : BTree) (after : Root) (buf : List (Key × Value)) (ps : List Pause) :
      pauseOn tree after buf ps ≠ .ends tree' .completed := by
    cases ps <;> simp [pauseOn]
  cases h with
  | finished =>
    cases same
    exact ⟨rfl,rfl,rfl,rfl⟩
  | raw => exact absurd same (goes _ _ _ _)
  | removed => exact absurd same (goes _ _ _ _)
  | stores => exact absurd same (never _ _ _)
  | added => exact absurd same (never _ _ _)
  | _ => cases same

def StartsWith (P : World → Multiset Hash → Prop) (s : System World) : Prop := ∃ world, s = .fresh world ∧ P world 0

def FitStep (cfg : Config) (env : Env World) (Fit : Key × Value → Prop) (s : System World) (e : Event World)
    (s' : System World) : Prop :=
  Step cfg env s e s' ∧ ∀ key value, e = .call key value → Fit (key,value)

theorem FitStep.reach {s : System World} (h : Reach (StartsWith P) (FitStep cfg env Fit) s) :
    Reach Starts (Step cfg env) s :=
  h.mono (fun _ ⟨world,same,_⟩ => ⟨world,same⟩) fun _ _ _ => And.left

theorem fitKept {s s' : System World} {e : Event World} {frame : Option Frame} (sound : Sound cfg env s frame)
    (fit : ∀ x ∈ s.calls, Fit x) (step : FitStep cfg env Fit s e s') : ∀ x ∈ s'.calls, Fit x := by
  intro x mem
  rcases stepCases sound.frames step.1 with ⟨key,value,event,_,rfl⟩ | ⟨f,by_,world,a,_,_,_,_,rfl⟩
  · rw [(callLogs s key value).1] at mem
    rcases List.mem_append.mp mem with old | new
    · exact fit x old
    · rw [List.mem_singleton.mp new]
      exact step.2 _ _ event
  · cases a <;> exact fit x mem

theorem reachFit (two : 2 ≤ cfg.maxNodeSize) {s : System World} (h : Reach (StartsWith P) (FitStep cfg env Fit) s) :
    ∀ x ∈ s.calls, Fit x := by
  refine h.invariantOver (J := fun s => ∃ frame, Sound cfg env s frame) (I := fun s => ∀ x ∈ s.calls, Fit x)
    (fun _ h => reachSound two (FitStep.reach h)) ?_ fun _ _ _ ⟨_,sound⟩ fit step => fitKept sound fit step
  rintro _ ⟨world,rfl,_⟩ x mem
  cases mem

theorem reachHeld (two : 2 ≤ cfg.maxNodeSize) (here : cfg.addOp = true) (custody : Custody cfg env R Ledger P Fit)
    {s : System World} (h : Reach (StartsWith P) (FitStep cfg env Fit) s) : s.Held cfg env R Ledger P Fit := by
  refine h.invariantOver (J := fun s => (∃ frame, Sound cfg env s frame) ∧ Kept s.outline ∧ ∀ x ∈ s.calls, Fit x)
    (I := fun s => s.Held cfg env R Ledger P Fit)
    (fun _ h => ⟨reachSound two (FitStep.reach h),reachKept two (FitStep.reach h),reachFit two h⟩)
    (fun _ ⟨world,same,owned⟩ => ?_) fun _ _ _ ⟨⟨_,sound⟩,kept,fit⟩ held step =>
      heldKept two here custody sound (fun x mem => fit x (kept.given x (.inl mem))) held step.1
  subst same
  exact ⟨owned,.bare (by simp [Bare])⟩

theorem heldCompletes {s s' : System World} {e : Event World} {frame : Option Frame} (sound : Sound cfg env s frame)
    (held : s.Held cfg env R Ledger P Fit) (step : Step cfg env s e s')
    (completed : s'.ended = s.ended ++ [.completed]) :
    s'.frames = [] ∧ s'.tree.insertBuffer = [] ∧ Published cfg R s'.world s'.tree.root ∧
      Secured cfg R P s'.world (ownId (topHash s'.tree.root)) (top s'.tree.root) := by
  rcases stepCases sound.frames step with ⟨key,value,event,_,rfl⟩ | ⟨f,by_,world,a,rfl,rfl,answers,advanced,rfl⟩
  · rcases (callLogs s key value).2 with same | same <;> rw [same] at completed <;> simp at completed
  · obtain ⟨⟨root,buffer,inserting⟩,frames,w,calls,handed,ended⟩ := s
    have frames := sound.frames
    cases frames
    cases a with
    | goes tree frame' => simp [System.after] at completed
    | ends tree outcome =>
      have outcome_ : outcome = .completed := by simpa [System.after] using completed
      subst outcome_
      obtain ⟨rfl,empty,empty',root_⟩ := advancedCompletes advanced rfl
      cases answers
      obtain ⟨secured,full | published⟩ := held
      · exact absurd empty full
      · cases root_
        exact ⟨rfl,empty',published,secured⟩

theorem completes (two : 2 ≤ cfg.maxNodeSize) (here : cfg.addOp = true) (custody : Custody cfg env R Ledger P Fit)
    {s s' : System World} {e : Event World} (h : Reach (StartsWith P) (FitStep cfg env Fit) s)
    (step : FitStep cfg env Fit s e s') (completed : s'.ended = s.ended ++ [.completed]) :
    s'.frames = [] ∧ s'.tree.insertBuffer = [] ∧ Published cfg R s'.world s'.tree.root ∧
      Secured cfg R P s'.world (ownId (topHash s'.tree.root)) (top s'.tree.root) := by
  obtain ⟨frame,sound⟩ := reachSound two (FitStep.reach h)
  exact heldCompletes sound (reachHeld two here custody h) step.1 completed

end
end IpfsCache
