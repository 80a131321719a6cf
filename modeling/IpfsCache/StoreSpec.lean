import IpfsCache.Cached
import IpfsCache.NodeStore

/-! What Node::store leaves behind: the same tree with hashes filled in, each of them
the id of the block that stands for the child next to it. -/
namespace IpfsCache
open OrderedMap (Sorted)
open Node Entries

structure Alike (n n' : Node) : Prop where
  keys : n'.entries.map Prod.fst = n.entries.map Prod.fst
  flat : n'.flatten = n.flatten
  ordered : Ordered n → Ordered n'
  level : ∀ m d, Level m d n.entries → Level m d n'.entries

theorem Alike.refl (n : Node) : Alike n n := ⟨rfl,rfl,id,fun _ _ => id⟩

theorem Alike.trans {a b c : Node} (h : Alike a b) (k : Alike b c) : Alike a c :=
  ⟨k.keys.trans h.keys,k.flat.trans h.flat,k.ordered ∘ h.ordered,fun m d => k.level m d ∘ h.level m d⟩

theorem sizeKeys {es es' : Entries} (same : es'.map Prod.fst = es.map Prod.fst) : size es' = size es := by
  have len : es'.length = es.length := by simpa using congrArg List.length same
  have last := congrArg List.getLast? same
  simp only [List.getLast?_map] at last
  unfold Entries.size
  cases h' : es'.getLast? <;> cases h : es.getLast? <;> simp_all

theorem Alike.size {n n' : Node} (h : Alike n n') : n'.size = n.size := sizeKeys h.keys

theorem Alike.child {pre post : Entries} {i : NodeId} {v : Value} {c c' : Node} {x x' : Hash} (h : Alike c c') :
    Alike ⟨pre ++ (i,⟨v,some c,x⟩) :: post⟩ ⟨pre ++ (i,⟨v,some c',x'⟩) :: post⟩ := by
  have keys : (pre ++ (i,(⟨v,some c',x'⟩ : Entry Node)) :: post).map Prod.fst =
      (pre ++ (i,⟨v,some c,x⟩) :: post).map Prod.fst := by simp
  refine ⟨keys,by rw [flattenAt,flattenAt]; simp [belowEntry,h.flat],fun old =>
    .mk (OrderedMap.sortedReplace old.here) ?_,?_⟩
  · intro p mem d child
    rcases OrderedMap.memReplace (i,(⟨v,some c,x⟩ : Entry Node)) mem with rfl | there
    · cases child
      exact h.ordered (old.child (p := (i,⟨v,some c,x⟩)) (by simp) rfl)
    · exact old.child there child
  · intro m d old
    cases d with
    | zero => exact absurd (old.bare (i,⟨v,some c,x⟩) (by simp [entries])).1 (by simp)
    | succ d =>
      have below := old.child (p := (i,⟨v,some c,x⟩)) (by simp [entries]) rfl
      rw [← h.size] at below
      exact levelReplace old ⟨c',rfl,h.level m d below.1,below.2⟩

section keeps
variable {World : Type} {Answers : World → Value → Except ErrorCode Hash → World → Prop} {cfg : Config}

def Succeeds (Answers : World → Value → Except ErrorCode Hash → World → Prop) : Prop :=
  ∀ w x r w', Answers w x r w' → ∃ h, r = .ok h

def StoreKeeps (Answers : World → Value → Except ErrorCode Hash → World → Prop) (n : Node)
    (out : Node × StoreOutcome) : Prop :=
  Alike n out.1 ∧ (Succeeds Answers → ∃ h, out.2 = .stored h)

theorem storeLoopKnown {done rest : Entries} {json : Json} {i : NodeId} {value : Value} {child : Option Node}
    {hash : Hash} (known : hash.isEmpty = false) :
    storeLoop cfg done json ((i,⟨value,child,hash⟩) :: rest) =
      storeLoop cfg (done ++ [(i,⟨value,child,hash⟩)])
      ((storeValue i value json).setField (jsonKey i) childField hash) rest := by
  cases child <;> simp [storeLoop,known]

structure Filled (R : Node → Node → Prop) : Prop where
  refl : ∀ n, R n n
  trans : ∀ {a b c}, R a b → R b c → R a c
  child : ∀ {pre post : Entries} {i : NodeId} {v : Value} {c c' : Node} {x : Hash} (x' : Hash), x.isEmpty = true →
    R c c' → R ⟨pre ++ (i,⟨v,some c,x⟩) :: post⟩ ⟨pre ++ (i,⟨v,some c',x'⟩) :: post⟩

theorem storeLoopFills {R : Node → Node → Prop} (filled : Filled R) (rest : Entries) :
    (∀ p ∈ rest, ∀ c, p.2.child = some c → ∀ w, (c.store cfg).Wp Answers (fun _ => R c)
      (fun _ out => R c out.1 ∧ (Succeeds Answers → ∃ h, out.2 = .stored h)) w) →
    ∀ (done : Entries) (json : Json) (w : World), (storeLoop cfg done json rest).Wp Answers
      (fun _ => R ⟨done ++ rest⟩) (fun _ out => R ⟨done ++ rest⟩ out.1 ∧
        (Succeeds Answers → ∃ h, out.2 = .stored h)) w := by
  induction rest with
  | nil =>
    intro _ done json w
    rw [List.append_nil,storeLoop]
    refine ⟨filled.refl _,fun reply w' a => ?_⟩
    cases reply with
    | ok h => exact ⟨filled.refl _,fun _ => ⟨h,rfl⟩⟩
    | error ec => exact ⟨filled.refl _,fun good => by obtain ⟨h,same⟩ := good _ _ _ _ a; cases same⟩
  | cons p rest ih =>
    intro children done json w
    obtain ⟨i,value,child,hash⟩ := p
    have next (w : World) (e : Entry Node) (json : Json) : (storeLoop cfg (done ++ [(i,e)]) json rest).Wp Answers
        (fun _ => R ⟨done ++ (i,e) :: rest⟩) (fun _ out => R ⟨done ++ (i,e) :: rest⟩ out.1 ∧
          (Succeeds Answers → ∃ h, out.2 = .stored h)) w := by
      have step := ih (fun p mem => children p (List.mem_cons_of_mem _ mem)) (done ++ [(i,e)]) json w
      rwa [List.append_assoc,List.singleton_append] at step
    by_cases cached : hash.isEmpty = true
    · cases child with
      | none =>
        simp only [storeLoop,cached,if_true]
        exact next w _ _
      | some c =>
        simp only [storeLoop,cached,if_true]
        refine Program.wpBind (fun w view h => filled.child hash cached h) (fun w' out post => ?_) _ w
          (children (i,⟨value,some c,hash⟩) (by simp) c rfl w)
        obtain ⟨c',outcome⟩ := out
        have around (x : Hash) : R ⟨done ++ (i,⟨value,some c,hash⟩) :: rest⟩ ⟨done ++
            (i,⟨value,some c',x⟩) :: rest⟩ :=
          filled.child x cached post.1
        cases outcome with
        | stored h =>
          exact Program.wpMono (fun _ _ => filled.trans (around h))
            (fun _ _ out => ⟨filled.trans (around h) out.1,out.2⟩) _ w' (next w' _ _)
        | _ => exact ⟨around hash,fun good => by obtain ⟨h,same⟩ := post.2 good; cases same⟩
    · rw [storeLoopKnown (by simpa using cached)]
      exact next w _ _

theorem storeFills {R : Node → Node → Prop} (filled : Filled R) (n : Node) (w : World) :
    (n.store cfg).Wp Answers (fun _ => R n)
      (fun _ out => R n out.1 ∧ (Succeeds Answers → ∃ h, out.2 = .stored h)) w := by
  induction n using Node.induct generalizing w with
  | step es ih =>
    rw [store]
    exact storeLoopFills filled es (fun p mem c child w => ih p mem c child w) [] .null w

theorem storeKeeps (n : Node) (w : World) :
    (n.store cfg).Wp Answers (fun _ => Alike n) (fun _ => StoreKeeps Answers n) w :=
  storeFills ⟨.refl,.trans,fun _ _ => .child⟩ n w

end keeps

def fileEntry (json : Json) (p : NodeId × Entry Node) : Json :=
  let json := storeValue p.1 p.2.value json
  if p.2.childHash.isEmpty then json else json.setField (jsonKey p.1) childField p.2.childHash

def nodeJson (es : Entries) : Json := es.foldl fileEntry .null

def block (cfg : Config) (n : Node) : Value := cfg.json.dump (nodeJson n.entries)

theorem nodeJsonSnoc (es : Entries) (p : NodeId × Entry Node) :
    nodeJson (es ++ [p]) = fileEntry (nodeJson es) p := by
  simp [nodeJson]

def OwnBlock (cfg : Config) (R : Hash → Value → Prop) (hash : Hash) (c : Node) : Prop :=
  R hash (block cfg c) ∧ c.everyNodeHasHash = true

theorem everyChildHasHashIff {es : Entries} :
    everyChildHasHash es = true ↔ ∀ p ∈ es, ∀ c, p.2.child = some c → c.everyNodeHasHash = true := by
  induction es with
  | nil => simp [everyChildHasHash]
  | cons p rest ih =>
    obtain ⟨i,v,_ | c,x⟩ := p
    · simp [everyChildHasHash,ih]
    · simp [everyChildHasHash,ih]

theorem everyNodeHasHashIff {es : Entries} :
    everyNodeHasHash ⟨es⟩ = true ↔ ∀ p ∈ es, ∀ c, p.2.child = some c →
      p.2.childHash.isEmpty = false ∧ c.everyNodeHasHash = true := by
  rw [everyNodeHasHash,Bool.and_eq_true,everyChildHasHashIff,List.all_eq_true]
  constructor
  · rintro ⟨own,below⟩ p mem c child
    have h := own p mem
    rw [child] at h
    exact ⟨by simpa using h,below p mem c child⟩
  · intro h
    refine ⟨fun p mem => ?_,fun p mem c child => (h p mem c child).2⟩
    cases child : p.2.child with
    | none => rfl
    | some c => simp [(h p mem c child).1]

structure AddSpec {World : Type} (Answers : World → Value → Except ErrorCode Hash → World → Prop)
    (R : World → Hash → Value → Prop) (Ledger : World → Multiset Hash → Prop) : Prop where
  stored : ∀ {w x h w'}, Answers w x (.ok h) w' → h.isEmpty = false ∧ R w' h x
  given : ∀ {w x h w' ids}, Answers w x (.ok h) w' → Ledger w ids → Ledger w' (ids + {h})
  failed : ∀ {w x ec w' ids}, Answers w x (.error ec) w' → Ledger w ids → Ledger w' ids
  keeps : ∀ {w x r w' h y}, Answers w x r w' → R w h y → R w' h y

def StoreOutcome.ids : StoreOutcome → Multiset Hash
  | .stored h => {h}
  | _ => 0

structure StorePost {World : Type} (cfg : Config) (R : World → Hash → Value → Prop)
    (Ledger : World → Multiset Hash → Prop) (n : Node) (w w' : World) (out : Node × StoreOutcome) : Prop where
  backed : Backed (OwnBlock cfg (R w')) out.1
  account : ∃ new, (∀ ids, Ledger w ids → Ledger w' (ids + new)) ∧ out.2.ids + out.1.ids = new + n.ids
  keeps : ∀ {h y}, R w h y → R w' h y
  stored : ∀ h, out.2 = .stored h → h.isEmpty = false ∧ OwnBlock cfg (R w') h out.1

section store
variable {World : Type} {Answers : World → Value → Except ErrorCode Hash → World → Prop}
  {R : World → Hash → Value → Prop} {Ledger : World → Multiset Hash → Prop} {cfg : Config}

theorem Backed.keep {n : Node} {w w' : World} (h : Backed (OwnBlock cfg (R w)) n)
    (keeps : ∀ {h y}, R w h y → R w' h y) : Backed (OwnBlock cfg (R w')) n :=
  h.mono fun _ _ _ own => ⟨keeps own.1,own.2⟩

theorem StorePost.after {n n' : Node} {w w' w'' : World} {out : Node × StoreOutcome}
    (keeps : ∀ {h y}, R w h y → R w' h y) {new : Multiset Hash}
    (given : ∀ ids, Ledger w ids → Ledger w' (ids + new)) (ids : n'.ids = new + n.ids)
    (post : StorePost cfg R Ledger n' w' w'' out) : StorePost cfg R Ledger n w w'' out := by
  obtain ⟨more,given',account⟩ := post.account
  refine ⟨post.backed,⟨new + more,fun ids h => ?_,?_⟩,fun h => post.keeps (keeps h),post.stored⟩
  · rw [← add_assoc]
    exact given' _ (given _ h)
  · rw [account,ids]
    abel

theorem storeLoopWp (spec : AddSpec Answers R Ledger) (rest : Entries) :
    (∀ p ∈ rest, ∀ c, p.2.child = some c → ∀ w, Backed (OwnBlock cfg (R w)) c →
      (c.store cfg).Wp Answers (fun _ _ => True) (StorePost cfg R Ledger c w) w) →
    ∀ (done : Entries) (w : World), Backed (OwnBlock cfg (R w)) ⟨done ++ rest⟩ → everyNodeHasHash ⟨done⟩ = true →
      (storeLoop cfg done (nodeJson done) rest).Wp Answers (fun _ _ => True)
        (StorePost cfg R Ledger ⟨done ++ rest⟩ w) w := by
  induction rest with
  | nil =>
    intro _ done w backed hashed
    rw [List.append_nil] at backed ⊢
    rw [storeLoop]
    refine ⟨trivial,fun reply w' a => ?_⟩
    have kept := backed.keep (spec.keeps a)
    cases reply with
    | ok h =>
      have there := spec.stored a
      exact ⟨kept,⟨{h},fun _ => spec.given a,rfl⟩,spec.keeps a,
        fun h' same => by cases same; exact ⟨there.1,there.2,hashed⟩⟩
    | error ec =>
      exact ⟨kept,⟨0,fun ids h => by rw [add_zero]; exact spec.failed a h,rfl⟩,spec.keeps a,
        fun h' same => by cases same⟩
  | cons p rest ih =>
    intro children done w backed hashed
    obtain ⟨i,value,child,hash⟩ := p
    have whole (e : Entry Node) : (done ++ [(i,e)]) ++ rest = done ++ (i,e) :: rest := by simp
    have next (w : World) (e : Entry Node) (backed : Backed (OwnBlock cfg (R w)) ⟨done ++ (i,e) :: rest⟩)
        (own : ∀ c, e.child = some c → e.childHash.isEmpty = false ∧ c.everyNodeHasHash = true) :
        (storeLoop cfg (done ++ [(i,e)]) (fileEntry (nodeJson done) (i,e)) rest).Wp Answers
          (fun _ _ => True) (StorePost cfg R Ledger ⟨done ++ (i,e) :: rest⟩ w) w := by
      have hashed' : everyNodeHasHash ⟨done ++ [(i,e)]⟩ = true := by
        rw [everyNodeHasHashIff] at hashed ⊢
        exact List.forall_mem_append.mpr ⟨hashed,by simpa using own⟩
      have step := ih (fun p mem => children p (List.mem_cons_of_mem _ mem))
          (done ++ [(i,e)]) w (by rw [whole]; exact backed) hashed'
      rwa [nodeJsonSnoc,whole] at step
    by_cases cached : hash.isEmpty = true
    · cases child with
      | none => simpa [storeLoop,cached,fileEntry] using next w ⟨value,none,hash⟩ backed (by simp)
      | some c =>
        simp only [storeLoop,cached,if_true]
        have inner := children (i,⟨value,some c,hash⟩) (by simp) c rfl w
          (backed.child (p := (i,⟨value,some c,hash⟩)) (by simp) rfl)
        refine Program.wpBind (fun w view h => trivial) (fun w' out post => ?_) _ w inner
        obtain ⟨c',outcome⟩ := out
        obtain ⟨new,given,account⟩ := post.account
        have kept := backed.keep post.keeps
        have around (x : Hash) (own : x.isEmpty = false → OwnBlock cfg (R w') x c') :
            Backed (OwnBlock cfg (R w')) ⟨done ++ (i,⟨value,some c',x⟩) :: rest⟩ :=
          (kept.sub fun p mem => List.mem_append_left _ mem).append
            ((Backed.one own post.backed).append (kept.sub fun p mem => by simp [mem]))
        have empty : ownId hash = 0 := by simp [ownId,cached]
        cases outcome with
        | stored h =>
          obtain ⟨proper,own⟩ := post.stored h rfl
          have step := next w' ⟨value,some c',h⟩ (around h fun _ => own) fun c'' same => by
            cases same
            exact ⟨proper,own.2⟩
          have ids : ids ⟨done ++ (i,⟨value,some c',h⟩) :: rest⟩ =
              new + ids ⟨done ++ (i,⟨value,some c,hash⟩) :: rest⟩ := by
            have child : ownId h + c'.ids = new + c.ids := by rw [ownIdSome proper]; exact account
            simp only [Node.ids,idsAt,entryIds,child,empty]
            abel
          have filed : fileEntry (nodeJson done) (i,⟨value,some c',h⟩) =
              (storeValue i value (nodeJson done)).setField (jsonKey i) childField h := by
            simp [fileEntry,proper]
          rw [filed] at step
          exact Program.wpMono (fun _ _ => id) (fun _ _ => StorePost.after post.keeps given ids) _ w' step
        | _ =>
          have ids : ids ⟨done ++ (i,⟨value,some c',hash⟩) :: rest⟩ =
              new + ids ⟨done ++ (i,⟨value,some c,hash⟩) :: rest⟩ := by
            have child : c'.ids = new + c.ids := by rw [← account]; exact (zero_add _).symm
            simp only [Node.ids,idsAt,entryIds,child]
            abel
          exact ⟨around hash fun proper => absurd cached (by simp [proper]),
            ⟨new,given,(zero_add _).trans ids⟩,post.keeps,fun h same => by cases same⟩
    · have own : ∀ c, child = some c → hash.isEmpty = false ∧ c.everyNodeHasHash = true := fun c same =>
        ⟨by simpa using cached,(backed.here (p := (i,⟨value,child,hash⟩)) (by simp) same (by simpa using cached)).2⟩
      have step := next w ⟨value,child,hash⟩ backed own
      rw [storeLoopKnown (by simpa using cached)]
      simpa only [fileEntry,cached,if_false,Bool.false_eq_true] using step

theorem storeWp (spec : AddSpec Answers R Ledger) (n : Node) (w : World) (backed : Backed (OwnBlock cfg (R w)) n) :
    (n.store cfg).Wp Answers (fun _ _ => True) (StorePost cfg R Ledger n w) w := by
  induction n using Node.induct generalizing w with
  | step es ih =>
    rw [store]
    exact storeLoopWp spec es (fun p mem c child w backed => ih p mem c child w backed) [] w backed rfl

end store
end IpfsCache
