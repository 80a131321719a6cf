import IpfsCache.Spoiled
import IpfsCache.Reader
import IpfsCache.Finders

/-! Finds one after another on a tree that is loaded by its hash, when fetching may fail or
bring something else than what is stored. A node whose block did not come stays in the tree
as it was left, and the finds that meet it later do not fetch its block again. -/
namespace IpfsCache
open OrderedMap (Sorted)
open Node Entries

structure Attempts (World : Type) where
  reader : Reader World
  spoiled : List (List NodeId)

def badAt (spoiled : List (List NodeId)) (q : List NodeId) : Bool := decide (q ∈ spoiled)

namespace Attempts
variable {World : Type}

def loaded (cfg : Config) (S : Storage World) (h : Hash) (world : World) : Attempts World :=
  ⟨(Reader.fresh world).load cfg S h,[]⟩

def spoils (S : Storage World) (t : Attempts World) : ReadEvent World → List (List NodeId)
  | .block data _ =>
    match t.reader.reading with
    | some r =>
      if data = S.reads t.reader.world r.hash ∨ t.spoiled.any (fun p => p.isPrefixOf r.path) = true then t.spoiled
      else r.path :: t.spoiled
    | none => t.spoiled
  | _ => t.spoiled

def step (cfg : Config) (S : Storage World) (t : Attempts World) (e : ReadEvent World) : Option (Attempts World) :=
  (t.reader.step cfg S e).map fun reader => ⟨reader,t.spoils S e⟩

def Allowed (S : Storage World) (h : Hash) (t : Attempts World) : ReadEvent World → Prop
  | .find _ => True
  | .load hash => hash = h
  | .block _ world => S.Keeps t.reader.world world
  | .elsewhere world => S.Keeps t.reader.world world

def Step (cfg : Config) (S : Storage World) (h : Hash) (t : Attempts World) (e : ReadEvent World)
    (t' : Attempts World) : Prop :=
  t.Allowed S h e ∧ t.step cfg S e = some t'

def met (key : Key) (t : Attempts World) : Option Node :=
  match t.reader.tree.root with
  | some ⟨some n,_⟩ => n.met key (badAt t.spoiled)
  | _ => none

end Attempts

section retry
variable {World : Type} {cfg : Config} {S : Storage World} {h : Hash} {T : Node} {key : Key}
  {spoiled : List (List NodeId)} {x : Option Node}

theorem badIff {q : List NodeId} : badAt spoiled q = true ↔ q ∈ spoiled := decide_eq_true_iff

theorem badNot {q : List NodeId} : badAt spoiled q = false ↔ q ∉ spoiled := decide_eq_false_iff_not

inductive Clearly (spoiled : List (List NodeId)) (key : Key) (T : Node) (h : Hash) (bound : Nat) :
    Option Node × FindStep → Prop
  | found {x : Option Node} (seen : Seen (· ∈ spoiled) (x.map (Node.blank (badAt spoiled))) T) :
      Clearly spoiled key T h bound (x,.done (answer (OrderedMap.find key T.flatten)))
  | asks {n : Node} {path : List NodeId} {c : Node} {g : Hash} (way : Way key T h path c g)
      (apart : ∀ p, p <+: path → badAt spoiled p = false) (free : ∀ q, badAt spoiled (path ++ q) = false)
      (smaller : sizeOf c < bound)
      (seen : Seen (fun q => q ∈ spoiled ∨ q = path) (some (n.blank (badAt spoiled))) T) :
      Clearly spoiled key T h bound (some n,.cat path g)

theorem Looked.clearly {bound : Nat} {step : FindStep}
    (looked : Looked (· ∈ spoiled) key T h bound (x.map (Node.blank (badAt spoiled)),step))
    (apart : ∀ path g, step = .cat path g → ∀ p, p <+: path → p ≠ path → badAt spoiled p = false) :
    Clearly spoiled key T h bound (x,step) := by
  cases looked with
  | found seen => exact .found seen
  | @asks _ path c g way free smaller seen =>
    obtain ⟨m,same⟩ := seen.there (Or.inr rfl)
    obtain ⟨n,rfl,rfl⟩ := Option.map_eq_some_iff.mp same
    have free' (q : List NodeId) : badAt spoiled (path ++ q) = false := badNot.mpr (free q)
    refine .asks way (fun p inside => ?_) free' smaller seen
    by_cases same : p = path
    · subst same
      simpa using free' []
    · exact apart path g rfl p inside same

theorem Way.meets {c : Node} {g : Hash} {path : List NodeId}
    (way : Way key T h path c g) : ∀ (pend : List NodeId → Prop) (bad : List NodeId → Bool) (n : Node), SearchTree T →
    Seen pend (some (n.blank bad)) T → pend path → bad path = true → n.met key bad ≠ none := by
  induction way with
  | here =>
    intro pend bad n _ _ _ here
    rw [metHere here]
    exact Option.some_ne_none _
  | @down es post i v c c' x h g path at_ other below ih =>
    rintro pend bad ⟨ps⟩ tree seen held here
    cases clear : bad [] with
    | true =>
      rw [metHere clear]
      exact Option.some_ne_none _
    | false =>
      obtain ⟨whole,cut⟩ := cutOf at_
      have inside : (i,(⟨v,some c,x⟩ : Entry Node)) ∈ es := lowerBoundMem at_
      rw [blankBelow clear] at seen
      generalize mapped : ps.map (blankPair bad) = qs at seen
      cases seen with
      | waiting _ free => exact absurd held (free _ (by simp))
      | read filled view =>
        have ordered := tree.ordered.here
        rw [whole] at ordered view
        rcases view.cutAt ordered cut with ⟨P₁,f,P₂,_,_,at',_,entry,_⟩ | ⟨_,_,none_⟩
        · rw [← mapped,lowerBoundBlank] at at'
          obtain ⟨⟨j,w,y,hash⟩,_,at_',same,_⟩ := List.map_eq_cons_iff.mp at'
          have pair := Prod.mk.inj same
          obtain ⟨rfl,rfl⟩ := pair
          have seenChild := entry.child c rfl
          obtain ⟨m,child⟩ := seenChild.there held
          rw [child] at seenChild
          obtain ⟨n,rfl,rfl⟩ := Option.map_eq_some_iff.mp child
          rw [metDown clear at_' other]
          exact ih _ _ n (tree.child inside rfl) seenChild held here
        · cases none_

theorem clearFind (tree : SearchTree T) (proper : h.isEmpty = false)
    (seen : Seen (· ∈ spoiled) (x.map (Node.blank (badAt spoiled))) T)
    (none_ : x.bind (Node.met key (badAt spoiled)) = none) :
    Clearly spoiled key T h (sizeOf T + 1) (BTree.lazyFind h x key) := by
  have blanked : BTree.lazyFind h (x.map (Node.blank (badAt spoiled))) key =
      ((BTree.lazyFind h x key).1.map (Node.blank (badAt spoiled)),(BTree.lazyFind h x key).2) ∧
      ∀ path g, (BTree.lazyFind h x key).2 = .cat path g → ∀ p, p <+: path → p ≠ path → badAt spoiled p = false := by
    cases x with
    | none => simp [BTree.lazyFind,proper,blankEmpty]
    | some n =>
      obtain ⟨same,apart⟩ := findBlank key n (badAt spoiled) none_
      rw [Option.map_some,BTree.lazyFind,same]
      exact ⟨rfl,apart⟩
  rcases lazyFindLooks key T (· ∈ spoiled) h _ (sizeOf T + 1) tree (fun _ => proper) seen (by omega)
    (fun _ => by omega)
    with looked | ⟨path,c,g,way,held,_⟩
  · rw [blanked.1] at looked
    exact looked.clearly blanked.2
  · obtain ⟨m,same⟩ := seen.there held
    obtain ⟨n,rfl,rfl⟩ := Option.map_eq_some_iff.mp same
    exact absurd none_ (way.meets _ _ n tree seen held (badIff.mpr held))

theorem clearResume (back : cfg.json.ParsesBack) (tree : SearchTree T) {R : Hash → Value → Prop}
    (stored : Stored cfg R T) {n c : Node} {path : List NodeId} {g : Hash} (way : Way key T h path c g)
    (apart : ∀ p, p <+: path → badAt spoiled p = false) (free : ∀ q, badAt spoiled (path ++ q) = false)
    (seen : Seen (fun q => q ∈ spoiled ∨ q = path) (some (n.blank (badAt spoiled))) T) :
    Clearly spoiled key T h (sizeOf c) ((n.resume cfg key (.ok (block cfg c)) path).map some id) := by
  have next := resumeLooks back utf8Usable way _ _ tree stored seen (Or.inr rfl)
  have others : (fun q => (q ∈ spoiled ∨ q = path) ∧ q ≠ path) = (· ∈ spoiled) := funext fun q => propext (by
    refine ⟨fun ⟨held,other⟩ => held.resolve_right other,fun held => ⟨.inl held,?_⟩⟩
    rintro rfl
    exact badNot.mp (apart q List.prefix_rfl) held)
  rw [others,resumeBlank path _ n apart free] at next
  refine Looked.clearly next fun path' g' step p inside _ => ?_
  have further := resumeExtends path n path' g' step
  rcases List.prefix_or_prefix_of_prefix inside further with above | ⟨q,rfl⟩
  · exact apart p above
  · exact free q

theorem finishClear (catKeeps : ∀ w g, S.Keeps w (S.cat w g).2) (back : cfg.json.ParsesBack) (tree : SearchTree T)
    (proper : h.isEmpty = false) (fuel : Nat) : ∀ (bound : Nat) (out : Option Node × FindStep) (st : World),
    bound ≤ fuel → Readable cfg S st h T → Clearly spoiled key T h bound out →
      ∃ bt' st', BTree.finish cfg S key fuel (⟨some ⟨out.1,h⟩,[],false⟩,out.2) st =
        some (answer (OrderedMap.find key T.flatten),bt',st') := by
  induction fuel with
  | zero =>
    intro bound out st enough readable clearly
    cases clearly with
    | found => exact ⟨_,_,rfl⟩
    | asks _ _ _ smaller => omega
  | succ fuel ih =>
    intro bound out st enough readable clearly
    cases clearly with
    | found => exact ⟨_,_,rfl⟩
    | @asks n path c g way apart free smaller seen =>
      obtain ⟨own,stored⟩ := readable proper
      have next := clearResume back tree stored way apart free seen
      obtain ⟨bt',st',run⟩ := ih _ _ (S.cat st g).2 (by omega) (readable.mono (catKeeps st g)) next
      refine ⟨bt',st',?_⟩
      rw [BTree.finish,show (S.cat st g).1 = .ok (block cfg c) from (stored.way way own).1]
      exact run

inductive Tried (T : Node) (h : Hash) (spoiled : List (List NodeId)) : Option Node → Option Reading → Prop
  | idle {x : Option Node} (seen : Seen (· ∈ spoiled) (x.map (Node.blank (badAt spoiled))) T) :
      Tried T h spoiled x none
  | clear {n c : Node} {r : Reading} (way : Way r.lookup.key T h r.path c r.hash)
      (apart : ∀ p, p <+: r.path → badAt spoiled p = false) (free : ∀ q, badAt spoiled (r.path ++ q) = false)
      (seen : Seen (fun q => q ∈ spoiled ∨ q = r.path) (some (n.blank (badAt spoiled))) T) :
      Tried T h spoiled (some n) (some r)
  | beside {n : Node} {r : Reading} (within : ∃ p, p <+: r.path ∧ badAt spoiled p = true)
      (seen : Seen (· ∈ spoiled) (some (n.blank (badAt spoiled))) T) : Tried T h spoiled (some n) (some r)

structure Trying (cfg : Config) (S : Storage World) (h : Hash) (T : Node) (t : Attempts World) : Prop where
  tree : ∃ x, t.reader.tree = ⟨some ⟨x,h⟩,[],false⟩ ∧ Tried T h t.spoiled x t.reader.reading
  own : ∀ r, t.reader.reading = some r → r.copied = none
  readable : Readable cfg S t.reader.world h T

theorem Trying.goesOn {s : Reader World} {step : FindStep} (lookup : Lookup) (asked : Nat)
    (root : s.tree = ⟨some ⟨x,h⟩,[],false⟩) (readable : Readable cfg S s.world h T)
    (ends : ∀ result, step = .done result → Tried T h spoiled x none)
    (waits : ∀ path g, step = .cat path g → Tried T h spoiled x (some ⟨lookup,asked + 1,path,g,none⟩)) :
    Trying cfg S h T ⟨s.goesOn lookup asked none step,spoiled⟩ := by
  cases step with
  | done result => exact ⟨⟨x,root,ends result rfl⟩,fun r here => (by cases here),readable⟩
  | cat path g => exact ⟨⟨x,root,waits path g rfl⟩,fun r here => (by cases here; rfl),readable⟩

theorem Clearly.goesOn {bound asked : Nat} {step : FindStep} {s : Reader World} {lookup : Lookup}
    (clearly : Clearly spoiled lookup.key T h bound (x,step)) (root : s.tree = ⟨some ⟨x,h⟩,[],false⟩)
    (readable : Readable cfg S s.world h T) : Trying cfg S h T ⟨s.goesOn lookup asked none step,spoiled⟩ := by
  refine .goesOn lookup asked root readable (fun _ ends => ?_) fun path g waits => ?_
  · subst ends
    cases clearly with
    | found seen => exact .idle seen
  · subst waits
    cases clearly with
    | asks way apart free _ seen => exact .clear way apart free seen

theorem besideGoesOn {n : Node} {asked : Nat} {step : FindStep} {s : Reader World} {lookup : Lookup}
    (seen : Seen (· ∈ spoiled) (some (n.blank (badAt spoiled))) T)
    (within : ∀ path g, step = .cat path g → ∃ p, p <+: path ∧ badAt spoiled p = true)
    (root : s.tree = ⟨some ⟨some n,h⟩,[],false⟩) (readable : Readable cfg S s.world h T) :
    Trying cfg S h T ⟨s.goesOn lookup asked none step,spoiled⟩ :=
  .goesOn lookup asked root readable (fun _ _ => .idle seen) fun path g waits => .beside (within path g waits) seen

theorem Trying.find (proper : h.isEmpty = false) (tree : SearchTree T) {t : Attempts World}
    (trying : Trying cfg S h T t) (waits : t.reader.reading = none) (key : Key) :
    Trying cfg S h T ⟨t.reader.find key,t.spoiled⟩ := by
  obtain ⟨⟨bt,world,begun,reading,served⟩,spoiled⟩ := t
  obtain ⟨⟨x,same,tried⟩,_,readable⟩ := trying
  cases same
  cases waits
  cases tried with
  | idle seen =>
    rw [Reader.find,findLooked]
    cases none_ : x.bind (Node.met key (badAt spoiled)) with
    | none => exact Clearly.goesOn (clearFind tree proper seen none_) rfl readable
    | some c =>
      obtain ⟨n,rfl,met⟩ := Option.bind_eq_some_iff.mp none_
      obtain ⟨same,within⟩ := findBeside key n (badAt spoiled) (by rw [met]; exact Option.some_ne_none _)
      have seen' : Seen (· ∈ spoiled) (some ((n.find key).1.blank (badAt spoiled))) T := by
        rw [same]
        exact seen
      exact besideGoesOn seen' within rfl readable

theorem Trying.fetched (back : cfg.json.ParsesBack) (proper : h.isEmpty = false) (tree : SearchTree T)
    {t : Attempts World} (trying : Trying cfg S h T t) {r : Reading} (reading_ : t.reader.reading = some r)
    (data : Except ErrorCode Value) {world : World} (keeps : S.Keeps t.reader.world world) :
    Trying cfg S h T ⟨{ t.reader with world := world }.block cfg data r,t.spoils S (.block data world)⟩ := by
  obtain ⟨⟨bt,w,begun,reading,served⟩,spoiled⟩ := t
  obtain ⟨⟨x,same,tried⟩,own,readable⟩ := trying
  cases same
  cases reading_
  have readable' : Readable cfg S world h T := readable.mono keeps
  have spoils : Attempts.spoils S ⟨⟨⟨some ⟨x,h⟩,[],false⟩,w,begun,some r,served⟩,spoiled⟩ (.block data world) =
      if data = S.reads w r.hash ∨ spoiled.any (fun p => p.isPrefixOf r.path) = true then spoiled
      else r.path :: spoiled := rfl
  rw [spoils,Reader.block,own r rfl]
  cases tried with
  | @clear n c _ way apart free seen =>
    rw [resumeLooked]
    obtain ⟨own_,stored⟩ := readable proper
    have there : S.reads w r.hash = .ok (block cfg c) := (stored.way way own_).1
    have uncounted : ¬ spoiled.any (fun p => p.isPrefixOf r.path) = true := by
      intro some_
      obtain ⟨p,mem,inside⟩ := List.any_eq_true.mp some_
      exact badNot.mp (apart p (List.isPrefixOf_iff_prefix.mp inside)) mem
    by_cases genuine : data = S.reads w r.hash
    · rw [if_pos (.inl genuine),genuine,there]
      exact Clearly.goesOn (clearResume back tree stored way apart free seen) rfl readable'
    · rw [if_neg fun either => either.elim genuine uncounted]
      have all : (fun q => q ∈ spoiled ∨ q = r.path) = (· ∈ r.path :: spoiled) := funext fun q => propext (by
        rw [List.mem_cons,or_comm])
      have within : ∃ p, p <+: r.path ∧ badAt (r.path :: spoiled) p = true :=
        ⟨r.path,List.prefix_rfl,badIff.mpr List.mem_cons_self⟩
      obtain ⟨same,within'⟩ := resumeBeside cfg r.lookup.key data r.path (badAt (r.path :: spoiled)) n within
      have emptied : n.blank (badAt (r.path :: spoiled)) = n.blank (badAt spoiled) := by
        have more (q : List NodeId) (held : badAt spoiled q = true) : badAt (r.path :: spoiled) q = true :=
          badIff.mpr (List.mem_cons_of_mem _ (badIff.mp held))
        have twice := blankTwice more n
        rw [all] at seen
        rw [← twice]
        exact Option.some.inj (seen.blank fun q held => badIff.mp held)
      rw [all] at seen
      refine besideGoesOn (same ▸ emptied ▸ seen) within' rfl readable'
  | @beside n _ within seen =>
    have counted : spoiled.any (fun p => p.isPrefixOf r.path) = true := by
      obtain ⟨p,inside,here⟩ := within
      exact List.any_eq_true.mpr ⟨p,badIff.mp here,List.isPrefixOf_iff_prefix.mpr inside⟩
    rw [if_pos (.inr counted)]
    obtain ⟨same,within'⟩ := resumeBeside cfg r.lookup.key data r.path (badAt spoiled) n within
    rw [resumeLooked]
    exact besideGoesOn (same ▸ seen) within' rfl readable'

theorem Trying.reload {t : Attempts World} (trying : Trying cfg S h T t) : t.reader.load cfg S h = t.reader := by
  obtain ⟨x,same,_⟩ := trying.tree
  rw [Reader.load,same]
  exact if_pos rfl

theorem Trying.step (back : cfg.json.ParsesBack) (proper : h.isEmpty = false) (tree : SearchTree T)
    {t t' : Attempts World} {e : ReadEvent World} (trying : Trying cfg S h T t)
    (step : Attempts.Step cfg S h t e t') : Trying cfg S h T t' := by
  obtain ⟨allowed,step⟩ := step
  obtain ⟨reader,ran,rfl⟩ := Option.map_eq_some_iff.mp step
  cases e with
  | find key =>
    simp only [Reader.step] at ran
    split at ran
    · cases ran
    · rename_i idle
      cases ran
      exact trying.find proper tree (by simpa using idle) key
  | load hash =>
    cases ran
    cases allowed
    rw [trying.reload]
    exact trying
  | block data world =>
    obtain ⟨r,reading,rfl⟩ := Option.map_eq_some_iff.mp ran
    exact trying.fetched back proper tree reading data allowed
  | elsewhere world =>
    cases ran
    exact ⟨trying.tree,trying.own,trying.readable.mono allowed⟩

theorem loadedTrying {world : World} (readable : Readable cfg S world h T) :
    Trying cfg S h T (.loaded cfg S h world) where
  tree := ⟨none,rfl,.idle (.unread fun _ held => by cases held)⟩
  own := fun r here => by cases here
  readable := readable

theorem Trying.findAlone (catKeeps : ∀ w g, S.Keeps w (S.cat w g).2) (back : cfg.json.ParsesBack)
    (proper : h.isEmpty = false) (tree : SearchTree T) {t : Attempts World} (trying : Trying cfg S h T t)
    (idle : t.reader.reading = none) (key : Key) {fuel : Nat} (enough : sizeOf T < fuel) (none_ : t.met key = none) :
    ∃ bt st, BTree.findAlone cfg S fuel key t.reader.tree t.reader.world =
      some (answer (OrderedMap.find key T.flatten),bt,st) := by
  obtain ⟨⟨bt,world,begun,reading,served⟩,spoiled⟩ := t
  obtain ⟨⟨x,same,tried⟩,_,readable⟩ := trying
  cases same
  cases idle
  cases tried with
  | idle seen =>
    have none_' : x.bind (Node.met key (badAt spoiled)) = none := by
      cases x with
      | none => rfl
      | some n => exact none_
    exact finishClear catKeeps back tree proper fuel _ _ world enough readable (clearFind tree proper seen none_')

/-- After any run of finds in which fetching failed or brought anything, with the same hash
loaded again or not: a find that gets every block it asks for returns what it returns on a
freshly loaded tree exactly when it meets no spoiled node or its key is not stored, where
the spoiled node it meets, if any, was left without entries. -/
theorem retriedFinds (catKeeps : ∀ w g, S.Keeps w (S.cat w g).2) (back : cfg.json.ParsesBack)
    (proper : h.isEmpty = false) (tree : SearchTree T) {world : World} (readable : Readable cfg S world h T)
    {t : Attempts World} (run : Reach (fun t => t = .loaded cfg S h world) (Attempts.Step cfg S h) t)
    (idle : t.reader.reading = none) (key : Key) (left : ∀ c, t.met key = some c → c = ⟨[]⟩) {fuel : Nat}
    (enough : sizeOf T < fuel) : ∃ result bt st result' bt' st',
      BTree.findAlone cfg S fuel key t.reader.tree t.reader.world = some (result,bt,st) ∧
      BTree.findAlone cfg S fuel key (BTree.load cfg S h .fresh t.reader.world).1
        (BTree.load cfg S h .fresh t.reader.world).2 = some (result',bt',st') ∧
      (result = result' ↔ t.met key = none ∨ key ∉ T.keys) := by
  have trying : Trying cfg S h T t := run.invariant (fun t same => same ▸ loadedTrying readable)
    fun _ _ _ trying step => trying.step back proper tree step
  obtain ⟨bt',st',fresh⟩ := (loadedTrying trying.readable).findAlone catKeeps back proper tree rfl key enough rfl
  cases met : t.met key with
  | none =>
    obtain ⟨bt,st,found⟩ := trying.findAlone catKeeps back proper tree idle key enough met
    exact ⟨_,bt,st,_,bt',st',found,fresh,iff_of_true rfl (.inl rfl)⟩
  | some c =>
    cases left c met
    obtain ⟨x,same,_⟩ := trying.tree
    have missed : BTree.find key t.reader.tree = (t.reader.tree,.done (.error .notFound)) := by
      simp only [Attempts.met,same] at met
      cases x with
      | none => cases met
      | some n => rw [same,findLooked,BTree.lazyFind,findMeetsEmpty key n _ met]; rfl
    refine ⟨.error .notFound,t.reader.tree,t.reader.world,_,bt',st',?_,fresh,?_⟩
    · rw [BTree.findAlone,missed]
      cases fuel <;> rfl
    · rw [Node.keys,← OrderedMap.findNone tree.sorted]
      cases OrderedMap.find key T.flatten <;> simp [answer]

def ReadEvent.Still (h : Hash) (world : World) : ReadEvent World → Prop
  | .find _ => True
  | .load hash => hash = h
  | .block _ world' => world' = world
  | .elsewhere world' => world' = world

theorem attemptsReach (back : cfg.json.ParsesBack) (proper : h.isEmpty = false) (tree : SearchTree T) {world : World}
    {Start : Attempts World → Prop} {events : List (ReadEvent World)} (still : ∀ e ∈ events, e.Still h world)
    {t t' : Attempts World} (trying : Trying cfg S h T t) (same : t.reader.world = world)
    (before : Reach Start (Attempts.Step cfg S h) t) (played : events.foldlM (Attempts.step cfg S) t = some t') :
    Reach Start (Attempts.Step cfg S h) t' := by
  refine before.schedule (fun events t => events.foldlM (Attempts.step cfg S) t)
    (fun events t => (∀ e ∈ events, e.Still h world) ∧ Trying cfg S h T t ∧ t.reader.world = world) played
    ⟨still,trying,same⟩ (fun _ => rfl) fun e events t t' ⟨still,trying,same⟩ played => ?_
  obtain ⟨t₁,step,rest⟩ := Option.bind_eq_some_iff.mp played
  have own := still e List.mem_cons_self
  have moved : Attempts.Step cfg S h t e t₁ := by
    refine ⟨?_,step⟩
    cases e with
    | find => trivial
    | load => exact own
    | block _ w | elsewhere w =>
      cases own
      rw [← same]
      exact fun _ _ => id
  have world' : t₁.reader.world = world := by
    obtain ⟨reader,ran,rfl⟩ := Option.map_eq_some_iff.mp step
    cases e with
    | find key =>
      simp only [Reader.step] at ran
      split at ran <;> cases ran
      exact (Reader.goesOnWorld _ _ _ _ _).trans same
    | load hash =>
      cases ran
      cases own
      rw [trying.reload]
      exact same
    | block data w =>
      cases own
      obtain ⟨r,_,rfl⟩ := Option.map_eq_some_iff.mp ran
      exact Reader.blockWorld _ _ _ _
    | elsewhere w =>
      cases own
      cases ran
      rfl
  exact ⟨e,t₁,moved,
    ⟨fun e mem => still e (List.mem_cons_of_mem _ mem),trying.step back proper tree moved,world'⟩,rest⟩

theorem loadedReach (back : cfg.json.ParsesBack) (proper : h.isEmpty = false) (tree : SearchTree T) {world : World}
    (readable : Readable cfg S world h T) {events : List (ReadEvent World)} (still : ∀ e ∈ events, e.Still h world)
    {t : Attempts World} (played : events.foldlM (Attempts.step cfg S) (.loaded cfg S h world) = some t) :
    Reach (fun t => t = .loaded cfg S h world) (Attempts.Step cfg S h) t :=
  attemptsReach back proper tree still (loadedTrying readable) rfl (.start rfl) played

end retry

def failing (h : Hash) (st : MockStorage) : List (ReadEvent MockStorage) :=
  [.find (letter 97),.block (st.cat h) st,.block (.error (.storage 1)) st,.load h]

theorem retriedFindsMock : ∃ (bt : BTree) (st : MockStorage) (t : Attempts MockStorage),
    BTree.insertEach (mockConfig 2) MockStorage.storage ([97,98,99].map fun b =>
    (letter b,letter b)) .fresh .empty = some (bt,st) ∧
    (failing bt.rootHash st).foldlM (Attempts.step (mockConfig 2) MockStorage.storage)
      (.loaded (mockConfig 2) MockStorage.storage bt.rootHash st) = some t ∧
    t.met (letter 97) = some ⟨[]⟩ ∧ t.met (letter 99) = none ∧
    ∀ key ∈ [letter 97,letter 99], ∀ fuel, sizeOf (top bt.root) < fuel → ∃ result bt₁ st₁ result' bt' st',
      BTree.findAlone (mockConfig 2) MockStorage.storage fuel key t.reader.tree t.reader.world =
        some (result,bt₁,st₁) ∧
      BTree.findAlone (mockConfig 2) MockStorage.storage fuel key
        (BTree.load (mockConfig 2) MockStorage.storage bt.rootHash .fresh t.reader.world).1
        (BTree.load (mockConfig 2) MockStorage.storage bt.rootHash .fresh t.reader.world).2 =
        some (result',bt',st') ∧
      (result = result' ↔ t.met key = none ∨ key ∉ (top bt.root).keys) := by
  have run : (BTree.insertEach (mockConfig 2) MockStorage.storage
      ([97,98,99].map fun b => (letter b,letter b)) .fresh .empty).any (fun out => !out.1.rootHash.isEmpty &&
      ((failing out.1.rootHash out.2).foldlM (Attempts.step (mockConfig 2) MockStorage.storage)
        (.loaded (mockConfig 2) MockStorage.storage out.1.rootHash out.2)).any fun t =>
          t.reader.reading.isNone && (t.met (letter 97)).any (fun c => c.entries.isEmpty) &&
          (t.met (letter 99)).isNone) = true := by
    decide +kernel
  have clean := lettersClean [97,98,99] (by decide +kernel)
  obtain ⟨bt,st,stored,anchored⟩ := insertEachAnchors (show 2 ≤ (mockConfig 2).maxNodeSize by decide) rfl
    (MockStorage.addsSucceed _) MockStorage.faithful nlohmannParsesBack _ clean MockStorage.empty
  simp only [stored,Option.any_some,Bool.and_eq_true,Bool.not_eq_true'] at run
  obtain ⟨proper,played⟩ := run
  obtain ⟨t,played,seen⟩ := Option.any_eq_true _ _ |>.mp played
  simp only [Bool.and_eq_true,Option.isNone_iff_eq_none] at seen
  obtain ⟨⟨idle,left⟩,clear⟩ := seen
  obtain ⟨⟨es⟩,met,empty⟩ := Option.any_eq_true _ _ |>.mp left
  cases List.isEmpty_iff.mp empty
  have readable := (anchored.readable (by decide) MockStorage.faithful nlohmannParsesBack clean).2
  have still : ∀ e ∈ failing bt.rootHash st, e.Still bt.rootHash st := by simp [failing,ReadEvent.Still]
  have reach := loadedReach nlohmannParsesBack proper anchored.rest.good.tree readable still played
  refine ⟨bt,st,t,stored,played,met,clear,fun key mem fuel enough => ?_⟩
  refine retriedFinds (fun _ _ _ _ => id) nlohmannParsesBack proper anchored.rest.good.tree readable reach idle key
    (fun c here => ?_) enough
  simp only [List.mem_cons,List.not_mem_nil,or_false] at mem
  rcases mem with rfl | rfl
  · exact Option.some.inj (here.symm.trans met)
  · cases clear.symm.trans here

theorem retryNotFound : ∃ (bt : BTree) (st : MockStorage) (t : Attempts MockStorage),
    BTree.insertEach (mockConfig 2) MockStorage.storage [(letter 97,letter 49)] .fresh .empty = some (bt,st) ∧
    Reach (fun t => t = .loaded (mockConfig 2) MockStorage.storage bt.rootHash st)
      (Attempts.Step (mockConfig 2) MockStorage.storage bt.rootHash) t ∧ t.reader.reading = none ∧
    ¬ ∀ fuel result bt₁ st₁ result' bt' st',
      BTree.findAlone (mockConfig 2) MockStorage.storage fuel (letter 97) t.reader.tree t.reader.world =
        some (result,bt₁,st₁) →
      BTree.findAlone (mockConfig 2) MockStorage.storage fuel (letter 97)
        (BTree.load (mockConfig 2) MockStorage.storage bt.rootHash .fresh t.reader.world).1
        (BTree.load (mockConfig 2) MockStorage.storage bt.rootHash .fresh t.reader.world).2 =
        some (result',bt',st') → result = result' := by
  have run : (BTree.insertEach (mockConfig 2) MockStorage.storage [(letter 97,letter 49)] .fresh .empty).any
      (fun out => !out.1.rootHash.isEmpty &&
      ([.find (letter 97),.block (.error (.storage 1)) out.2].foldlM
        (Attempts.step (mockConfig 2) MockStorage.storage)
        (.loaded (mockConfig 2) MockStorage.storage out.1.rootHash out.2)).any fun t =>
          t.reader.reading.isNone &&
          (BTree.findAlone (mockConfig 2) MockStorage.storage 1 (letter 97) t.reader.tree t.reader.world).any fun x =>
            (BTree.findAlone (mockConfig 2) MockStorage.storage 1 (letter 97)
              (BTree.load (mockConfig 2) MockStorage.storage out.1.rootHash .fresh t.reader.world).1
              (BTree.load (mockConfig 2) MockStorage.storage out.1.rootHash .fresh t.reader.world).2).any fun alone =>
                decide (x.1 ≠ alone.1)) = true := by
    decide +kernel
  have clean : ∀ x ∈ [(letter 97,letter 49)], Clean StdString.ValidUtf8 x := by
    simpa using pairClean (by decide) (by decide)
  obtain ⟨bt,st,stored,anchored⟩ := insertEachAnchors (show 2 ≤ (mockConfig 2).maxNodeSize by decide) rfl
    (MockStorage.addsSucceed _) MockStorage.faithful nlohmannParsesBack _ clean MockStorage.empty
  simp only [stored,Option.any_some,Bool.and_eq_true,Bool.not_eq_true'] at run
  obtain ⟨proper,played⟩ := run
  obtain ⟨t,played,seen⟩ := Option.any_eq_true _ _ |>.mp played
  simp only [Bool.and_eq_true,Option.isNone_iff_eq_none] at seen
  obtain ⟨idle,differ⟩ := seen
  obtain ⟨⟨result,bt₁,st₁⟩,found,differ⟩ := Option.any_eq_true _ _ |>.mp differ
  obtain ⟨⟨result',bt',st'⟩,alone,differ⟩ := Option.any_eq_true _ _ |>.mp differ
  have readable := (anchored.readable (by decide) MockStorage.faithful nlohmannParsesBack clean).2
  have reach := loadedReach nlohmannParsesBack proper anchored.rest.good.tree readable
    (by simp [ReadEvent.Still]) played
  exact ⟨bt,st,t,stored,reach,idle,fun same => of_decide_eq_true differ (same 1 _ _ _ _ _ _ found alone)⟩

end IpfsCache
