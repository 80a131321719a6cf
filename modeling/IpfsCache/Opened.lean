import IpfsCache.Lookup
import IpfsCache.Sequential

/-! A BTree that has loaded a root hash and serves finds one after another. Each ends with
the answer of the tree behind the hash, and leaves a little more of that tree in memory. -/
namespace IpfsCache
open OrderedMap (Sorted)
open Node Entries

structure Opened (h : Hash) (T : Node) (bt : BTree) : Prop where
  buffer : bt.insertBuffer = []
  flag : bt.isInserting = false
  root : ∃ x, bt.root = some ⟨x,h⟩ ∧
    ((h.isEmpty = true ∧ T = ⟨[]⟩ ∧ x = none) ∨ (h.isEmpty = false ∧ Seen (fun _ => False) x T))

theorem Stored.mono {cfg : Config} {R R' : Hash → Value → Prop} {T : Node} (h : Stored cfg R T)
    (keeps : ∀ g y, R g y → R' g y) : Stored cfg R' T := by
  induction h with
  | mk doc bound blocks _ ih => exact .mk doc bound (fun p mem c child => keeps _ _ (blocks p mem c child)) ih

theorem Stored.way {cfg : Config} {R : Hash → Value → Prop} {key : Key} {T c : Node} {h g : Hash}
    {path : List NodeId}
    (way : Way key T h path c g) (stored : Stored cfg R T) (own : R h (block cfg T)) : R g (block cfg c) := by
  induction way with
  | here => exact own
  | down at_ _ _ ih =>
    cases stored with
    | mk _ _ blocks below => exact ih (below _ (lowerBoundMem at_) _ rfl) (blocks _ (lowerBoundMem at_) _ rfl)

theorem Written.stored {cfg : Config} {R : Hash → Value → Prop} (legible : Legible cfg StdString.ValidUtf8 R)
    (n : Node) :
    Written cfg StdString.ValidUtf8 R n → n.everyNodeHasHash = true → n.flatten ≠ [] → Stored cfg R n := by
  have two := legible.two
  induction n using Node.induct with
  | step es ih =>
    intro w hashed some_
    have own := everyNodeHasHashIff.mp hashed
    refine .mk (w.printable legible hashed some_) ⟨fun p mem null => ?_,fun p mem c child => (own p mem c child).1⟩
      (fun p mem c child => (w.backed.here mem child (own p mem c child).1).1) fun p mem c child => ?_
    · obtain ⟨d,level⟩ := w.level
      cases d with
      | zero => exact (level.bare p mem).2
      | succ d =>
        obtain ⟨c,child,_⟩ := level.2.2 p mem
        rw [null] at child
        cases child
    · obtain ⟨cs⟩ := c
      obtain ⟨wc,half⟩ := w.child mem child
      obtain ⟨k,key⟩ := ownKey wc.tree.ordered.here (show 0 < (Node.mk cs).size by omega)
      refine ih p mem _ child wc (own p mem _ child).2 fun none_ => ?_
      have inside := (keysParts cs).subset (List.mem_append_right _ key)
      rw [Node.keys,none_] at inside
      cases inside

def Storage.holds {σ : Type} (S : Storage σ) (st : σ) (hash : Hash) (x : Value) : Prop :=
  S.reads st hash = .ok x ∧ hash.ValidUtf8

def Storage.Keeps {σ : Type} (S : Storage σ) (st st' : σ) : Prop := ∀ g y, S.holds st g y → S.holds st' g y

section finds
variable {σ : Type} {cfg : Config} {S : Storage σ} {h : Hash} {T : Node} {key : Key}

def Readable (cfg : Config) (S : Storage σ) (st : σ) (h : Hash) (T : Node) : Prop :=
  h.isEmpty = false → S.holds st h (block cfg T) ∧ Stored cfg (S.holds st) T

theorem Readable.mono {st st' : σ} (readable : Readable cfg S st h T)
    (keeps : ∀ g y, S.holds st g y → S.holds st' g y) :
    Readable cfg S st' h T := fun proper => ⟨keeps _ _ (readable proper).1,(readable proper).2.mono keeps⟩

theorem catHolds (faithful : S.Faithful) (st : σ) (hash g : Hash) (y : Value) (there : S.holds st g y) :
    S.holds (S.cat st hash).2 g y :=
  ⟨faithful.catKeeps there.1,there.2⟩

theorem finishMore (fuel : Nat) : ∀ {fuel' : Nat} {x : BTree × FindStep} {st : σ}
    {out : Except ErrorCode Value × BTree × σ},
    fuel ≤ fuel' → BTree.finish cfg S key fuel x st = some out → BTree.finish cfg S key fuel' x st = some out := by
  induction fuel with
  | zero =>
    rintro fuel' ⟨bt,result | ⟨path,hash⟩⟩ st out more run
    · cases fuel' <;> exact run
    · cases run
  | succ fuel ih =>
    rintro fuel' ⟨bt,result | ⟨path,hash⟩⟩ st out more run
    · cases fuel' <;> exact run
    · obtain ⟨fuel',rfl⟩ : ∃ n, fuel' = n + 1 := ⟨fuel' - 1,by omega⟩
      rw [BTree.finish] at run ⊢
      exact ih (by omega) run

theorem findMore {fuel fuel' : Nat} {bt : BTree} {st : σ} {out : Except ErrorCode Value × BTree × σ}
    (more : fuel ≤ fuel')
    (run : BTree.findAlone cfg S fuel key bt st = some out) :
    BTree.findAlone cfg S fuel' key bt st = some out := finishMore fuel more run

theorem finishLooks (faithful : S.Faithful) (back : cfg.json.ParsesBack) (usable : Usable StdString.ValidUtf8)
    (tree : SearchTree T)
    (proper : h.isEmpty = false) (fuel : Nat) : ∀ (bound : Nat) (out : Option Node × FindStep) (st : σ),
    bound ≤ fuel → Readable cfg S st h T → Looked (fun _ => False) key T h bound out →
      ∃ bt' st', BTree.finish cfg S key fuel (⟨some ⟨out.1,h⟩,[],false⟩,out.2) st =
        some (answer (OrderedMap.find key T.flatten),bt',st') ∧ Opened h T bt' ∧ ∀ g y, S.holds st g y →
        S.holds st' g y := by
  have found (fuel : Nat) (x : Option Node) (st : σ) (seen : Seen (fun _ => False) x T) :
      ∃ bt' st', BTree.finish cfg S key fuel (⟨some ⟨x,h⟩,[],false⟩,
        .done (answer (OrderedMap.find key T.flatten))) st =
        some (answer (OrderedMap.find key T.flatten),bt',st') ∧ Opened h T bt' ∧ ∀ g y, S.holds st g y →
          S.holds st' g y := by
    refine ⟨⟨some ⟨x,h⟩,[],false⟩,st,?_,⟨rfl,rfl,x,rfl,.inr ⟨proper,seen⟩⟩,fun _ _ => id⟩
    cases fuel <;> rfl
  induction fuel with
  | zero =>
    intro bound out st enough readable looked
    cases looked with
    | found seen => exact found 0 _ st seen
    | asks _ _ smaller _ => omega
  | succ fuel ih =>
    intro bound out st enough readable looked
    cases looked with
    | found seen => exact found (fuel + 1) _ st seen
    | @asks x path c g way free smaller seen =>
      obtain ⟨own,stored⟩ := readable proper
      have there := stored.way way own
      obtain ⟨n,rfl⟩ := seen.there (Or.inr rfl)
      have next := resumeLooks back usable way _ n tree stored seen (.inr rfl)
      have none_ : (fun q => (False ∨ q = path) ∧ q ≠ path) = fun _ => False := funext fun q => by simp
      rw [none_] at next
      obtain ⟨bt',st',run,opened,keeps⟩ := ih _ _ (S.cat st g).2 (by omega)
        (readable.mono (catHolds faithful st g)) next
      refine ⟨bt',st',?_,opened,fun g' y held => keeps g' y (catHolds faithful st g g' y held)⟩
      rw [BTree.finish,show (S.cat st g).1 = .ok (block cfg c) from there.1]
      exact run

theorem Opened.find (key : Key) (faithful : S.Faithful) (back : cfg.json.ParsesBack)
    (usable : Usable StdString.ValidUtf8) (tree : SearchTree T)
    {bt : BTree} (opened : Opened h T bt) {st : σ} (readable : Readable cfg S st h T) {fuel : Nat}
    (enough : sizeOf T < fuel) :
    ∃ bt' st', BTree.findAlone cfg S fuel key bt st = some (answer (OrderedMap.find key T.flatten),bt',st') ∧
    Opened h T bt' ∧ ∀ g y, S.holds st g y → S.holds st' g y := by
  obtain ⟨root,buffer,flag⟩ := bt
  obtain ⟨buffer_,flag_,x,root_,cases_⟩ := opened
  cases buffer_
  cases flag_
  cases root_
  rcases cases_ with ⟨empty,rfl,rfl⟩ | ⟨proper,seen⟩
  · refine ⟨⟨some ⟨none,h⟩,[],false⟩,st,?_,⟨rfl,rfl,none,rfl,.inl ⟨empty,rfl,rfl⟩⟩,fun _ _ => id⟩
    have step : BTree.find key ⟨some ⟨none,h⟩,[],false⟩ = (⟨some ⟨none,h⟩,[],false⟩,.done (.error .notFound)) := by
      simp [BTree.find,OrderedMap.find,OrderedMap.lowerBound,BTree.lazyFind,empty]
    rw [BTree.findAlone,step]
    cases fuel <;> rfl
  · rcases lazyFindLooks key T (fun _ => False) h x (sizeOf T + 1) tree (fun _ => proper) seen (by omega)
      (fun _ => by omega)
      with looked | ⟨_,_,_,_,held,_⟩
    · exact finishLooks faithful back usable tree proper fuel _ _ st enough readable looked
    · exact held.elim

theorem Opened.findEach (faithful : S.Faithful) (back : cfg.json.ParsesBack)
    (usable : Usable StdString.ValidUtf8) (tree : SearchTree T)
    {fuel : Nat} (enough : sizeOf T < fuel) (keys : List Key) :
    ∀ (bt : BTree) (st : σ), Opened h T bt → Readable cfg S st h T →
    ∃ bt' st', BTree.findEach cfg S fuel keys bt st =
    some (keys.map fun k => answer (OrderedMap.find k T.flatten),bt',st') ∧
      Opened h T bt' ∧ ∀ g y, S.holds st g y → S.holds st' g y := by
  induction keys with
  | nil => exact fun bt st opened _ => ⟨bt,st,rfl,opened,fun _ _ => id⟩
  | cons k keys ih =>
    intro bt st opened readable
    obtain ⟨bt₁,st₁,run,opened₁,keeps⟩ := opened.find k faithful back usable tree readable enough
    obtain ⟨bt',st',rest,opened',keeps'⟩ := ih bt₁ st₁ opened₁ (readable.mono keeps)
    refine ⟨bt',st',?_,opened',fun g y held => keeps' g y (keeps g y held)⟩
    rw [BTree.findEach,run]
    simp only [rest]
    rfl

end finds

theorem loadOpens {σ : Type} (cfg : Config) (S : Storage σ) (st : σ) {h : Hash} {T : Node}
    (empty : h.isEmpty = true → T = ⟨[]⟩) :
    ∃ bt, BTree.load cfg S h BTree.fresh st = (bt,st) ∧ Opened h T bt := by
  refine ⟨⟨some ⟨none,h⟩,[],false⟩,rfl,⟨rfl,rfl,none,rfl,?_⟩⟩
  cases proper : h.isEmpty with
  | true => exact .inl ⟨rfl,empty proper,rfl⟩
  | false => exact .inr ⟨rfl,.unread fun _ => id⟩

end IpfsCache
