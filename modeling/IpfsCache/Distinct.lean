import IpfsCache.Blocks
import IpfsCache.Custody
import Mathlib.Data.Multiset.UnionInter

/-! Two nodes of a tree share no key, so their documents differ, and so do the ids of
their blocks: no id stands twice in a tree, and removing one harms no other. -/
namespace IpfsCache
open OrderedMap (Sorted)
open Node Entries

def belowKeys (es : Entries) : List Key := es.flatMap fun p => OrderedMap.keys (belowEntry p.2.child)
def ownKeys (es : Entries) : List Key := es.flatMap fun p => OrderedMap.keys (ownPair p.1 p.2.value)

theorem memOwnKeys {es : Entries} {k : Key} : k ∈ ownKeys es ↔ (k : NodeId) ∈ OrderedMap.keys es := by
  have one (p : NodeId × Entry Node) : k ∈ OrderedMap.keys (ownPair p.1 p.2.value) ↔ p.1 = k := by
    obtain ⟨i,e⟩ := p
    cases i using WithTop.recTopCoe <;> simp [ownPair,OrderedMap.keys,eq_comm]
  rw [ownKeys,List.mem_flatMap,OrderedMap.keys,List.mem_map]
  exact exists_congr fun p => and_congr_right fun _ => one p

theorem keysParts (es : Entries) : (belowKeys es ++ ownKeys es).Perm (Node.mk es).keys := by
  have whole : (Node.mk es).keys = es.flatMap fun p =>
      OrderedMap.keys (belowEntry p.2.child) ++ OrderedMap.keys (ownPair p.1 p.2.value) := by
    rw [Node.keys,flattenEq,OrderedMap.keys,List.map_flatMap]
    simp [entryFlat,OrderedMap.keys]
  rw [whole]
  exact List.flatMap_append_perm es _ _

theorem keysApart {es : Entries} (tree : SearchTree ⟨es⟩) :
    (belowKeys es).Nodup ∧ ∀ k ∈ belowKeys es, k ∉ ownKeys es := by
  have nodup := (keysParts es).nodup_iff.mpr (OrderedMap.keysNodup tree.sorted)
  obtain ⟨below,_,apart⟩ := List.nodup_append'.mp nodup
  exact ⟨below,fun k mem own => apart mem own⟩

structure Legible (cfg : Config) (Ok : StdString → Prop) (R : Hash → Value → Prop) : Prop where
  two : 2 ≤ cfg.maxNodeSize
  usable : Usable Ok
  injective : cfg.json.DumpInjective Ok
  one : ∀ {h x y}, R h x → R h y → x = y
  hash : ∀ {h x}, R h x → Ok h

def Clean (Ok : StdString → Prop) (x : Key × Value) : Prop := ProperKey x.1 ∧ Ok x.1 ∧ Ok x.2

structure Written (cfg : Config) (Ok : StdString → Prop) (R : Hash → Value → Prop) (n : Node) : Prop where
  tree : SearchTree n
  level : ∃ d, Level cfg.maxNodeSize d n.entries
  backed : Backed (OwnBlock cfg R) n
  clean : ∀ x ∈ n.flatten, Clean Ok x

section written
variable {cfg : Config} {Ok : StdString → Prop} {R : Hash → Value → Prop} {es : Entries}

theorem Written.child (h : Written cfg Ok R ⟨es⟩) {p : NodeId × Entry Node} (mem : p ∈ es) {c : Node}
    (child : p.2.child = some c) : Written cfg Ok R c ∧ cfg.maxNodeSize / 2 ≤ c.size := by
  obtain ⟨d,level⟩ := h.level
  cases d with
  | zero => exact absurd child (by simp [(level.bare p mem).1])
  | succ d =>
    have inner := level.child mem child
    exact ⟨⟨h.tree.child mem child,⟨d,inner.1⟩,h.backed.child mem child,
      fun x inside => h.clean x (belowInside mem child inside)⟩, inner.2.1⟩

theorem ownKey (sorted : Sorted es) (some_ : 0 < size es) : ∃ k, k ∈ ownKeys es := by
  obtain ⟨L,κ,x,R,rfl,_⟩ := middle sorted some_
  exact ⟨κ,memOwnKeys.mpr (by simp [OrderedMap.keys])⟩

theorem Written.printable (legible : Legible cfg Ok R) (h : Written cfg Ok R ⟨es⟩)
    (hashed : everyNodeHasHash ⟨es⟩ = true) (some_ : flatten ⟨es⟩ ≠ []) : Printable Ok es := by
  have own := everyNodeHasHashIff.mp hashed
  obtain ⟨d,level⟩ := h.level
  refine ⟨⟨h.tree.ordered.here,fun p mem k same => (h.clean _ (ownInside mem same)).1⟩,
    fun p mem k same => (h.clean _ (ownInside mem same)).2.1,fun p mem real => ?_,fun p mem => ?_,?_⟩
  · obtain ⟨k,same⟩ := realKey real
    exact (h.clean _ (ownInside mem same)).2.2
  · cases d with
    | zero =>
      rw [(level.bare p mem).2]
      exact legible.usable.empty
    | succ d =>
      obtain ⟨c,child,_⟩ := level.2.2 p mem
      exact legible.hash (h.backed.here mem child (own p mem c child).1).1
  · have traced {p : NodeId × Entry Node} (mem : p ∈ es)
      (trace : p.1 ≠ ⊤ ∨ p.2.childHash.isEmpty = false) : kept es ≠ [] :=
      List.ne_nil_of_mem (List.mem_filter.mpr ⟨mem,by simpa using trace⟩)
    cases d with
    | zero =>
      obtain ⟨x,inside⟩ := List.exists_mem_of_ne_nil _ some_
      obtain ⟨e,mem,_⟩ := (flattenBare (k := x.1) (v := x.2) level.bare).mp inside
      exact traced mem (.inl WithTop.coe_ne_top)
    | succ d =>
      obtain ⟨pre,e,same⟩ := level.inf
      have mem : ((⊤ : NodeId),e) ∈ es := by
        change _ ∈ (Node.mk es).entries
        rw [same]
        simp
      obtain ⟨c,child,_⟩ := level.2.2 _ mem
      exact traced mem (.inr (own _ mem c child).1)

def Marks (cfg : Config) (Ok : StdString → Prop) (R : Hash → Value → Prop) (h : Hash) (ks : List Key) : Prop :=
  ∃ es, R h (block cfg ⟨es⟩) ∧ Printable Ok es ∧ (∃ k, k ∈ ownKeys es) ∧ ∀ k ∈ ownKeys es, k ∈ ks

theorem Marks.mono {h : Hash} {ks ks' : List Key} (marks : Marks cfg Ok R h ks) (sub : ∀ k ∈ ks, k ∈ ks') :
    Marks cfg Ok R h ks' := by
  obtain ⟨es,there,doc,some_,own⟩ := marks
  exact ⟨es,there,doc,some_,fun k mem => sub k (own k mem)⟩

theorem Marks.meets (legible : Legible cfg Ok R) {h : Hash} {ks : List Key} (marks : Marks cfg Ok R h ks)
    (there : R h (block cfg ⟨es⟩)) (doc : Printable Ok es) : ∃ k ∈ ks, k ∈ ownKeys es := by
  obtain ⟨es',there',doc',⟨k,own⟩,inside⟩ := marks
  have one := legible.one there there'
  obtain ⟨same,document⟩ := nodeDocument legible.usable doc
  obtain ⟨same',document'⟩ := nodeDocument legible.usable doc'
  have equal := legible.injective _ _ document document' one
  rw [same,same'] at equal
  have filedSame : filed es = filed es' := Json.object.inj equal
  obtain ⟨p,mem,key⟩ := List.mem_map.mp (memOwnKeys.mp own)
  have proper := doc'.keyed.proper p mem k key
  refine ⟨k,inside k own,memOwnKeys.mpr ((filedKeys doc.keyed proper).mp ?_)⟩
  rw [filedSame]
  exact (filedKeys doc'.keyed proper).mpr (memOwnKeys.mp own)

theorem Marks.apart (legible : Legible cfg Ok R) {h : Hash} {ks ks' : List Key} (marks : Marks cfg Ok R h ks)
    (marks' : Marks cfg Ok R h ks') : ∃ k ∈ ks, k ∈ ks' := by
  obtain ⟨es,there,doc,_,inside⟩ := marks'
  obtain ⟨k,mem,own⟩ := marks.meets legible there doc
  exact ⟨k,mem,inside k own⟩

theorem Written.marks (legible : Legible cfg Ok R) {h : Hash} (w : Written cfg Ok R ⟨es⟩) (some_ : 0 < size es)
    (own : OwnBlock cfg R h ⟨es⟩) : Marks cfg Ok R h (ownKeys es) := by
  obtain ⟨k,mem⟩ := ownKey w.tree.ordered.here some_
  refine ⟨es,own.1,w.printable legible own.2 fun none_ => ?_,⟨k,mem⟩,fun _ => id⟩
  have inside := (keysParts es).subset (List.mem_append_right _ mem)
  rw [Node.keys,none_] at inside
  cases inside

theorem Written.distinct (legible : Legible cfg Ok R) (n : Node) : Written cfg Ok R n →
    n.ids.Nodup ∧ ∀ h ∈ n.ids, Marks cfg Ok R h (belowKeys n.entries) := by
  have two := legible.two
  induction n using Node.induct with
  | step es ih =>
    intro w
    have loop (rest : Entries) (inside : ∀ p ∈ rest, p ∈ es) (nodup : (belowKeys rest).Nodup) :
        (idsOf rest).Nodup ∧ ∀ h ∈ idsOf rest, Marks cfg Ok R h (belowKeys rest) := by
      induction rest with
      | nil => exact ⟨Multiset.nodup_zero,by simp [idsOf]⟩
      | cons p rest ih' =>
        have mem := inside p (by simp)
        obtain ⟨_,later,disjoint⟩ := List.nodup_append'.mp nodup
        obtain ⟨nodupRest,marksRest⟩ := ih' (fun q hq => inside q (List.mem_cons_of_mem _ hq)) later
        have entry : (entryIds p.2).Nodup ∧ ∀ h ∈ entryIds p.2,
            Marks cfg Ok R h (OrderedMap.keys (belowEntry p.2.child)) := by
          cases child : p.2.child with
          | none => simp [entryIds,child]
          | some c =>
            obtain ⟨cs⟩ := c
            obtain ⟨wc,half⟩ := w.child mem child
            obtain ⟨nodupChild,marksChild⟩ := ih p mem _ child wc
            have parts : ∀ k, k ∈ belowKeys cs ∨ k ∈ ownKeys cs → k ∈ OrderedMap.keys (belowEntry (some ⟨cs⟩)) :=
              fun k h => (keysParts cs).subset (List.mem_append.mpr h)
            have marksOwn : ∀ h ∈ ownId p.2.childHash, Marks cfg Ok R h (ownKeys cs) := fun h here => by
              have proper : p.2.childHash.isEmpty = false := by
                cases empty : p.2.childHash.isEmpty with
                | false => rfl
                | true => simp [ownId,empty] at here
              rw [ownIdSome proper,Multiset.mem_singleton] at here
              rw [here]
              have some_ : 0 < (Node.mk cs).size := by omega
              exact wc.marks legible some_ (w.backed.here mem child proper)
            have ids : entryIds p.2 = ownId p.2.childHash + (Node.mk cs).ids := by simp only [entryIds,child]
            rw [ids]
            refine ⟨Multiset.nodup_add.mpr ⟨?_,nodupChild,?_⟩,fun h here => ?_⟩
            · unfold ownId
              split <;> simp
            · refine Multiset.disjoint_left.mpr fun {h} own below => ?_
              obtain ⟨k,mine,theirs⟩ := (marksOwn h own).apart legible (marksChild h below)
              exact (keysApart wc.tree).2 k theirs mine
            · rcases Multiset.mem_add.mp here with own | below
              · exact (marksOwn h own).mono fun k own => parts k (.inr own)
              · exact (marksChild h below).mono fun k below => parts k (.inl below)
        rw [idsOfCons]
        refine ⟨Multiset.nodup_add.mpr ⟨entry.1,nodupRest,Multiset.disjoint_left.mpr fun {h} mine theirs => ?_⟩,
          fun h here => ?_⟩
        · obtain ⟨k,one,other⟩ := (entry.2 h mine).apart legible (marksRest h theirs)
          exact disjoint one other
        · rcases Multiset.mem_add.mp here with mine | theirs
          · exact (entry.2 h mine).mono fun k own => List.mem_append_left _ own
          · exact (marksRest h theirs).mono fun k own => List.mem_append_right _ own
    exact loop es (fun p mem => mem) (keysApart w.tree).1

theorem Written.rootApart (legible : Legible cfg Ok R) {n : Node} (w : Written cfg Ok R n) {h : Hash}
    (own : OwnBlock cfg R h n) : h ∉ n.ids := by
  obtain ⟨es⟩ := n
  intro inside
  have marks := (w.distinct legible).2 h inside
  obtain ⟨_,_,_,⟨k,here⟩,below⟩ := id marks
  have some_ : flatten ⟨es⟩ ≠ [] := fun none_ => by
    have mem := (keysParts es).subset (List.mem_append_left _ (below k here))
    rw [Node.keys,none_] at mem
    cases mem
  obtain ⟨k',theirs,mine⟩ := marks.meets legible own.1 (w.printable legible own.2 some_)
  exact (keysApart w.tree).2 k' theirs mine

end written

structure Retains {World : Type} (env : Env World) (R : World → Hash → Value → Prop) : Prop where
  one : ∀ {w h x y}, R w h x → R w h y → x = y
  adds : ∀ {w x h w'}, env.adds w x (.ok h) w' → h.isEmpty = false ∧ R w' h x
  addKeeps : ∀ {w x r w' h y}, env.adds w x r w' → R w h y → R w' h y
  removeKeeps : ∀ {w h w' g y}, env.removes w h w' → g ≠ h → R w g y → R w' g y

theorem Retains.custody {World : Type} {cfg : Config} {env : Env World} {Ok : StdString → Prop}
    {R : World → Hash → Value → Prop} (retains : Retains env R) (legible : ∀ w, Legible cfg Ok (R w)) :
    Custody cfg env R (fun _ _ => True) (fun _ ids => ids.Nodup) (Clean Ok) where
  add := ⟨retains.adds,fun _ _ => trivial,fun _ _ => trivial,retains.addKeeps⟩
  removes := by
    intro w h w' ids gone nodup
    obtain ⟨free,nodup'⟩ := Multiset.nodup_cons.mp nodup
    exact ⟨nodup',fun g mem y there => retains.removeKeeps gone (fun same => free (same ▸ mem)) there⟩
  loses := fun _ nodup => (Multiset.nodup_add.mp nodup).2.1
  settles := by
    intro w w' n out good clean _ alike post
    have good' := good.alike alike
    have written : Written cfg Ok (R w') out.1 :=
      ⟨good'.tree,good'.level,post.backed,by rw [alike.flat]; exact clean⟩
    have nodup := (written.distinct (legible w')).1
    cases outcome : out.2 with
    | stored h =>
      exact Multiset.nodup_cons.mpr ⟨written.rootApart (legible w') (post.stored h outcome).2,nodup⟩
    | _ => simpa [StoreOutcome.ids] using nodup

end IpfsCache
