import IpfsCache.InsertShape

/-! What the rest of the program sees while an insertion waits in remove_op: a loaded
search tree that lacks at most the keys of the split-off node. -/
namespace IpfsCache
open OrderedMap (Sorted)
open Node Entries

structure Pause.Shows (p : Pause) (after : List (Key × Value)) : Prop where
  ordered : Ordered p.tree
  loaded : Loaded p.tree
  around : ∃ a b, after = a ++ belowEntry p.held ++ b ∧ p.tree.flatten = a ++ b

theorem Pause.Shows.tree {p : Pause} {after : List (Key × Value)} (h : p.Shows after) (sorted : Sorted after) :
    SearchTree p.tree := by
  obtain ⟨a,b,whole,seen⟩ := h.around
  rw [whole] at sorted
  have outer := OrderedMap.sortedAppend.mp sorted
  have left := OrderedMap.sortedAppend.mp outer.1
  refine ⟨h.ordered,?_⟩
  rw [seen]
  exact OrderedMap.sortedAppend.mpr ⟨left.1,outer.2.1,fun x hx => outer.2.2 x (List.mem_append_left _ hx)⟩

theorem Pause.Shows.member {p : Pause} {after : List (Key × Value)} (h : p.Shows after) (sorted : Sorted after)
    (x : Key × Value) : x ∈ p.tree.flatten ↔ x ∈ after ∧ x.1 ∉ OrderedMap.keys (belowEntry p.held) := by
  obtain ⟨a,b,rfl,seen⟩ := h.around
  have outer := OrderedMap.sortedAppend.mp sorted
  have left := OrderedMap.sortedAppend.mp outer.1
  have apart : x ∈ a ++ b → x.1 ∉ OrderedMap.keys (belowEntry p.held) := by
    rintro mem same
    obtain ⟨y,held,key⟩ := List.mem_map.mp same
    rcases List.mem_append.mp mem with m | m
    · exact absurd (left.2.2 x m y held) (by rw [key]; exact lt_irrefl _)
    · exact absurd (outer.2.2 y (List.mem_append_right _ held) x m) (by rw [key]; exact lt_irrefl _)
  rw [seen]
  constructor
  · intro mem
    refine ⟨?_,apart mem⟩
    rcases List.mem_append.mp mem with m | m <;> simp [m]
  · rintro ⟨mem,free⟩
    simp only [List.mem_append] at mem ⊢
    rcases mem with (m | m) | m
    · exact .inl m
    · exact absurd (List.mem_map_of_mem m) free
    · exact .inr m

section replace
variable {pre post : Entries} {i : NodeId} {e : Entry Node}

theorem orderedReplace (h : Ordered ⟨pre ++ (i,e) :: post⟩) {c : Node} (inner : Ordered c) (v : Value)
    (hash : Hash) : Ordered ⟨pre ++ (i,⟨v,some c,hash⟩) :: post⟩ := by
  refine .mk (OrderedMap.sortedReplace h.here) fun p mem c' child => ?_
  rcases OrderedMap.memReplace (i,e) mem with rfl | old
  · cases child
    exact inner
  · exact h.child old child

theorem loadedReplace (h : Loaded ⟨pre ++ (i,e) :: post⟩) {c : Node} (inner : Loaded c) (v : Value) (hash : Hash) :
    Loaded ⟨pre ++ (i,⟨v,some c,hash⟩) :: post⟩ := by
  refine .mk (fun p mem null => ?_) fun p mem c' child => ?_ <;>
    rcases OrderedMap.memReplace (i,e) mem with rfl | old
  · cases null
  · exact h.here p old null
  · cases child
    exact inner
  · exact h.child old child

theorem Pause.Shows.inside {p : Pause} {after : List (Key × Value)} (ordered : Ordered ⟨pre ++ (i,e) :: post⟩)
    (loaded : Loaded ⟨pre ++ (i,e) :: post⟩) (h : p.Shows after) :
    (p.inside pre i e post).Shows (flatten ⟨pre⟩ ++ after ++ (ownPair i e.value ++ flatten ⟨post⟩)) := by
  refine ⟨orderedReplace ordered h.ordered _ _,loadedReplace loaded h.loaded _ _,?_⟩
  obtain ⟨a,b,whole,seen⟩ := h.around
  refine ⟨flatten ⟨pre⟩ ++ a,b ++ (ownPair i e.value ++ flatten ⟨post⟩),?_,?_⟩
  · rw [whole]
    simp [Pause.inside]
  · simp [Pause.inside,flattenAt,belowEntry,seen]

end replace

theorem Shows.whole (hash : Hash) {tree : Node} (ordered : Ordered tree) (loaded : Loaded tree) :
    Pause.Shows ⟨hash,tree,none⟩ tree.flatten := ⟨ordered,loaded,tree.flatten,[],by simp [belowEntry],by simp⟩

theorem tryRemoveShows {cfg : Config} {hash : Hash} {tree : Node} {held : Option Node} {after : List (Key × Value)}
    (h : Pause.Shows ⟨hash,tree,held⟩ after) : ∀ p ∈ tryRemove cfg hash tree held, p.Shows after := by
  unfold tryRemove
  split
  · simp
  · split
    · simpa using h
    · simp

theorem emptyOrdered : Ordered ⟨[]⟩ := .mk List.Pairwise.nil (by simp)

theorem emptyLoaded : Loaded ⟨[]⟩ := .mk (by simp) (by simp)

section
variable {m d : Nat} {L R : Entries} {κ : Key} {x : Entry Node}

theorem levelSuffix (level : Level m d (L ++ ((κ : NodeId),x) :: R)) :
    Ordered ⟨((κ : NodeId),x) :: R⟩ ∧ Loaded ⟨((κ : NodeId),x) :: R⟩ := by
  have inside : ∀ p ∈ ((κ : NodeId),x) :: R, p ∈ L ++ ((κ : NodeId),x) :: R := fun p mem =>
      List.mem_append_right _ mem
  exact ⟨.mk (OrderedMap.sortedAppend.mp level.sorted).2.1 fun p mem c => level.ordered.child (inside p mem),
    .mk (fun p mem => level.loaded.here p (inside p mem)) fun p mem c => level.loaded.child (inside p mem)⟩

theorem splitShows {hash : Hash} (level : Level m d (L ++ ((κ : NodeId),x) :: R)) :
    Pause.Shows ⟨hash,⟨((κ : NodeId),upper L x) :: R⟩,none⟩ (flatten ⟨L ++ ((κ : NodeId),x) :: R⟩) := by
  have suffix := levelSuffix level
  have left := levelLeft level
  have ordered : Ordered ⟨((κ : NodeId),upper L x) :: R⟩ :=
      @orderedReplace [] R κ x suffix.1 _ left.ordered x.value noHash
  have loaded : Loaded ⟨((κ : NodeId),upper L x) :: R⟩ :=
      @loadedReplace [] R κ x suffix.2 _ left.loaded x.value noHash
  have whole := Shows.whole hash ordered loaded
  have same : flatten ⟨((κ : NodeId),upper L x) :: R⟩ = flatten ⟨L ++ ((κ : NodeId),x) :: R⟩ := by
    simp [flattenEq,entryFlat,upper,belowEntry,ownPair]
  rw [← same]
  exact whole

end

theorem grownShows {cfg : Config} {key : Key} {value : Value} {d : Nat} {es es' : Entries} {ps : List Pause}
    (two : 2 ≤ cfg.maxNodeSize) (grown : Grown cfg key value d es ps es') (good : GoodAt cfg.maxNodeSize d es) :
    ∀ p ∈ ps, p.Shows (flatten ⟨es'⟩) := by
  induction grown with
  | leaf => simp
  | hit => simp
  | @pass d pre post c es' i e ps cut other child below fits' ih =>
    have under := ih (good.child child)
    have grownChild := grownLevel two below (good.child child)
    have ordered := good.tree.ordered
    have loaded := good.level.loaded
    have after : flatten ⟨pre ++ (i,refill e es') :: post⟩ =
        flatten ⟨pre⟩ ++ flatten ⟨es'⟩ ++ (ownPair i e.value ++ flatten ⟨post⟩) := by rw [flattenAt]; rfl
    refine List.forall_mem_append.mpr ⟨fun p mem => ?_,tryRemoveShows (Shows.whole _ ?_ ?_)⟩
    · obtain ⟨q,inside,rfl⟩ := List.mem_map.mp mem
      rw [after]
      exact (under q inside).inside ordered loaded
    · exact orderedReplace ordered grownChild.1.ordered e.value noHash
    · exact loadedReplace loaded grownChild.1.loaded e.value noHash
  | @absorb d pre post c L R i e x κ ps cut other child below full mid ih =>
    have under := ih (good.child child)
    have large := (grownLevel two below (good.child child)).1
    have ordered := good.tree.ordered
    have loaded := good.level.loaded
    have after : flatten ⟨pre ++ ((κ : NodeId),upper L x) :: (i,refill e R) :: post⟩ =
        flatten ⟨pre⟩ ++ flatten ⟨L ++ ((κ : NodeId),x) :: R⟩ ++ (ownPair i e.value ++ flatten ⟨post⟩) := by
      rw [flattenAbsorb,flattenAt]
      rfl
    rw [after]
    refine List.forall_mem_append.mpr ⟨fun p mem => ?_,tryRemoveShows ?_⟩
    · obtain ⟨q,inside,rfl⟩ := List.mem_map.mp mem
      refine Pause.Shows.inside ordered loaded ?_
      rcases List.mem_append.mp inside with h | h
      · exact under q h
      · exact tryRemoveShows (splitShows large) q h
    · refine ⟨orderedReplace ordered emptyOrdered e.value noHash,
        loadedReplace loaded emptyLoaded e.value noHash,flatten ⟨pre⟩,
          ownPair i e.value ++ flatten ⟨post⟩,?_,?_⟩
      · simp only [belowEntry,flattenHalves]
      · rw [flattenAt]
        simp [refill,belowEntry,flattenEq]

end IpfsCache
