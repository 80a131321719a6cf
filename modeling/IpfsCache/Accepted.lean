import IpfsCache.MockStorage
import IpfsCache.OverlapSpec

/-! What a find sees of the inserts accepted so far. A key is in the buffer, in the local
batch or in the map the work leads to; a find looks into the buffer and the tree, and
the tree lacks the keys of a split-off node that a suspended insert holds. -/
namespace IpfsCache
open OrderedMap (Sorted)
open Node Entries

def Frame.held : Frame → List (Key × Value)
  | .inserting p _ _ _ => belowEntry p.held
  | _ => []

section
variable {World : Type} {cfg : Config} {env : Env World}

def System.held (s : System World) : List (Key × Value) := s.frames.flatMap Frame.held

theorem Sound.seen {s : System World} {frame : Option Frame} (sound : Sound cfg env s frame) (x : Key × Value) :
    x ∈ (top s.tree.root).flatten ↔ x ∈ s.outline.content ∧ x.1 ∉ OrderedMap.keys s.held := by
  have sits := sound.sits
  have whole (content : s.outline.content = (top s.tree.root).flatten) (none_ : s.held = []) :
      x ∈ (top s.tree.root).flatten ↔ x ∈ s.outline.content ∧ x.1 ∉ OrderedMap.keys s.held := by
    rw [content,none_]
    simp [OrderedMap.keys]
  cases frame with
  | none => exact whole (by rw [System.outline,sound.frames]; rfl) (by rw [System.held,sound.frames]; rfl)
  | some f =>
    cases f with
    | inserting p ps after buf =>
      obtain ⟨_,n,hash,rfl,root,good,shows_⟩ := sits
      have content : s.outline.content = n.flatten := by rw [System.outline,sound.frames]; rfl
      have held : s.held = belowEntry p.held := by rw [System.held,sound.frames]; simp [Frame.held]
      rw [content,held,root]
      exact (shows_ p (by simp)).member good.tree.sorted x
    | _ => exact whole (by rw [System.outline,sound.frames]; rfl) (by rw [System.held,sound.frames]; rfl)

structure Kept (o : Outline) : Prop where
  given : ∀ x, x ∈ o.content ∨ x ∈ o.batch ∨ x ∈ o.buffer → x ∈ o.calls
  handed : ∀ k, k ∈ OrderedMap.keys o.content ↔ k ∈ o.handed
  called : ∀ k ∈ OrderedMap.keys o.calls,
    k ∈ OrderedMap.keys o.content ∨ k ∈ OrderedMap.keys o.batch ∨ k ∈ OrderedMap.keys o.buffer

theorem effectPairs {Q : Key × Value → Prop} {s : System World} {frame : Option Frame} (sound : Sound cfg env s frame)
    {e : Event World} {o : Outline}
    (pairs : ∀ x, x ∈ s.outline.content ∨ x ∈ s.outline.batch ∨ x ∈ s.outline.buffer → Q x)
    (call : ∀ x, o.calls = s.calls ++ [x] → Q x) (effect : Effect cfg s e o) :
    ∀ x, x ∈ o.content ∨ x ∈ o.batch ∨ x ∈ o.buffer → Q x := by
  have sorted := sound.outlineSorted
  cases effect with
  | @called key value ended h _ =>
    rintro x (mem | mem | mem)
    · exact pairs x (.inl mem)
    · exact pairs x (.inr (.inl mem))
    · rcases OrderedMap.memInsert mem with rfl | old
      · exact call _ rfl
      · exact pairs x (.inr (.inr old))
  | drained h =>
    rintro x (mem | mem | mem)
    · exact pairs x (.inl mem)
    · exact pairs x (.inr (.inr mem))
    · cases mem
  | @inserted key value buf ps n _ _ event h raw =>
    have batch : s.outline.batch = (key,value) :: buf := by rw [System.outline,h]; rfl
    have content : s.outline.content = (top s.tree.root).flatten := by rw [System.outline,h]; rfl
    obtain ⟨w,value_,assigned⟩ := raw.assigns
    rw [← content] at assigned value_
    rintro x (mem | mem | mem)
    · rcases (OrderedMap.memAssign sorted.content).mp (assigned ▸ mem) with rfl | ⟨old,_⟩
      · rcases value_ with rfl | old
        · exact pairs _ (.inr (.inl (by rw [batch]; simp)))
        · exact pairs _ (.inl ((OrderedMap.findSome sorted.content).mp old))
      · exact pairs x (.inl old)
    · exact pairs x (.inr (.inl (by rw [batch]; exact List.mem_cons_of_mem _ mem)))
    · exact pairs x (.inr (.inr mem))
  | quiet => exact pairs
  | ended => exact pairs

theorem effectKept {s : System World} {frame : Option Frame} (sound : Sound cfg env s frame) {e : Event World}
    {o : Outline} (kept : Kept s.outline) (effect : Effect cfg s e o) : Kept o := by
  have sorted := sound.outlineSorted
  have given : ∀ x, x ∈ o.content ∨ x ∈ o.batch ∨ x ∈ o.buffer → x ∈ o.calls := by
    refine effectPairs sound (fun x mem => ?_) (fun x call => by simp [call]) effect
    have before : x ∈ s.calls := kept.given x mem
    cases effect with
    | called => exact List.mem_append_left _ before
    | _ => exact before
  cases effect with
  | @called key value ended h _ =>
    have held : Sorted s.tree.insertBuffer := sorted.buffer
    refine ⟨given,kept.handed,fun k mem => ?_⟩
    change k ∈ OrderedMap.keys (s.calls ++ [(key,value)]) at mem
    have cases_ : k ∈ OrderedMap.keys s.calls ∨ k = key := by simpa [OrderedMap.keys] using mem
    rcases cases_ with old | rfl
    · rcases kept.called k old with h | h | h
      · exact .inl h
      · exact .inr (.inl h)
      · exact .inr (.inr ((OrderedMap.keysInsert held).mpr (.inr h)))
    · exact .inr (.inr ((OrderedMap.keysInsert held).mpr (.inl rfl)))
  | drained h =>
    have none_ : s.outline.batch = [] := by rw [System.outline,h]; rfl
    refine ⟨given,kept.handed,fun k mem => ?_⟩
    rcases kept.called k mem with h | h | h
    · exact .inl h
    · rw [none_] at h
      cases h
    · exact .inr (.inl h)
  | @inserted key value buf ps n _ _ event h raw =>
    have batch : s.outline.batch = (key,value) :: buf := by rw [System.outline,h]; rfl
    have content : s.outline.content = (top s.tree.root).flatten := by rw [System.outline,h]; rfl
    obtain ⟨w,value_,assigned⟩ := raw.assigns
    rw [← content] at assigned value_
    refine ⟨given,fun k => ?_,fun k mem => ?_⟩
    · change k ∈ OrderedMap.keys n.flatten ↔ k ∈ s.handed ++ [key]
      rw [assigned,OrderedMap.keysAssign sorted.content,kept.handed]
      simp [System.outline,or_comm]
    · change k ∈ OrderedMap.keys n.flatten ∨ k ∈ OrderedMap.keys buf ∨ _
      rw [assigned,OrderedMap.keysAssign sorted.content]
      rcases kept.called k mem with h | h | h
      · exact .inl (.inr h)
      · rw [batch] at h
        rcases List.mem_cons.mp h with rfl | h
        · exact .inl (.inl rfl)
        · exact .inr (.inl h)
      · exact .inr (.inr h)
  | quiet => exact kept
  | ended => exact ⟨given,kept.handed,kept.called⟩

theorem reachKept (two : 2 ≤ cfg.maxNodeSize) {s : System World} (h : Reach Starts (Step cfg env) s) :
    Kept s.outline := by
  refine h.invariantOver (J := fun s => ∃ frame, Sound cfg env s frame) (I := fun s => Kept s.outline)
    (fun _ => reachSound two)
    (fun _ ⟨_,same⟩ => ?_) fun _ _ _ ⟨_,sound⟩ kept step => effectKept sound kept (stepSound two sound step).2
  subst same
  refine ⟨fun x mem => ?_,fun k => Iff.rfl,fun k mem => by cases mem⟩
  rcases mem with h | h | h <;> cases h

def ReadsAccepted (s : System World) : Prop :=
  ∀ key ∈ OrderedMap.keys s.calls, ∃ value, s.tree.find key = (s.tree,.done (.ok value)) ∧ (key,value) ∈ s.calls

/-- At every moment of every run a find succeeds, with a value given for its key, exactly
when the key waits in the buffer, or has been handed to raw_insert and is not in a
split-off node. -/
theorem findsAccepted (two : 2 ≤ cfg.maxNodeSize) {s : System World} (h : Reach Starts (Step cfg env) s)
    (key : Key) : (∃ value, s.tree.find key = (s.tree,.done (.ok value)) ∧ (key,value) ∈ s.calls) ↔
      key ∈ OrderedMap.keys s.tree.insertBuffer ∨ (key ∈ s.handed ∧ key ∉ OrderedMap.keys s.held) := by
  obtain ⟨frame,sound⟩ := reachSound two h
  have kept := reachKept two h
  have sorted := sound.outlineSorted
  have visible : key ∈ OrderedMap.keys (top s.tree.root).flatten ↔ key ∈ s.handed ∧
      key ∉ OrderedMap.keys s.held := by
    have handed : key ∈ OrderedMap.keys s.outline.content ↔ key ∈ s.handed := kept.handed key
    rw [← handed]
    constructor
    · intro mem
      obtain ⟨x,inside,rfl⟩ := List.mem_map.mp mem
      have seen := (sound.seen x).mp inside
      exact ⟨List.mem_map_of_mem seen.1,seen.2⟩
    · rintro ⟨mem,free⟩
      obtain ⟨x,inside,rfl⟩ := List.mem_map.mp mem
      exact List.mem_map_of_mem ((sound.seen x).mpr ⟨inside,free⟩)
  rw [sound.find key,← visible]
  have buffer : Sorted s.tree.insertBuffer := sorted.buffer
  have tree := sound.whole.2.1.sorted
  cases held : OrderedMap.find key s.tree.insertBuffer with
  | some v =>
    have mem := (OrderedMap.findSome buffer).mp held
    exact ⟨fun _ => .inl (List.mem_map_of_mem mem),fun _ => ⟨v,rfl,kept.given _ (.inr (.inr mem))⟩⟩
  | none =>
    have free := (OrderedMap.findNone buffer).mp held
    rw [Option.none_or]
    cases found : OrderedMap.find key (top s.tree.root).flatten with
    | some v =>
      have mem := (OrderedMap.findSome tree).mp found
      exact ⟨fun _ => .inr (List.mem_map_of_mem mem),
        fun _ => ⟨v,rfl,kept.given _ (.inl ((sound.seen (key,v)).mp mem).1)⟩⟩
    | none =>
      have missing := (OrderedMap.findNone tree).mp found
      refine ⟨fun ⟨v,same,_⟩ => ?_,fun h => absurd h (by simp [free,missing])⟩
      cases same

end

def splitting : List Act :=
  .call (letter 97) (letter 49) :: List.replicate 4 (.resume 0) ++ .call (letter 98) (letter 49) ::
    .call (letter 99) (letter 49) :: List.replicate 11 (.resume 0) ++ .call (letter 100) (letter 49) ::
    List.replicate 9 (.resume 0) ++ .call (letter 101) (letter 49) :: List.replicate 2 (.resume 0)

theorem findsAcceptedMock : ∃ s : System MockStorage, letter 99 ∈ s.handed ∧ letter 99 ∈ OrderedMap.keys s.held ∧
    ((∃ value, s.tree.find (letter 99) = (s.tree,.done (.ok value)) ∧ (letter 99,value) ∈ s.calls) ↔
      letter 99 ∈ OrderedMap.keys s.tree.insertBuffer ∨
      (letter 99 ∈ s.handed ∧ letter 99 ∉ OrderedMap.keys s.held)) := by
  have run : ((System.fresh MockStorage.empty).play (mockConfig 2) MockStorage.storage
      (fun _ _ => true) splitting).any
      (fun s => decide (letter 99 ∈ s.handed) && decide (letter 99 ∈ OrderedMap.keys s.held)) = true := by
    decide +kernel
  obtain ⟨s,played,seen⟩ := Option.any_eq_true _ _ |>.mp run
  simp only [Bool.and_eq_true,decide_eq_true_eq] at seen
  exact ⟨s,seen.1,seen.2,findsAccepted (by decide) (playReaches played) (letter 99)⟩

theorem acceptedMissed : ∃ s, Reach Starts (Step (mockConfig 2) MockStorage.storage.env) s ∧
    (∀ frame ∈ s.frames, frame.waits = true) ∧ ¬ ReadsAccepted s := by
  have run : ((System.fresh MockStorage.empty).play (mockConfig 2) MockStorage.storage
      (fun _ _ => true) splitting).any
      (fun s => s.frames.all Frame.waits && decide (letter 99 ∈ OrderedMap.keys s.calls) &&
        decide ((s.tree.find (letter 99)).2 = .done (.error .notFound))) = true := by
    decide +kernel
  obtain ⟨s,played,seen⟩ := Option.any_eq_true _ _ |>.mp run
  simp only [Bool.and_eq_true,decide_eq_true_eq,List.all_eq_true] at seen
  obtain ⟨⟨wait,called⟩,missed⟩ := seen
  refine ⟨s,playReaches played,wait,fun reads => ?_⟩
  obtain ⟨value,found,_⟩ := reads _ called
  rw [found] at missed
  cases missed

end IpfsCache
