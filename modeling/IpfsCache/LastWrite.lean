import IpfsCache.MockStorage
import IpfsCache.OverlapSpec

/-! Which of several values given for a key wins. A key that waits in the buffer, or that
a leaf holds, keeps the value it has; everywhere else the later one replaces it. -/
namespace IpfsCache
open OrderedMap (Sorted)
open Node Entries

section
variable {World : Type} {cfg : Config} {env : Env World}

def lastCall (calls : List (Key × Value)) (key : Key) : Option Value :=
  calls.foldl (fun last p => if p.1 = key then some p.2 else last) none

theorem lastCallAppend (calls : List (Key × Value)) (k key : Key) (value : Value) :
    lastCall (calls ++ [(k,value)]) key = if key = k then some value else lastCall calls key := by
  simp [lastCall,List.foldl_append,eq_comm]

def LastWriteWins (s : System World) : Prop :=
  s.frames = [] → (∀ outcome ∈ s.ended, outcome = .completed ∨ outcome = .buffered) →
    ∀ key value, lastCall s.calls key = some value → s.tree.find key = (s.tree,.done (.ok value))

/-- The steps that keep no older value: not a call whose key waits in the buffer with another
value, and not a raw_insert of a key that a leaf holds with another value. -/
def Replaces (s : System World) : Event World → Prop
  | .call key value => ∀ w ∈ OrderedMap.find key s.tree.insertBuffer, w = value
  | .resume i _ _ => ∀ frame ∈ s.frames[i]?, ∀ kv ∈ frame.handing, ∀ w ∈ leafValues kv.1 (top s.tree.root), w = kv.2

instance (s : System World) : (e : Event World) → Decidable (Replaces s e)
  | .call key value => inferInstanceAs (Decidable (∀ w ∈ OrderedMap.find key s.tree.insertBuffer, w = value))
  | .resume i _ _ => inferInstanceAs
      (Decidable (∀ frame ∈ s.frames[i]?, ∀ kv ∈ frame.handing, ∀ w ∈ leafValues kv.1 (top s.tree.root), w = kv.2))

def Outline.pending (o : Outline) (key : Key) : Option Value :=
  (OrderedMap.find key o.buffer).or ((OrderedMap.find key o.batch).or (OrderedMap.find key o.content))

def Latest (s : System World) : Prop := ∀ key, s.outline.pending key = lastCall s.calls key

theorem latestKept (two : 2 ≤ cfg.maxNodeSize) {s s' : System World} {e : Event World} {frame : Option Frame}
    (sound : Sound cfg env s frame) (latest : Latest s) (step : Step cfg env s e s') (replaces : Replaces s e) :
    Latest s' := by
  have sorted := sound.outlineSorted
  obtain ⟨⟨frame',sound'⟩,effect⟩ := stepSound two sound step
  have sorted' := sound'.outlineSorted
  have calls : s'.outline.calls = s'.calls := rfl
  intro key
  rw [← calls]
  generalize s'.outline = o at *
  cases effect with
  | @called k v ended h _ =>
    change (OrderedMap.find key (OrderedMap.insert k v s.tree.insertBuffer)).or _ = lastCall
      (s.calls ++ [(k,v)]) key
    have held : Sorted s.tree.insertBuffer := sorted.buffer
    rw [lastCallAppend,OrderedMap.findInsert k key v held]
    split
    · have same : (OrderedMap.find k s.tree.insertBuffer).getD v = v := by
        cases held : OrderedMap.find k s.tree.insertBuffer with
        | none => rfl
        | some w =>
          subst h
          exact replaces w held
      rw [same]
      rfl
    · exact latest key
  | drained h =>
    have none_ : s.outline.batch = [] := by rw [System.outline,h]; rfl
    have before := latest key
    rw [Outline.pending,none_] at before
    exact before
  | @inserted k v buf ps n _ _ event h raw =>
    have batch : s.outline.batch = (k,v) :: buf := by rw [System.outline,h]; rfl
    have content : s.outline.content = (top s.tree.root).flatten := by rw [System.outline,h]; rfl
    have before := latest key
    rw [Outline.pending,batch,content,OrderedMap.findCons k key v (batch ▸ sorted.batch)] at before
    have assigned : n.flatten = OrderedMap.assign k v (top s.tree.root).flatten := by
      rcases raw.content with ⟨w,holds,_,same⟩ | same
      · subst event
        have value : w = v := replaces (.batch ((k,v) :: buf)) (by rw [h]; rfl) (k,v)
            (by simp [Frame.handing]) w holds
        rw [← value]
        exact same
      · exact same
    change (OrderedMap.find key s.tree.insertBuffer).or
      ((OrderedMap.find key buf).or (OrderedMap.find key n.flatten)) = lastCall s.calls key
    rw [assigned,OrderedMap.findAssign k key v (content ▸ sorted.content),← before]
    split
    · rename_i same
      have free : OrderedMap.find key buf = none := by
        have sortedBatch := OrderedMap.sortedCons.mp (batch ▸ sorted.batch)
        rw [OrderedMap.findNone sortedBatch.2]
        rintro mem
        obtain ⟨p,inside,rfl⟩ := List.mem_map.mp mem
        exact lt_irrefl _ (same ▸ sortedBatch.1 p inside)
      rw [free]
      rfl
    · rfl
  | quiet => exact latest key
  | ended => exact latest key

/-- Last write wins in every run none of whose steps meets an older value in the buffer or in a leaf. -/
theorem lastWriteWins (two : 2 ≤ cfg.maxNodeSize) {s : System World}
    (h : Reach Starts (fun s e s' => Step cfg env s e s' ∧ Replaces s e) s) : LastWriteWins s := by
  have sound {s : System World} (h : Reach Starts (fun s e s' => Step cfg env s e s' ∧ Replaces s e) s) :
      ∃ frame, Sound cfg env s frame := reachSound two (h.mono (fun _ => id) fun _ _ _ => And.left)
  have latest : Latest s := h.invariantOver (J := fun s => ∃ frame, Sound cfg env s frame) (fun _ => sound)
    (fun _ ⟨_,same⟩ key => by rw [same]; rfl) fun _ _ _ ⟨_,sound⟩ latest ⟨step,replaces⟩ =>
      latestKept two sound latest step replaces
  obtain ⟨frame,now⟩ := sound h
  intro idle _ key value last
  have here := latest key
  have batch : s.outline.batch = [] := by rw [System.outline,idle]; rfl
  have content : s.outline.content = (top s.tree.root).flatten := by rw [System.outline,idle]; rfl
  rw [last,Outline.pending,batch,content] at here
  rw [now.find key]
  have found : (OrderedMap.find key s.tree.insertBuffer).or
      (OrderedMap.find key (top s.tree.root).flatten) = some value := here
  rw [found]
  rfl

end
theorem lastWriteWinsMock : ∃ s : System MockStorage,
    s.calls = [(letter 97,letter 49),(letter 98,letter 49),(letter 99,letter 49),(letter 98,letter 50)] ∧
    s.frames = [] ∧ LastWriteWins s := by
  have run : ((System.fresh MockStorage.empty).play (mockConfig 2) MockStorage.storage
      (fun s e => decide (Replaces s e))
      (.call (letter 97) (letter 49) :: List.replicate 4 (.resume 0) ++ .call (letter 98) (letter 49) ::
        .call (letter 99) (letter 49) :: List.replicate 11 (.resume 0) ++ .call (letter 98) (letter 50) ::
        List.replicate 7 (.resume 0))).any
      (fun s => s.frames.isEmpty && decide (s.calls =
        [(letter 97,letter 49),(letter 98,letter 49),(letter 99,letter 49),(letter 98,letter 50)])) = true := by
    decide +kernel
  obtain ⟨s,played,seen⟩ := Option.any_eq_true _ _ |>.mp run
  simp only [Bool.and_eq_true,decide_eq_true_eq,List.isEmpty_iff] at seen
  exact ⟨s,seen.2,seen.1,lastWriteWins (by decide)
    (playReach (fun _ _ => of_decide_eq_true) (.start ⟨_,rfl⟩) played)⟩

theorem lastWriteLost : ∃ s, Reach Starts (Step (mockConfig 2) MockStorage.storage.env) s ∧ ¬ LastWriteWins s := by
  have run : ((System.fresh MockStorage.empty).play (mockConfig 2) MockStorage.storage (fun _ _ => true)
      (.call (letter 97) (letter 49) :: List.replicate 6 (.resume 0) ++ .call (letter 97)
        (letter 50) :: List.replicate 7 (.resume 0))).any
      (fun s => s.frames.isEmpty && decide (s.ended = [.completed,.completed]) &&
        decide (lastCall s.calls (letter 97) = some (letter 50)) && decide
          ((s.tree.find (letter 97)).2 = .done (.ok (letter 49)))) = true := by
    decide +kernel
  obtain ⟨s,played,seen⟩ := Option.any_eq_true _ _ |>.mp run
  simp only [Bool.and_eq_true,decide_eq_true_eq,List.isEmpty_iff] at seen
  obtain ⟨⟨⟨idle,ended⟩,last⟩,found⟩ := seen
  refine ⟨s,playReaches played,fun wins => ?_⟩
  have other := wins idle (by simp [ended]) _ _ last
  rw [other] at found
  have same : FindStep.done (.ok (letter 50)) = .done (.ok (letter 49)) := found
  exact absurd same (by decide)

end IpfsCache
