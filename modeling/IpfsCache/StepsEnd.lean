import IpfsCache.Service
import Mathlib.Data.Prod.Lex

/-! What an Injector and its InjectorDb still have to do. When no request comes and the timer of
the Republisher does not expire, every step does some of it. -/
namespace IpfsCache

def Frame.left : Frame → Nat × Nat
  | .loop => (1,0)
  | .storing .. => (2,0)
  | .unhooked => (3,0)
  | .unhooking _ => (4,0)
  | .batch buf => (5 + 2 * buf.length,0)
  | .inserting _ ps _ buf => (6 + 2 * buf.length,ps.length)

def Frame.program : Frame → Except ErrorCode Hash → StoreProgram
  | .storing _ next => next
  | _ => fun _ => .done ⟨⟨[]⟩,.exception⟩

def Frames.left : List Frame → Nat × Nat
  | frame :: _ => frame.left
  | [] => (0,0)

def Frames.program : List Frame → Except ErrorCode Hash → StoreProgram
  | frame :: _ => frame.program
  | [] => fun _ => .done ⟨⟨[]⟩,.exception⟩

def System.left {World : Type} (s : System World) : (Nat ×ₗ Nat ×ₗ Nat) × (Except ErrorCode Hash → StoreProgram) :=
  (toLex (s.tree.insertBuffer.length,toLex (Frames.left s.frames)),Frames.program s.frames)

def System.Less {World : Type} : System World → System World → Prop :=
  InvImage (Prod.Lex (· < ·) Program.Later) System.left

section map
variable {World : Type} {cfg : Config}

theorem lessOf {s s' : System World} (less : s'.tree.insertBuffer.length < s.tree.insertBuffer.length ∨
    s'.tree.insertBuffer.length = s.tree.insertBuffer.length ∧
      ((Frames.left s'.frames).1 < (Frames.left s.frames).1 ∨ (Frames.left s'.frames).1 = (Frames.left s.frames).1 ∧
        (Frames.left s'.frames).2 < (Frames.left s.frames).2)) : System.Less s' s := by
  refine .left _ _ ?_
  simpa only [Prod.Lex.toLex_lt_toLex] using less

theorem storeOnLeft (tree : BTree) (hash : Hash) (p : StoreProgram) :
    (∃ tree' x view next, storeOn tree hash p = .goes tree' (.storing x next) ∧
      tree'.insertBuffer = tree.insertBuffer ∧ p = .await x view next) ∨
    (∃ tree', storeOn tree hash p = .goes tree' .loop ∧ tree'.insertBuffer = tree.insertBuffer) ∨
    ∃ tree' outcome, storeOn tree hash p = .ends tree' outcome ∧ tree'.insertBuffer = tree.insertBuffer := by
  cases p with
  | await x view next => exact .inl ⟨_,x,view,next,rfl,rfl,rfl⟩
  | done out =>
    obtain ⟨n,outcome⟩ := out
    cases outcome with
    | stored => exact .inr (.inl ⟨_,rfl,rfl⟩)
    | error => exact .inr (.inr ⟨_,_,rfl,rfl⟩)
    | exception => exact .inr (.inr ⟨_,_,rfl,rfl⟩)

theorem goesLess {s : System World} {frame frame' : Frame} (one : s.frames = [frame]) {tree : BTree}
    (kept : tree.insertBuffer = s.tree.insertBuffer)
    (less : frame'.left.1 < frame.left.1 ∨ frame'.left.1 = frame.left.1 ∧ frame'.left.2 < frame.left.2)
    (world : World) : System.Less (s.after 0 frame world (.goes tree frame')) s := by
  refine lessOf (.inr ⟨congrArg List.length kept,?_⟩)
  rw [System.after,one]
  exact less

theorem endsLess {s : System World} {frame : Frame} (one : s.frames = [frame]) {tree : BTree}
    (kept : tree.insertBuffer = s.tree.insertBuffer) (outcome : InsertOutcome) (world : World) :
    System.Less (s.after 0 frame world (.ends tree outcome)) s := by
  refine lessOf (.inr ⟨congrArg List.length kept,.inl ?_⟩)
  rw [System.after,one]
  cases frame <;> simp [Frames.left,Frame.left]

theorem afterLess {s : System World} {frame : Frame} (one : s.frames = [frame]) {by_ : Resumption} {a : Advance}
    (advanced : Advanced cfg s.tree frame by_ a) (world : World) : System.Less (s.after 0 frame world a) s := by
  obtain ⟨tree,frames,w,calls,handed,ended⟩ := s
  have paused (tree : BTree) (after : Root) (buf : List (Key × Value)) (ps : List Pause) :
      ∃ tree' frame', pauseOn tree after buf ps = .goes tree' frame' ∧ tree'.insertBuffer = tree.insertBuffer ∧
        (frame' = .batch buf ∨ ∃ p qs, ps = p :: qs ∧ frame' = .inserting p qs after buf) := by
    cases ps with
    | nil => exact ⟨_,_,rfl,rfl,.inl rfl⟩
    | cons p qs => exact ⟨_,_,rfl,rfl,.inr ⟨p,qs,rfl,rfl⟩⟩
  cases advanced with
  | finished => exact endsLess one rfl .completed world
  | drained => exact lessOf (.inl (Nat.succ_pos _))
  | @raw _ k v buf ps after =>
    obtain ⟨tree',frame',same,kept,frame⟩ := paused tree after buf ps
    rw [same]
    refine goesLess one kept (.inl ?_) world
    rcases frame with rfl | ⟨p,qs,_,rfl⟩ <;> simp only [Frame.left,List.length_cons] <;> omega
  | @removed _ p ps after buf =>
    obtain ⟨tree',frame',same,kept,frame⟩ := paused tree after buf ps
    rw [same]
    refine goesLess one kept ?_ world
    rcases frame with rfl | ⟨q,qs,rfl,rfl⟩
    · exact .inl (by simp [Frame.left])
    · exact .inr ⟨rfl,Nat.lt_succ_self _⟩
  | rootless => exact goesLess one rfl (.inl (by simp [Frame.left])) world
  | forgotten => exact goesLess one rfl (.inl (by simp [Frame.left])) world
  | unhooks => exact goesLess one rfl (.inl (by simp [Frame.left])) world
  | unhooked => exact goesLess one rfl (.inl (by simp [Frame.left])) world
  | skipped => exact goesLess one rfl (.inl (by simp [Frame.left])) world
  | @stores n hash buffer flag =>
    rcases storeOnLeft ⟨some ⟨some n,hash⟩,buffer,flag⟩ hash (n.store cfg) with
      ⟨tree',x,view,next,same,kept,_⟩ | ⟨tree',same,kept⟩ | ⟨tree',outcome,same,kept⟩ <;> rw [same]
    · exact goesLess one kept (.inl (by simp [Frame.left])) world
    · exact goesLess one kept (.inl (by simp [Frame.left])) world
    · exact endsLess one kept outcome world
  | @added _ x next reply =>
    rcases storeOnLeft tree tree.rootHash (next reply) with
      ⟨tree',x',view,next',same,kept,later⟩ | ⟨tree',same,kept⟩ | ⟨tree',outcome,same,kept⟩ <;> rw [same]
    · cases one
      have buffer : tree'.insertBuffer.length = tree.insertBuffer.length := congrArg List.length kept
      exact Prod.lex_def.mpr (.inr ⟨congrArg (toLex (·,toLex (2,0))) buffer,reply,x',view,later⟩)
    · exact goesLess one kept (.inl (by simp [Frame.left])) world
    · exact endsLess one kept outcome world

theorem System.lessWellFounded : WellFounded (@System.Less World) :=
  InvImage.wf _ (WellFounded.prod_lex wellFounded_lt Program.laterWellFounded)

end map

def Happening.Own : Happening → Prop
  | .publish .. => False
  | .expire => False
  | _ => True

def DbEvent.Own {World : Type} : DbEvent World → Prop
  | .update .. => False
  | .republish e => e.Own
  | _ => True

def ServiceEvent.Own {World Ptime : Type} : ServiceEvent World Ptime → Prop
  | .insertContent .. => False
  | .db e => e.Own
  | _ => True

namespace Republisher

def left (r : Republisher) : Nat ×ₗ Nat ×ₗ Nat ×ₗ Nat :=
  toLex (r.timer.ready.countP Prod.snd,toLex (r.callbacks.length,
    toLex (r.handling.elim 0 fun _ => 1,r.timer.ready.length)))

theorem leftLess {r r' : Republisher} (less : r'.timer.ready.countP Prod.snd < r.timer.ready.countP Prod.snd ∨
    r'.timer.ready.countP Prod.snd = r.timer.ready.countP Prod.snd ∧
      (r'.callbacks.length < r.callbacks.length ∨ r'.callbacks.length = r.callbacks.length ∧
        ((r'.handling.elim 0 fun _ => 1) < (r.handling.elim 0 fun _ => 1) ∨
          (r'.handling.elim 0 fun _ => 1) = (r.handling.elim 0 fun _ => 1) ∧
            r'.timer.ready.length < r.timer.ready.length))) : r'.left < r.left := by
  simpa only [left,Prod.Lex.toLex_lt_toLex] using less

theorem startKeeps (r : Republisher) : r.startPublishing.callbacks = r.callbacks ∧
    r.startPublishing.handling = r.handling ∧ r.startPublishing.invoked = r.invoked ∧
    r.startPublishing.timer.ready.countP Prod.snd = r.timer.ready.countP Prod.snd := by
  have aborted (pending : List Nat) : (pending.map fun w => (w,false)).countP Prod.snd = 0 := by
    rw [List.countP_map,List.countP_eq_zero]
    simp
  unfold startPublishing
  split <;> simp [Timer.expiresFromNow,Timer.cancel,Timer.settle,Timer.asyncWait,aborted]

theorem answerLess {r r' : Republisher} {f : Flight} {status : Status} (answer : r.answer f status = some r') :
    r'.left < r.left := by
  unfold Republisher.answer at answer
  split at answer
  · cases answer
  · rename_i front rest taken
    cases answer
    refine leftLess (.inr ⟨rfl,.inl ?_⟩)
    rw [taken]
    exact Nat.lt_succ_self _

theorem stepLess {r r' : Republisher} {e : Happening} (step : r.Step e r') (own : e.Own) : r'.left < r.left := by
  cases e with
  | publish cid present => cases own
  | expire => cases own
  | go =>
    simp only [Step,Republisher.step] at step
    split at step
    · cases step
    · rename_i h here
      split at step
      · cases step
        obtain ⟨callbacks,handling,_,ready⟩ := startKeeps { r with handling := none }
        refine leftLess (.inr ⟨ready,.inr ⟨congrArg _ callbacks,.inl ?_⟩⟩)
        rw [handling,here]
        exact Nat.zero_lt_one
      · exact answerLess step
  | complete i status =>
    simp only [Step,Republisher.step] at step
    split at step
    · have less := answerLess step
      exact less
    · cases step
  | timeout i =>
    simp only [Step,Republisher.step] at step
    split at step
    · rename_i w success still at_
      cases step
      have taken := Reach.taken at_
      have count := taken.countP_eq Prod.snd
      have length := taken.length_eq
      rw [List.countP_cons] at count
      rw [List.length_cons] at length
      unfold Republisher.timeout
      split
      · refine leftLess ?_
        cases success with
        | true =>
          simp [Timer.deliver] at count ⊢
          omega
        | false =>
          refine .inr ⟨by simpa [Timer.deliver] using count,.inr ⟨rfl,.inr ⟨rfl,?_⟩⟩⟩
          exact Nat.lt_of_succ_le length.le
      · rename_i alone
        cases success with
        | false => simp at alone
        | true =>
          obtain ⟨_,_,_,ready⟩ := startKeeps (pushBack none { r with timer := r.timer.deliver i })
          refine leftLess (.inl (ready.trans_lt ?_))
          change (r.timer.ready.eraseIdx i).countP Prod.snd < _
          simp at count
          omega
    · cases step

end Republisher

namespace InjectorDb
variable {World : Type} {cfg : Config} {ipfs : Ipfs World}

def left (db : InjectorDb World) : Nat ×ₗ Nat ×ₗ Nat ×ₗ Nat ×ₗ Nat :=
  toLex (db.midway.elim 1 fun _ => 0,db.republisher.left)

def Less : InjectorDb World → InjectorDb World → Prop :=
  InvImage (Prod.Lex System.Less (· < ·)) fun db => (db.map,db.left)

theorem lessWellFounded : WellFounded (@Less World) :=
  InvImage.wf _ (WellFounded.prod_lex System.lessWellFounded wellFounded_lt)

theorem Resumed.less {db : InjectorDb World} {e : DbEvent World} {by_ : Resumption} {map : System World}
    (resumed : Resumed cfg ipfs db e by_ map) : System.Less map db.map := by
  obtain ⟨frame,a,one,advanced,_,after⟩ := resumed.advanced
  exact after ▸ afterLess one advanced map.world

theorem stepLess {db db' : InjectorDb World} {e : DbEvent World} (running : Running ipfs db)
    (step : InjectorDb.Step cfg ipfs db e db') (own : e.Own) : Less db' db := by
  cases (moves running step).1 with
  | called => cases own
  | buffered => cases own
  | @added x next hash w frames add =>
    have first : db.midway = none := by
      have step := step.2
      simp only [InjectorDb.step] at step
      split at step
      · assumption
      · contradiction
      · cases step
    refine Prod.lex_def.mpr (.inr ⟨rfl,Prod.Lex.toLex_lt_toLex.mpr (.inl ?_)⟩)
    rw [first]
    exact Nat.zero_lt_one
  | republished gone =>
    refine Prod.lex_def.mpr (.inr ⟨rfl,?_⟩)
    exact Prod.Lex.toLex_lt_toLex.mpr (.inr ⟨rfl,Republisher.stepLess gone own⟩)
  | went resumed => exact .left _ _ resumed.less
  | @ended _ _ map u outcome resumed =>
    have along := insertedAlong u outcome { db with map := map, owners := [], midway := none }
    exact .left _ _ (along.map.symm ▸ resumed.less)

end InjectorDb

namespace Service
variable {World Ptime : Type} {cfg : Config} {ipfs : Ipfs World} {R : World → Hash → Value → Prop}
  {content : Hash → Option Value} {dt : DateTime Ptime} {s s' : Service World Ptime}

def before (s : Service World Ptime) : Nat ×ₗ Nat := toLex (s.injector.waiting.length,s.began.count none)
def behind (s : Service World Ptime) : Nat ×ₗ Nat := toLex (s.began.length,s.injector.handling.toNat)

def Less : Service World Ptime → Service World Ptime → Prop :=
  InvImage (Prod.Lex (· < ·) (Prod.Lex InjectorDb.Less (· < ·))) fun s => (s.before,s.db,s.behind)

theorem lessWellFounded : WellFounded (@Less World Ptime) :=
  InvImage.wf _ (WellFounded.prod_lex wellFounded_lt (WellFounded.prod_lex InjectorDb.lessWellFounded wellFounded_lt))

theorem takeLess {inj : Injector Ptime} {i : Nat} {e : InsertEntry Ptime} (at_ : inj.adding[i]? = some e)
    (eca : Status) : (inj.take i e eca).waiting.length < inj.waiting.length := by
  have inside := (List.getElem?_eq_some_iff.mp at_).1
  have length := List.length_eraseIdx_of_lt inside
  rw [Injector.take,Injector.fromQueueWaiting]
  simp only [Injector.waiting,List.length_append]
  omega

theorem backLess {i u : Nat} (began : s.began[i]? = some (some u)) {inj : Injector Ptime}
    (waits : inj.waiting = s.injector.waiting) : Less { s with injector := inj, began := s.began.eraseIdx i } s := by
  have taken := Reach.taken began
  have count := taken.count_eq none
  rw [List.count_cons_of_ne (by simp)] at count
  have length := taken.length_eq
  rw [List.length_cons] at length
  refine Prod.lex_def.mpr (.inr ⟨?_,Prod.lex_def.mpr (.inr ⟨rfl,Prod.Lex.toLex_lt_toLex.mpr (.inl ?_)⟩)⟩)
  · simp only [before,waits,count]
  · exact Nat.lt_of_succ_le length.le

theorem stepLess (running : InjectorDb.Running ipfs s.db) {e : ServiceEvent World Ptime}
    (step : Service.Step cfg ipfs R content dt s e s') (own : e.Own) : Less s' s := by
  obtain ⟨allowed,_,step⟩ := step
  cases moves step with
  | called => cases own
  | goes =>
    have handles : s.injector.handling = true := by
      simp only [Service.step,Injector.step] at step
      split at step
      · assumption
      · cases step
    refine Prod.lex_def.mpr (.inr ⟨rfl,Prod.lex_def.mpr (.inr ⟨rfl,Prod.Lex.toLex_lt_toLex.mpr (.inr ⟨rfl,?_⟩)⟩)⟩)
    rw [handles]
    exact Nat.zero_lt_one
  | failed at_ => exact .left _ _ (Prod.Lex.toLex_lt_toLex.mpr (.inl (takeLess at_ _)))
  | spawned at_ => exact .left _ _ (Prod.Lex.toLex_lt_toLex.mpr (.inl (takeLess at_ _)))
  | @begun i u db at_ new goes =>
    have inside := (List.getElem?_eq_some_iff.mp new).1
    refine .left _ _ (Prod.Lex.toLex_lt_toLex.mpr (.inr ⟨rfl,?_⟩))
    rw [List.count_set inside]
    have here : s.began[i] = none := (List.getElem?_eq_some_iff.mp new).2
    rw [here]
    simpa using List.mem_of_getElem? new
  | went _ goes => exact Prod.lex_def.mpr (.inr ⟨rfl,.left _ _ (InjectorDb.stepLess running ⟨allowed,goes⟩ own)⟩)
  | threw _ began => exact backLess began rfl
  | returned _ began => exact backLess began rfl

end Service

end IpfsCache
