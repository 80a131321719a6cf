import IpfsCache.Content
import IpfsCache.Descent
import IpfsCache.Opened
import IpfsCache.AnyBlocks

/-! Which ids a lookup asks Backend::cat for, when blocks and values come from the network:
the child strings on the way of its key, and the string in the record at its end. -/
namespace IpfsCache
open Node Entries
open OrderedMap (Sorted)

def logging (blocks : Hash → Except ErrorCode Value) : Storage (List Hash) :=
  ⟨fun asked hash => (blocks hash,asked ++ [hash]),fun asked _ => (.error .operationAborted,asked),
    fun asked _ => asked⟩

def CidSized (hash : Hash) : Prop := hash.bytes.length = cidSize

namespace Json

def text (field : StdString) (v : Json) : StdString :=
  match v.find field with
  | some (.string s) => s
  | _ => ⟨[]⟩

/-- The members of a block are objects, or null, and a child in them is a string. -/
def EntryLike (v : Json) : Prop :=
  (v = .null ∨ ∃ fields, v = .object fields) ∧ ∀ c, v.find childField = some c → ∃ s, c = .string s

end Json

def memberId (name : StdString) : NodeId := if name.isEmpty then ⊤ else name

section blocks
variable (lib : JsonLib) (blocks : Hash → Except ErrorCode Value) (key : Key)

/-- In the block of this hash the key comes to this member: the least that is not below it. -/
def Meets (hash : Hash) (name : StdString) (v : Json) : Prop :=
  ∃ text members, blocks hash = .ok text ∧ lib.parse text = some (.object members) ∧
    (∀ m ∈ members, m.2.EntryLike) ∧ members.lookup name = some v ∧ (key : NodeId) ≤ memberId name ∧
    ∀ m ∈ members, (key : NodeId) ≤ memberId m.1 → memberId name ≤ memberId m.1

def LeadsTo (hash child : Hash) : Prop :=
  ∃ name v, Meets lib blocks key hash name v ∧ memberId name ≠ key ∧ v.text childField = child ∧
    child.isEmpty = false

def OnWay (hash below : Hash) : Prop := Relation.ReflTransGen (LeadsTo lib blocks key) hash below

def Keeps (hash : Hash) (value : Value) : Prop :=
  ∃ name v, Meets lib blocks key hash name v ∧ memberId name = key ∧ v.text valueField = value

/-- The id of a record, where it is one with a time stamp that can be read, is as long as cat_ asserts. -/
def SizedRecord {Ptime : Type} (dt : DateTime Ptime) (rawJson : Value) : Prop :=
  ∀ fields ts id, lib.parse rawJson = some (.object fields) → OrderedMap.find tsField fields = some (.string ts) →
    (dt.fromIsoExtendedString ts).isSome → OrderedMap.find valueField fields = some (.string id) → CidSized id

end blocks

section memory
variable (key : Key)

def Node.LeadsDown (n c : Node) : Prop :=
  ∃ i v hash post, OrderedMap.lowerBound (key : NodeId) n.entries = (i,⟨v,some c,hash⟩) :: post ∧ i ≠ key

def Node.LeadsOut (n : Node) (hash : Hash) : Prop :=
  ∃ m, Relation.ReflTransGen (Node.LeadsDown key) n m ∧ ∃ i v post,
    OrderedMap.lowerBound (key : NodeId) m.entries = (i,⟨v,none,hash⟩) :: post ∧ i ≠ key ∧ hash.isEmpty = false

def Node.KeepsKey (n : Node) (value : Value) : Prop :=
  ∃ m, Relation.ReflTransGen (Node.LeadsDown key) n m ∧ ∃ e post,
    OrderedMap.lowerBound (key : NodeId) m.entries = ((key : NodeId),e) :: post ∧ e.value = value

def BTree.LeadsOut (bt : BTree) (hash : Hash) : Prop :=
  OrderedMap.find key bt.insertBuffer = none ∧
    ((bt.root = some ⟨none,hash⟩ ∧ hash.isEmpty = false) ∨
      ∃ n own, bt.root = some ⟨some n,own⟩ ∧ n.LeadsOut key hash)

def BTree.KeepsKey (bt : BTree) (value : Value) : Prop :=
  OrderedMap.find key bt.insertBuffer = some value ∨ OrderedMap.find key bt.insertBuffer = none ∧
    ∃ n own, bt.root = some ⟨some n,own⟩ ∧ n.KeepsKey key value

end memory

def BTree.Asked (lib : JsonLib) (blocks : Hash → Except ErrorCode Value) (key : Key) (bt : BTree) (hash : Hash) :
    Prop := ∃ first, bt.LeadsOut key first ∧ OnWay lib blocks key first hash

def BTree.Answers (lib : JsonLib) (blocks : Hash → Except ErrorCode Value) (key : Key) (bt : BTree)
    (value : Value) : Prop :=
  bt.KeepsKey key value ∨ ∃ hash, bt.Asked lib blocks key hash ∧ Keeps lib blocks key hash value

section reading
variable {v : Json} {members : List (StdString × Json)}

theorem memberIdInjective : Function.Injective memberId := fun a b same => by
  unfold memberId at same
  split at same <;> split at same
  · rename_i a_ b_
    exact (StdString.isEmptyIff.mp a_).trans (StdString.isEmptyIff.mp b_).symm
  · exact (WithTop.top_ne_coe same).elim
  · exact (WithTop.coe_ne_top same).elim
  · exact WithTop.coe_inj.mp same

def stubOf (v : Json) : Entry Node := ⟨v.text valueField,none,v.text childField⟩

def insertMembers (members : List (StdString × Json)) (es : Entries) : Entries :=
  (members.map fun m => (memberId m.1,stubOf m.2)).foldl (fun es p => OrderedMap.insert p.1 p.2 es) es

theorem entryLikeReads (like : v.EntryLike) :
    restoreChild v = some (v.text childField) ∧ restoreValue v = some (v.text valueField) := by
  obtain ⟨shape,child⟩ := like
  constructor
  · unfold restoreChild Json.text
    cases there : v.find childField with
    | none => rfl
    | some c =>
      obtain ⟨s,rfl⟩ := child c there
      rfl
  · rcases shape with rfl | ⟨fields,rfl⟩
    · rfl
    · simp only [restoreValue,Json.text,Json.index,Json.find]
      cases OrderedMap.find valueField fields with
      | none => rfl
      | some w => cases w <;> rfl

theorem notEntryLike (not_ : ¬ v.EntryLike) : restoreChild v = none ∨ restoreValue v = none := by
  by_contra both
  obtain ⟨child,value⟩ := not_or.mp both
  refine not_ ⟨?_,fun c there => ?_⟩
  · cases v with
    | null => exact .inl rfl
    | object fields => exact .inr ⟨fields,rfl⟩
    | _ => exact (value rfl).elim
  · rw [restoreChild,there] at child
    cases c with
    | string s => exact ⟨s,rfl⟩
    | _ => exact (child rfl).elim

theorem restoreLoopLike (rest : List (StdString × Json)) : ∀ es : Entries, (∀ m ∈ rest, m.2.EntryLike) →
    restoreLoop rest es = (insertMembers rest es,true) := by
  induction rest with
  | nil => exact fun es _ => rfl
  | cons m rest ih =>
    intro es all
    obtain ⟨child,value⟩ := entryLikeReads (all m List.mem_cons_self)
    rw [restoreLoop,child,value,insertMembers,List.map_cons,List.foldl_cons]
    exact ih _ fun m mem => all m (List.mem_cons_of_mem _ mem)

theorem restoreLoopThrows (rest : List (StdString × Json)) : ∀ es : Entries, (¬ ∀ m ∈ rest, m.2.EntryLike) →
    (restoreLoop rest es).2 = false := by
  induction rest with
  | nil => exact fun es not_ => (not_ (by simp)).elim
  | cons m rest ih =>
    intro es not_
    by_cases like : m.2.EntryLike
    · obtain ⟨child,value⟩ := entryLikeReads like
      rw [restoreLoop,child,value]
      exact ih _ fun all => not_ (List.forall_mem_cons.mpr ⟨like,all⟩)
    · rw [restoreLoop]
      split
      · rename_i child value
        rcases notEntryLike like with none_ | none_
        · rw [child] at none_; cases none_
        · rw [value] at none_; cases none_
      · rfl

theorem lookupStubs (i : NodeId) (e : Entry Node) :
    (members.map fun m => (memberId m.1,stubOf m.2)).lookup i = some e ↔
    ∃ name v, i = memberId name ∧ e = stubOf v ∧ members.lookup name = some v := by
  induction members with
  | nil => simp
  | cons m rest ih =>
    rw [List.map_cons,List.lookup_cons]
    by_cases same : i = memberId m.1
    · rw [beq_iff_eq.mpr same]
      constructor
      · rintro ⟨⟩
        exact ⟨m.1,m.2,same,rfl,List.lookup_cons_self⟩
      · rintro ⟨name,v,same',rfl,found⟩
        have name_ : name = m.1 := memberIdInjective (same'.symm.trans same)
        subst name_
        rw [List.lookup_cons_self] at found
        cases found
        rfl
    · rw [beq_eq_false_iff_ne.mpr same,ih]
      refine exists_congr fun name => exists_congr fun v => and_congr_right fun same' => and_congr_right fun _ => ?_
      have other : name ≠ m.1 := fun name_ => same (same'.trans (congrArg memberId name_))
      rw [List.lookup_cons,beq_eq_false_iff_ne.mpr other]

theorem readBound (key : Key) (i : NodeId) (e : Entry Node) :
    (∃ post, OrderedMap.lowerBound (key : NodeId) (insertMembers members []) = (i,e) :: post) ↔
    ∃ name v, i = memberId name ∧ e = stubOf v ∧ members.lookup name = some v ∧ (key : NodeId) ≤ memberId name ∧
      ∀ m ∈ members, (key : NodeId) ≤ memberId m.1 → memberId name ≤ memberId m.1 := by
  have sorted : Sorted (insertMembers members []) := OrderedMap.insertEachSorted _ List.Pairwise.nil
  have found (j : NodeId) (x : Entry Node) : OrderedMap.find j (insertMembers members []) = some x ↔
      ∃ name v, j = memberId name ∧ x = stubOf v ∧ members.lookup name = some v := by
    rw [insertMembers,OrderedMap.findInsertEach j _ List.Pairwise.nil]
    exact lookupStubs j x
  rw [OrderedMap.lowerBoundLeast sorted,found]
  constructor
  · rintro ⟨⟨name,v,rfl,rfl,there⟩,above,least⟩
    refine ⟨name,v,rfl,rfl,there,above,fun m mem above' => ?_⟩
    obtain ⟨w,there'⟩ := Option.isSome_iff_exists.mp (List.lookup_isSome_iff.mpr ⟨m,mem,beq_self_eq_true m.1⟩)
    exact least _ ((OrderedMap.findSome sorted).mp ((found _ _).mpr ⟨m.1,w,rfl,rfl,there'⟩)) above'
  · rintro ⟨name,v,rfl,rfl,there,above,least⟩
    refine ⟨⟨name,v,rfl,rfl,there⟩,above,fun p mem above' => ?_⟩
    obtain ⟨name',w,same,_,there'⟩ := (found p.1 p.2).mp ((OrderedMap.findSome sorted).mpr mem)
    obtain ⟨front,back,rfl,_⟩ := List.lookup_eq_some_iff.mp there'
    rw [same] at above' ⊢
    exact least (name',w) (by simp) above'

end reading

structure FindStep.Does (step : FindStep) (Next : Hash → Prop) (Ends : Value → Prop) : Prop where
  next : ∀ hash, (∃ path, step = .cat path hash) ↔ Next hash
  ends : ∀ value, step = .done (.ok value) ↔ Ends value

section steps
variable {cfg : Config} {blocks : Hash → Except ErrorCode Value} {key : Key}

theorem FindStep.Does.under {step : FindStep} {Next : Hash → Prop} {Ends : Value → Prop} (does : step.Does Next Ends)
    (i : NodeId) : (step.under i).Does Next Ends := by
  refine ⟨fun hash => Iff.trans ?_ (does.next hash),fun value => Iff.trans ?_ (does.ends value)⟩ <;>
    cases step <;> simp [FindStep.under]

section bound
variable {es post : Entries} {i : NodeId} {v : Value} {x : Option Node} {childHash : Hash}

theorem leadsOutAt (at_ : OrderedMap.lowerBound (key : NodeId) es = (i,⟨v,x,childHash⟩) :: post) (hash : Hash) :
    (Node.mk es).LeadsOut key hash ↔ i ≠ key ∧ ((x = none ∧ childHash = hash ∧ hash.isEmpty = false) ∨
      ∃ c, x = some c ∧ c.LeadsOut key hash) := by
  constructor
  · rintro ⟨m,way,i',v',post',out,other,proper⟩
    rcases way.cases_head with rfl | ⟨c,⟨j,w,g,behind,down,other'⟩,rest⟩
    · cases at_.symm.trans out
      exact ⟨other,.inl ⟨rfl,rfl,proper⟩⟩
    · cases at_.symm.trans down
      exact ⟨other',.inr ⟨c,rfl,m,rest,i',v',post',out,other,proper⟩⟩
  · rintro ⟨other,⟨rfl,rfl,proper⟩ | ⟨c,rfl,m,rest,out⟩⟩
    · exact ⟨_,.refl,i,v,post,at_,other,proper⟩
    · exact ⟨m,rest.head ⟨i,v,childHash,post,at_,other⟩,out⟩

theorem keepsKeyAt (at_ : OrderedMap.lowerBound (key : NodeId) es = (i,⟨v,x,childHash⟩) :: post) (value : Value) :
    (Node.mk es).KeepsKey key value ↔ (i = key ∧ v = value) ∨ i ≠ key ∧ ∃ c, x = some c ∧ c.KeepsKey key value := by
  constructor
  · rintro ⟨m,way,e,post',own,rfl⟩
    rcases way.cases_head with rfl | ⟨c,⟨j,w,g,behind,down,other⟩,rest⟩
    · cases at_.symm.trans own
      exact .inl ⟨rfl,rfl⟩
    · cases at_.symm.trans down
      exact .inr ⟨other,c,rfl,m,rest,e,post',own,rfl⟩
  · rintro (⟨rfl,rfl⟩ | ⟨other,c,rfl,m,rest,own⟩)
    · exact ⟨_,.refl,_,post,at_,rfl⟩
    · exact ⟨m,rest.head ⟨i,v,childHash,post,at_,other⟩,own⟩

end bound

theorem findDoes (n : Node) : (n.find key).2.Does (n.LeadsOut key) (n.KeepsKey key) := by
  induction n using Node.induct with
  | step es ih =>
    cases at_ : OrderedMap.lowerBound (key : NodeId) es with
    | nil =>
      have none_ {m : Node} {p : NodeId × Entry Node} {post : Entries}
          (way : Relation.ReflTransGen (Node.LeadsDown key) ⟨es⟩ m) :
          ¬ OrderedMap.lowerBound (key : NodeId) m.entries = p :: post := fun there => by
        rcases way.cases_head with rfl | ⟨c,⟨j,w,g,behind,down,_⟩,_⟩
        · cases at_.symm.trans there
        · cases at_.symm.trans down
      rw [findEnd at_]
      constructor
      · intro hash
        refine iff_of_false (by simp) ?_
        rintro ⟨m,way,_,_,_,there,_⟩
        exact none_ way there
      · intro value
        refine iff_of_false (by simp) ?_
        rintro ⟨m,way,_,_,there,_⟩
        exact none_ way there
    | cons p post =>
      obtain ⟨i,v,x,hash⟩ := p
      have out := leadsOutAt at_
      have own := keepsKeyAt at_
      by_cases same : i = key
      · subst same
        rw [findHere at_]
        exact ⟨fun g => by rw [out]; simp,fun value => by rw [own]; simp⟩
      · rw [findDown at_ same]
        cases x with
        | none =>
          cases empty : hash.isEmpty with
          | true =>
            simp only [BTree.lazyFind,empty,if_true,FindStep.under]
            refine ⟨fun g => ?_,fun value => by rw [own]; simp [same]⟩
            rw [out]
            refine iff_of_false (by simp) ?_
            rintro ⟨_,⟨_,rfl,proper⟩ | ⟨_,no,_⟩⟩
            · rw [empty] at proper
              cases proper
            · cases no
          | false =>
            simp only [BTree.lazyFind,empty,if_false,FindStep.under,Bool.false_eq_true]
            refine ⟨fun g => ?_,fun value => by rw [own]; simp [same]⟩
            rw [out]
            constructor
            · rintro ⟨path,⟨⟩⟩
              exact ⟨same,.inl ⟨rfl,rfl,empty⟩⟩
            · rintro ⟨_,⟨_,rfl,_⟩ | ⟨_,no,_⟩⟩
              · exact ⟨_,rfl⟩
              · cases no
        | some c =>
          have below := (ih _ (lowerBoundMem at_) c rfl).under i
          simp only [BTree.lazyFind,Prod.map,id]
          exact ⟨fun g => (below.next g).trans (by rw [out]; simp [same]),
            fun value => (below.ends value).trans (by rw [own]; simp [same])⟩

theorem failedDoes {hash : Hash} (ec : ErrorCode) (unread : ∀ name v, ¬ Meets cfg.json blocks key hash name v) :
    (FindStep.done (.error ec)).Does (LeadsTo cfg.json blocks key hash) (Keeps cfg.json blocks key hash) :=
  ⟨fun _ => iff_of_false (by simp) fun ⟨name,v,meets,_⟩ => unread name v meets,
    fun _ => iff_of_false (by simp) fun ⟨name,v,meets,_⟩ => unread name v meets⟩

theorem emptyDoes {hash : Hash} (unread : ∀ name v, ¬ Meets cfg.json blocks key hash name v) :
    (Node.find key ⟨[]⟩).2.Does (LeadsTo cfg.json blocks key hash) (Keeps cfg.json blocks key hash) := by
  rw [findEnd rfl]
  exact failedDoes .notFound unread

theorem readDoes {hash : Hash} {text : Value} {members : List (StdString × Json)} (block : blocks hash = .ok text)
    (parsed : cfg.json.parse text = some (.object members)) (like : ∀ m ∈ members, m.2.EntryLike) :
    (Node.find key ⟨insertMembers members []⟩).2.Does (LeadsTo cfg.json blocks key hash)
      (Keeps cfg.json blocks key hash) := by
  have bound := @readBound members key
  have does := @findDoes key ⟨insertMembers members []⟩
  have meets {name : StdString} {v : Json} (there : members.lookup name = some v)
      (above : (key : NodeId) ≤ memberId name)
      (least : ∀ m ∈ members, (key : NodeId) ≤ memberId m.1 → memberId name ≤ memberId m.1) :
      Meets cfg.json blocks key hash name v := ⟨text,members,block,parsed,like,there,above,least⟩
  have met {name : StdString} {v : Json} (meets : Meets cfg.json blocks key hash name v) :
      ∃ post, OrderedMap.lowerBound (key : NodeId) (insertMembers members []) =
        (memberId name,stubOf v) :: post := by
    obtain ⟨text',members',block',parsed',_,there,above,least⟩ := meets
    cases block.symm.trans block'
    cases parsed.symm.trans parsed'
    exact (bound _ _).mpr ⟨name,v,rfl,rfl,there,above,least⟩
  constructor
  · intro g
    rw [does.next]
    constructor
    · rintro ⟨m,way,i,v',post,out,other,proper⟩
      rcases way.cases_head with rfl | ⟨c,⟨j,w,g',behind,down,_⟩,_⟩
      · obtain ⟨name,v,rfl,stub,there,above,least⟩ := (bound _ _).mp ⟨post,out⟩
        cases stub
        exact ⟨name,v,meets there above least,other,rfl,proper⟩
      · obtain ⟨_,_,_,stub,_⟩ := (bound _ _).mp ⟨behind,down⟩
        cases stub
    · rintro ⟨name,v,meets,other,rfl,proper⟩
      obtain ⟨post,at_⟩ := met meets
      exact (leadsOutAt at_ _).mpr ⟨other,.inl ⟨rfl,rfl,proper⟩⟩
  · intro value
    rw [does.ends]
    constructor
    · rintro ⟨m,way,e,post,own,rfl⟩
      rcases way.cases_head with rfl | ⟨c,⟨j,w,g',behind,down,_⟩,_⟩
      · obtain ⟨name,v,same,rfl,there,above,least⟩ := (bound _ _).mp ⟨post,own⟩
        exact ⟨name,v,meets there above least,same.symm,rfl⟩
      · obtain ⟨_,_,_,stub,_⟩ := (bound _ _).mp ⟨behind,down⟩
        cases stub
    · rintro ⟨name,v,meets,same,rfl⟩
      obtain ⟨post,at_⟩ := met meets
      exact (keepsKeyAt at_ _).mpr (.inl ⟨same,rfl⟩)

theorem fetchedDoes (hash : Hash) : (fetched cfg key (blocks hash)).2.Does (LeadsTo cfg.json blocks key hash)
    (Keeps cfg.json blocks key hash) := by
  have object {name : StdString} {v : Json} (meets : Meets cfg.json blocks key hash name v) :
      ∃ text members, blocks hash = .ok text ∧ cfg.json.parse text = some (.object members) ∧
        ∀ m ∈ members, m.2.EntryLike := by
    obtain ⟨text,members,block,parsed,like,_⟩ := meets
    exact ⟨text,members,block,parsed,like⟩
  rw [fetched,resume]
  cases block : blocks hash with
  | error ec =>
    refine failedDoes ec fun name v meets => ?_
    obtain ⟨_,_,block',_⟩ := object meets
    cases block.symm.trans block'
  | ok text =>
    have other (j : Option Json) (parsed : cfg.json.parse text = j) (no : ∀ members, j ≠ some (.object members))
        (name : StdString) (v : Json) : ¬ Meets cfg.json blocks key hash name v := fun meets => by
      obtain ⟨_,members,block',parsed',_⟩ := object meets
      cases block.symm.trans block'
      exact no members (parsed.symm.trans parsed')
    rw [restore]
    cases parsed : cfg.json.parse text with
    | none => exact failedDoes _ (other _ parsed (by simp))
    | some j =>
      cases j with
      | object members =>
        by_cases like : ∀ m ∈ members, m.2.EntryLike
        · simp only [restoreLoopLike members [] like]
          exact readDoes block parsed like
        · have throws := restoreLoopThrows members [] like
          cases out : restoreLoop members [] with
          | mk es whole =>
            rw [out] at throws
            cases throws
            simp only [out]
            refine failedDoes _ fun name v meets => like ?_
            obtain ⟨_,_,block',parsed',like'⟩ := object meets
            cases block.symm.trans block'
            cases parsed.symm.trans parsed'
            exact like'
      | null => exact emptyDoes (other _ parsed (by simp))
      | array items =>
        cases items with
        | nil => exact emptyDoes (other _ parsed (by simp))
        | cons _ _ => exact failedDoes _ (other _ parsed (by simp))
      | _ => exact failedDoes _ (other _ parsed (by simp))

def available (blocks : Hash → Except ErrorCode Value) (hash : Hash) : Option Value := (blocks hash).toOption

theorem leadsRefers {hash child : Hash} (leads : LeadsTo cfg.json blocks key hash child) :
    Refers cfg (available blocks) child hash := by
  obtain ⟨name,v,⟨text,members,block,parsed,like,there,_⟩,_,rfl,proper⟩ := leads
  obtain ⟨front,back,rfl,_⟩ := List.lookup_eq_some_iff.mp there
  have own := like (name,v) (by simp)
  exact ⟨name,v,⟨text,_,by rw [available,block]; rfl,parsed,by simp⟩,(entryLikeReads own).1,proper⟩

theorem onWayLast {first : Hash} (last : ∀ child, ¬ LeadsTo cfg.json blocks key first child) (hash : Hash) :
    OnWay cfg.json blocks key first hash ↔ hash = first := by
  rw [OnWay,Relation.ReflTransGen.cases_head_iff]
  simp [last,eq_comm]

theorem onWayNext {first next : Hash} (leads : LeadsTo cfg.json blocks key first next)
    (alone : ∀ child, LeadsTo cfg.json blocks key first child → child = next) (hash : Hash) :
    OnWay cfg.json blocks key first hash ↔ hash = first ∨ OnWay cfg.json blocks key next hash := by
  rw [OnWay,Relation.ReflTransGen.cases_head_iff]
  constructor
  · rintro (same | ⟨child,leads',rest⟩)
    · exact .inl same.symm
    · cases alone child leads'
      exact .inr rest
  · rintro (rfl | rest)
    · exact .inl rfl
    · exact .inr ⟨next,leads,rest⟩

theorem seekWay (acyclic : WellFounded (Refers cfg (available blocks))) (first : Hash) :
    ∀ (path : List NodeId) (asked : List Hash), ∃ fuel result asked',
      seek cfg (logging blocks) key fuel (.cat path first) asked = some (result,asked') ∧
      (∀ hash, hash ∈ asked' ↔ hash ∈ asked ∨ OnWay cfg.json blocks key first hash) ∧
      ∀ value, result = .ok value ↔ ∃ hash, OnWay cfg.json blocks key first hash ∧
        Keeps cfg.json blocks key hash value := by
  induction first using acyclic.induction with
  | _ first ih =>
    intro path asked
    have does := @fetchedDoes cfg blocks key first
    cases out : (fetched cfg key (blocks first)).2 with
    | done result =>
      rw [out] at does
      have only := onWayLast fun child (leads : LeadsTo cfg.json blocks key first child) => by
        obtain ⟨path,no⟩ := (does.next child).mpr leads
        cases no
      refine ⟨1,result,asked ++ [first],?_,fun hash => by rw [only]; simp,fun value => ?_⟩
      · rw [seek,show (fetched cfg key ((logging blocks).cat asked first).1).2 = _ from out]
        rfl
      · have ends := does.ends value
        simp only [FindStep.done.injEq] at ends
        rw [ends]
        simp [only]
    | cat path' next =>
      rw [out] at does
      have leads : LeadsTo cfg.json blocks key first next := (does.next next).mp ⟨path',rfl⟩
      have on := onWayNext leads fun child leads' => by
        obtain ⟨path₂,same⟩ := (does.next child).mpr leads'
        cases same
        rfl
      obtain ⟨fuel,result,asked',run,all,value⟩ := ih next (leadsRefers leads) path' (asked ++ [first])
      refine ⟨fuel + 1,result,asked',?_,fun hash => by rw [all,on]; simp [or_assoc],fun v => (value v).trans ?_⟩
      · rw [seek,show (fetched cfg key ((logging blocks).cat asked first).1).2 = _ from out]
        exact run
      · constructor
        · rintro ⟨hash,way,keeps⟩
          exact ⟨hash,(on hash).mpr (.inr way),keeps⟩
        · rintro ⟨hash,way,keeps⟩
          rcases (on hash).mp way with rfl | rest
          · have no := (does.ends v).mpr keeps
            cases no
          · exact ⟨hash,rest,keeps⟩

theorem seekDone (fuel : Nat) (result : Except ErrorCode Value) (asked : List Hash) :
    seek cfg (logging blocks) key fuel (.done result) asked = some (result,asked) := by cases fuel <;> rfl

end steps

section lookups
variable {Ptime : Type} {cfg : Config} {blocks : Hash → Except ErrorCode Value} {key : Key} {dt : DateTime Ptime}
  {db : BTree}

theorem querySeek (fuel : Nat) : (query cfg (logging blocks) fuel key db []).map (fun out => (out.1,out.2.2)) =
    seek cfg (logging blocks) key fuel (db.find key).2 [] := by
  rw [query,BTree.findAlone]
  have ended (bt : BTree) (result : Except ErrorCode Value) :
      (BTree.finish cfg (logging blocks) key fuel (bt,.done result) []).map (fun out => (out.1,out.2.2)) =
      seek cfg (logging blocks) key fuel (.done result) [] := by cases fuel <;> rfl
  unfold BTree.find
  split
  · exact ended _ _
  · split
    · exact ended _ _
    · rename_i r _
      obtain ⟨x,hash⟩ := r
      cases x with
      | none =>
        dsimp only [BTree.lazyFind]
        split
        · exact ended _ _
        · exact finishSeek fuel rfl fun path g same => by cases same; exact .here
      | some n =>
        cases out : n.find key with
        | mk n' step =>
          simp only [BTree.lazyFind,out,Prod.map,id]
          refine finishSeek fuel rfl fun path g same => ?_
          subst same
          exact findWay key n out

theorem treeDoes : (db.find key).2.Does (db.LeadsOut key) (db.KeepsKey key) := by
  unfold BTree.find BTree.LeadsOut BTree.KeepsKey
  cases OrderedMap.find key db.insertBuffer with
  | some value => exact ⟨fun hash => by simp,fun v => by simp⟩
  | none =>
    cases db.root with
    | none => exact ⟨fun hash => by simp,fun v => by simp⟩
    | some r =>
      obtain ⟨x,own⟩ := r
      cases x with
      | some n =>
        have does := @findDoes key n
        exact ⟨fun hash => (does.next hash).trans (by simp),fun v => (does.ends v).trans (by simp)⟩
      | none =>
        simp only [BTree.lazyFind]
        cases empty : own.isEmpty with
        | true =>
          refine ⟨fun hash => iff_of_false (by simp) ?_,fun v => by simp⟩
          rintro ⟨_,⟨⟨⟩,proper⟩ | ⟨_,_,⟨⟩,_⟩⟩
          rw [empty] at proper
          cases proper
        | false =>
          refine ⟨fun hash => ?_,fun v => by simp⟩
          constructor
          · rintro ⟨_,⟨⟩⟩
            exact ⟨trivial,.inl ⟨rfl,empty⟩⟩
          · rintro ⟨_,⟨⟨⟩,_⟩ | ⟨_,_,⟨⟩,_⟩⟩
            exact ⟨_,rfl⟩

theorem queryWay (acyclic : WellFounded (Refers cfg (available blocks))) : ∃ fuel result db' asked,
    query cfg (logging blocks) fuel key db [] = some (result,db',asked) ∧
      (∀ hash, hash ∈ asked ↔ db.Asked cfg.json blocks key hash) ∧
      ∀ value, result = .ok value ↔ db.Answers cfg.json blocks key value := by
  have does := @treeDoes key db
  have run {fuel : Nat} {result : Except ErrorCode Value} {asked : List Hash}
      (run : seek cfg (logging blocks) key fuel (db.find key).2 [] = some (result,asked)) :
      ∃ db', query cfg (logging blocks) fuel key db [] = some (result,db',asked) := by
    rw [← querySeek] at run
    obtain ⟨⟨_,db',_⟩,found,same⟩ := Option.map_eq_some_iff.mp run
    cases same
    exact ⟨db',found⟩
  cases out : (db.find key).2 with
  | done result =>
    rw [out] at does run
    have nowhere (hash : Hash) : ¬ db.LeadsOut key hash := fun leads => by
      obtain ⟨_,no⟩ := (does.next hash).mpr leads
      cases no
    obtain ⟨db',found⟩ := run (seekDone 0 result [])
    refine ⟨0,result,db',[],found,fun hash => ?_,fun value => ?_⟩
    · simp [BTree.Asked,nowhere]
    · have ends := does.ends value
      simp only [FindStep.done.injEq] at ends
      rw [ends]
      simp [BTree.Answers,BTree.Asked,nowhere]
  | cat path first =>
    rw [out] at does run
    have only (hash : Hash) : db.LeadsOut key hash ↔ hash = first := by
      rw [← does.next]
      exact ⟨fun ⟨_,same⟩ => by cases same; rfl,fun same => ⟨path,by rw [same]⟩⟩
    have kept (value : Value) : ¬ db.KeepsKey key value := fun keeps => by
      have no := (does.ends value).mpr keeps
      cases no
    obtain ⟨fuel,result,asked,found,all,value⟩ := @seekWay cfg blocks key acyclic first path []
    obtain ⟨db',found⟩ := run found
    refine ⟨fuel,result,db',asked,found,fun hash => ?_,fun v => ?_⟩
    · rw [all]
      simp [BTree.Asked,only]
    · rw [value]
      simp [BTree.Answers,BTree.Asked,only,kept]

theorem indexString {field s : StdString} {j : Json} :
    j.index field = some (.string s) ↔
      ∃ fields, j = .object fields ∧ OrderedMap.find field fields = some (.string s) := by
  cases j with
  | object fields =>
    cases at_ : OrderedMap.find field fields <;> simp [Json.index,at_]
  | _ => simp [Json.index]

theorem recordRead {lib : JsonLib} {rawJson : Value} : SizedRecord lib dt rawJson ↔
    ∀ ts contentHash, readEntry lib dt rawJson = some (ts,contentHash) → CidSized contentHash := by
  constructor
  · intro sized ts contentHash read
    unfold readEntry at read
    split at read
    · cases read
    · rename_i json parsed
      split at read
      · rename_i text at_
        split at read
        · rename_i time value
          cases read
          obtain ⟨fields,rfl,stamp⟩ := indexString.mp at_
          obtain ⟨_,same,id⟩ := indexString.mp value
          cases same
          exact sized fields text contentHash parsed stamp (by rw [time]; rfl) id
        · cases read
      · cases read
  · intro sized fields ts id parsed at_ time value
    obtain ⟨t,time⟩ := Option.isSome_iff_exists.mp time
    exact sized t id (by simp [readEntry,parsed,Json.index,at_,time,value])

/-- A lookup ends with a result or an error. It asks Backend::cat for ids of the asserted
length only, exactly when every child string on the way of the key has that length, and
for get_content the id in the record at its end too. -/
theorem idsSized (acyclic : WellFounded (Refers cfg (available blocks))) :
    (∃ fuel result db' asked, query cfg (logging blocks) fuel key db [] = some (result,db',asked) ∧
      ((∀ hash ∈ asked, CidSized hash) ↔ ∀ hash, db.Asked cfg.json blocks key hash → CidSized hash)) ∧
    ∃ fuel result db' asked, getContent cfg (logging blocks) dt fuel key db [] = some (result,db',asked) ∧
      ((∀ hash ∈ asked, CidSized hash) ↔ (∀ hash, db.Asked cfg.json blocks key hash → CidSized hash) ∧
        ∀ value, db.Answers cfg.json blocks key value → SizedRecord cfg.json dt value) := by
  obtain ⟨fuel,result,db',asked,run,all,value⟩ := @queryWay cfg blocks key db acyclic
  have way : (∀ hash ∈ asked, CidSized hash) ↔ ∀ hash, db.Asked cfg.json blocks key hash → CidSized hash :=
    forall_congr' fun hash => by rw [all]
  refine ⟨⟨fuel,result,db',asked,run,way⟩,?_⟩
  cases result with
  | error ec =>
    have unanswered (v : Value) : ¬ db.Answers cfg.json blocks key v := fun answers => by
      have no := (value v).mpr answers
      cases no
    exact ⟨fuel,.error ec,db',asked,by rw [getContent,run],way.trans (by simp [unanswered])⟩
  | ok rawJson =>
    have answer (v : Value) : db.Answers cfg.json blocks key v ↔ v = rawJson := by
      rw [← value,Except.ok.injEq]
      exact eq_comm
    cases entry : readEntry cfg.json dt rawJson with
    | none =>
      refine ⟨fuel,.error .notFound,db',asked,by rw [getContent,run]; simp only [entry],way.trans ?_⟩
      have sized : SizedRecord cfg.json dt rawJson := recordRead.mpr fun ts contentHash no => by
        rw [entry] at no
        cases no
      simp [answer,sized]
    | some content =>
      obtain ⟨ts,contentHash⟩ := content
      refine ⟨fuel,(blocks contentHash).map (⟨ts,·⟩),db',asked ++ [contentHash],
        by rw [getContent,run]; simp only [entry]; rfl,?_⟩
      have sized : SizedRecord cfg.json dt rawJson ↔ CidSized contentHash := by
        rw [recordRead]
        constructor
        · exact fun each => each ts contentHash entry
        · rintro long ts' contentHash' entry'
          cases entry.symm.trans entry'
          exact long
      rw [List.forall_mem_append,List.forall_mem_singleton,way]
      simp [answer,sized]

end lookups

theorem getContentSame {Ptime σ : Type} {cfg : Config} {S : Storage σ} {dt : DateTime Ptime} {key : Key} {db : BTree}
    {st : σ} {fuel fuel' : Nat} {out out' : Except ErrorCode (CachedContent Ptime) × BTree × σ}
    (run : getContent cfg S dt fuel key db st = some out) (run' : getContent cfg S dt fuel' key db st = some out') :
    out = out' := by
  have ends {n : Nat} {x : Except ErrorCode (CachedContent Ptime) × BTree × σ}
      (run : getContent cfg S dt n key db st = some x) : ∃ found, query cfg S n key db st = some found := by
    rw [getContent] at run
    split at run
    · cases run
    · exact ⟨_,by assumption⟩
    · exact ⟨_,by assumption⟩
  obtain ⟨found,query_⟩ := ends run
  obtain ⟨found',query'⟩ := ends run'
  have same : query cfg S fuel key db st = query cfg S fuel' key db st := by
    rcases Nat.le_total fuel fuel' with more | more
    · rw [query_,query]
      exact (findMore more query_).symm
    · rw [query',query]
      exact findMore more query'
  rw [getContent,same,← getContent,run'] at run
  exact (Option.some.inj run).symm

def childBlock (child : Hash) : Value := nlohmann.dump (.object [(⟨[]⟩,.object [(childField,.string child)])])

def recordBlock (content : Hash) : Value :=
  nlohmann.dump (.object [(letter 107,.object [(valueField,.string
    (writeEntry nlohmannAll boost content newYearStamp))])])

def served (blocks : List (Hash × Value)) (hash : Hash) : Except ErrorCode Value :=
  (blocks.lookup hash).elim (.error .notFound) .ok

def loadedRoot : BTree := ⟨some ⟨none,Downloads.someCid⟩,[],false⟩

def asksIn (blocks : List (Hash × Value)) (fuel : Nat) :
    Option (Except ErrorCode (CachedContent ClockTime) × BTree × List Hash) :=
  getContent (clientConfig nlohmannAll) (logging (served blocks)) boost fuel (letter 107) loadedRoot []

theorem shortIdAsked : CidSized Downloads.someCid ∧ ∀ block ∈ [childBlock (letter 120),recordBlock (letter 120)],
    ¬ ∃ fuel result db' asked, asksIn [(Downloads.someCid,block)] fuel = some (result,db',asked) ∧
      ∀ h ∈ asked, CidSized h := by
  have short : ∀ block ∈ [childBlock (letter 120),recordBlock (letter 120)],
      (asksIn [(Downloads.someCid,block)] 2).any (fun out => decide (letter 120 ∈ out.2.2)) = true := by
    decide +kernel
  refine ⟨by unfold CidSized; decide +kernel,fun block mem claim => ?_⟩
  obtain ⟨fuel,result,db',asked,run,all⟩ := claim
  obtain ⟨out,run',asks⟩ := Option.any_eq_true _ _ |>.mp (short block mem)
  cases getContentSame run run'
  have long : (letter 120).bytes.length = cidSize := all _ (of_decide_eq_true asks)
  exact absurd long (by decide +kernel)

def cidOf (c : Fin 256) : Hash := ⟨81 :: 109 :: List.replicate 44 c⟩

def twoBlocks : List (Hash × Value) :=
  [(Downloads.someCid,childBlock (cidOf 98)),(cidOf 98,recordBlock (cidOf 99))]

def childrenIn (lib : JsonLib) (text : Value) : List Hash :=
  match lib.parse text with
  | some (.object members) => members.filterMap fun m => restoreChild m.2
  | _ => []

theorem refersChild {cfg : Config} {content : Hash → Option Value} {child hash : Hash}
    (refers : Refers cfg content child hash) :
    ∃ text, content hash = some text ∧ child ∈ childrenIn cfg.json text ∧ child.isEmpty = false := by
  obtain ⟨k,v,⟨text,members,block,parsed,mem⟩,child_,proper⟩ := refers
  exact ⟨text,block,by rw [childrenIn,parsed]; exact List.mem_filterMap.mpr ⟨_,mem,child_⟩,proper⟩

theorem twoBlocksAcyclic : WellFounded (Refers (clientConfig nlohmannAll) (available (served twoBlocks))) := by
  have down {child hash : Hash}
      (refers : Refers (clientConfig nlohmannAll) (available (served twoBlocks)) child hash) :
      hash = Downloads.someCid ∧ child = cidOf 98 := by
    obtain ⟨text,block,mem,proper⟩ := refersChild refers
    have each : ∀ p ∈ twoBlocks, ∀ c ∈ childrenIn nlohmannAll p.2, c.isEmpty = true ∨
        p.1 = Downloads.someCid ∧ c = cidOf 98 := by decide +kernel
    cases found : twoBlocks.lookup hash with
    | none => simp [available,served,found,Except.toOption] at block
    | some text' =>
      simp only [available,served,found,Option.elim,Except.toOption,Option.some.injEq] at block
      subst block
      obtain ⟨front,back,whole,_⟩ := List.lookup_eq_some_iff.mp found
      rcases each (hash,text') (whole ▸ by simp) child mem with empty | same
      · rw [empty] at proper
        cases proper
      · exact same
  refine Subrelation.wf (fun {child hash} refers => ?_)
    (measure fun hash : Hash => if hash = Downloads.someCid then 1 else 0).wf
  obtain ⟨rfl,rfl⟩ := down refers
  change (if cidOf 98 = Downloads.someCid then 1 else 0) < (if Downloads.someCid = Downloads.someCid then 1 else 0)
  decide +kernel

theorem idsSizedTwoBlocks :
    (∀ hash, loadedRoot.Asked nlohmannAll (served twoBlocks) (letter 107) hash → CidSized hash) ∧
    ∀ value, loadedRoot.Answers nlohmannAll (served twoBlocks) (letter 107) value →
      SizedRecord nlohmannAll boost value := by
  obtain ⟨_,fuel,result,db',asked,run,way⟩ :=
    @idsSized _ _ _ (letter 107) boost loadedRoot twoBlocksAcyclic
  have good : (asksIn twoBlocks 3).any (fun out => decide (out.2.2.length = 3) &&
      out.2.2.all fun h => decide (h.bytes.length = cidSize)) = true := by decide +kernel
  obtain ⟨out,run',all⟩ := Option.any_eq_true _ _ |>.mp good
  cases getContentSame run run'
  simp only [Bool.and_eq_true,List.all_eq_true,decide_eq_true_eq] at all
  exact way.mp all.2

end IpfsCache
