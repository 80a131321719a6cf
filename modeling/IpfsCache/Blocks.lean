import IpfsCache.RawInsert
import Mathlib.Data.List.Induction

/-! The blocks Node::store adds and Node::restore reads. A node's document has a member
for every real key, and one under the empty key for an INF entry that has a stored child;
restoring it gives the entries back without their children. -/
namespace IpfsCache
open OrderedMap (Sorted)
open Node Entries

def objectOf (members : List (StdString × Json)) : Json :=
  match members with
  | [] => .null
  | _ :: _ => .object members

theorem findObjectOf (k : StdString) (members : List (StdString × Json)) :
    (objectOf members).find k = OrderedMap.find k members := by
  cases members <;> rfl

theorem setObjectOf (k : StdString) (x : Json) (members : List (StdString × Json)) :
    (objectOf members).set k x = .object (OrderedMap.assign k x members) := by
  cases members <;> rfl

theorem objectOfSome {members : List (StdString × Json)} (some_ : members ≠ []) :
    objectOf members = .object members := by
  cases members with
  | nil => exact absurd rfl some_
  | cons => rfl

section fields
variable {k f s : StdString} {a b : List (StdString × Json)}

theorem setFieldNew (less : ∀ m ∈ a, m.1 < k) (greater : ∀ m ∈ b.head?, k < m.1) :
    (objectOf (a ++ b)).setField k f s = objectOf (a ++ (k,.object [(f,.string s)]) :: b) := by
  rw [Json.setField,findObjectOf,OrderedMap.findMiss less greater,setObjectOf,OrderedMap.assignMiss less greater,
    objectOfSome (by simp)]
  rfl

theorem setFieldOld (old : List (StdString × Json)) (less : ∀ m ∈ a, m.1 < k) :
    (objectOf (a ++ (k,.object old) :: b)).setField k f s =
      objectOf (a ++ (k,.object (OrderedMap.assign f (.string s) old)) :: b) := by
  rw [Json.setField,findObjectOf,OrderedMap.findHit less,setObjectOf,OrderedMap.assignHit less,
    objectOfSome (by simp)]
  rfl

end fields

def ProperKey (k : Key) : Prop := k.isEmpty = false ∧ k.NulFree
instance (k) : Decidable (ProperKey k) := by unfold ProperKey; infer_instance

def entryFields (p : NodeId × Entry Node) : List (StdString × Json) :=
  (if p.2.childHash.isEmpty then [] else [(childField,.string p.2.childHash)]) ++
    if p.1 = ⊤ then [] else [(valueField,.string p.2.value)]

def member (p : NodeId × Entry Node) : StdString × Json := (jsonKey p.1,.object (entryFields p))

def kept (es : Entries) : Entries := es.filter fun p => decide (p.1 ≠ ⊤) || !p.2.childHash.isEmpty

def filed (es : Entries) : List (StdString × Json) :=
  ((kept es).filter fun p => decide (p.1 = ⊤)).map member ++ ((kept es).filter fun p => decide (p.1 ≠ ⊤)).map member

structure Keyed (es : Entries) : Prop where
  sorted : Sorted es
  proper : ∀ p ∈ es, ∀ k : Key, p.1 = k → ProperKey k

theorem realsThenInf {es : Entries} (sorted : Sorted es) :
    ∃ pre inf, es = pre ++ inf ∧ (∀ p ∈ pre, p.1 ≠ ⊤) ∧ (inf = [] ∨ ∃ e, inf = [(⊤,e)]) := by
  rcases es.eq_nil_or_concat' with rfl | ⟨pre,⟨i,e⟩,rfl⟩
  · exact ⟨[],[],rfl,by simp,.inl rfl⟩
  · have real := realBefore sorted
    by_cases top : i = ⊤
    · exact ⟨pre,[(i,e)],rfl,real,.inr ⟨e,by rw [top]⟩⟩
    · refine ⟨pre ++ [(i,e)],[],by simp,fun p mem => ?_,.inl rfl⟩
      rcases List.mem_append.mp mem with h | h
      · exact real p h
      · rw [List.mem_singleton.mp h]
        exact top

theorem keptReal {pre : Entries} (real : ∀ p ∈ pre, p.1 ≠ ⊤) : kept pre = pre :=
  List.filter_eq_self.mpr fun p mem => by simp [real p mem]

theorem filedReal {pre : Entries} (real : ∀ p ∈ pre, p.1 ≠ ⊤) : filed pre = pre.map member := by
  have none_ : pre.filter (fun p => decide (p.1 = ⊤)) = [] :=
    List.filter_eq_nil_iff.mpr fun p mem => by simpa using real p mem
  have all : pre.filter (fun p => decide (p.1 ≠ ⊤)) = pre :=
    List.filter_eq_self.mpr fun p mem => by simpa using real p mem
  rw [filed,keptReal real,none_,all]
  rfl

theorem filedInf {pre : Entries} (real : ∀ p ∈ pre, p.1 ≠ ⊤) (e : Entry Node) :
    filed (pre ++ [(⊤,e)]) = (if e.childHash.isEmpty then [] else [member (⊤,e)]) ++ pre.map member := by
  have parts : kept (pre ++ [(⊤,e)]) = pre ++ if e.childHash.isEmpty then [] else [(⊤,e)] := by
    rw [kept,List.filter_append,← kept,keptReal real]
    cases h : e.childHash.isEmpty <;> simp [h]
  have none_ : pre.filter (fun p => decide (p.1 = ⊤)) = [] :=
    List.filter_eq_nil_iff.mpr fun p mem => by simpa using real p mem
  have all : pre.filter (fun p => decide (p.1 ≠ ⊤)) = pre :=
    List.filter_eq_self.mpr fun p mem => by simpa using real p mem
  rw [filed,parts,List.filter_append,List.filter_append,none_,all]
  cases e.childHash.isEmpty <;> simp

theorem jsonKeyReal {k : Key} (proper : ProperKey k) : jsonKey (k : NodeId) = k := StdString.cStrSelf proper.2

theorem memberKey {p : NodeId × Entry Node} {k : Key} (proper : ProperKey k) (same : p.1 = k) :
    (member p).1 = k := by
  rw [member,same,jsonKeyReal proper]

theorem realKey {i : NodeId} (real : i ≠ ⊤) : ∃ k : Key, i = k := by
  cases i using WithTop.recTopCoe with
  | top => exact absurd rfl real
  | coe k => exact ⟨k,rfl⟩

theorem fileReal {p : NodeId × Entry Node} {ms : List (StdString × Json)} {k : Key} (proper : ProperKey k)
    (same : p.1 = k) (less : ∀ m ∈ ms, m.1 < k) : fileEntry (objectOf ms) p = objectOf (ms ++ [member p]) := by
  obtain ⟨i,v,c,hash⟩ := p
  cases same
  have value := setFieldNew (f := valueField) (s := v) (b := []) less (by simp)
  have child := setFieldOld (f := childField) (s := hash) (b := []) [(valueField,.string v)] less
  have fields : OrderedMap.assign childField (.string hash) [(valueField,Json.string v)] =
      [(childField,.string hash),(valueField,.string v)] := by
    rw [← List.nil_append [(valueField,Json.string v)],OrderedMap.assignMiss (by simp) (by simpa using by decide)]
    rfl
  have key : jsonKey (some k) = k := jsonKeyReal proper
  rw [List.append_nil] at value
  rw [fields] at child
  by_cases empty : hash.isEmpty = true
  · simp [fileEntry,storeValue,member,entryFields,key,empty,value]
  · simp [fileEntry,storeValue,member,entryFields,key,empty,value,child]

theorem keyedReal {pre : Entries} (keyed : Keyed pre) (real : ∀ p ∈ pre, p.1 ≠ ⊤) :
    Sorted (pre.map member) ∧ ∀ m ∈ pre.map member, (⟨[]⟩ : StdString) < m.1 := by
  have key {p : NodeId × Entry Node} (mem : p ∈ pre) : ∃ k : Key, p.1 = k ∧ ProperKey k ∧ (member p).1 = k := by
    obtain ⟨k,same⟩ := realKey (real p mem)
    have proper := keyed.proper p mem k same
    exact ⟨k,same,proper,memberKey proper same⟩
  refine ⟨List.pairwise_map.mpr (keyed.sorted.imp_of_mem fun {p q} mem mem' less => ?_),fun m mem => ?_⟩
  · obtain ⟨k,same,_,key₁⟩ := key mem
    obtain ⟨k',same',_,key₂⟩ := key mem'
    rw [same,same'] at less
    rw [key₁,key₂]
    exact WithTop.coe_lt_coe.mp less
  · obtain ⟨p,inside,rfl⟩ := List.mem_map.mp mem
    obtain ⟨k,_,proper,key₁⟩ := key inside
    rw [key₁]
    exact StdString.emptyLess proper.1

theorem Keyed.sub {es es' : Entries} (h : Keyed es) (sub : List.Sublist es' es) : Keyed es' :=
  ⟨List.Pairwise.sublist sub h.sorted,fun p mem => h.proper p (sub.subset mem)⟩

theorem nodeJsonReal {pre : Entries} (keyed : Keyed pre) (real : ∀ p ∈ pre, p.1 ≠ ⊤) :
    nodeJson pre = objectOf (pre.map member) := by
  induction pre using List.reverseRecOn with
  | nil => rfl
  | append_singleton pre p ih =>
    have before := keyed.sub (List.sublist_append_left pre [p])
    have real' : ∀ q ∈ pre, q.1 ≠ ⊤ := fun q mem => real q (List.mem_append_left _ mem)
    obtain ⟨k,same⟩ := realKey (real p (by simp))
    have proper := keyed.proper p (by simp) k same
    have order := (keyedReal keyed real).1
    rw [List.map_append] at order
    have less : ∀ m ∈ pre.map member, m.1 < k := fun m mem => by
      rw [← memberKey proper same]
      exact (OrderedMap.sortedAppend.mp order).2.2 m mem (member p) (by simp)
    rw [nodeJsonSnoc,ih before real',fileReal proper same less,List.map_append]
    rfl

theorem nodeJsonFiled {es : Entries} (keyed : Keyed es) : nodeJson es = objectOf (filed es) := by
  obtain ⟨pre,inf,rfl,real,rfl | ⟨e,rfl⟩⟩ := realsThenInf keyed.sorted
  · rw [List.append_nil] at keyed ⊢
    rw [filedReal real,nodeJsonReal keyed real]
  · have before := keyed.sub (List.sublist_append_left pre _)
    have new := setFieldNew (k := ⟨[]⟩) (f := childField) (s := e.childHash) (a := []) (b := pre.map member)
        (by simp)
      (OrderedMap.headOfAll (keyedReal before real).2)
    rw [filedInf real,nodeJsonSnoc,nodeJsonReal before real]
    by_cases empty : e.childHash.isEmpty = true
    · simp [fileEntry,storeValue,empty]
    · simpa [fileEntry,storeValue,empty,member,entryFields,jsonKey] using new

structure Usable (Ok : StdString → Prop) : Prop where
  empty : Ok ⟨[]⟩
  child : Ok childField
  value : Ok valueField

theorem utf8Usable : Usable StdString.ValidUtf8 :=
  ⟨⟨[],rfl⟩,⟨['c','h','i','l','d'],by decide⟩,⟨['v','a','l','u','e'],by decide⟩⟩

structure Printable (Ok : StdString → Prop) (es : Entries) : Prop where
  keyed : Keyed es
  keys : ∀ p ∈ es, ∀ k : Key, p.1 = k → Ok k
  values : ∀ p ∈ es, p.1 ≠ ⊤ → Ok p.2.value
  hashes : ∀ p ∈ es, Ok p.2.childHash
  traced : kept es ≠ []

section document
variable {Ok : StdString → Prop} {es : Entries}

theorem memFiled {m : StdString × Json} : m ∈ filed es ↔ ∃ p ∈ kept es, member p = m := by
  simp only [filed,List.mem_append,List.mem_map,List.mem_filter,decide_eq_true_eq]
  constructor
  · rintro (⟨p,⟨mem,_⟩,same⟩ | ⟨p,⟨mem,_⟩,same⟩) <;> exact ⟨p,mem,same⟩
  · rintro ⟨p,mem,same⟩
    by_cases top : p.1 = ⊤
    · exact .inl ⟨p,⟨mem,top⟩,same⟩
    · exact .inr ⟨p,⟨mem,top⟩,same⟩

theorem keptMem {p : NodeId × Entry Node} (mem : p ∈ kept es) : p ∈ es := List.mem_of_mem_filter mem

theorem filedSorted (keyed : Keyed es) : Sorted (filed es) := by
  obtain ⟨pre,inf,rfl,real,rfl | ⟨e,rfl⟩⟩ := realsThenInf keyed.sorted
  · rw [List.append_nil] at keyed ⊢
    rw [filedReal real]
    exact (keyedReal keyed real).1
  · have before := keyedReal (keyed.sub (List.sublist_append_left pre _)) real
    rw [filedInf real]
    split
    · exact before.1
    · exact OrderedMap.sortedCons.mpr ⟨before.2,before.1⟩

theorem filedSome (h : Printable Ok es) : filed es ≠ [] := by
  obtain ⟨p,mem⟩ := List.exists_mem_of_ne_nil _ h.traced
  exact List.ne_nil_of_mem (memFiled.mpr ⟨p,mem,rfl⟩)

open Json in
theorem memberDocument (usable : Usable Ok) (h : Printable Ok es) {p : NodeId × Entry Node} (mem : p ∈ es) :
    Ok (member p).1 ∧ ObjectOver Ok (StringOver Ok) (member p).2 := by
  obtain ⟨i,e⟩ := p
  have key : Ok (jsonKey i) := by
    cases i using WithTop.recTopCoe with
    | top => exact usable.empty
    | coe k =>
      rw [jsonKeyReal (h.keyed.proper _ mem k rfl)]
      exact h.keys _ mem k rfl
  have child : Ok childField ∧ StringOver Ok (.string e.childHash) := ⟨usable.child,_,rfl,h.hashes _ mem⟩
  have value (real : i ≠ ⊤) : Ok valueField ∧ StringOver Ok (.string e.value) :=
      ⟨usable.value,_,rfl,h.values _ mem real⟩
  have order : childField < valueField := by decide
  refine ⟨key,entryFields (i,e),rfl,?_,?_⟩
  · unfold entryFields
    split <;> split <;> simp [Sorted,order]
  · intro f inside
    unfold entryFields at inside
    rcases List.mem_append.mp inside with a | a <;> split at a
    · cases a
    · cases List.mem_singleton.mp a
      exact child
    · cases a
    · rename_i real
      cases List.mem_singleton.mp a
      exact value real

theorem nodeDocument (usable : Usable Ok) (h : Printable Ok es) :
    nodeJson es = .object (filed es) ∧ Json.NodeDocument Ok (nodeJson es) := by
  have same : nodeJson es = .object (filed es) := (nodeJsonFiled h.keyed).trans (objectOfSome (filedSome h))
  refine ⟨same,filed es,same,filedSorted h.keyed,fun m mem => ?_⟩
  obtain ⟨p,inside,rfl⟩ := memFiled.mp mem
  exact memberDocument usable h (keptMem inside)

theorem filedKeys (keyed : Keyed es) {k : Key} (proper : ProperKey k) :
    k ∈ OrderedMap.keys (filed es) ↔ (k : NodeId) ∈ OrderedMap.keys es := by
  constructor
  · intro mem
    obtain ⟨m,inside,rfl⟩ := List.mem_map.mp mem
    obtain ⟨p,here,rfl⟩ := memFiled.mp inside
    have there := List.mem_map_of_mem (f := Prod.fst) (keptMem here)
    obtain ⟨i,e⟩ := p
    cases i using WithTop.recTopCoe with
    | top =>
      have empty : ((member (⊤,e)).1).isEmpty = true := rfl
      rw [proper.1] at empty
      cases empty
    | coe k =>
      rw [memberKey (keyed.proper _ (keptMem here) k rfl) rfl]
      exact there
  · intro mem
    obtain ⟨p,inside,same⟩ := List.mem_map.mp mem
    refine List.mem_map.mpr ⟨member p,memFiled.mpr ⟨p,List.mem_filter.mpr ⟨inside,by simp [same]⟩,rfl⟩,?_⟩
    exact memberKey proper same

end document

def stub (p : NodeId × Entry Node) : NodeId × Entry Node :=
  (p.1,⟨if p.1 = ⊤ then ⟨[]⟩ else p.2.value,none,p.2.childHash⟩)

def stubs (es : Entries) : Entries := (kept es).map stub

theorem stubsAt {key : Key} {pre : Entries} {i : NodeId} (post : Entries) (e : Entry Node) (cut : CutAt key pre i)
    (traced : i ≠ ⊤ ∨ e.childHash.isEmpty = false) :
    OrderedMap.before (key : NodeId) (stubs (pre ++ (i,e) :: post)) = stubs pre ∧
      OrderedMap.lowerBound (key : NodeId) (stubs (pre ++ (i,e) :: post)) = stub (i,e) :: stubs post := by
  have parts : stubs (pre ++ (i,e) :: post) = stubs pre ++ stub (i,e) :: stubs post := by
    have keeps : (decide (i ≠ ⊤) || !e.childHash.isEmpty) = true := by simpa using traced
    simp only [stubs,kept,List.filter_append,List.filter_cons,keeps,if_true,List.map_append,List.map_cons]
  rw [parts]
  refine OrderedMap.cutAt (fun p mem => ?_) (by simpa [stub] using cut.ge)
  obtain ⟨q,inside,rfl⟩ := List.mem_map.mp mem
  exact cut.less q (keptMem inside)

theorem restoreStep {k : StdString} {v : Json} {rest : List (StdString × Json)} {es : Entries} {hash : Hash}
    {value : Value} (child : restoreChild v = some hash) (own : restoreValue v = some value) :
    restoreLoop ((k,v) :: rest) es =
      restoreLoop rest (OrderedMap.insert (if k.isEmpty then ⊤ else (k : NodeId)) ⟨value,none,hash⟩ es) := by
  rw [restoreLoop,child,own]

theorem childBeforeValue : childField < valueField := by decide

theorem childBack (p : NodeId × Entry Node) : restoreChild (member p).2 = some p.2.childHash := by
  obtain ⟨i,v,c,hash⟩ := p
  by_cases empty : hash.isEmpty = true
  · have missing : OrderedMap.find childField (if i = ⊤ then [] else [(valueField,Json.string v)]) = none := by
      split
      · rfl
      · exact OrderedMap.findMiss (a := []) (b := [(valueField,Json.string v)]) (by simp)
          (by simpa using childBeforeValue)
    obtain rfl := StdString.isEmptyIff.mp empty
    simp only [member,entryFields,restoreChild,Json.find,empty,if_true,List.nil_append,missing]
    rfl
  · have hit := OrderedMap.findHit (k := childField) (v := Json.string hash) (a := [])
      (b := if i = ⊤ then [] else [(valueField,.string v)]) (by simp)
    simp only [List.nil_append] at hit
    simp [member,entryFields,restoreChild,Json.find,empty,hit]

theorem valueBack (p : NodeId × Entry Node) : restoreValue (member p).2 =
    some (if p.1 = ⊤ then ⟨[]⟩ else p.2.value) := by
  obtain ⟨i,v,c,hash⟩ := p
  have less : ∀ f ∈ (if hash.isEmpty then [] else [(childField,Json.string hash)]), f.1 < valueField := by
    split
    · simp
    · simpa using childBeforeValue
  by_cases top : i = ⊤
  · have missing := OrderedMap.findMiss (b := []) less (by simp)
    rw [List.append_nil] at missing
    simp only [member,entryFields,restoreValue,Json.index,top,if_true,List.append_nil,missing]
    rfl
  · have hit := OrderedMap.findHit (v := Json.string v) (b := []) less
    simp only [member,entryFields,restoreValue,Json.index,top,if_false,hit]
    rfl

theorem keyBack {p : NodeId × Entry Node} (proper : ∀ k : Key, p.1 = k → ProperKey k) :
    (if (member p).1.isEmpty then ⊤ else ((member p).1 : NodeId)) = p.1 := by
  obtain ⟨i,e⟩ := p
  cases i using WithTop.recTopCoe with
  | top => rfl
  | coe k =>
    rw [memberKey (proper k rfl) rfl,(proper k rfl).1]
    rfl

theorem restoreMember {p : NodeId × Entry Node} {rest : List (StdString × Json)} {es : Entries}
    (proper : ∀ k : Key, p.1 = k → ProperKey k) :
    restoreLoop (member p :: rest) es = restoreLoop rest (OrderedMap.insert p.1 (stub p).2 es) := by
  have step : restoreLoop (((member p).1,(member p).2) :: rest) es = _ := restoreStep (childBack p) (valueBack p)
  rw [keyBack proper] at step
  exact step

theorem restoreReals {pre : Entries} (proper : ∀ p ∈ pre, ∀ k : Key, p.1 = k → ProperKey k) (done tail : Entries)
    (sorted : Sorted (done ++ pre ++ tail)) :
    restoreLoop (pre.map member) (done ++ tail) = (done ++ pre.map stub ++ tail,true) := by
  induction pre generalizing done with
  | nil => simp [restoreLoop]
  | cons p pre ih =>
    rw [List.append_assoc] at sorted
    have parts := OrderedMap.sortedAppend.mp sorted
    have less : ∀ q ∈ done, q.1 < p.1 := fun q mem => parts.2.2 q mem p (by simp)
    have greater : ∀ q ∈ tail, p.1 < q.1 := fun q mem => (OrderedMap.sortedCons.mp parts.2.1).1 q (by simp [mem])
    have next := ih (fun q mem => proper q (List.mem_cons_of_mem _ mem)) (done ++ [stub p]) (by
      rw [OrderedMap.sortedKeys] at sorted ⊢
      simpa [OrderedMap.keys,stub] using sorted)
    rw [List.map_cons,restoreMember (proper p (by simp)),OrderedMap.insertMiss less (OrderedMap.headOfAll greater)]
    simpa [stub] using next

theorem restoreFiled {es : Entries} (keyed : Keyed es) : restoreLoop (filed es) [] = (stubs es,true) := by
  obtain ⟨pre,inf,rfl,real,rfl | ⟨e,rfl⟩⟩ := realsThenInf keyed.sorted
  · rw [List.append_nil] at keyed ⊢
    have back := restoreReals keyed.proper [] [] (by simpa using keyed.sorted)
    rw [filedReal real,stubs,keptReal real]
    simpa using back
  · have proper := (keyed.sub (List.sublist_append_left pre _)).proper
    have whole : stubs (pre ++ [(⊤,e)]) = pre.map stub ++ if e.childHash.isEmpty then [] else [stub (⊤,e)] := by
      rw [stubs,kept,List.filter_append,← kept,keptReal real]
      cases h : e.childHash.isEmpty <;> simp [h]
    rw [filedInf real,whole]
    by_cases empty : e.childHash.isEmpty = true
    · have back := restoreReals proper [] [] (by simpa using (OrderedMap.sortedAppend.mp keyed.sorted).1)
      simpa [empty] using back
    · have first : restoreLoop (member (⊤,e) :: pre.map member) [] = _ :=
        restoreMember fun k same => absurd same WithTop.top_ne_coe
      have back := restoreReals proper [] [stub (⊤,e)] (by
        rw [OrderedMap.sortedKeys]
        simpa [OrderedMap.keys,stub,OrderedMap.sortedKeys] using keyed.sorted)
      rw [if_neg (by simpa using empty),if_neg (by simpa using empty),List.singleton_append,first]
      exact back

theorem restoreBlock {cfg : Config} (back : cfg.json.ParsesBack) (usable : Usable StdString.ValidUtf8)
    {es : Entries}
    (h : Printable StdString.ValidUtf8 es) (n : Node) :
    restore cfg (.ok (block cfg ⟨es⟩)) n = (⟨stubs es⟩,.ok ()) := by
  obtain ⟨same,document⟩ := nodeDocument usable h
  have parsed := back _ document
  rw [same] at parsed
  have text : block cfg ⟨es⟩ = cfg.json.dump (.object (filed es)) := congrArg cfg.json.dump same
  simp only [restore,text,parsed,restoreFiled h.keyed]

end IpfsCache
