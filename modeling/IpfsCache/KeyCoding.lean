import IpfsCache.AnyBlocks
import IpfsCache.RoundTrip

/-! What a node loses on its way through its block. The keys go through C strings, and the
empty one stands for INF: `ReadsBack` says that nothing is lost, for a node with any keys. -/
namespace IpfsCache
open OrderedMap (Sorted)
open Node

theorem utf8Zero {c : Char} (zero : 0 ∈ StdString.utf8Bytes c) : c = Char.ofNat 0 := by
  simp only [StdString.utf8Bytes,List.mem_map] at zero
  obtain ⟨b,mem,same⟩ := zero
  have none_ : b.toNat = 0 := by
    have := congrArg Fin.val same
    simpa using this
  have small : c.val.toNat = 0 := by
    unfold String.utf8EncodeChar at mem
    dsimp only at mem
    split at mem
    · simp only [List.mem_singleton] at mem
      rw [mem,UInt8.toNat_ofNat'] at none_
      omega
    · split at mem
      · simp only [List.mem_cons,List.not_mem_nil,or_false] at mem
        rcases mem with rfl | rfl <;> rw [UInt8.toNat_ofNat'] at none_ <;> omega
      · split at mem
        · simp only [List.mem_cons,List.not_mem_nil,or_false] at mem
          rcases mem with rfl | rfl | rfl <;> rw [UInt8.toNat_ofNat'] at none_ <;> omega
        · simp only [List.mem_cons,List.not_mem_nil,or_false] at mem
          rcases mem with rfl | rfl | rfl | rfl <;> rw [UInt8.toNat_ofNat'] at none_ <;> omega
  exact Char.ext (UInt32.toNat_inj.mp small)

theorem cStrUtf8 {s : StdString} (text : s.ValidUtf8) : s.cStr.ValidUtf8 := by
  obtain ⟨chars,bytes⟩ := text
  obtain ⟨bs⟩ := s
  simp only at bytes
  subst bytes
  have cut : (chars.flatMap StdString.utf8Bytes).takeWhile (· ≠ 0) =
      (chars.takeWhile (· ≠ Char.ofNat 0)).flatMap StdString.utf8Bytes := by
    induction chars with
    | nil => rfl
    | cons c chars ih =>
      by_cases null : c = Char.ofNat 0
      · subst null
        rfl
      · have free : ∀ b ∈ StdString.utf8Bytes c, decide (b ≠ 0) = true := fun b mem => by
          simpa using fun zero : b = 0 => null (utf8Zero (zero ▸ mem))
        rw [List.flatMap_cons,List.takeWhile_append_of_pos free,ih,List.takeWhile_cons_of_pos (by simpa using null),
          List.flatMap_cons]
  exact ⟨_,cut⟩

theorem cStrNulFree (s : StdString) : s.cStr.NulFree := fun mem => by
  simpa using List.mem_takeWhile_imp mem

structure Filing (Ok : StdString → Prop) (ms : List (StdString × Json)) : Prop where
  sorted : Sorted ms
  each : ∀ m ∈ ms, Ok m.1 ∧ m.1.NulFree ∧ Json.ObjectOver Ok (Json.StringOver Ok) m.2

section documents
variable {Ok : StdString → Prop} {k f s : StdString} {ms : List (StdString × Json)} {es : Entries}

theorem Filing.assign (filing : Filing Ok ms) {j : Json} (name : Ok k) (free : k.NulFree)
    (fields : Json.ObjectOver Ok (Json.StringOver Ok) j) : Filing Ok (OrderedMap.assign k j ms) :=
  ⟨OrderedMap.assignSorted k j filing.sorted,fun m mem => by
    rcases (OrderedMap.memAssign filing.sorted).mp mem with rfl | ⟨old,_⟩
    · exact ⟨name,free,fields⟩
    · exact filing.each m old⟩

theorem Filing.setField (filing : Filing Ok ms) (name : Ok k) (free : k.NulFree) (field : Ok f) (text : Ok s) :
    ∃ ms', (objectOf ms).setField k f s = objectOf ms' ∧ Filing Ok ms' := by
  have put (j : Json) : (objectOf ms).set k j = objectOf (OrderedMap.assign k j ms) := by
    rw [setObjectOf,objectOfSome (OrderedMap.assignNotEmpty k j ms)]
  have own : Ok f ∧ Json.StringOver Ok (.string s) := ⟨field,s,rfl,text⟩
  rw [Json.setField,findObjectOf,put]
  refine ⟨_,rfl,filing.assign name free ?_⟩
  cases found : OrderedMap.find k ms with
  | none => exact ⟨_,rfl,List.pairwise_singleton ..,List.forall_mem_singleton.mpr own⟩
  | some j =>
    obtain ⟨fields,same,sorted,strings⟩ := (filing.each _ ((OrderedMap.findSome filing.sorted).mp found)).2.2
    refine ⟨OrderedMap.assign f (.string s) fields,?_,OrderedMap.assignSorted f _ sorted,fun x mem => ?_⟩
    · exact congrArg (fun j : Json => j.set f (.string s)) same
    · rcases (OrderedMap.memAssign sorted).mp mem with rfl | ⟨old,_⟩
      · exact own
      · exact strings x old

structure Texts (Ok : StdString → Prop) (es : Entries) : Prop where
  keys : ∀ p ∈ es, ∀ k : Key, p.1 = k → Ok k.cStr
  values : ∀ p ∈ es, p.1 ≠ ⊤ → Ok p.2.value
  hashes : ∀ p ∈ es, Ok p.2.childHash

theorem nodeJsonFiling (usable : Usable Ok) (texts : Texts Ok es) :
    ∃ ms, nodeJson es = objectOf ms ∧ Filing Ok ms := by
  induction es using List.reverseRecOn with
  | nil => exact ⟨[],rfl,List.Pairwise.nil,by simp⟩
  | append_singleton es p ih =>
    obtain ⟨ms,same,filing⟩ := ih ⟨fun q mem => texts.keys q (List.mem_append_left _ mem),
      fun q mem => texts.values q (List.mem_append_left _ mem),
        fun q mem => texts.hashes q (List.mem_append_left _ mem)⟩
    have mem : p ∈ es ++ [p] := by simp
    have key : Ok (jsonKey p.1) ∧ (jsonKey p.1).NulFree := by
      cases at_ : p.1 using WithTop.recTopCoe with
      | top => exact ⟨usable.empty,by simp [jsonKey,StdString.NulFree]⟩
      | coe k => exact ⟨texts.keys p mem k at_,cStrNulFree k⟩
    obtain ⟨ms',value,filing'⟩ : ∃ ms', storeValue p.1 p.2.value (objectOf ms) = objectOf ms' ∧ Filing Ok ms' := by
      rw [storeValue]
      split
      · exact ⟨ms,rfl,filing⟩
      · rename_i real
        exact filing.setField key.1 key.2 usable.value (texts.values p mem real)
    rw [nodeJsonSnoc,same,fileEntry,value]
    split
    · exact ⟨ms',rfl,filing'⟩
    · exact filing'.setField key.1 key.2 usable.child (texts.hashes p mem)

theorem nodeJsonBack {lib : JsonLib} (back : ∀ j, Json.NodeDocument Ok j → lib.parse (lib.dump j) = some j)
    (null : lib.parse (lib.dump .null) = some .null) (usable : Usable Ok) (texts : Texts Ok es) :
    ∃ ms, lib.parse (lib.dump (nodeJson es)) = some (objectOf ms) ∧ ∀ m ∈ ms, m.1.NulFree := by
  obtain ⟨ms,same,filing⟩ := nodeJsonFiling usable texts
  refine ⟨ms,?_,fun m mem => (filing.each m mem).2.1⟩
  rw [same]
  cases ms with
  | nil => exact null
  | cons m ms => exact back _ ⟨_,rfl,filing.sorted,fun m mem => ⟨(filing.each m mem).1,(filing.each m mem).2.2⟩⟩

end documents

def realEntry (p : NodeId × Entry Node) : NodeId × Value × Hash := (p.1,p.2.value,p.2.childHash)

def contents (es : Entries) : List (NodeId × Value × Hash) × Hash :=
  ((es.filter fun p => decide (p.1 ≠ ⊤)).map realEntry,((OrderedMap.find ⊤ es).map Entry.childHash).getD noHash)

def ReadsBack (cfg : Config) (es : Entries) : Prop :=
  ∃ text next es', Node.store cfg ⟨es⟩ = .await text ⟨es⟩ next ∧
    restore cfg (.ok text) ⟨[]⟩ = (⟨es'⟩,.ok ()) ∧ contents es' = contents es

def Hashed (es : Entries) : Prop := ∀ p ∈ es, p.2.child.isSome = true → p.2.childHash.isEmpty = false

theorem storeHashed {cfg : Config} {es : Entries} (hashed : Hashed es) :
    ∃ next, Node.store cfg ⟨es⟩ = .await (block cfg ⟨es⟩) ⟨es⟩ next := by
  have loop (rest : Entries) : ∀ done : Entries,
      (∀ p ∈ rest, p.2.child.isSome = true → p.2.childHash.isEmpty = false) →
      ∃ next, storeLoop cfg done (nodeJson done) rest = .await (block cfg ⟨done ++ rest⟩) ⟨done ++ rest⟩ next := by
    induction rest with
    | nil =>
      intro done _
      rw [List.append_nil,storeLoop]
      exact ⟨_,rfl⟩
    | cons p rest ih =>
      intro done all
      obtain ⟨i,v,x,hash⟩ := p
      have next := ih (done ++ [(i,⟨v,x,hash⟩)]) fun q mem => all q (List.mem_cons_of_mem _ mem)
      rw [List.append_assoc,List.singleton_append,nodeJsonSnoc] at next
      unfold storeLoop
      by_cases empty : hash.isEmpty = true
      · cases x with
        | none => simpa [fileEntry,empty] using next
        | some c => simp [all _ List.mem_cons_self rfl] at empty
      · simpa [fileEntry,empty] using next
  have run := loop es [] hashed
  rwa [List.nil_append] at run

section contents
variable {pre es : Entries}

theorem topAbove (real : ∀ p ∈ pre, p.1 ≠ ⊤) : ∀ p ∈ pre, p.1 < (⊤ : NodeId) :=
  fun p mem => WithTop.lt_top_iff_ne_top.mpr (real p mem)

theorem contentsReal (real : ∀ p ∈ pre, p.1 ≠ ⊤) : contents pre = (pre.map realEntry,noHash) := by
  have all : pre.filter (fun p => decide (p.1 ≠ ⊤)) = pre :=
    List.filter_eq_self.mpr fun p mem => by simpa using real p mem
  have none_ := OrderedMap.findMiss (b := []) (topAbove real) (by simp)
  rw [List.append_nil] at none_
  rw [contents,all,none_]
  rfl

theorem contentsInf (real : ∀ p ∈ pre, p.1 ≠ ⊤) (e : Entry Node) :
    contents (pre ++ [(⊤,e)]) = (pre.map realEntry,e.childHash) := by
  have all : (pre ++ [((⊤ : NodeId),e)]).filter (fun p => decide (p.1 ≠ ⊤)) = pre := by
    rw [List.filter_append,List.filter_eq_self.mpr fun p mem => by simpa using real p mem]
    simp
  rw [contents,all,OrderedMap.findHit (topAbove real)]
  rfl

theorem contentsStubs (sorted : Sorted es) : contents (stubs es) = contents es := by
  have stubReal {pre : Entries} (real : ∀ p ∈ pre, p.1 ≠ ⊤) :
      (∀ p ∈ pre.map stub, p.1 ≠ ⊤) ∧ (pre.map stub).map realEntry = pre.map realEntry := by
    refine ⟨List.forall_mem_map.mpr real,?_⟩
    rw [List.map_map]
    exact List.map_congr_left fun p mem => by simp [realEntry,stub,real p mem]
  obtain ⟨pre,inf,rfl,real,rfl | ⟨e,rfl⟩⟩ := realsThenInf sorted
  · rw [List.append_nil,stubs,keptReal real,contentsReal (stubReal real).1,(stubReal real).2,contentsReal real]
  · have parts : kept (pre ++ [(⊤,e)]) = pre ++ if e.childHash.isEmpty then [] else [(⊤,e)] := by
      rw [kept,List.filter_append,← kept,keptReal real]
      cases h : e.childHash.isEmpty <;> simp [h]
    rw [stubs,parts,List.map_append,contentsInf real]
    by_cases empty : e.childHash.isEmpty = true
    · rw [if_pos empty,List.map_nil,List.append_nil,contentsReal (stubReal real).1,(stubReal real).2,
        StdString.isEmptyIff.mp empty]
      rfl
    · rw [if_neg empty]
      exact (contentsInf (stubReal real).1 _).trans (by rw [(stubReal real).2])

theorem contentsNone (sorted : Sorted es) (none_ : kept es = []) : contents es = ([],noHash) := by
  rw [← contentsStubs sorted,stubs,none_]
  rfl

end contents

theorem sameBlock {cfg : Config} {es es' : Entries} (hashed : Hashed es) (hashed' : Hashed es')
    (reads : ReadsBack cfg es)
    (reads' : ReadsBack cfg es') (same : block cfg ⟨es⟩ = block cfg ⟨es'⟩) : contents es = contents es' := by
  obtain ⟨text,_,found,stores,restored,equal⟩ := reads
  obtain ⟨text',_,found',stores',restored',equal'⟩ := reads'
  obtain ⟨_,run⟩ := @storeHashed cfg _ hashed
  obtain ⟨_,run'⟩ := @storeHashed cfg _ hashed'
  cases run.symm.trans stores
  cases run'.symm.trans stores'
  rw [same] at restored
  cases restored.symm.trans restored'
  exact equal.symm.trans equal'

/-- A node comes back from its block with all it had exactly when none of its real keys is
empty or has a NUL in it; of nodes that do, no two with different contents have the same block. -/
theorem nodeReadsBack {cfg : Config} (back : cfg.json.ParsesBack)
    (null : cfg.json.parse (cfg.json.dump .null) = some .null) {es : Entries} (sorted : Sorted es)
    (hashed : Hashed es)
    (keys : ∀ p ∈ es, ∀ k : Key, p.1 = k → k.ValidUtf8) (values : ∀ p ∈ es, p.1 ≠ ⊤ → p.2.value.ValidUtf8)
    (hashes : ∀ p ∈ es, p.2.childHash.ValidUtf8) :
    (ReadsBack cfg es ↔ ∀ p ∈ es, ∀ k : Key, p.1 = k → ProperKey k) ∧
    ∀ es', Hashed es' → ReadsBack cfg es → ReadsBack cfg es' → block cfg ⟨es⟩ = block cfg ⟨es'⟩ →
      contents es = contents es' := by
  obtain ⟨next,stores⟩ := @storeHashed cfg _ hashed
  refine ⟨⟨?_,fun proper => ?_⟩,fun es' hashed' reads reads' same => sameBlock hashed hashed' reads reads' same⟩
  · rintro ⟨text,_,es',stores',restored,same⟩ p mem k real
    cases stores.symm.trans stores'
    have texts : Texts StdString.ValidUtf8 es :=
      ⟨fun p mem k at_ => cStrUtf8 (keys p mem k at_),values,hashes⟩
    obtain ⟨ms,parsed,free⟩ := nodeJsonBack back null utf8Usable texts
    have came := @restoreCame cfg (fun _ => some (block cfg ⟨es⟩)) noHash
      (.ok (block cfg ⟨es⟩)) fun _ same => congrArg some (Except.ok.inj same)
    rw [restored] at came
    have there : realEntry p ∈ (contents es').1 := by
      rw [same]
      exact List.mem_map_of_mem (List.mem_filter.mpr ⟨mem,by simp [real]⟩)
    obtain ⟨q,inside,equal⟩ := List.mem_map.mp there
    have key : q.1 = k := (congrArg Prod.fst equal).trans real
    cases came with
    | mk each _ _ =>
      obtain ⟨k',v,⟨text,members,block_,parsed',member⟩,at_,_⟩ := each q (List.mem_of_mem_filter inside)
      cases block_
      have equal : objectOf ms = .object members := Option.some.inj (parsed.symm.trans parsed')
      cases ms with
      | nil => cases equal
      | cons m ms =>
        cases equal
        by_cases empty : k'.isEmpty = true
        · rw [key,if_pos empty] at at_
          exact absurd at_ WithTop.coe_ne_top
        · rw [key,if_neg empty] at at_
          cases at_
          exact ⟨by simpa using empty,free _ member⟩
  · have keyed : Keyed es := ⟨sorted,proper⟩
    by_cases none_ : kept es = []
    · refine ⟨_,next,[],stores,?_,(contentsNone sorted none_).symm⟩
      have nothing : block cfg ⟨es⟩ = cfg.json.dump .null := by
        rw [block,Node.entries,nodeJsonFiled keyed,filed,none_]
        rfl
      rw [restore,nothing,null]
    · have printable : Printable StdString.ValidUtf8 es := ⟨keyed,keys,values,hashes,none_⟩
      exact ⟨_,next,stubs es,stores,restoreBlock back utf8Usable printable ⟨[]⟩,contentsStubs sorted⟩

theorem nodeReadsBackPair : ReadsBack (mockConfig 2)
    [((letter 97 : Key),⟨letter 118,none,noHash⟩),(⊤,⟨⟨[]⟩,some ⟨[]⟩,letter 104⟩)] := by
  refine (nodeReadsBack nlohmannParsesBack rfl (List.pairwise_pair.mpr (WithTop.coe_lt_top _)) ?_ ?_ ?_ ?_).1.mpr ?_
  · unfold Hashed
    exact List.forall_mem_cons.mpr ⟨fun none_ => (by cases none_),List.forall_mem_singleton.mpr fun _ => rfl⟩
  · refine List.forall_mem_cons.mpr ⟨fun k same => ?_,List.forall_mem_singleton.mpr fun k same => by cases same⟩
    cases same
    exact letterUtf8 97 (by decide)
  · exact List.forall_mem_cons.mpr ⟨fun _ => letterUtf8 118 (by decide),
      List.forall_mem_singleton.mpr fun real => absurd rfl real⟩
  · exact List.forall_mem_cons.mpr ⟨⟨[],rfl⟩,List.forall_mem_singleton.mpr (letterUtf8 104 (by decide))⟩
  · refine List.forall_mem_cons.mpr ⟨fun k same => ?_,List.forall_mem_singleton.mpr fun k same => by cases same⟩
    cases same
    decide +kernel

theorem emptyKeyLost : ¬ ∀ es : Entries, Sorted es → Hashed es → (∀ p ∈ es, ∀ k : Key, p.1 = k → k.ValidUtf8) →
    (∀ p ∈ es, p.1 ≠ ⊤ → p.2.value.ValidUtf8) → (∀ p ∈ es, p.2.childHash.ValidUtf8) →
    ReadsBack (mockConfig 2) es := by
  intro claim
  obtain ⟨text,_,es',stores,restored,same⟩ := claim [(((⟨[]⟩ : StdString) : Key),⟨letter 118,none,noHash⟩)]
    (List.pairwise_singleton ..) (List.forall_mem_singleton.mpr fun none_ => by cases none_)
    (List.forall_mem_singleton.mpr fun k same => by cases same; exact ⟨[],rfl⟩)
    (List.forall_mem_singleton.mpr fun _ => letterUtf8 118 (by decide)) (List.forall_mem_singleton.mpr ⟨[],rfl⟩)
  obtain ⟨_,run⟩ := @storeHashed (mockConfig 2) [(((⟨[]⟩ : StdString) : Key),⟨letter 118,none,noHash⟩)]
    (List.forall_mem_singleton.mpr fun none_ => by cases none_)
  cases run.symm.trans stores
  have gone : (restore (mockConfig 2) (.ok (block (mockConfig 2)
      ⟨[(((⟨[]⟩ : StdString) : Key),⟨letter 118,none,noHash⟩)]⟩)) ⟨[]⟩).1.entries.all
        (fun p => decide (p.1 = ⊤)) = true := by
    decide +kernel
  rw [restored] at gone
  have none_ : es'.filter (fun p => decide (p.1 ≠ ⊤)) = [] :=
    List.filter_eq_nil_iff.mpr fun p mem => by simpa using List.all_eq_true.mp gone p mem
  have lost := congrArg (fun x => x.1.length) same
  simp only [contents,none_] at lost
  revert lost
  decide +kernel

end IpfsCache
