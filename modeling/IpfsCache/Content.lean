import IpfsCache.ClientDb
import IpfsCache.DateTime
import IpfsCache.JsonText

/-! The values of the database, as Injector::insert_content_from_queue writes them and
get_content reads them: an object with the id of the content and its time stamp. -/
namespace IpfsCache
open OrderedMap (Sorted)

def tsField : StdString := ⟨[116,115]⟩

structure CachedContent (Ptime : Type) where
  ts : Ptime
  data : Value

def entryJson {Ptime : Type} (dt : DateTime Ptime) (ipfsId : Hash) (ts : Ptime) : Json :=
  (Json.null.set valueField (.string ipfsId)).set tsField (.string ⟨(dt.toIsoExtendedString ts).bytes ++ [90]⟩)

def writeEntry {Ptime : Type} (lib : JsonLib) (dt : DateTime Ptime) (ipfsId : Hash) (ts : Ptime) : Value :=
  lib.dump (entryJson dt ipfsId ts)

/-- The try block of get_content; none: an exception leaves it. -/
def readEntry {Ptime : Type} (lib : JsonLib) (dt : DateTime Ptime) (rawJson : Value) : Option (Ptime × Hash) :=
  match lib.parse rawJson with
  | none => none
  | some json =>
    match json.index tsField with
    | some (.string text) =>
      match dt.fromIsoExtendedString text,json.index valueField with
      | some ts,some (.string contentHash) => some (ts,contentHash)
      | _,_ => none
    | _ => none

def query {σ : Type} (cfg : Config) (S : Storage σ) (fuel : Nat) (key : Key) (db : BTree) (st : σ) :
    Option (Except ErrorCode Value × BTree × σ) := db.findAlone cfg S fuel key st

def getContent {σ Ptime : Type} (cfg : Config) (S : Storage σ) (dt : DateTime Ptime) (fuel : Nat) (url : Key)
    (db : BTree) (st : σ) : Option (Except ErrorCode (CachedContent Ptime) × BTree × σ) :=
  match query cfg S fuel url db st with
  | none => none
  | some (.error ec,db,st) => some (.error ec,db,st)
  | some (.ok rawJson,db,st) =>
    match readEntry cfg.json dt rawJson with
    | none => some (.error .notFound,db,st)
    | some (ts,contentHash) =>
      let data := S.cat st contentHash
      some (data.1.map (⟨ts,·⟩),db,data.2)

def JsonLib.ReadsRecords (lib : JsonLib) (Ok : StdString → Prop) : Prop :=
  ∀ j, Json.ObjectOver Ok (Json.StringOver Ok) j → lib.parse (lib.dump j) = some j

namespace JsonText

def readRecord (raw : Bytes) : Option Json :=
  match readObject readText raw with
  | some (j,[]) => some j
  | _ => none

open Json in
theorem readRecordBack {j : Json} (h : ObjectOver (fun _ => True) (StringOver fun _ => True) j) :
    readRecord (text j) = some j := by
  obtain ⟨members,rfl,_,each⟩ := h
  have back := readObjectBack (fun m mem rest => readTextBack (each m mem).2 rest) []
  rw [List.append_nil] at back
  rw [readRecord,back]

end JsonText

def nlohmannAll : JsonLib :=
  ⟨nlohmann.dump,fun v => (JsonText.readRecord v.bytes).orElse fun _ => nlohmann.parse v⟩

theorem nlohmannReadsRecords : nlohmannAll.ReadsRecords fun _ => True := fun j h => by
  have back := JsonText.readRecordBack h
  change (JsonText.readRecord (JsonText.text j)).orElse _ = some j
  rw [back]
  rfl

section entries
variable {Ptime : Type} {lib : JsonLib} {dt : DateTime Ptime}

theorem tsBeforeValue : tsField < valueField := by
  change ([116,115] : List (Fin 256)) < [118,97,108,117,101]
  decide

theorem entryMembers (ipfsId : Hash) (ts : Ptime) : entryJson dt ipfsId ts =
    .object [(tsField,.string ⟨(dt.toIsoExtendedString ts).bytes ++ [90]⟩),(valueField,.string ipfsId)] := by
  have fresh := OrderedMap.assignMiss (k := tsField) (v := Json.string ⟨(dt.toIsoExtendedString ts).bytes ++ [90]⟩)
    (a := []) (b := [(valueField,Json.string ipfsId)]) (by simp) (by simpa using tsBeforeValue)
  exact congrArg Json.object fresh

theorem entryFound (ipfsId : Hash) (ts : Ptime) :
    (entryJson dt ipfsId ts).index tsField = some (.string ⟨(dt.toIsoExtendedString ts).bytes ++ [90]⟩) ∧
    (entryJson dt ipfsId ts).index valueField = some (.string ipfsId) := by
  have ts_ := OrderedMap.findHit (k := tsField) (v := Json.string ⟨(dt.toIsoExtendedString ts).bytes ++ [90]⟩)
    (a := []) (b := [(valueField,Json.string ipfsId)]) (by simp)
  have value_ := OrderedMap.findHit (k := valueField) (v := Json.string ipfsId)
    (a := [(tsField,Json.string ⟨(dt.toIsoExtendedString ts).bytes ++ [90]⟩)]) (b := [])
      (by simpa using tsBeforeValue)
  simp only [List.nil_append,List.singleton_append] at ts_ value_
  rw [entryMembers]
  exact ⟨by rw [Json.index,ts_]; rfl,by rw [Json.index,value_]; rfl⟩

theorem stampAscii (documented : dt.Documented) (t : ClockTime) :
    StdString.Ascii ⟨(dt.toIsoExtendedString (dt.clock t)).bytes ++ [90]⟩ := by
  have digits (width n : Nat) : ∀ b ∈ Decimal.padded width n, b.val < 128 := fun b mem => by
    have digit := Decimal.paddedDigits width n b mem
    simp only [Decimal.isDigit,Bool.and_eq_true,decide_eq_true_eq] at digit
    omega
  have micro (n : Nat) : ∀ b ∈ (if n = 0 then [] else 46 :: Decimal.padded 6 n), b.val < 128 := by
    split
    · simp
    · exact List.forall_mem_cons.mpr ⟨by decide +kernel,digits 6 n⟩
  rw [documented.prints,StdString.Ascii]
  have hyphen : (45 : Fin 256).val < 128 := by decide +kernel
  have colon : (58 : Fin 256).val < 128 := by decide +kernel
  simp only [Instant.dateText,Instant.timeText,List.forall_mem_append,List.forall_mem_cons]
  exact ⟨⟨⟨⟨digits _ _,hyphen,digits _ _⟩,hyphen,digits _ _⟩,by decide +kernel,
    ⟨⟨digits _ _,colon,digits _ _⟩,colon,digits _ _⟩,micro _⟩,by decide +kernel⟩

theorem readWritten {Ok : StdString → Prop} (back : lib.ReadsRecords Ok) (ascii : ∀ s, s.Ascii → Ok s) (ipfsId : Hash)
    (text : Ok ipfsId) (ts : Ptime) (stamp : StdString.Ascii ⟨(dt.toIsoExtendedString ts).bytes ++ [90]⟩) :
    readEntry lib dt (writeEntry lib dt ipfsId ts) =
      (dt.fromIsoExtendedString ⟨(dt.toIsoExtendedString ts).bytes ++ [90]⟩).map (·,ipfsId) := by
  have record : Json.ObjectOver Ok (Json.StringOver Ok) (entryJson dt ipfsId ts) := by
    refine ⟨_,entryMembers ipfsId ts,?_,?_⟩
    · simpa [Sorted] using tsBeforeValue
    · have names : tsField.Ascii ∧ valueField.Ascii := by decide +kernel
      exact List.forall_mem_cons.mpr ⟨⟨ascii _ names.1,_,rfl,ascii _ stamp⟩,
        List.forall_mem_singleton.mpr ⟨ascii _ names.2,_,rfl,text⟩⟩
  have found := @entryFound _ dt ipfsId ts
  rw [readEntry,writeEntry,back _ record]
  simp only [found.1,found.2]
  cases dt.fromIsoExtendedString ⟨(dt.toIsoExtendedString ts).bytes ++ [90]⟩ <;> rfl

/-- The 'Z' ends the fraction of a second, or the seconds themselves when there is no fraction. -/

theorem stampRead (documented : dt.Documented) (t : ClockTime) :
    dt.fromIsoExtendedString ⟨(dt.toIsoExtendedString (dt.clock t)).bytes ++ [90]⟩ =
      if t.1.microsecond = 0 then none else some (dt.clock t) := by
  have cut := t.1.timeFields [90] (by decide +kernel)
  have whole : (dt.toIsoExtendedString (dt.clock t)).bytes ++ [90] = t.1.dateText ++ 84 ::
      (t.1.timeText ++ [90]) := by
    rw [documented.prints,List.append_assoc,List.cons_append]
  rw [whole]
  split
  · rename_i zero
    rw [if_pos zero] at cut
    exact documented.throws _ _ _ _ _ _ t.1.dateNoT cut ⟨90,by simp,by decide +kernel⟩
  · rename_i some_
    rw [if_neg some_] at cut
    have valid := t.2
    have six := Decimal.paddedLength 6 t.1.microsecond
    refine documented.reads t _ _ _ _ _ _ (t.1.timeHead _) cut (Decimal.numberPadded (by decide) ?_)
      (Decimal.numberPadded (by decide) ?_) (Decimal.numberPadded (by decide) ?_) (by simp [six]) ?_
    · have := valid.hour; omega
    · have := valid.minute; omega
    · have := valid.second; omega
    · rw [List.take_left' six]
      exact Decimal.numberPadded (by decide) (by have := valid.microsecond; omega)

/-- A value that the injector stored is read back exactly when its time stamp has
microseconds; without them get_content reports that there is nothing under the key. -/
theorem entryReadBack (documented : dt.Documented) {Ok : StdString → Prop} (back : lib.ReadsRecords Ok)
    (ascii : ∀ s, s.Ascii → Ok s) (t : ClockTime) (ipfsId : Hash) (text : Ok ipfsId) :
    (readEntry lib dt (writeEntry lib dt ipfsId (dt.clock t)) = some (dt.clock t,ipfsId) ↔ t.1.microsecond ≠ 0) ∧
    ∀ {σ : Type} (cfg : Config) (S : Storage σ) fuel url db st db' st', cfg.json = lib →
      query cfg S fuel url db st = some (.ok (writeEntry lib dt ipfsId (dt.clock t)),db',st') →
      getContent cfg S dt fuel url db st =
        if t.1.microsecond = 0 then some (.error .notFound,db',st')
        else some ((S.cat st' ipfsId).1.map (⟨dt.clock t,·⟩),db',(S.cat st' ipfsId).2) := by
  have read := readWritten back ascii ipfsId text (dt.clock t) (stampAscii documented t)
  rw [stampRead documented] at read
  constructor
  · rw [read]
    split <;> simp_all
  · intro σ cfg S fuel url db st db' st' same found
    subst same
    rw [getContent,found]
    simp only [read]
    by_cases zero : t.1.microsecond = 0
    · simp only [if_pos zero,Option.map_none]
    · simp only [if_neg zero,Option.map_some]

end entries

def newYear (microsecond : Nat) : Instant := ⟨2018,1,1,0,0,0,microsecond⟩
def newYearStamp : ClockTime := ⟨newYear 5,by decide⟩

theorem entryReadBackMock : readEntry nlohmannAll boost (writeEntry nlohmannAll boost Downloads.someCid newYearStamp) =
    some (newYearStamp,Downloads.someCid) :=
  (entryReadBack boostDocumented nlohmannReadsRecords (fun _ _ => trivial) newYearStamp Downloads.someCid trivial).1.mpr
    (by decide)

theorem entryNotReadBack : ¬ ∀ (t : ClockTime) (ipfsId : Hash), ipfsId.bytes.length = cidSize →
    readEntry nlohmannAll boost (writeEntry nlohmannAll boost ipfsId (boost.clock t)) =
    some (boost.clock t,ipfsId) := by
  intro claim
  have read := claim ⟨newYear 0,by decide⟩ Downloads.someCid (by decide)
  have none_ : (readEntry nlohmannAll boost (writeEntry nlohmannAll boost Downloads.someCid
    (boost.clock ⟨newYear 0,by decide⟩))).isNone = true := by decide +kernel
  rw [read] at none_
  exact absurd none_ Bool.false_ne_true

end IpfsCache
