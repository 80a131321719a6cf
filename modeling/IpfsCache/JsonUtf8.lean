import IpfsCache.Content

/-! What nlohmann::json is relied on for by both databases: nodes and values are read as they
were written, and what is written is text. The library at hand does so: an escape is ASCII, and
the bytes of any other character stay as they are. -/
namespace IpfsCache
open OrderedMap (Sorted)

def JsonLib.DumpsText (lib : JsonLib) : Prop :=
  ∀ j, Json.ObjectOver StdString.ValidUtf8 (Json.StringOver StdString.ValidUtf8) j → (lib.dump j).ValidUtf8

structure JsonLib.Documented (lib : JsonLib) : Prop where
  nodes : lib.ParsesBack
  records : lib.ReadsRecords StdString.ValidUtf8
  text : lib.DumpsText

theorem entryRecord {Ptime : Type} {dt : DateTime Ptime} (documented : dt.Documented) {hash : Hash}
    (text : hash.ValidUtf8) (t : ClockTime) :
    Json.ObjectOver StdString.ValidUtf8 (Json.StringOver StdString.ValidUtf8) (entryJson dt hash (dt.clock t)) := by
  have names : tsField.Ascii ∧ valueField.Ascii := by decide +kernel
  refine ⟨_,entryMembers hash (dt.clock t),by simpa [Sorted] using tsBeforeValue,List.forall_mem_cons.mpr ⟨?_,
    List.forall_mem_singleton.mpr ⟨asciiUtf8 names.2,_,rfl,text⟩⟩⟩
  exact ⟨asciiUtf8 names.1,_,rfl,asciiUtf8 (stampAscii documented t)⟩

theorem utf8High (c : Char) : (∃ b : Fin 256, b < 128 ∧ StdString.utf8Bytes c = [b]) ∨
    ∀ b ∈ StdString.utf8Bytes c, (128 : Fin 256) ≤ b := by
  have high {x : UInt8} (above : 128 ≤ x.toNat) : (128 : Fin 256) ≤ x.toBitVec.toFin := by
    rw [Fin.le_def]
    exact above
  by_cases small : c.val.toNat ≤ 127
  · refine .inl ⟨Fin.ofNat 256 c.toNat,?_,?_⟩
    · rw [Fin.lt_def]
      change c.val.toNat % 256 < 128
      omega
    · simp only [StdString.utf8Bytes,String.utf8EncodeChar,small,if_true,List.map_cons,List.map_nil]
      rfl
  · refine .inr fun b mem => ?_
    simp only [StdString.utf8Bytes,List.mem_map] at mem
    obtain ⟨x,inside,rfl⟩ := mem
    refine high ?_
    unfold String.utf8EncodeChar at inside
    dsimp only at inside
    rw [if_neg small] at inside
    split at inside
    · simp only [List.mem_cons,List.not_mem_nil,or_false] at inside
      rcases inside with rfl | rfl <;> rw [UInt8.toNat_ofNat'] <;> omega
    · split at inside
      · simp only [List.mem_cons,List.not_mem_nil,or_false] at inside
        rcases inside with rfl | rfl | rfl <;> rw [UInt8.toNat_ofNat'] <;> omega
      · simp only [List.mem_cons,List.not_mem_nil,or_false] at inside
        rcases inside with rfl | rfl | rfl | rfl <;> rw [UInt8.toNat_ofNat'] <;> omega

theorem utf8Append {a b : List (Fin 256)} (first : StdString.ValidUtf8 ⟨a⟩) (second : StdString.ValidUtf8 ⟨b⟩) :
    StdString.ValidUtf8 ⟨a ++ b⟩ := by
  obtain ⟨text,same⟩ := first
  obtain ⟨text',same'⟩ := second
  exact ⟨text ++ text',by rw [List.flatMap_append,← same,← same']⟩

namespace JsonText

theorem escapeUtf8 (c : Char) : StdString.ValidUtf8 ⟨(StdString.utf8Bytes c).flatMap escapeByte⟩ := by
  have ascii : ∀ b : Fin 256, b < 128 → (escapeByte b).all (· < 128) = true := by decide +kernel
  have plain : ∀ b : Fin 256, 128 ≤ b → escapeByte b = [b] := by decide +kernel
  rcases utf8High c with ⟨b,small,one⟩ | high
  · rw [one,List.flatMap_singleton]
    exact asciiUtf8 fun x mem => Fin.lt_def.mp (of_decide_eq_true (List.all_eq_true.mp (ascii b small) x mem))
  · have same : (StdString.utf8Bytes c).flatMap escapeByte = StdString.utf8Bytes c := by
      rw [List.flatMap_congr fun b mem => plain b (high b mem),List.flatMap_singleton']
    rw [same]
    exact ⟨[c],by simp⟩

theorem quoteUtf8 {s : StdString} (text : s.ValidUtf8) : StdString.ValidUtf8 ⟨quote s⟩ := by
  have inner (chars : List Char) :
      StdString.ValidUtf8 ⟨chars.flatMap fun c => (StdString.utf8Bytes c).flatMap escapeByte⟩ := by
    induction chars with
    | nil => exact ⟨[],rfl⟩
    | cons c chars ih =>
      rw [List.flatMap_cons]
      exact utf8Append (escapeUtf8 c) ih
  have mark : StdString.ValidUtf8 ⟨[34]⟩ := letterUtf8 34 (by decide +kernel)
  obtain ⟨chars,bytes⟩ := text
  rw [quote,bytes,List.flatMap_assoc]
  exact utf8Append (utf8Append mark (inner chars)) mark

theorem membersUtf8 {members : List (StdString × Json)}
    (each : ∀ m ∈ members, m.1.ValidUtf8 ∧ Json.StringOver StdString.ValidUtf8 m.2) :
    StdString.ValidUtf8 ⟨textMembers members⟩ := by
  have sign : ∀ b : Fin 256, b < 128 → StdString.ValidUtf8 ⟨[b]⟩ := letterUtf8
  induction members with
  | nil => exact sign 125 (by decide +kernel)
  | cons m members ih =>
    obtain ⟨k,j⟩ := m
    obtain ⟨⟨name,s,same,text_⟩,rest⟩ := List.forall_mem_cons.mp each
    cases same
    have own := utf8Append (quoteUtf8 name) (utf8Append (sign 58 (by decide +kernel)) (quoteUtf8 text_))
    cases members with
    | nil =>
      have whole := utf8Append own (sign 125 (by decide +kernel))
      rw [List.append_assoc,List.append_assoc] at whole
      exact whole
    | cons m' members =>
      have whole := utf8Append own (utf8Append (sign 44 (by decide +kernel)) (ih rest))
      rw [List.append_assoc,List.append_assoc] at whole
      exact whole

theorem readRecordMisses (k : StdString) (fields members : List (StdString × Json)) :
    readRecord (text (.object ((k,.object fields) :: members))) = none := by
  obtain ⟨rest,whole⟩ : ∃ rest, textMembers ((k,.object fields) :: members) = quote k ++ 58 :: 123 :: rest :=
    ⟨_,rfl⟩
  have first : (quote k ++ 58 :: 123 :: rest).head? = some 34 := rfl
  have misses (fuel : Nat) : readMembers readText fuel (quote k ++ 58 :: 123 :: rest) = none := by
    cases fuel with
    | zero => rfl
    | succ fuel =>
      have value : readText (123 :: rest) = none := rfl
      simp [readMembers,readQuoted,skip,value]
  simp [readRecord,readObject,text,skip,whole,first,misses]

end JsonText

theorem nlohmannDocumented : nlohmannAll.Documented where
  nodes := by
    intro j document
    have back := JsonText.readDocumentBack document.anyText
    obtain ⟨members,rfl,_,each⟩ := document
    change (JsonText.readRecord (JsonText.text (.object members))).orElse _ = some (.object members)
    cases members with
    | nil => rfl
    | cons m members =>
      obtain ⟨k,j⟩ := m
      obtain ⟨⟨_,fields,same,_⟩,_⟩ := List.forall_mem_cons.mp each
      cases same
      rw [JsonText.readRecordMisses]
      exact back
  records := fun j record => by
    obtain ⟨members,rfl,sorted,each⟩ := record
    refine nlohmannReadsRecords _ ⟨members,rfl,sorted,fun m mem => ⟨trivial,?_⟩⟩
    obtain ⟨s,same,_⟩ := (each m mem).2
    exact ⟨s,same,trivial⟩
  text := fun j record => by
    obtain ⟨members,rfl,_,each⟩ := record
    exact utf8Append (letterUtf8 123 (by decide +kernel)) (JsonText.membersUtf8 each)

end IpfsCache
