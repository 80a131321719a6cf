import IpfsCache.Json

/-! The compact text nlohmann::json 2.1.1 writes, and a reader for the documents
Node::store writes with it: strings, objects of strings, objects of those, and null.
Members are read in the order they stand in, which is key order in every dump. -/
namespace IpfsCache.JsonText

abbrev Bytes := List (Fin 256)

def hexDigit (n : Fin 256) : Fin 256 := if n < 10 then 48 + n else 87 + n
def hexValue (b : Fin 256) : Fin 256 := if b < 58 then b - 48 else b - 87

def escapeByte (b : Fin 256) : Bytes :=
  if b = 34 then [92,34]
  else if b = 92 then [92,92]
  else if b = 8 then [92,98]
  else if b = 12 then [92,102]
  else if b = 10 then [92,110]
  else if b = 13 then [92,114]
  else if b = 9 then [92,116]
  else if b < 32 then [92,117,48,48,hexDigit (b / 16),hexDigit (b % 16)]
  else [b]

def quote (s : StdString) : Bytes := 34 :: s.bytes.flatMap escapeByte ++ [34]

def unescape (c : Fin 256) : Option (Fin 256) :=
  if c = 34 then some 34
  else if c = 92 then some 92
  else if c = 98 then some 8
  else if c = 102 then some 12
  else if c = 110 then some 10
  else if c = 114 then some 13
  else if c = 116 then some 9
  else none

def push (b : Fin 256) (r : Bytes × Bytes) : Bytes × Bytes := (b :: r.1,r.2)

mutual
def readChars : Bytes → Option (Bytes × Bytes)
  | [] => none
  | b :: rest =>
    if b = 34 then some ([],rest)
    else if b = 92 then readEscape rest
    else (readChars rest).map (push b)

def readEscape : Bytes → Option (Bytes × Bytes)
  | [] => none
  | c :: rest =>
    if c = 117 then readHex 3 0 rest else (unescape c).bind fun b => (readChars rest).map (push b)

def readHex : Nat → Fin 256 → Bytes → Option (Bytes × Bytes)
  | _,_,[] => none
  | 0,code,h :: rest => (readChars rest).map (push (16 * code + hexValue h))
  | n + 1,code,h :: rest => readHex n (16 * code + hexValue h) rest
end

def skip (b : Fin 256) : Bytes → Option Bytes
  | [] => none
  | c :: rest => if c = b then some rest else none

def readString (raw : Bytes) : Option (StdString × Bytes) := do
  let raw ← skip 34 raw
  let (bytes,rest) ← readChars raw
  some (⟨bytes⟩,rest)

theorem hexBack : ∀ b : Fin 256, b < 32 →
    16 * (16 * (16 * (16 * 0 + hexValue 48) + hexValue 48) + hexValue (hexDigit (b / 16))) + hexValue (hexDigit (b % 16)) = b := by
  decide +kernel

theorem readEscaped (b : Fin 256) (rest : Bytes) :
    readChars (escapeByte b ++ rest) = (readChars rest).map (push b) := by
  have two (c b : Fin 256) (same : unescape c = some b) (plain : c ≠ 117) :
      readChars ([92,c] ++ rest) = (readChars rest).map (push b) := by simp [readChars,readEscape,same,plain]
  unfold escapeByte
  split_ifs with quote_ slash back feed line ret tab control
  · rw [quote_]; exact two 34 34 rfl (by decide)
  · rw [slash]; exact two 92 92 rfl (by decide)
  · rw [back]; exact two 98 8 rfl (by decide)
  · rw [feed]; exact two 102 12 rfl (by decide)
  · rw [line]; exact two 110 10 rfl (by decide)
  · rw [ret]; exact two 114 13 rfl (by decide)
  · rw [tab]; exact two 116 9 rfl (by decide)
  · have hex := hexBack b control
    simp only [List.cons_append,List.nil_append,readChars,readEscape,readHex,hex]
    rfl
  · simp only [List.cons_append,List.nil_append,readChars,quote_,slash,if_false]

theorem readQuoted (s : StdString) (rest : Bytes) : readString (quote s ++ rest) = some (s,rest) := by
  obtain ⟨bytes⟩ := s
  have chars : readChars (bytes.flatMap escapeByte ++ 34 :: rest) = some (bytes,rest) := by
    induction bytes with
    | nil => simp [readChars]
    | cons b bytes ih =>
      rw [List.flatMap_cons,List.append_assoc,readEscaped,ih]
      rfl
  simp [readString,quote,skip,chars]

mutual
def text : Json → Bytes
  | .null => [110,117,108,108]
  | .boolean true => [116,114,117,101]
  | .boolean false => [102,97,108,115,101]
  | .number t => t.bytes
  | .string s => quote s
  | .array items => 91 :: textItems items
  | .object members => 123 :: textMembers members

def textItems : List Json → Bytes
  | [] => [93]
  | j :: rest => text j ++ match rest with
    | [] => [93]
    | _ :: _ => 44 :: textItems rest

def textMembers : List (StdString × Json) → Bytes
  | [] => [125]
  | (k,j) :: rest => quote k ++ 58 :: (text j ++ match rest with
    | [] => [125]
    | _ :: _ => 44 :: textMembers rest)
end

def readMembers (readValue : Bytes → Option (Json × Bytes)) : Nat → Bytes → Option (List (StdString × Json) × Bytes)
  | 0,_ => none
  | fuel + 1,raw => do
    let (k,raw) ← readString raw
    let raw ← skip 58 raw
    let (j,raw) ← readValue raw
    if raw.head? = some 44 then
      let (members,raw) ← readMembers readValue fuel raw.tail
      some ((k,j) :: members,raw)
    else
      let raw ← skip 125 raw
      some ([(k,j)],raw)

def readObject (readValue : Bytes → Option (Json × Bytes)) (raw : Bytes) : Option (Json × Bytes) := do
  let raw ← skip 123 raw
  if raw.head? = some 125 then some (.object [],raw.tail)
  else
    let (members,raw) ← readMembers readValue raw.length raw
    some (.object members,raw)

def readText (raw : Bytes) : Option (Json × Bytes) := (readString raw).map (Prod.map .string id)

def readDocument (raw : Bytes) : Option Json :=
  if raw = text .null then some .null
  else
    match readObject (readObject readText) raw with
    | some (j,[]) => some j
    | _ => none

theorem readMembersBack {readValue : Bytes → Option (Json × Bytes)} {members : List (StdString × Json)}
    (each : ∀ m ∈ members, ∀ rest, readValue (text m.2 ++ rest) = some (m.2,rest)) (some_ : members ≠ [])
    (fuel : Nat) (enough : members.length ≤ fuel) (rest : Bytes) :
    readMembers readValue fuel (textMembers members ++ rest) = some (members,rest) := by
  induction members generalizing fuel with
  | nil => exact absurd rfl some_
  | cons m members ih =>
    obtain ⟨k,j⟩ := m
    obtain ⟨fuel,rfl⟩ : ∃ f, fuel = f + 1 := ⟨fuel - 1,by simp at enough; omega⟩
    have value := each (k,j) (by simp)
    cases members with
    | nil => simp [readMembers,textMembers,readQuoted,skip,value]
    | cons m' members =>
      have tail := ih (fun m mem => each m (List.mem_cons_of_mem _ mem)) (by simp) fuel (by simpa using enough)
      rw [textMembers]
      simp [readMembers,readQuoted,skip,value,tail]

theorem textMembersLength (members : List (StdString × Json)) : members.length ≤ (textMembers members).length := by
  induction members with
  | nil => simp
  | cons m members ih =>
    obtain ⟨k,j⟩ := m
    cases members with
    | nil =>
      simp only [textMembers,List.length_append,List.length_cons]
      simp
      omega
    | cons m' members =>
      rw [textMembers]
      simp only [List.length_append,List.length_cons] at ih ⊢
      omega

theorem textMembersHead {m : StdString × Json} {members : List (StdString × Json)} {rest : Bytes} :
    (textMembers (m :: members) ++ rest).head? = some 34 := by
  obtain ⟨k,j⟩ := m
  simp [textMembers,quote]

theorem readObjectBack {readValue : Bytes → Option (Json × Bytes)} {members : List (StdString × Json)}
    (each : ∀ m ∈ members, ∀ rest, readValue (text m.2 ++ rest) = some (m.2,rest)) (rest : Bytes) :
    readObject readValue (text (.object members) ++ rest) = some (.object members,rest) := by
  cases members with
  | nil => simp [readObject,text,textMembers,skip]
  | cons m members =>
    have enough : (m :: members).length ≤ (textMembers (m :: members) ++ rest).length :=
      (textMembersLength _).trans (by simp)
    have back := readMembersBack each (by simp) _ enough rest
    simp only [readObject,text,List.cons_append,skip,if_true,Option.bind_eq_bind,Option.bind_some,
      textMembersHead,back]
    simp

open Json in
theorem readTextBack {j : Json} (h : StringOver (fun _ => True) j) (rest : Bytes) :
    readText (text j ++ rest) = some (j,rest) := by
  obtain ⟨s,rfl,_⟩ := h
  simp [readText,text,readQuoted]

open Json in
theorem readDocumentBack {j : Json} (h : NodeDocument (fun _ => True) j) : readDocument (text j) = some j := by
  obtain ⟨members,rfl,_,each⟩ := h
  have back : readObject (readObject readText) (text (.object members) ++ []) = _ :=
      readObjectBack (fun m mem rest => by
    obtain ⟨fields,same,_,strings⟩ := (each m mem).2
    rw [same]
    exact readObjectBack (fun f inside rest => readTextBack (strings f inside).2 rest) rest) []
  rw [List.append_nil] at back
  have other : text (.object members) ≠ text .null := by simp [text]
  simp [readDocument,other,back]

end JsonText

open Json in
theorem Json.NodeDocument.anyText {Ok : StdString → Prop} {j : Json} (h : NodeDocument Ok j) :
    NodeDocument (fun _ => True) j := by
  obtain ⟨members,rfl,sorted,each⟩ := h
  refine ⟨members,rfl,sorted,fun m mem => ⟨trivial,?_⟩⟩
  obtain ⟨fields,same,sorted',strings⟩ := (each m mem).2
  exact ⟨fields,same,sorted',fun f inside => ⟨trivial,by
    obtain ⟨s,same,_⟩ := (strings f inside).2
    exact ⟨s,same,trivial⟩⟩⟩

def nlohmann : JsonLib := ⟨fun j => ⟨JsonText.text j⟩,fun v => JsonText.readDocument v.bytes⟩

theorem nlohmannParsesBack : nlohmann.ParsesBack := fun _ h => JsonText.readDocumentBack h.anyText

theorem nlohmannDumpInjective : nlohmann.DumpInjective fun _ => True := fun j j' h h' same => by
  have bytes : JsonText.text j = JsonText.text j' := congrArg StdString.bytes same
  have back := JsonText.readDocumentBack h
  rw [bytes,JsonText.readDocumentBack h'] at back
  exact (Option.some.inj back).symm

end IpfsCache
