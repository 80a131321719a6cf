import IpfsCache.BTree
import IpfsCache.JsonText

/-! What the code relies on in a storage, and the storage the tests run against: a map
from ids to blocks whose ids are the decimal numbers in turn. -/
namespace IpfsCache
open OrderedMap (Sorted)

def Storage.reads {σ : Type} (S : Storage σ) (st : σ) (hash : Hash) : Except ErrorCode Value := (S.cat st hash).1

/-- Storage operations that are absent or always succeed. An id is not empty: Node::store
asserts that every node it has stored has one. -/
def Storage.AddsSucceed {σ : Type} (cfg : Config) (S : Storage σ) : Prop :=
  cfg.addOp = true → ∀ st x, ∃ h st', S.add st x = (.ok h,st') ∧ h.isEmpty = false

/-- A block that was added under an id is read back from it until the id is removed. -/
structure Storage.Faithful {σ : Type} (S : Storage σ) : Prop where
  stores : ∀ {st x h st'}, S.add st x = (.ok h,st') → h.isEmpty = false ∧ h.ValidUtf8 ∧ S.reads st' h = .ok x
  addKeeps : ∀ {st x r st' g y}, S.add st x = (r,st') → S.reads st g = .ok y → S.reads st' g = .ok y
  removeKeeps : ∀ {st h g y}, g ≠ h → S.reads st g = .ok y → S.reads (S.remove st h) g = .ok y
  catKeeps : ∀ {st h g y}, S.reads st g = .ok y → S.reads (S.cat st h).2 g = .ok y

namespace StdString

def ofChars (text : List Char) : StdString := ⟨text.flatMap utf8Bytes⟩

theorem ofCharsValid (text : List Char) : (ofChars text).ValidUtf8 := ⟨text,rfl⟩

def decimal (n : Nat) : StdString := ofChars (Nat.toDigits 10 n)

theorem digitByte {c : Char} (h : c.isDigit = true) : utf8Bytes c = [Fin.ofNat 256 c.toNat] := by
  have bound : c.val.toNat ≤ 57 := by
    simp only [Char.isDigit,Bool.and_eq_true,decide_eq_true_eq] at h
    exact h.2
  have one : c.val.toNat ≤ 127 := by omega
  simp only [utf8Bytes,String.utf8EncodeChar,one,if_true,List.map_cons,List.map_nil]
  rfl

theorem decimalInjective : Function.Injective decimal := by
  have back (text : List Char) (digits : ∀ c ∈ text, c.isDigit = true) :
      (text.flatMap utf8Bytes).map (fun b => Char.ofNat b.val) = text := by
    induction text with
    | nil => rfl
    | cons c text ih =>
      have digit := digits c (by simp)
      have bound : c.toNat ≤ 57 := by
        simp only [Char.isDigit,Bool.and_eq_true,decide_eq_true_eq] at digit
        exact digit.2
      rw [List.flatMap_cons,digitByte digit,List.map_append,ih fun d mem => digits d (List.mem_cons_of_mem _ mem)]
      simp [Nat.mod_eq_of_lt (show c.toNat < 256 by omega)]
  intro n m same
  have digits (n : Nat) := back (Nat.toDigits 10 n) fun c mem => Nat.isDigit_of_mem_toDigits (by omega)
      (by omega) mem
  have bytes : (Nat.toDigits 10 n).flatMap utf8Bytes = (Nat.toDigits 10 m).flatMap utf8Bytes :=
      congrArg StdString.bytes same
  have texts : Nat.toDigits 10 n = Nat.toDigits 10 m := by rw [← digits n,← digits m,bytes]
  rw [← Nat.ofDigitChars_ten_toDigits (n := n),← Nat.ofDigitChars_ten_toDigits (n := m),texts]

theorem decimalProper (n : Nat) : (decimal n).isEmpty = false := by
  rw [Bool.eq_false_iff,ne_eq,isEmptyIff]
  intro none_
  have digit : ∃ c rest, Nat.toDigits 10 n = c :: rest := List.exists_cons_of_ne_nil Nat.toDigits_ne_nil
  obtain ⟨c,rest,same⟩ := digit
  have bytes : (c :: rest).flatMap utf8Bytes = [] := by rw [← same]; exact congrArg StdString.bytes none_
  rw [List.flatMap_cons,digitByte (Nat.isDigit_of_mem_toDigits (b := 10) (n := n) (by omega) (by omega)
    (by rw [same]; simp))] at bytes
  cases bytes

end StdString
open StdString

structure MockStorage where
  blocks : List (Hash × Value)
  nextId : Nat
  sorted : Sorted blocks
  given : ∀ id ∈ OrderedMap.keys blocks, ∃ n < nextId, id = decimal n

namespace MockStorage

def empty : MockStorage := ⟨[],0,List.Pairwise.nil,by simp [OrderedMap.keys]⟩

def cat (s : MockStorage) (hash : Hash) : Except ErrorCode Value :=
  match OrderedMap.find hash s.blocks with
  | some x => .ok x
  | none => .error .notFound

def add (s : MockStorage) (x : Value) : Except ErrorCode Hash × MockStorage :=
  let id := decimal s.nextId
  (.ok id,
    { blocks := OrderedMap.assign id x s.blocks
      nextId := s.nextId + 1
      sorted := OrderedMap.assignSorted id x s.sorted
      given := fun h mem => by
        rcases (OrderedMap.keysAssign s.sorted).mp mem with rfl | old
        · exact ⟨s.nextId,by omega,rfl⟩
        · obtain ⟨n,less,same⟩ := s.given h old
          exact ⟨n,by omega,same⟩ })

def remove (s : MockStorage) (hash : Hash) : MockStorage :=
  { blocks := OrderedMap.erase hash s.blocks
    nextId := s.nextId
    sorted := OrderedMap.eraseSorted hash s.sorted
    given := fun h mem => s.given h (List.Sublist.subset (List.filter_sublist.map _) mem) }

def storage : Storage MockStorage := ⟨fun s h => (s.cat h,s),add,remove⟩

theorem addFresh (s : MockStorage) : decimal s.nextId ∉ OrderedMap.keys s.blocks := by
  intro mem
  obtain ⟨n,less,same⟩ := s.given _ mem
  have := decimalInjective same
  omega

theorem catSome {s : MockStorage} {hash : Hash} {x : Value} :
    s.cat hash = .ok x ↔ OrderedMap.find hash s.blocks = some x := by
  unfold cat
  split
  · rename_i y same
    rw [same]
    simp
  · rename_i missing
    rw [missing]
    simp

theorem faithful : storage.Faithful where
  stores := by
    rintro s x h s' step
    cases step
    refine ⟨decimalProper _,ofCharsValid _,catSome.mpr ?_⟩
    exact (OrderedMap.findAssign _ _ _ s.sorted).trans (if_pos rfl)
  addKeeps := by
    rintro s x r s' g y step there
    cases step
    have there' := catSome.mp there
    have other : g ≠ decimal s.nextId := by
      rintro rfl
      rw [(OrderedMap.findNone s.sorted).mpr s.addFresh] at there'
      cases there'
    exact catSome.mpr (((OrderedMap.findAssign _ _ _ s.sorted).trans (if_neg other)).trans there')
  removeKeeps := by
    rintro s h g y other there
    exact catSome.mpr (((OrderedMap.findErase _ _ s.sorted).trans (if_neg other)).trans (catSome.mp there))
  catKeeps := fun there => there

theorem addsSucceed (cfg : Config) : storage.AddsSucceed cfg := fun _ _ _ => ⟨_,_,rfl,decimalProper _⟩

end MockStorage
def mockConfig (maxNodeSize : Nat) : Config := ⟨maxNodeSize,true,true,nlohmann⟩

def letter (b : Fin 256) : StdString := ⟨[b]⟩

theorem letterUtf8 : ∀ b : Fin 256, b < 128 → (letter b).ValidUtf8 := by
  have one : ∀ b : Fin 256, b < 128 → utf8Bytes (Char.ofNat b.val) = [b] := by decide +kernel
  exact fun b ascii => ⟨[Char.ofNat b.val],by simp [letter,one b ascii]⟩

theorem asciiUtf8 {s : StdString} (ascii : s.Ascii) : s.ValidUtf8 := by
  obtain ⟨bs⟩ := s
  induction bs with
  | nil => exact ⟨[],rfl⟩
  | cons b bs ih =>
    obtain ⟨small,rest⟩ := List.forall_mem_cons.mp ascii
    obtain ⟨text,bytes⟩ := ih rest
    obtain ⟨one,byte⟩ := letterUtf8 b (by rw [Fin.lt_def]; exact small)
    exact ⟨one ++ text,by rw [List.flatMap_append,← byte,← bytes]; rfl⟩

end IpfsCache
