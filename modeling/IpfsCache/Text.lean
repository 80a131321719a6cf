import Mathlib.Algebra.GroupWithZero.Nat
import Mathlib.Data.List.Lex
import Mathlib.Data.List.TakeWhile
import Mathlib.Order.Fin.Basic
import Mathlib.Order.WithBot

/-! std::string as the sequence of its bytes, ordered as operator< orders it
(bytes compared as unsigned char), and the error codes that leave an operation. -/
namespace IpfsCache

instance (priority := 2000) byteRange : NeZero 256 := ⟨Nat.succ_ne_zero 255⟩

structure StdString where
  bytes : List (Fin 256)
  deriving Repr

theorem StdString.bytesInjective : Function.Injective StdString.bytes := fun ⟨_⟩ ⟨_⟩ h => congrArg _ h

instance : LinearOrder StdString := LinearOrder.lift' StdString.bytes StdString.bytesInjective

namespace StdString

def isEmpty (s : StdString) : Bool := s.bytes.isEmpty

def cStr (s : StdString) : StdString := ⟨s.bytes.takeWhile (· ≠ 0)⟩

def NulFree (s : StdString) : Prop := 0 ∉ s.bytes
instance (s) : Decidable (NulFree s) := by unfold NulFree; infer_instance

def utf8Bytes (c : Char) : List (Fin 256) := (String.utf8EncodeChar c).map (fun b => b.toBitVec.toFin)

def Ascii (s : StdString) : Prop := ∀ b ∈ s.bytes, b.val < 128
instance (s : StdString) : Decidable s.Ascii := List.decidableBAll (fun b : Fin 256 => b.val < 128) s.bytes

def ValidUtf8 (s : StdString) : Prop := ∃ text : List Char, s.bytes = text.flatMap utf8Bytes

theorem isEmptyIff {s : StdString} : s.isEmpty = true ↔ s = ⟨[]⟩ := by
  rcases s with ⟨_ | _⟩ <;> simp [isEmpty]

theorem cStrSelf {s : StdString} (h : s.NulFree) : s.cStr = s := by
  have all : ∀ b ∈ s.bytes, decide (b ≠ 0) = true := fun b hb => by
    simpa using fun same : b = 0 => h (same ▸ hb)
  rw [cStr,List.takeWhile_eq_self_iff.mpr all]

theorem emptyLess {s : StdString} (h : s.isEmpty = false) : (⟨[]⟩ : StdString) < s := by
  rcases s with ⟨_ | ⟨b,rest⟩⟩
  · simp [isEmpty] at h
  · change ([] : List (Fin 256)) < b :: rest
    exact List.nil_lt_cons b rest

end StdString

abbrev Key := StdString
abbrev Value := StdString
abbrev Hash := StdString

inductive ErrorCode where
  | notFound
  | badDescriptor
  | operationAborted
  | storage (code : Nat)
  deriving DecidableEq, Repr

abbrev Status := Except ErrorCode Unit

end IpfsCache
