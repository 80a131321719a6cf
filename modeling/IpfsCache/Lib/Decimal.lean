import Mathlib.Algebra.GroupWithZero.Nat
import Mathlib.Data.Fin.Basic
import Mathlib.Order.Fin.Basic

/-! Decimal numerals in ASCII: printed with a fixed number of digits, and read back out of
a text that is split at separators. -/
namespace Decimal

abbrev Bytes := List (Fin 256)

def digit (n : Nat) : Fin 256 := Fin.ofNat 256 (48 + n % 10)
def isDigit (b : Fin 256) : Bool := 48 ≤ b.val && b.val ≤ 57

def padded : Nat → Nat → Bytes
  | 0,_ => []
  | width + 1,n => padded width (n / 10) ++ [digit n]

def value (s : Bytes) : Nat := s.foldl (fun n b => 10 * n + (b.val - 48)) 0

def number (s : Bytes) : Option Nat := if !s.isEmpty && s.all isDigit then some (value s) else none

def fields (sep : Fin 256 → Bool) (s : Bytes) : List Bytes := (s.splitOnP sep).filter (! ·.isEmpty)

theorem digitVal (n : Nat) : (digit n).val = 48 + n % 10 := by
  have : 48 + n % 10 < 256 := by omega
  simp [digit,Nat.mod_eq_of_lt this]

theorem isDigitDigit (n : Nat) : isDigit (digit n) = true := by
  have := digitVal n
  simp only [isDigit,this,Bool.and_eq_true,decide_eq_true_eq]
  omega

theorem paddedDigits (width n : Nat) : ∀ b ∈ padded width n, isDigit b = true := by
  induction width generalizing n with
  | zero => simp [padded]
  | succ width ih =>
    intro b mem
    rcases List.mem_append.mp mem with more | last
    · exact ih _ b more
    · rw [List.mem_singleton.mp last]
      exact isDigitDigit n

theorem paddedLength (width n : Nat) : (padded width n).length = width := by
  induction width generalizing n with
  | zero => rfl
  | succ width ih => simp [padded,ih]

theorem valuePadded {width n : Nat} (small : n < 10 ^ width) : value (padded width n) = n := by
  induction width generalizing n with
  | zero =>
    have : n = 0 := by simpa using small
    subst this
    rfl
  | succ width ih =>
    have upper := ih (n := n / 10) (by rw [Nat.pow_succ] at small; omega)
    rw [value] at upper
    rw [value,padded,List.foldl_append,upper,List.foldl_cons,List.foldl_nil,digitVal]
    omega

theorem numberPadded {width n : Nat} (some_ : 0 < width) (small : n < 10 ^ width) :
    number (padded width n) = some n := by
  have digits : (padded width n).all isDigit = true := List.all_eq_true.mpr (paddedDigits width n)
  have full : (padded width n).isEmpty = false := by
    rw [List.isEmpty_eq_false_iff,← List.length_pos_iff,paddedLength]
    exact some_
  rw [number,full,digits,valuePadded small]
  rfl

theorem numberSpoiled {s : Bytes} {b : Fin 256} (mem : b ∈ s) (other : isDigit b = false) : number s = none := by
  have spoiled : s.all isDigit = false := List.all_eq_false.mpr ⟨b,mem,by simp [other]⟩
  rw [number,spoiled,Bool.and_false]
  rfl

theorem fieldsStep {sep : Fin 256 → Bool} {s rest : Bytes} {c : Fin 256} (plain : ∀ b ∈ s, sep b = false)
    (some_ : s ≠ []) (at_ : sep c = true) : fields sep (s ++ c :: rest) = s :: fields sep rest := by
  have cut := List.splitOnP_append_cons_of_forall_mem plain c at_ rest
  simp [fields,cut,some_]

theorem fieldsLast {sep : Fin 256 → Bool} {s : Bytes} (plain : ∀ b ∈ s, sep b = false) (some_ : s ≠ []) :
    fields sep s = [s] := by
  have whole := List.splitOnP_eq_singleton plain
  simp [fields,whole,some_]

end Decimal
