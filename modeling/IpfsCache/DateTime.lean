import IpfsCache.Lib.Decimal
import IpfsCache.Text

/-! Boost.Date_Time, as far as the code uses it: to_iso_extended_string writes the time
stamp of an entry, from_iso_extended_string reads it. Both are parameters, with what is
documented of them; `boost` is a pair of functions that behave so. -/
namespace IpfsCache
open Decimal (padded number fields isDigit)

structure Instant where
  year : Nat
  month : Nat
  day : Nat
  hour : Nat
  minute : Nat
  second : Nat
  microsecond : Nat
  deriving DecidableEq

namespace Instant

def daysIn (year month : Nat) : Nat :=
  if month = 2 then if year % 4 = 0 ∧ (year % 100 ≠ 0 ∨ year % 400 = 0) then 29 else 28
  else if month ∈ [4,6,9,11] then 30 else 31

structure Valid (t : Instant) : Prop where
  year : 1400 ≤ t.year ∧ t.year ≤ 9999
  month : 1 ≤ t.month ∧ t.month ≤ 12
  day : 1 ≤ t.day ∧ t.day ≤ daysIn t.year t.month
  hour : t.hour < 24
  minute : t.minute < 60
  second : t.second < 60
  microsecond : t.microsecond < 1000000

theorem validIff (t : Instant) : t.Valid ↔ ((1400 ≤ t.year ∧ t.year ≤ 9999) ∧ (1 ≤ t.month ∧ t.month ≤ 12) ∧
    1 ≤ t.day ∧ t.day ≤ daysIn t.year t.month) ∧ t.hour < 24 ∧ t.minute < 60 ∧ t.second < 60 ∧
    t.microsecond < 1000000 :=
  ⟨fun h => ⟨⟨h.year,h.month,h.day⟩,h.hour,h.minute,h.second,h.microsecond⟩,
    fun h => ⟨h.1.1,h.1.2.1,h.1.2.2,h.2.1,h.2.2.1,h.2.2.2.1,h.2.2.2.2⟩⟩

instance (t : Instant) : Decidable t.Valid := decidable_of_iff' _ (validIff t)

def dateText (t : Instant) : List (Fin 256) := padded 4 t.year ++ 45 :: padded 2 t.month ++ 45 :: padded 2 t.day

def timeText (t : Instant) : List (Fin 256) :=
  padded 2 t.hour ++ 58 :: padded 2 t.minute ++ 58 :: padded 2 t.second ++
    if t.microsecond = 0 then [] else 46 :: padded 6 t.microsecond

theorem Valid.day2 {t : Instant} (valid : t.Valid) : t.day < 100 := by
  have most : daysIn t.year t.month ≤ 31 := by
    unfold daysIn
    split_ifs <;> omega
  have := valid.day
  omega

end Instant

abbrev ClockTime := { t : Instant // t.Valid }

/-- Of a ptime the code knows no more than this: those that tell the time of the clock, the
text of one, and the one a text stands for (none: an exception). -/
structure DateTime (Ptime : Type) where
  clock : ClockTime → Ptime
  toIsoExtendedString : Ptime → StdString
  fromIsoExtendedString : StdString → Option Ptime

def isTimeSeparator (b : Fin 256) : Bool := b = 45 || b = 58 || b = 44 || b = 46

def isJunk (b : Fin 256) : Bool := !isDigit b && b ≠ 43

structure DateTime.Documented {Ptime : Type} (dt : DateTime Ptime) : Prop where
  prints : ∀ t : ClockTime, dt.toIsoExtendedString (dt.clock t) = ⟨t.1.dateText ++ 84 :: t.1.timeText⟩
  throws : ∀ date time hour minute second rest, 84 ∉ date →
    fields isTimeSeparator time = hour :: minute :: second :: rest →
    (∃ b ∈ hour ++ minute ++ second, isJunk b = true) → dt.fromIsoExtendedString ⟨date ++ 84 :: time⟩ = none
  reads : ∀ (t : ClockTime) time hour minute second fraction rest, time.head? ≠ some 45 →
    fields isTimeSeparator time = hour :: minute :: second :: fraction :: rest →
    number hour = some t.1.hour → number minute = some t.1.minute → number second = some t.1.second →
    6 ≤ fraction.length → number (fraction.take 6) = some t.1.microsecond →
    dt.fromIsoExtendedString ⟨t.1.dateText ++ 84 :: time⟩ = some (dt.clock t)

namespace Instant

theorem digitPlain {b : Fin 256} (digit_ : isDigit b = true) : isTimeSeparator b = false ∧ b ≠ 84 := by
  revert b
  decide +kernel

theorem paddedPlain (width n : Nat) : ∀ b ∈ padded width n, isTimeSeparator b = false :=
  fun b mem => (digitPlain (Decimal.paddedDigits width n b mem)).1

theorem paddedSome {width : Nat} (some_ : 0 < width) (n : Nat) : padded width n ≠ [] := by
  rw [← List.length_pos_iff,Decimal.paddedLength]
  exact some_

theorem dateNoT (t : Instant) : 84 ∉ t.dateText := by
  have plain (width n : Nat) : 84 ∉ padded width n := fun mem =>
    (digitPlain (Decimal.paddedDigits width n 84 mem)).2 rfl
  simp [dateText,plain]

theorem timeFields (t : Instant) (tail : List (Fin 256)) (plain : ∀ b ∈ tail, isTimeSeparator b = false) :
    fields isTimeSeparator (t.timeText ++ tail) = padded 2 t.hour :: padded 2 t.minute ::
      if t.microsecond = 0 then [padded 2 t.second ++ tail]
      else [padded 2 t.second,padded 6 t.microsecond ++ tail] := by
  have two (n : Nat) (rest : List (Fin 256)) :=
    @Decimal.fieldsStep isTimeSeparator _ rest 58 (paddedPlain 2 n) (paddedSome Nat.two_pos n) rfl
  have open_ (width n : Nat) : ∀ b ∈ padded width n ++ tail, isTimeSeparator b = false :=
    List.forall_mem_append.mpr ⟨paddedPlain width n,plain⟩
  have more {width : Nat} (some_ : 0 < width) (n : Nat) : padded width n ++ tail ≠ [] := by
    simp [paddedSome some_ n]
  unfold timeText
  split
  · simp only [List.append_assoc,List.cons_append,List.append_nil]
    rw [two,two,Decimal.fieldsLast (open_ 2 t.second) (more Nat.two_pos _)]
  · simp only [List.append_assoc,List.cons_append]
    rw [two,two,Decimal.fieldsStep (c := 46) (paddedPlain 2 _) (paddedSome Nat.two_pos _) rfl,
      Decimal.fieldsLast (open_ 6 t.microsecond) (more (by decide) _)]

theorem timeHead (t : Instant) (tail : List (Fin 256)) : (t.timeText ++ tail).head? ≠ some 45 := by
  have first : ∃ b rest, t.timeText = b :: rest ∧ isDigit b = true := by
    have digits := Decimal.paddedDigits 2 t.hour
    cases at_ : padded 2 t.hour with
    | nil => exact absurd at_ (paddedSome Nat.two_pos _)
    | cons b rest => exact ⟨b,_,by rw [timeText,at_]; rfl,digits b (by rw [at_]; exact List.mem_cons_self)⟩
  obtain ⟨b,rest,at_,digit_⟩ := first
  rw [at_,List.cons_append,List.head?_cons]
  rintro ⟨⟩
  exact absurd digit_ (by decide)

end Instant

def readDate (date : List (Fin 256)) : Option (Nat × Nat × Nat) :=
  match fields (· = 45) date with
  | [year,month,day] => do some (← number year,← number month,← number day)
  | _ => none

def readTime (time : List (Fin 256)) : Option (Nat × Nat × Nat × Nat) :=
  match fields isTimeSeparator time with
  | hour :: minute :: second :: fraction :: _ =>
    do some (← number hour,← number minute,← number second,← number (fraction.take 6))
  | [hour,minute,second] => do some (← number hour,← number minute,← number second,0)
  | _ => none

def readInstant (text : List (Fin 256)) : Option ClockTime := do
  let (year,month,day) ← readDate (text.takeWhile (· ≠ 84))
  let (hour,minute,second,microsecond) ← readTime (text.dropWhile (· ≠ 84)).tail
  let t : Instant := ⟨year,month,day,hour,minute,second,microsecond⟩
  if valid : t.Valid then some ⟨t,valid⟩ else none

def boost : DateTime ClockTime := ⟨id,fun t => ⟨t.1.dateText ++ 84 :: t.1.timeText⟩,fun s => readInstant s.bytes⟩

theorem splitDate {date time : List (Fin 256)} (free : 84 ∉ date) :
    (date ++ 84 :: time).takeWhile (· ≠ 84) = date ∧ ((date ++ 84 :: time).dropWhile (· ≠ 84)).tail = time := by
  have all : ∀ b ∈ date, decide (b ≠ 84) = true := fun b mem => by
    simpa using fun same : b = 84 => free (same ▸ mem)
  constructor
  · rw [List.takeWhile_append_of_pos all]
    simp
  · rw [List.dropWhile_append_of_pos all]
    simp

theorem readDateBack (t : ClockTime) : readDate t.1.dateText = some (t.1.year,t.1.month,t.1.day) := by
  have plain (width n : Nat) : ∀ b ∈ padded width n, decide (b = 45) = false := fun b mem =>
    decide_eq_false fun same => absurd (Instant.paddedPlain width n b mem) (by rw [same]; decide)
  have year := @Decimal.numberPadded 4 t.1.year (by decide) (by have := t.2.year; omega)
  have month := @Decimal.numberPadded 2 t.1.month (by decide) (by have := t.2.month; omega)
  have day := @Decimal.numberPadded 2 t.1.day (by decide) (by have := t.2.day2; omega)
  have cut : fields (fun b => decide (b = 45)) t.1.dateText =
      [padded 4 t.1.year,padded 2 t.1.month,padded 2 t.1.day] := by
    rw [Instant.dateText]
    simp only [List.append_assoc,List.cons_append]
    rw [Decimal.fieldsStep (plain 4 _) (Instant.paddedSome (by decide) _) rfl,
      Decimal.fieldsStep (plain 2 _) (Instant.paddedSome (by decide) _) rfl,
      Decimal.fieldsLast (plain 2 _) (Instant.paddedSome (by decide) _)]
  simp [readDate,cut,year,month,day]

theorem junkSpoils {hour minute second : List (Fin 256)} (junk : ∃ b ∈ hour ++ minute ++ second, isJunk b = true) :
    number hour = none ∨ number minute = none ∨ number second = none := by
  obtain ⟨b,mem,junk⟩ := junk
  have other : isDigit b = false := by
    simp only [isJunk,Bool.and_eq_true,Bool.not_eq_true'] at junk
    exact junk.1
  simp only [List.mem_append] at mem
  rcases mem with (h | h) | h
  · exact .inl (Decimal.numberSpoiled h other)
  · exact .inr (.inl (Decimal.numberSpoiled h other))
  · exact .inr (.inr (Decimal.numberSpoiled h other))

theorem boostDocumented : boost.Documented where
  prints _ := rfl
  throws date time hour minute second rest free cut junk := by
    have spoiled : readTime time = none := by
      rw [readTime,cut]
      rcases junkSpoils junk with h | h | h <;> cases rest <;>
        cases number hour <;> cases number minute <;> simp [h]
    have parts := @splitDate _ time free
    change readInstant (date ++ 84 :: time) = none
    rw [readInstant,parts.1,parts.2,spoiled]
    cases readDate date <;> rfl
  reads t time hour minute second fraction rest _ cut hour_ minute_ second_ _ fraction_ := by
    have clock : readTime time = some (t.1.hour,t.1.minute,t.1.second,t.1.microsecond) := by
      simp [readTime,cut,hour_,minute_,second_,fraction_]
    have parts := @splitDate _ time t.1.dateNoT
    change readInstant (t.1.dateText ++ 84 :: time) = some t
    rw [readInstant,parts.1,parts.2,clock,readDateBack]
    exact dif_pos t.2

end IpfsCache
