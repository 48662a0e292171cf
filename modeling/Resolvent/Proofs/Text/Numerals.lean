/-
# Reading integers

What the decimal notation makes of an integer is read back as that integer,
with or without a sign, and padding around it does not matter. There are two
things to be seen: that no character of the numeral is taken for padding, and
that the digits are put together again as they were taken apart. The only
condition is that there are not more digits than are read.
-/

import Mathlib
import Resolvent.CommandLine.PositiveInteger
import Resolvent.Proofs.Text.Parts

namespace Resolvent.Text

/-! ### Numerals without a sign -/

/-- A numeral consists of digits. -/
theorem isDigit_of_mem_numeral {c : Char} {n : Nat} (among : c ∈ Nat.toDigits 10 n) : c.isDigit :=
  Nat.isDigit_of_mem_toDigits (by decide) (by decide) among

/-- The digits of ASCII are a run of code points. -/
theorem bounds_of_isDigit {c : Char} (digit : c.isDigit) : 0x30 ≤ c.toNat ∧ c.toNat ≤ 0x39 := by
  simpa [Char.isDigit, UInt32.le_iff_toNat_le] using digit

/-- The digits of ASCII are those that begin at its zero. -/
theorem digitValue?_of_isDigit {c : Char} (digit : c.isDigit) :
    digitValue? c = some (c.toNat - '0'.toNat) := by
  obtain ⟨above, below⟩ := bounds_of_isDigit digit
  have worth := digitValue?_ofNat 0x30 (by decide) (c.toNat - 0x30) (by omega)
  rwa [Nat.add_sub_cancel' above, Char.ofNat_toNat] at worth

/-- Without low lines a numeral has the values of its digits. -/
theorem digitValues?_of_isDigit {digits : List Char} (some_digit : digits ≠ [])
    (all : ∀ c ∈ digits, c.isDigit) :
    digitValues? digits = some (digits.map fun c => c.toNat - '0'.toNat) := by
  fun_induction digitValues? digits with
  | case1 => exact absurd rfl some_digit
  | case2 c => simp [digitValue?_of_isDigit (all c List.mem_cons_self)]
  | case3 c rest ih =>
      exact absurd (all '_' (by simp)) (by decide)
  | case4 c rest alone _ ih =>
      have front := digitValue?_of_isDigit (all c List.mem_cons_self)
      have behind := ih (fun empty => alone empty) fun d hd => all d (List.mem_cons_of_mem c hd)
      simp [front, behind]

/-- The decimal digits of a number are read as that number, unless there are
too many of them. -/
theorem natural?_toDigits {n : Nat} (few : n < 10 ^ digitLimit) :
    natural? (Nat.toDigits 10 n) = some n := by
  have read : digitValues? (Nat.toDigits 10 n) =
      some ((Nat.toDigits 10 n).map fun c => c.toNat - '0'.toNat) :=
    digitValues?_of_isDigit Nat.toDigits_ne_nil fun _ => isDigit_of_mem_numeral
  have short : (Nat.toDigits 10 n).length ≤ digitLimit :=
    (Nat.length_toDigits_le_iff (by decide) (by decide)).mpr few
  have value : ofDigitValues ((Nat.toDigits 10 n).map fun c => c.toNat - '0'.toNat) = n := by
    rw [ofDigitValues, List.foldl_map, ← Nat.ofDigitChars_eq_foldl, Nat.ofDigitChars_ten_toDigits]
  rw [natural?, read, Option.bind_eq_bind, Option.bind_some, if_pos (by rwa [List.length_map]),
    value]
  rfl

/-! ### Integers -/

/-- Padding ends where the digits begin. -/
theorem not_isPadding_of_isDigit {c : Char} (digit : c.isDigit) : ¬ isPadding c := by
  have bounds := bounds_of_isDigit digit
  have no_space : c ≠ ' ' := by
    rintro rfl
    exact absurd bounds (by decide)
  simp only [isPadding, isAsciiSpace, no_space, decide_false, Bool.false_or, Bool.or_eq_true,
    Bool.and_eq_true, decide_eq_true_eq]
  omega

/-- A number is written with its decimal digits. -/
theorem toList_toString_ofNat (n : Nat) :
    (toString (Int.ofNat n)).toList = Nat.toDigits 10 n := by
  rw [show toString (Int.ofNat n) = toString n from rfl, Nat.toString_eq_ofList_toDigits,
    String.toList_ofList]

/-- A negative integer is written with a sign in front of its digits. -/
theorem toList_toString_negSucc (n : Nat) :
    (toString (Int.negSucc n)).toList = '-' :: Nat.toDigits 10 (n + 1) := by
  rw [show toString (Int.negSucc n) = "-" ++ toString (n + 1) from rfl, String.toList_append,
    Nat.toString_eq_ofList_toDigits]
  exact congrArg ('-' :: ·) String.toList_ofList

/-- A written integer has nothing in it that would be dropped at its ends. -/
theorem not_isPadding_of_mem_toString {i : Int} {c : Char} (hc : c ∈ (toString i).toList) :
    ¬ isPadding c := by
  have digits {n : Nat} (hc : c ∈ Nat.toDigits 10 n) : ¬ isPadding c :=
    not_isPadding_of_isDigit (isDigit_of_mem_numeral hc)
  cases i with
  | ofNat n =>
      rw [toList_toString_ofNat] at hc
      exact digits hc
  | negSucc n =>
      rw [toList_toString_negSucc] at hc
      rcases List.mem_cons.mp hc with rfl | hc
      · decide
      · exact digits hc

/-- An integer that is written in decimal is read back, with any padding around
it. -/
theorem integer?_toString (i : Int) (few : i.natAbs < 10 ^ digitLimit) {front back : List Char}
    (before : ∀ c ∈ front, isPadding c) (behind : ∀ c ∈ back, isPadding c) :
    integer? (String.ofList (front ++ ((toString i).toList ++ back))) = some i := by
  have bare : trimmed isPadding (toString i).toList = (toString i).toList :=
    trimmed_eq_self (fun _ first => not_isPadding_of_mem_toString (List.mem_of_mem_head? first))
      fun _ last => not_isPadding_of_mem_toString (List.mem_of_mem_getLast? last)
  rw [integer?, String.toList_ofList, trimmed_append before behind, bare]
  cases i with
  | ofNat n =>
      have unsigned {c : Char} {rest : List Char} (begins : Nat.toDigits 10 n = c :: rest) :
          c.isDigit :=
        isDigit_of_mem_numeral (begins ▸ List.mem_cons_self)
      rw [toList_toString_ofNat]
      split
      · next begins => exact absurd (unsigned begins) (by decide)
      · next begins => exact absurd (unsigned begins) (by decide)
      · exact congrArg (Option.map Int.ofNat) (natural?_toDigits few)
  | negSucc n =>
      rw [toList_toString_negSucc]
      exact congrArg (Option.map fun n => -Int.ofNat n) (natural?_toDigits few)

example : integer? " -70\n" = some (-70) := by
  decide +kernel

end Resolvent.Text

namespace Resolvent.CommandLine

/-- A positive number that is written in decimal is taken for what it is. -/
theorem positiveInteger_toString {n : Nat} (positive : 1 ≤ n)
    (few : n < 10 ^ Text.digitLimit) : positiveInteger (toString n) = .ok n := by
  have read :=
    Text.integer?_toString n few (List.forall_mem_nil _) (List.forall_mem_nil _)
  rw [List.nil_append, List.append_nil, String.ofList_toList] at read
  rw [positiveInteger, show toString n = toString (n : Int) from rfl, read]
  exact if_neg (show ¬ (n : Int) < 1 by omega)

end Resolvent.CommandLine
