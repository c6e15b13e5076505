/-
This file proves which words of a settings text are integers, and that a number is read back from
its digits.
-/

import RouteSearch.Settings.StrayLine
import Mathlib.Data.List.Basic

namespace RouteSearch.Settings.Text


variable {char : Char} {word : List Char}

theorem digit?_ten (char : Char) :
    digit? 10 char = if char.isDigit then some (char.toNat - 48) else none := by
  have small (low high : Char) : (decide (low ≤ char) && decide (char ≤ high)) =
      decide (low.toNat ≤ char.toNat ∧ char.toNat ≤ high.toNat) := by
    rw [Bool.decide_and]
    rfl
  have isDigit : char.isDigit = decide (48 ≤ char.toNat ∧ char.toNat ≤ 57) := by
    rw [Bool.eq_iff_iff, Char.isDigit_iff_toNat, decide_eq_true_iff]
    rfl
  rw [digit?, small, small, small, isDigit]
  simp only [Char.reduceToNat, decide_eq_true_eq]
  split_ifs <;> first | rfl | omega

/-- A digit in front of more digits. -/
theorem digit?_cons {rest : List Char} {digits : List Nat}
    (read : (do return (← digit? 10 char) :: (← groupedDigits? 10 rest)) = some digits) :
    char.isDigit = true ∧ ∃ others, groupedDigits? 10 rest = some others ∧
      digits = (char.toNat - 48) :: others := by
  rw [digit?_ten] at read
  cases isDigit : char.isDigit with
  | false => simp [isDigit] at read
  | true =>
      cases more : groupedDigits? 10 rest with
      | none => simp [more] at read
      | some others =>
          simp only [isDigit, more, if_true, Option.bind_eq_bind, Option.bind_some,
            Option.pure_def, Option.some.injEq] at read
          exact ⟨rfl, others, rfl, read.symm⟩

/-- Only digits and underscores stand in a number, and a digit comes first. -/
theorem groupedDigits?_inside {digits : List Nat} (read : groupedDigits? 10 word = some digits) :
    (∀ char ∈ word, char.isDigit = true ∨ char = '_') ∧
      ∃ first rest others, word = first :: rest ∧ first.isDigit = true ∧
        digits = (first.toNat - 48) :: others := by
  fun_induction groupedDigits? 10 word generalizing digits with
  | case1 => cases read
  | case2 last =>
      rw [digit?_ten] at read
      split at read
      · rename_i isDigit
        cases read
        exact ⟨by simpa using .inl isDigit, last, [], [], rfl, isDigit, rfl⟩
      · cases read
  | case3 first rest ih =>
      obtain ⟨isDigit, others, more, whole⟩ := digit?_cons read
      exact ⟨by simpa [isDigit] using (ih more).1, first, _, others, rfl, isDigit, whole⟩
  | case4 first rest _ _ ih =>
      obtain ⟨isDigit, others, more, whole⟩ := digit?_cons read
      exact ⟨by simpa [isDigit] using (ih more).1, first, _, others, rfl, isDigit, whole⟩

theorem groupedDigits?_digits (nonempty : word ≠ []) (digits : ∀ char ∈ word, char.isDigit = true) :
    groupedDigits? 10 word = some (word.map fun char => char.toNat - 48) := by
  fun_induction groupedDigits? 10 word with
  | case1 => exact absurd rfl nonempty
  | case2 last => simp [digit?_ten, digits last (by simp)]
  | case3 first rest _ => exact absurd (digits '_' (by simp)) (by decide)
  | case4 first rest notLast _ ih =>
      have more := ih (fun empty => notLast (by rw [empty])) fun char member =>
        digits char (List.mem_cons_of_mem _ member)
      simp [digit?_ten, digits first (by simp), more]

theorem valueOfDigits_map (word : List Char) :
    valueOfDigits 10 (word.map fun char => char.toNat - 48) = Nat.ofDigitChars 10 word 0 :=
  List.foldl_map

/-- A number never starts with a zero that could be left out. -/
theorem toDigits_head {number : Nat} (positive : 0 < number) :
    ∃ first rest, Nat.toDigits 10 number = first :: rest ∧ first ≠ '0' := by
  induction number using Nat.strongRecOn with
  | ind number ih =>
      by_cases small : number < 10
      · refine ⟨number.digitChar, [], Nat.toDigits_of_lt_base small, ?_⟩
        rw [Ne, Nat.digitChar_eq_zero]
        exact Nat.ne_of_gt positive
      · obtain ⟨first, rest, digits, nonzero⟩ := ih (number / 10) (by omega) (by omega)
        refine ⟨first, rest ++ [(number % 10).digitChar], ?_, nonzero⟩
        rw [Nat.toDigits_of_base_le (by omega) (by omega), digits, List.cons_append]

theorem decimal?_toDigits (number : Nat) : decimal? (Nat.toDigits 10 number) = some number := by
  have digits : ∀ char ∈ Nat.toDigits 10 number, char.isDigit = true :=
    fun char => Nat.isDigit_of_mem_toDigits (by decide) (by decide)
  have read := groupedDigits?_digits Nat.toDigits_ne_nil digits
  have value := valueOfDigits_map (Nat.toDigits 10 number)
  rw [Nat.ofDigitChars_ten_toDigits] at value
  rw [decimal?, read]
  split
  · rename_i second others zeroFirst
    -- two digits with a zero in front would be a number below ten
    have positive : 0 < number := by
      by_contra isZero
      rw [Nat.eq_zero_of_not_pos isZero] at zeroFirst
      cases zeroFirst
    obtain ⟨first, rest, starts, nonzero⟩ := toDigits_head positive
    have isDigit := digits first (by simp [starts])
    rw [starts, List.map_cons, Option.some.injEq, List.cons.injEq] at zeroFirst
    rw [Char.isDigit_iff_toNat] at isDigit
    refine absurd (Char.toNat_inj.mp ?_) nonzero
    have lower : 48 ≤ first.toNat := isDigit.1
    have upper := zeroFirst.1
    change first.toNat = 48
    omega
  · rename_i same
    rw [Option.some.injEq] at same
    rw [← same, value]
  · rename_i none
    cases none

theorem le_valueOfDigits (digits : List Nat) (start : Nat) :
    start ≤ digits.foldl (fun value digit => 10 * value + digit) start := by
  induction digits generalizing start with
  | nil => exact Nat.le_refl start
  | cons digit digits ih =>
      rw [List.foldl_cons]
      exact Nat.le_trans (by omega) (ih (10 * start + digit))

/-- A decimal number that does not start with a zero is positive. -/
theorem decimal?_inside {value : Nat} (read : decimal? word = some value) :
    (∀ char ∈ word, char.isDigit = true ∨ char = '_') ∧
      ∃ first rest, word = first :: rest ∧ first.isDigit = true ∧ (first ≠ '0' → 0 < value) := by
  rw [decimal?] at read
  split at read
  · cases read
  · rename_i digits grouped
    obtain ⟨inside, first, rest, others, starts, isDigit, rfl⟩ := groupedDigits?_inside grouped
    refine ⟨inside, first, rest, starts, isDigit, fun nonzero => ?_⟩
    have least := le_valueOfDigits others (10 * 0 + (first.toNat - 48))
    rw [Char.isDigit_iff_toNat] at isDigit
    have lower : 48 ≤ first.toNat := isDigit.1
    have different : first.toNat ≠ 48 := fun same => nonzero (Char.toNat_inj.mp same)
    rw [Option.some.injEq] at read
    rw [← read, valueOfDigits, List.foldl_cons]
    omega
  · cases read

/-- A decimal number that is taken for an integer. -/
theorem exists_of_cast {found : Option Nat} {value : Int}
    (read : (do let number ← found; pure (number : Int)) = some value) :
    ∃ number, found = some number ∧ value = number := by
  cases found with
  | none => cases read
  | some number => exact ⟨number, rfl, (Option.some.inj read).symm⟩

/-- An integer starts with a digit, or with a sign before a decimal number. -/
theorem unboundedInteger?_opens {value : Int} (read : unboundedInteger? word = some value) :
    ∃ first rest, word = first :: rest ∧
      (first.isDigit = true ∨
        first = '+' ∧ (∃ number, decimal? rest = some number ∧ value = number) ∨
        first = '-' ∧ ∃ number, decimal? rest = some number ∧ value = -(number : Int)) := by
  unfold unboundedInteger? at read
  split at read
  · exact ⟨_, _, rfl, .inl (by decide)⟩
  · exact ⟨_, _, rfl, .inl (by decide)⟩
  · exact ⟨_, _, rfl, .inl (by decide)⟩
  · obtain ⟨found, known, rfl⟩ := Option.map_eq_some_iff.mp read
    exact ⟨_, _, rfl, .inr (.inl ⟨rfl, exists_of_cast known⟩)⟩
  · obtain ⟨found, known, rfl⟩ := Option.map_eq_some_iff.mp read
    obtain ⟨number, decimal, rfl⟩ := exists_of_cast known
    exact ⟨_, _, rfl, .inr (.inr ⟨rfl, number, decimal, rfl⟩)⟩
  · obtain ⟨found, known, -⟩ := Option.map_eq_some_iff.mp read
    obtain ⟨number, decimal, -⟩ := exists_of_cast known
    obtain ⟨first, rest, starts, isDigit, -⟩ := (decimal?_inside decimal).2
    exact ⟨first, rest, starts, .inl isDigit⟩

/-- Without a sign and without the prefix of a base, an integer is in decimal. -/
theorem unboundedInteger?_unsigned (signs : ∀ sign ∈ word.head?, sign ≠ '+' ∧ sign ≠ '-')
    (bases : ∀ base ∈ word.tail.head?, base ≠ 'x' ∧ base ≠ 'o' ∧ base ≠ 'b') :
    unboundedInteger? word = (decimal? word).map Int.ofNat := by
  unfold unboundedInteger?
  split
  · exact absurd rfl (bases 'x' rfl).1
  · exact absurd rfl (bases 'o' rfl).2.1
  · exact absurd rfl (bases 'b' rfl).2.2
  · exact absurd rfl (signs '+' rfl).1
  · exact absurd rfl (signs '-' rfl).2
  · cases decimal? word <;> rfl

/-- Integers of 64 bits with a sign are read, and no others. -/
theorem integer?_toDigits (number : Nat) : integer? (Nat.toDigits 10 number) =
    if number < Nat.pow 2 63 then some (number : Int) else none := by
  have digits : ∀ char ∈ Nat.toDigits 10 number, char.isDigit = true :=
    fun char => Nat.isDigit_of_mem_toDigits (by decide) (by decide)
  have signs : ∀ sign ∈ (Nat.toDigits 10 number).head?, sign ≠ '+' ∧ sign ≠ '-' := by
    intro sign first
    have isDigit := digits sign (List.mem_of_mem_head? first)
    constructor <;> rintro rfl <;> exact absurd isDigit (by decide)
  have bases : ∀ base ∈ (Nat.toDigits 10 number).tail.head?,
      base ≠ 'x' ∧ base ≠ 'o' ∧ base ≠ 'b' := by
    intro base second
    have isDigit := digits base (List.mem_of_mem_tail (List.mem_of_mem_head? second))
    refine ⟨?_, ?_, ?_⟩ <;> rintro rfl <;> exact absurd isDigit (by decide)
  have unsigned := unboundedInteger?_unsigned signs bases
  rw [decimal?_toDigits, Option.map_some] at unsigned
  have power : Int.pow 2 63 = ((Nat.pow 2 63 : Nat) : Int) := rfl
  rw [integer?, unsigned]
  simp only [power, Int.ofNat_eq_natCast, Bool.and_eq_true, decide_eq_true_eq]
  by_cases fits : number < Nat.pow 2 63
  · rw [if_pos fits, if_pos (by omega)]
  · rw [if_neg fits, if_neg (by omega)]

theorem unbounded_of_integer {value : Int} (read : integer? word = some value) :
    unboundedInteger? word = some value := by
  rw [integer?] at read
  split at read
  · cases read
  · rename_i unbounded
    split at read
    · exact unbounded.trans read
    · cases read

/-- A minus sign before another digit than zero makes a negative number. -/
theorem integer?_negative {digit : Char} {value : Int}
    (positive : digit ≠ '0') (read : integer? ('-' :: digit :: word) = some value) : value < 0 := by
  obtain ⟨first, rest, starts, cases⟩ := unboundedInteger?_opens (unbounded_of_integer read)
  cases starts
  rcases cases with digit | ⟨plus, -⟩ | ⟨-, number, decimal, rfl⟩
  · exact absurd digit (by decide)
  · exact absurd plus (by decide)
  · obtain ⟨first, rest, starts, -, above⟩ := (decimal?_inside decimal).2
    cases starts
    have := above positive
    omega

/-- A sign is followed by a decimal number. -/
theorem unboundedInteger?_signed {sign : Char} (isSign : sign = '+' ∨ sign = '-')
    (noDecimal : decimal? word = none) : unboundedInteger? (sign :: word) = none := by
  cases read : unboundedInteger? (sign :: word) with
  | none => rfl
  | some value =>
      obtain ⟨first, rest, starts, cases⟩ := unboundedInteger?_opens read
      cases starts
      rw [noDecimal] at cases
      rcases cases with digit | ⟨-, number, ⟨⟩, -⟩ | ⟨-, number, ⟨⟩, -⟩
      rcases isSign with rfl | rfl <;> exact absurd digit (by decide)

theorem integer?_signed {sign : Char} (isSign : sign = '+' ∨ sign = '-')
    (noDigit : ∀ char ∈ word.head?, char.isDigit = false) : integer? (sign :: word) = none := by
  have noDecimal : decimal? word = none := by
    cases decimal : decimal? word with
    | none => rfl
    | some number =>
        obtain ⟨first, rest, rfl, isDigit, -⟩ := (decimal?_inside decimal).2
        rw [noDigit first rfl] at isDigit
        cases isDigit
  rw [integer?, unboundedInteger?_signed isSign noDecimal]

theorem decimal?_broken (member : char ∈ word) (breaks : Setting.breaksInteger char = true) :
    decimal? word = none := by
  cases decimal : decimal? word with
  | none => rfl
  | some number =>
      rcases (decimal?_inside decimal).1 char member with isDigit | rfl
      · have other : char.isDigit = false := by
          simp only [Setting.breaksInteger, Bool.or_eq_true, decide_eq_true_eq] at breaks
          rcases breaks with (((rfl | rfl) | rfl) | rfl) | rfl <;> decide
        rw [other] at isDigit
        cases isDigit
      · exact absurd breaks (by decide)

/-- Fractions, exponents, dates and times of day are no integers. -/
theorem integer?_broken {sign digits rest : List Char}
    (isSign : sign = [] ∨ sign = ['+'] ∨ sign = ['-']) (nonempty : digits ≠ [])
    (areDigits : ∀ digit ∈ digits, digit.isDigit = true ∨ digit = '_')
    (breaks : Setting.breaksInteger char = true) :
    integer? (sign ++ digits ++ char :: rest) = none := by
  have noDecimal : decimal? (digits ++ char :: rest) = none :=
    decimal?_broken (by simp) breaks
  have noInteger : unboundedInteger? (sign ++ digits ++ char :: rest) = none := by
    rcases isSign with rfl | isSign
    · obtain ⟨first, others, rfl⟩ := List.exists_cons_of_ne_nil nonempty
      have firstDigit := areDigits first (by simp)
      rw [List.nil_append, unboundedInteger?_unsigned _ _, noDecimal, Option.map_none]
      · rintro sign ⟨⟩
        constructor <;> rintro rfl <;> revert firstDigit <;> decide
      · cases others with
        | nil =>
            rintro base ⟨⟩
            refine ⟨?_, ?_, ?_⟩ <;> rintro rfl <;> revert breaks <;> decide
        | cons second others =>
            have secondDigit := areDigits second (by simp)
            rintro base ⟨⟩
            refine ⟨?_, ?_, ?_⟩ <;> rintro rfl <;> revert secondDigit <;> decide
    · rcases isSign with rfl | rfl
      · exact unboundedInteger?_signed (.inl rfl) noDecimal
      · exact unboundedInteger?_signed (.inr rfl) noDecimal
  rw [integer?, noInteger]

end RouteSearch.Settings.Text
