import Mathlib.Tactic

/-!
# Numbers in a text

Reading a number from the front of a text, in a given base and in the base that
its prefix names, as `strtoul` with base 0 does on a text that begins with a
digit. What is printed in decimal is read back, with the rest of the text left
over, as long as the rest does not go on like a number.
-/

namespace DigitText

/-- The value of a digit or a letter, in the bases up to 36. -/
def digitValue (c : Char) : Option ℕ :=
  if c.isDigit then some (c.toNat - '0'.toNat)
  else if c.isLower then some (c.toNat - 'a'.toNat + 10)
  else if c.isUpper then some (c.toNat - 'A'.toNat + 10)
  else none

def isDigitOf (base : ℕ) (c : Char) : Bool := (digitValue c).any fun d => d < base

/-- Horner's rule. -/
def value (base : ℕ) (digits : List Char) : ℕ :=
  digits.foldl (fun n c => base * n + (digitValue c).getD 0) 0

/-- The longest number in front, and what follows it. -/
def read (base : ℕ) (text : List Char) : ℕ × List Char :=
  (value base (text.takeWhile (isDigitOf base)), text.dropWhile (isDigitOf base))

/-- `0x` and a digit begin a hexadecimal number, `0` an octal one. -/
def strtoul : List Char → ℕ × List Char
  | '0' :: x :: c :: rest =>
    if (x = 'x' ∨ x = 'X') ∧ isDigitOf 16 c then read 16 (c :: rest)
    else read 8 ('0' :: x :: c :: rest)
  | '0' :: rest => read 8 ('0' :: rest)
  | text => read 10 text

theorem digitValue_of_isDigit {c : Char} (h : c.isDigit = true) :
    digitValue c = some (c.toNat - '0'.toNat) := if_pos h

theorem isDigitOf_of_not_isDigit {base : ℕ} {c : Char} (hbase : base ≤ 10)
    (h : c.isDigit = false) : isDigitOf base c = false := by
  unfold isDigitOf digitValue
  rw [if_neg (by simp [h])]
  split_ifs
  · simp only [Option.any_some, decide_eq_false_iff_not]
    omega
  · simp only [Option.any_some, decide_eq_false_iff_not]
    omega
  · rfl

theorem isDigitOf_of_isDigit {c : Char} (h : c.isDigit = true) : isDigitOf 10 c = true := by
  have hle : c.toNat ≤ 57 := by
    simp only [Char.isDigit, ge_iff_le, Bool.and_eq_true, decide_eq_true_eq] at h
    exact h.2
  have hzero : '0'.toNat = 48 := rfl
  rw [isDigitOf, digitValue_of_isDigit h]
  simp only [Option.any_some, decide_eq_true_eq]
  omega

theorem value_eq_ofDigitChars {digits : List Char} (h : ∀ c ∈ digits, c.isDigit = true) :
    value 10 digits = Nat.ofDigitChars 10 digits 0 := by
  rw [value, Nat.ofDigitChars_eq_foldl]
  apply List.foldl_ext
  intro n c hc
  rw [digitValue_of_isDigit (h c hc), Option.getD_some]

/-- The number ends where the text does not go on with a digit. -/
theorem read_append {base : ℕ} {digits rest : List Char}
    (hdigits : ∀ c ∈ digits, isDigitOf base c = true)
    (hrest : ∀ c ∈ rest.head?, isDigitOf base c = false) :
    read base (digits ++ rest) = (value base digits, rest) := by
  have htake : (digits ++ rest).takeWhile (isDigitOf base) = digits := by
    rw [List.takeWhile_append_of_pos hdigits]
    cases rest with
    | nil => simp
    | cons c rest => simp [hrest c rfl]
  have hdrop : (digits ++ rest).dropWhile (isDigitOf base) = rest := by
    rw [List.dropWhile_append_of_pos hdigits]
    cases rest with
    | nil => rfl
    | cons c rest => simp [hrest c rfl]
  rw [read, htake, hdrop]

theorem head_toDigits {n : ℕ} (h : 0 < n) : (Nat.toDigits 10 n).head? ≠ some '0' := by
  induction n using Nat.strong_induction_on with
  | _ n ih =>
    by_cases hlt : n < 10
    · rw [Nat.toDigits_of_lt_base hlt]
      simp only [List.head?_cons, ne_eq, Option.some.injEq, Nat.digitChar_eq_zero]
      omega
    · rw [Nat.toDigits_of_base_le (by omega) (by omega), List.head?_append]
      have hdiv := ih (n / 10) (by omega) (by omega)
      cases hhead : (Nat.toDigits 10 (n / 10)).head? with
      | none => exact absurd (List.head?_eq_none_iff.mp hhead) Nat.toDigits_ne_nil
      | some c => simpa [hhead] using hdiv

theorem strtoul_of_head {text : List Char} (h : text.head? ≠ some '0') :
    strtoul text = read 10 text := by
  unfold strtoul
  split
  · exact absurd rfl h
  · exact absurd rfl h
  · rfl

/-- What is printed in decimal is read as it was. -/
theorem strtoul_toDigits (n : ℕ) {rest : List Char}
    (hrest : ∀ c ∈ rest.head?, c.isDigit = false ∧ c ≠ 'x' ∧ c ≠ 'X') :
    strtoul (Nat.toDigits 10 n ++ rest) = (n, rest) := by
  have hend : ∀ base ≤ 10, ∀ c ∈ rest.head?, isDigitOf base c = false :=
    fun base hbase c hc => isDigitOf_of_not_isDigit hbase (hrest c hc).1
  rcases Nat.eq_zero_or_pos n with rfl | hpos
  · have hzero : ∀ c ∈ ['0'], isDigitOf 8 c = true := by
      intro c hc
      rw [List.mem_singleton.mp hc]
      rfl
    have hoctal : read 8 (['0'] ++ rest) = (0, rest) := read_append hzero (hend 8 (by omega))
    rw [List.singleton_append] at hoctal
    rw [Nat.toDigits_zero, List.singleton_append]
    cases rest with
    | nil => exact hoctal
    | cons x rest =>
      obtain ⟨_, hx, hX⟩ := hrest x rfl
      cases rest with
      | nil => exact hoctal
      | cons c rest => simp only [strtoul, hx, hX, or_self, false_and, if_false, hoctal]
  · have hdigits : ∀ c ∈ Nat.toDigits 10 n, c.isDigit = true :=
      fun c hc => Nat.isDigit_of_mem_toDigits (by omega) (by omega) hc
    have hhead : (Nat.toDigits 10 n ++ rest).head? ≠ some '0' := by
      have hfirst := head_toDigits hpos
      cases htext : Nat.toDigits 10 n with
      | nil => exact absurd htext Nat.toDigits_ne_nil
      | cons c text => simpa [htext] using hfirst
    rw [strtoul_of_head hhead,
      read_append (fun c hc => isDigitOf_of_isDigit (hdigits c hc)) (hend 10 le_rfl),
      value_eq_ofDigitChars hdigits, Nat.ofDigitChars_ten_toDigits]

end DigitText
