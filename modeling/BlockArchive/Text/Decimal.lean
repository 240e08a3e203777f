import BlockArchive.Text.Digits

/-! # Decimal text

Numbers written with decimal places.

* **Rounding.** `roundHalfEven num den` is the whole number nearest to `num / den`; of two equally
  near it takes the even one.  `two_mul_dist_le` says that it is never further away than a half.
* **Fixed places.** `fixed places num den` writes `num / den` rounded to that many places.
* **Exact places.** `exact digits n` writes `n` units of the last of `digits` places, without zeros
  at the end, and without a point if nothing follows it.
* **Floating point.** `ratioOfBits` is the exact value of a finite number that is not negative, as a
  fraction. -/

namespace BlockArchive.Text

/-- The whole number nearest to `num / den`, the even one of two. -/
def roundHalfEven (num den : Nat) : Nat :=
  let q := num / den
  let r := num % den
  if 2 * r < den then q
  else if den < 2 * r then q + 1
  else if q % 2 = 0 then q
  else q + 1

/-- Rounding moves a fraction by at most a half: twice the distance is at most the denominator. -/
theorem two_mul_dist_le {num den : Nat} (h : 0 < den) :
    2 * num ≤ 2 * (den * roundHalfEven num den) + den ∧
      2 * (den * roundHalfEven num den) ≤ 2 * num + den := by
  have key := Nat.div_add_mod num den
  have lt := Nat.mod_lt num h
  unfold roundHalfEven
  simp only
  split
  · omega
  · split
    · rw [Nat.mul_add]; omega
    · split
      · omega
      · rw [Nat.mul_add]; omega

/-- `num / den` rounded to `places` places after the point. -/
def fixed (places num den : Nat) : String :=
  let units := roundHalfEven (num * Nat.pow 10 places) den
  toString (units / Nat.pow 10 places) ++ "."
    ++ String.ofList (zeroPadded 10 places (units % Nat.pow 10 places))

/-- `n / 10 ^ places`, exactly. -/
def exact (places n : Nat) : String :=
  let fraction :=
    ((zeroPadded 10 places (n % Nat.pow 10 places)).reverse.dropWhile (· = '0')).reverse
  toString (n / Nat.pow 10 places)
    ++ if fraction.isEmpty then "" else String.ofList ('.' :: fraction)

/-- The value of the floating-point number with these bits, as numerator and denominator.  The sign
is passed over, and so is that some bits stand for no number. -/
def ratioOfBits (bits : Nat) : Nat × Nat :=
  let exponent := bits / Nat.pow 2 52 % Nat.pow 2 11
  let fraction := bits % Nat.pow 2 52
  let mantissa := if exponent = 0 then fraction else fraction + Nat.pow 2 52
  let shift := if exponent = 0 then 1 else exponent
  if shift < 1075 then (mantissa, Nat.pow 2 (1075 - shift))
  else (mantissa * Nat.pow 2 (shift - 1075), 1)

end BlockArchive.Text
