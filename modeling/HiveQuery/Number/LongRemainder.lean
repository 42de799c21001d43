import HiveQuery.Number.Power

/-!
# Remainders word by word

The remainder of long numbers, found by long division in words of 32 bits. It is exact for divisors of at
most two words. A longer divisor is first shifted until its leading bit stands at the top of three words.
Then each word of the dividend is taken down in turn. Where the number divided next begins with the
leading word of the divisor, that word is lost: no quotient word is large enough for it.
-/

namespace HiveQuery
set_option autoImplicit false

namespace Number

/-- The `count` low words of a number, the most significant first. -/
def words (n : Nat) : Nat → List Nat
  | 0 => []
  | count + 1 => n / twoTo (32 * count) % twoTo 32 :: words n count

/-- What one division by a shifted divisor of three words leaves of a number of four. -/
def remainderStep (den n : Nat) : Nat :=
  if n / twoTo 96 = den / twoTo 64 then n % twoTo 96 % den else n % den

/-- The remainder of a dividend of at most seven words after shifting, by a divisor of at most three. -/
def longRemainder (num den : Nat) : Nat :=
  if den < twoTo 64 then
    num % den
  else
    let shift := twoTo (95 - den.log2)
    let step := fun r w => remainderStep (den * shift) (r * twoTo 32 + w)
    (words (num * shift) 7).foldl step 0 / shift

end Number

end HiveQuery
