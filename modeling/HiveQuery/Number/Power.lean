/-!
# Powers of the bases

Powers of the bases in which numbers are kept and written.
-/

namespace HiveQuery.Number
set_option autoImplicit false

def twoTo (n : Nat) : Nat :=
  Nat.pow 2 n

def fiveTo (n : Nat) : Nat :=
  Nat.pow 5 n

def tenTo (n : Nat) : Nat :=
  Nat.pow 10 n

end HiveQuery.Number
