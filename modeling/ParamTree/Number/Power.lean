/-!
# Powers of two and ten

The powers that binary and decimal numbers count in.
-/

namespace ParamTree

/-- Two to the power `n`. -/
def twoTo (n : Nat) : Nat := Nat.pow 2 n

/-- Ten to the power `n`. -/
def tenTo (n : Nat) : Nat := Nat.pow 10 n

end ParamTree
