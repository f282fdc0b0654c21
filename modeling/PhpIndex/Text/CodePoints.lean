/-!
# Sets of code points

A property of characters is a short list of bands of equally spaced code points.
-/
namespace PhpIndex.Text

/-- The code points `first`, `first + step`, and so on up to `last`. -/
structure Band where
  first : Nat
  last : Nat
  step : Nat

namespace Band

def has (b : Band) (n : Nat) : Bool :=
  b.first ≤ n && n ≤ b.last && (n - b.first) % b.step == 0

end Band

def bandsHave (bands : List Band) (c : Char) : Bool := bands.any (fun b => b.has c.toNat)

end PhpIndex.Text
