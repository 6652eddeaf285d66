/-
Bpfsnoop.Lib.Text — Go's `strings`, as far as it looks at single characters.
-/
import Mathlib.Data.List.Basic

namespace Bpfsnoop.Lib

/-- `unicode.IsSpace`. -/
def isSpace (c : Char) : Bool :=
  c.val.toNat ∈ [9, 10, 11, 12, 13, 32, 0x85, 0xa0, 0x1680, 0x2028, 0x2029, 0x202f, 0x205f, 0x3000] ||
    (0x2000 ≤ c.val.toNat && c.val.toNat ≤ 0x200a)

/-- `strings.TrimFunc`. -/
def trimFunc (text : String) (p : Char → Bool) : String :=
  String.ofList ((text.toList.dropWhile p).reverse.dropWhile p).reverse

/-- `strings.TrimSpace`. -/
def trimSpace (text : String) : String := trimFunc text isSpace

/-- `strings.Fields`. -/
def fields (line : String) : List String :=
  ((line.toList.splitOnP isSpace).filter (· ≠ [])).map String.ofList

end Bpfsnoop.Lib
