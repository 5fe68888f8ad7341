import NetCpp.Memory
import NetCpp.Library.Scanf

namespace NetCpp
open Library

def dot : Byte := 46

namespace Addr
open Scanf

/-- `"%d.%d.%d.%d "` -/
def ipFormat : List Directive :=
  [.int, .char dot, .int, .char dot, .int, .char dot, .int, .blank]

/-- What `sprintf` writes for `"%d.%d.%d.%d"`. -/
def printIP (a b c d : Int) : Bytes :=
  Decimal.ofInt a ++ dot :: (Decimal.ofInt b ++ dot :: (Decimal.ofInt c ++ dot :: Decimal.ofInt d))

/-- Given what `%d` stores for a numeral that is not one of an `int`. -/
def checkValidIP (wide : Int → Int32) (ipaddr : Bytes) : Except Fault Bool :=
  match sscanf wide ipFormat (cStr ipaddr) with
  | [a, b, c, d] =>
    if 0 ≤ a ∧ a ≤ 255 ∧ 0 ≤ b ∧ b ≤ 255 ∧ 0 ≤ c ∧ c ≤ 255 ∧ 0 ≤ d ∧ d ≤ 255 then do
      let temp ← writeBytes 31 [] (printIP a b c d ++ [0])
      return cStr temp == cStr ipaddr
    else return false
  | _ => return false

end Addr

end NetCpp
