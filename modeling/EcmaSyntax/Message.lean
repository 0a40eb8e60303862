import EcmaSyntax.Error

/-!
# Messages with gaps

A gap in a message is a percent sign and a decimal digit of any script. The gaps are filled in order,
whatever their digits are; there must be something for each of them.
-/

namespace EcmaSyntax

def fillMessage : Text → List Text → Except Fault Text
  | [], _ => return []
  | [c], _ => return [c]
  | c :: d :: rest, args => do
    if c = 0x25 && CodePoint.isAnyDecimal d then
      match args with
      | [] => throw .unmetCondition
      | a :: args => return a ++ (← fillMessage rest args)
    else return c :: (← fillMessage (d :: rest) args)

/-- Fills the first gap `%0` of a message, and no other. -/
def fillFirst (arg : Text) : Text → Text
  | 0x25 :: 0x30 :: rest => arg ++ rest
  | c :: rest => c :: fillFirst arg rest
  | [] => []

end EcmaSyntax
