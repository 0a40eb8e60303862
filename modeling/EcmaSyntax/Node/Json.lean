import EcmaSyntax.Error
import EcmaSyntax.Node.Data
import EcmaSyntax.Number.Shortest
import EcmaSyntax.Text.Quoted

/-!
# Data as JSON

`Data.json` writes data in JSON, in ASCII, with a line for each item and each entry. Entries are in
the order of the dictionary. Numbers have no bound, so an infinite one is written out in a word. A
pattern cannot be written.
-/

namespace EcmaSyntax.Data

/-- Items between two marks, one on each line, indented by four blanks for each level. -/
def enclosed (opening closing : CodePoint) (level : Nat) (items : List Text) : Text :=
  if items.isEmpty then [opening, closing]
  else
    let newline (level : Nat) : Text := 0x0a :: Text.times (4 * level) 0x20
    opening :: newline (level + 1)
      ++ (Text.join (0x2c :: newline (level + 1)) items ++ (newline level ++ [closing]))

def jsonDouble : Double → Text
  | .infinite negative => if negative then "-Infinity" else "Infinity"
  | d => d.text

mutual

def jsonAt (level : Nat) : Data → Except Fault Text
  | .null => return "null"
  | .bool b => return if b then "true" else "false"
  | .int i => return Text.ofInt i
  | .float d => return jsonDouble d
  | .text t => return Text.quoted t
  | .pattern _ => throw .wrongType
  | .list ds => return enclosed 0x5b 0x5d level (← jsonItems (level + 1) ds)
  | .dict es => return enclosed 0x7b 0x7d level (← jsonEntries (level + 1) es)

def jsonItems (level : Nat) : List Data → Except Fault (List Text)
  | [] => return []
  | d :: ds => return (← jsonAt level d) :: (← jsonItems level ds)

def jsonEntries (level : Nat) : List (Text × Data) → Except Fault (List Text)
  | [] => return []
  | (k, d) :: es =>
    return (Text.quoted k ++ Text.ofString ": " ++ (← jsonAt level d)) :: (← jsonEntries level es)

end

def json (d : Data) : Except Fault Text := jsonAt 0 d

end EcmaSyntax.Data
