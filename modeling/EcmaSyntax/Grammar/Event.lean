import EcmaSyntax.Node.Basic

/-!
# What a run leaves behind

Besides its result, a run leaves the tokens it has read and the nodes it has finished, both in order.
A `TokenRecord` is a token with its place, an `Event` a node with its place at the time it was
finished. Comments are events too. What is reported of all this is decided afterwards.

A `Delegate` sees each node as it is finished, and says what takes its place.
-/

namespace EcmaSyntax

/-- A token that was read, with its place. -/
structure TokenRecord where
  token : Token
  span : Span
  deriving Repr, Inhabited

/-- What becomes of a finished node: the same node, perhaps with other attributes, or another value. -/
inductive Change where
  | keep (n : Node)
  | replace (v : Value)
  deriving Inhabited

abbrev Delegate := Node → Span → Change

def Delegate.idle : Delegate := fun n _ => .keep n

/-- A node that was finished, and what took its place. -/
structure Event where
  isComment : Bool
  given : Node
  taken : Node
  span : Span
  deriving Inhabited

/-- The event at which a node is finished and shown to a delegate, the `k`-th of a run. The node gets
an even number, and a node that replaces it the odd number after that. -/
def Event.make (d : Delegate) (k : Nat) (isComment : Bool) (n : Node) (span : Span) : Event :=
  let given : Node := { n with serial := some (2 * k), span := some span }
  let taken : Node := match d given span with
    | .keep n => n
    | .replace (.object form serial span fields extra) =>
      ⟨form, serial <|> some (2 * k + 1), span, fields, extra⟩
    | .replace v => .standIn v
  { isComment, given, taken, span }

end EcmaSyntax
