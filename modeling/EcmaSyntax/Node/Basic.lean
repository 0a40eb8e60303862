import EcmaSyntax.Token.Basic
import EcmaSyntax.Node.Kind

/-!
# Nodes and their values

A node of a syntax tree has named attributes, in the order in which they were given. Trees are open:
whoever builds one by hand, or changes one while it is built, may give any attribute any value. So an
attribute is looked up by its name, and is `null` if it is not there.

A `Value` is what an attribute may hold: a scalar, a compiled pattern, a list, a dictionary, or an
object, which is the view of a `Node` as a value. Where objects are shared, or reach themselves, they
are kept in a store, and a `Value.ref` stands for them. The kind of a node is the value of its attribute
`type`; a text there that merely spells the name of a kind is no kind.

The place of a node in its source is kept beside the attributes (`span`), and so is the number it was
given when it was finished (`serial`), which tells it from all other nodes of the same run.
Attributes given after that are in `extra`.
-/

namespace EcmaSyntax

/-- What an attribute may hold. -/
inductive Value where
  | null
  | bool (b : Bool)
  | int (i : Int)
  | float (d : Double)
  | text (t : Text)
  /-- The kind of a node. -/
  | kind (k : Kind)
  | pattern (p : Pattern)
  | list (items : List Value)
  | dict (entries : List (Text × Value))
  /-- An object kept elsewhere, in a store, under a number. -/
  | ref (i : Nat)
  /-- A node as a value. -/
  | object (form : String) (serial : Option Nat) (span : Option Span)
      (fields extra : List (String × Value))
  deriving Inhabited

/-- A node: the name of its form, its place, and its attributes. -/
structure Node where
  form : String
  serial : Option Nat
  span : Option Span
  fields : List (String × Value)
  extra : List (String × Value)
  deriving Inhabited

namespace Value

def word (s : String) : Value := .text s

def nat (n : Nat) : Value := .int n

def numeral : Numeral → Value
  | .whole n => .int n
  | .real d => .float d

/-- What a token says, as a value. -/
def ofLexeme : Lexeme → Value
  | .numeric v _ => .numeral v
  | .bigInt v _ => .int v
  | l => .text l.valueText

def node (n : Node) : Value := .object n.form n.serial n.span n.fields n.extra

def node? : Option Node → Value
  | none => .null
  | some n => .node n

def nodes (ns : List Node) : Value := .list (ns.map .node)

def asNode? : Value → Option Node
  | .object form serial span fields extra => some ⟨form, serial, span, fields, extra⟩
  | _ => none

def asText? : Value → Option Text
  | .text t => some t
  | .kind k => some k.name
  | _ => none

/-- The items of the list that a value is; none otherwise. -/
def items : Value → List Value
  | .list vs => vs
  | _ => []

/-- Does a value count as true? Null, false, zero and what is empty do not. -/
def isTruthy : Value → Bool
  | .null => false
  | .bool b => b
  | .int i => i ≠ 0
  | .float (.finite _ m _) => m ≠ 0
  | .float (.infinite _) => true
  | .text t => !t.isEmpty
  | .list vs => !vs.isEmpty
  | .dict es => !es.isEmpty
  | .kind _ | .pattern _ | .ref _ | .object _ _ _ _ _ => true

def isNull : Value → Bool
  | .null => true
  | _ => false

end Value

namespace Node

/-- A new node of a form, with attributes but no place. -/
def make (form : String) (fields : List (String × Value)) : Node := ⟨form, none, none, fields, []⟩

/-- Replaces the value of a name in a list of attributes, if it is there. -/
def putIn (name : String) (v : Value) : List (String × Value) → Option (List (String × Value))
  | [] => none
  | (n, w) :: rest =>
    if n = name then some ((n, v) :: rest) else (putIn name v rest).map ((n, w) :: ·)

/-- The value of an attribute; null if there is none. -/
def get (n : Node) (name : String) : Value :=
  match n.extra.lookup name with
  | some v => v
  | none => (n.fields.lookup name).getD .null

/-- Gives an attribute a value. A new one comes last; one that is there keeps its place. -/
def set (n : Node) (name : String) (v : Value) : Node :=
  match putIn name v n.fields with
  | some fields => { n with fields }
  | none =>
    match putIn name v n.extra with
    | some extra => { n with extra }
    | none => { n with extra := n.extra ++ [(name, v)] }

def erase (n : Node) (name : String) : Node :=
  { n with
    fields := n.fields.filter (·.1 ≠ name)
    extra := n.extra.filter (·.1 ≠ name) }

def kind? (n : Node) : Option Kind :=
  match n.get "type" with
  | .kind k => some k
  | _ => none

def is (n : Node) (k : Kind) : Bool := n.kind? == some k

def child? (n : Node) (name : String) : Option Node := (n.get name).asNode?

/-- The attribute of a node that is a text; empty if it is none. -/
def textOf (n : Node) (name : String) : Text := (n.get name).asText?.getD []

def children (n : Node) (name : String) : List Node := (n.get name).items.filterMap Value.asNode?

def has (n : Node) (name : String) : Bool := (n.get name).isTruthy

/-- A value of any sort in the place of a node. -/
def standIn (v : Value) : Node := make "" [("", v)]

/-- Is this a value in the place of a node? It has no attributes to look at. -/
def isStandIn (n : Node) : Bool := n.form == ""

end Node

end EcmaSyntax
