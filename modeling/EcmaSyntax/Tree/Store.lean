import EcmaSyntax.Node.Basic
import Std.Data.HashMap

/-!
# Stores of nodes

In a tree, a node is a part of the value that holds it. Nodes that are shared, or that reach
themselves, are kept in a `Store` instead, and `Value.ref` says where. `Store.add` moves the nodes of
a value into a store; a node with a number moves only once, so what was one node before stays one
node.
-/

namespace EcmaSyntax

/-- Nodes by their places. The values in them refer to nodes and hold none. -/
structure Store where
  objects : Array Node
  /-- The places of nodes that have numbers. -/
  places : Std.HashMap Nat Nat
  deriving Inhabited

namespace Store

def empty : Store := ⟨#[], ∅⟩

def get (s : Store) (i : Nat) : Node := s.objects.getD i default

def put (s : Store) (i : Nat) (n : Node) : Store :=
  { s with objects := s.objects.setIfInBounds i n }

/-- Makes a place for a node, whose number counts from now on. -/
def reserve (s : Store) (serial : Option Nat) : Nat × Store :=
  let i := s.objects.size
  let places := match serial with
    | none => s.places
    | some k => s.places.insert k i
  (i, ⟨s.objects.push default, places⟩)

def place? (s : Store) (serial : Option Nat) : Option Nat := serial.bind fun k => s.places[k]?

mutual

def add : Value → Store → Value × Store
  | .object form serial span fields extra, s =>
    match s.place? serial with
    | some i => (.ref i, s)
    | none =>
      let (i, s) := s.reserve serial
      let (fields, s) := addFields fields s
      let (extra, s) := addFields extra s
      (.ref i, s.put i ⟨form, serial, span, fields, extra⟩)
  | .list vs, s =>
    let (vs, s) := addAll vs s
    (.list vs, s)
  | .dict es, s =>
    let (es, s) := addEntries es s
    (.dict es, s)
  | v, s => (v, s)

def addAll : List Value → Store → List Value × Store
  | [], s => ([], s)
  | v :: vs, s =>
    let (v, s) := add v s
    let (vs, s) := addAll vs s
    (v :: vs, s)

def addEntries : List (Text × Value) → Store → List (Text × Value) × Store
  | [], s => ([], s)
  | (k, v) :: es, s =>
    let (v, s) := add v s
    let (es, s) := addEntries es s
    ((k, v) :: es, s)

def addFields : List (String × Value) → Store → List (String × Value) × Store
  | [], s => ([], s)
  | (n, v) :: fs, s =>
    let (v, s) := add v s
    let (fs, s) := addFields fs s
    ((n, v) :: fs, s)

end

/-- A store with the nodes of a value, and what the value is there. -/
def ofValue (v : Value) : Value × Store := add v .empty

end Store

namespace Value

mutual

def size : Value → Nat
  | .list vs => 1 + sizeAll vs
  | .dict es => 1 + sizeEntries es
  | .object _ _ _ fields extra => 1 + sizeFields fields + sizeFields extra
  | _ => 1

def sizeAll : List Value → Nat
  | [] => 0
  | v :: vs => size v + sizeAll vs

def sizeEntries : List (Text × Value) → Nat
  | [] => 0
  | (_, v) :: es => size v + sizeEntries es

def sizeFields : List (String × Value) → Nat
  | [] => 0
  | (_, v) :: fs => size v + sizeFields fs

end

end Value

/-- The attributes of a node as the entries of a dictionary. -/
def Node.entries (n : Node) : List (Text × Value) :=
  (n.fields ++ n.extra).map fun (name, v) => (Text.ofString name, v)

def Store.size (s : Store) : Nat :=
  Value.sizeAll (s.objects.toList.map .node)

end EcmaSyntax
