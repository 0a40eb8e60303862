import EcmaSyntax.Node.Basic

/-!
# Plain data

`Data` has neither objects nor kinds: what a tree is reduced to when it is handed out. An object
becomes a dictionary of its attributes; those without a value, and those whose name starts with an
underscore, are left out.
-/

namespace EcmaSyntax

/-- Plain data. -/
inductive Data where
  | null
  | bool (b : Bool)
  | int (i : Int)
  | float (d : Double)
  | text (t : Text)
  | pattern (p : Pattern)
  | list (items : List Data)
  | dict (entries : List (Text × Data))
  deriving Inhabited

namespace Data

/-- Sets a key of a dictionary. A key that is there keeps its place. -/
def put (k : Text) (d : Data) : List (Text × Data) → List (Text × Data)
  | [] => [(k, d)]
  | (k', d') :: rest => if k' = k then (k, d) :: rest else (k', d') :: put k d rest

/-- A dictionary with some keys; of two values for a key, the later one counts. -/
def ofEntries (entries : List (Text × Data)) : Data :=
  .dict (entries.foldl (fun es (k, d) => put k d es) [])

end Data

/-- The key under which an attribute is handed out. -/
def dataKey (name : Text) : Text :=
  if name.is "isAsync" then "async" else if name.is "allowAwait" then "await" else name

def isHidden (name : Text) : Bool := name.head? = some 0x5f

namespace Value

mutual

def toData : Value → Data
  | .null | .ref _ => .null
  | .bool b => .bool b
  | .int i => .int i
  | .float d => .float d
  | .text t => .text t
  | .kind k => .text k.name
  | .pattern p => .pattern p
  | .list vs => .list (toDataList vs)
  | .dict es => .ofEntries (toDataEntries es)
  | .object _ _ _ fields extra => .ofEntries (toDataFields fields ++ toDataFields extra)

def toDataList : List Value → List Data
  | [] => []
  | v :: vs => toData v :: toDataList vs

def toDataEntries : List (Text × Value) → List (Text × Data)
  | [] => []
  | (k, v) :: es =>
    if v.isNull || isHidden k then toDataEntries es
    else (dataKey k, toData v) :: toDataEntries es

def toDataFields : List (String × Value) → List (Text × Data)
  | [] => []
  | (n, v) :: fs =>
    if v.isNull || isHidden n then toDataFields fs
    else (dataKey n, toData v) :: toDataFields fs

end

end Value

end EcmaSyntax
