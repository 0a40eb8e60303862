import EcmaSyntax.Node.Basic
import EcmaSyntax.Error

/-!
# Options

Options are given by name, as values, and most of them are flags: any value that counts as true turns
them on. Unknown ones are ignored.
-/

namespace EcmaSyntax

abbrev OptionList := List (Text × Value)

namespace OptionList

/-- The value of an option, if it is given. The last one counts. -/
def get? (o : OptionList) (name : String) : Option Value :=
  (o.reverse.find? (·.1.is name)).map (·.2)

def flag (o : OptionList) (name : String) : Bool := ((o.get? name).map Value.isTruthy).getD false

end OptionList

/-- The ways to ask for a program: as the options say, or as a script or a module in any case. -/
inductive EntryPoint where
  | parse
  | parseScript
  | parseModule
  deriving DecidableEq, Repr, Inhabited

def EntryPoint.options (e : EntryPoint) (o : OptionList) : OptionList :=
  match e with
  | .parse => o
  | .parseScript => o.concat ("sourceType", .word "script")
  | .parseModule => o.concat ("sourceType", .word "module")

/-- What to read and how to report it. -/
structure Options where
  tolerant : Bool
  /-- The edition of the language, by its year; the first editions count as 3 and 5. -/
  edition : Nat
  jsx : Bool
  classFields : Bool
  isModule : Bool
  range : Bool
  loc : Bool
  source : Value
  tokens : Bool
  comments : Bool
  attach : Bool
  deriving Inhabited

namespace Options

def latest : Nat := 2024

def earliest : Nat := 3

/-- A number as an edition: rounded down, and no edition that is not known. -/
def clamp (i : Int) : Nat := (min (max i earliest) latest).toNat

/-- The edition that a value stands for: a number. -/
def editionOf : Value → Except Fault Nat
  | .bool b => return clamp (if b then 1 else 0)
  | .int i => return clamp i
  | .float (.finite negative m q) =>
    return if negative then earliest
      else if 0 ≤ q then clamp ((m <<< q.toNat : Nat) : Int)
      else clamp ((m >>> (-q).toNat : Nat) : Int)
  | .float (.infinite negative) => return if negative then earliest else latest
  | _ => throw .wrongType

/-- Options as they are given to the grammar, without any preset. No edition is the latest. -/
def plain (o : OptionList) : Except Fault Options := do
  let edition ← match o.get? "ecmaVersion" with
    | none | some .null => pure latest
    | some v => editionOf v
  let source := (o.get? "source").getD .null
  return {
    tolerant := o.flag "tolerant"
    edition
    jsx := o.flag "jsx"
    classFields := o.flag "classProperties"
    isModule := false
    range := o.flag "range"
    loc := o.flag "loc"
    source := if source.isTruthy then source else .null
    tokens := o.flag "tokens"
    comments := o.flag "comment"
    attach := false }

/-- Options for a whole program. Later editions have fields in classes, and so has `esnext`, which has
markup too. -/
def preset (o : OptionList) : Except Fault Options := do
  let edition ← editionOf ((o.get? "ecmaVersion").getD (.nat latest))
  let plain ← plain o
  let esnext := o.flag "esnext"
  let sourceType := match o.get? "sourceType" with
    | some (.text t) => t
    | _ => []
  return { plain with
    edition
    jsx := plain.jsx || esnext
    classFields := plain.classFields || esnext || 2022 ≤ edition
    isModule := sourceType.is "module"
    attach := o.flag "attachComment" }

end Options

end EcmaSyntax
