import EcmaSyntax.Text.Basic

/-!
# Arguments of the command

Arguments that start with a hyphen are flags, and the others are operands, in any order; after `--`
all are operands. The name of a flag may be cut short as long as no other starts the same. Arguments
are taken one by one, and the first that asks for help, or makes no sense, settles the matter.
-/

namespace EcmaSyntax.Command

/-- A flag of the command, and what it is for. -/
structure Flag where
  name : String
  about : String
  deriving Repr, DecidableEq, Inhabited

def flags : List Flag :=
  [⟨"--comment", "Gather all line and block comments in an array"⟩,
   ⟨"--attachComment", "Attach comments to nodes"⟩,
   ⟨"--loc", "Include line-column location info for each syntax node"⟩,
   ⟨"--range", "Include index-based range for each syntax node"⟩,
   ⟨"--raw", "Display the raw value of literals"⟩,
   ⟨"--tokens", "List all tokens in an array"⟩,
   ⟨"--tolerant", "Tolerate errors on a best-effort basis (experimental)"⟩,
   ⟨"--tokenize", "Only tokenize, do not parse."⟩,
   ⟨"--module", "Tolerate errors on a best-effort basis (experimental)"⟩]

def inquiries : List Flag :=
  [⟨"--version", "show program's version number and exit"⟩,
   ⟨"-h, --help", "show this help message and exit"⟩]

def longNames : List String := ["--version", "--help"] ++ flags.map (·.name)

def name : Text := "esprima"

def usage : Text := Text.ofString "Usage: " ++ name ++ Text.ofString " [options] [file.js]\n"

def nameWidth : Nat := ((inquiries ++ flags).map (·.name.length)).foldl max 0

def Flag.line (f : Flag) : Text :=
  Text.ofString "  " ++ Text.ofString f.name ++ Text.times (nameWidth - f.name.length + 2) 0x20
    ++ Text.ofString f.about ++ [0x0a]

def help : Text :=
  usage ++ Text.ofString "\nOptions:\n" ++ (inquiries ++ flags).flatMap Flag.line

/-- What arguments ask for. -/
inductive Request where
  /-- Some flags, by their full names, and some operands. -/
  | run (flags : List String) (operands : List Text)
  | help
  | version
  /-- Something that makes no sense, in words. -/
  | misuse (complaint : Text)
  deriving Inhabited

def candidates (t : Text) : List String :=
  match longNames.filter t.is with
  | [] => longNames.filter fun name => t.isPrefixOf (Text.ofString name)
  | exact => exact

/-- The full name that a text is short for, or a complaint. -/
def fullName (t : Text) : Except Text String :=
  match candidates t with
  | [] => throw (Text.ofString "no such option: " ++ t)
  | [name] => return name
  | names =>
    let listed := Text.join ", " ((names.map Text.ofString).mergeSort Text.atMost)
    throw (Text.ofString "ambiguous option: " ++ t ++ Text.ofString " (" ++ listed
      ++ Text.ofString "?)")

/-- The flag that a text with two hyphens stands for, or a complaint. No flag takes a value. -/
def longFlag (t : Text) : Except Text String := do
  let name ← fullName (t.takeWhile (· ≠ 0x3d))
  if t.contains 0x3d then throw (Text.ofString (name ++ " option does not take a value"))
  return name

/-- Makes sense of arguments, after some flags and operands, the last ones first. -/
def parse (flags : List String) (operands : List Text) : List Text → Request
  | [] => .run flags.reverse operands.reverse
  | arg :: rest =>
    match arg with
    | [0x2d, 0x2d] => .run flags.reverse (operands.reverse ++ rest)
    | 0x2d :: 0x2d :: _ =>
      match longFlag arg with
      | .error complaint => .misuse complaint
      | .ok "--help" => .help
      | .ok "--version" => .version
      | .ok name => parse (name :: flags) operands rest
    | 0x2d :: c :: _ =>
      if c = 0x68 then .help else .misuse (Text.ofString "no such option: -" ++ [c])
    | _ => parse flags (arg :: operands) rest

def Request.ofArguments (args : List Text) : Request := parse [] [] args

end EcmaSyntax.Command
