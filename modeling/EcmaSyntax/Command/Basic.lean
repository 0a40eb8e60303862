import EcmaSyntax.Command.Arguments
import EcmaSyntax.Node.Json
import EcmaSyntax.Program.Basic
import EcmaSyntax.Tree.Export

/-!
# The command

The command reads a program from a file and writes its tree, or its tokens, in JSON; an error in the
program is written in the same way. `Command.plan` says what arguments come to, `Command.report` what
is written for a program.
-/

namespace EcmaSyntax.Command

/-- What the command is about to do. -/
inductive Plan where
  /-- It writes something, and is done. -/
  | say (status : Nat) (output complaint : Text)
  /-- It reports on the program in a file. -/
  | reportOn (path : Text) (flags : List String)
  /-- It would report on what it is given, which it cannot read. -/
  | lacksFile
  deriving Inhabited

def version : Text := "4.0.1"

/-- The plan for arguments. Without a file, someone at a terminal is helped. -/
def plan (args : List Text) (isTerminal : Bool) : Plan :=
  match Request.ofArguments args with
  | .help => .say 0 help []
  | .version => .say 0 (version ++ [0x0a]) []
  | .misuse complaint =>
    .say 2 [] (usage ++ [0x0a] ++ name ++ Text.ofString ": error: " ++ complaint ++ [0x0a])
  | .run flags [path] => .reportOn path flags
  | .run _ _ => if isTerminal then .say 64 help [] else .lacksFile

def optionsOf (flags : List String) : OptionList :=
  let plain : List (String × Value) :=
    ["comment", "attachComment", "loc", "range", "raw", "tokens", "tolerant"].map
      fun name => (name, .bool (flags.contains ("--" ++ name)))
  let sourceType := if flags.contains "--module" then "module" else "string"
  let fixed : List (String × Value) :=
    [("sourceType", .word sourceType), ("jsx", .bool true), ("classProperties", .bool true)]
  (plain ++ fixed).map fun (name, v) => (Text.ofString name, v)

def valueOf (flags : List String) (code : Text) : Except Failure Value := do
  let o := optionsOf flags
  if flags.contains "--tokenize" then return .list (← Program.tokenize code o).1
  else return (← Program.run .parse code o .idle).tree

/-- What is written for a program, in JSON. An error of the program is written, too. -/
def report (flags : List String) (code : Text) : Except Failure Text := do
  let v ← match valueOf flags code with
    | .error (.refused e) => pure (Report.error e)
    | r => r
  (← Export.ofValue v).json.mapError .fault

end EcmaSyntax.Command
