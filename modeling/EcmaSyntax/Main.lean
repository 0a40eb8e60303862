import EcmaSyntax.Command.Basic

/-!
# The program

Carries out the plan of the command, and says how long it took.
-/

namespace EcmaSyntax

def Text.printed (t : Text) : String := String.ofList (t.map Char.ofNat)

namespace Command

def giveUp (reason : String) : IO UInt32 := do
  IO.eprintln (name.printed ++ ": " ++ reason)
  return 1

def writeReport (flags : List String) (code : Text) : IO UInt32 := do
  let before ← IO.monoNanosNow
  match report flags code with
  | .error _ => giveUp "the result cannot be written"
  | .ok t =>
    IO.println t.printed
    let nanos := (← IO.monoNanosNow) - before + 1
    let seconds := (nanos / 10000).toFloat / 100000
    let rate := code.length * 1000000000 / nanos
    IO.println ""
    IO.println s!"Parsed everything in {seconds} seconds."
    IO.println s!"Thats {rate} characters per second"
    return 0

def Plan.carryOut : Plan → IO UInt32
  | .say status output complaint => do
    IO.print output.printed
    IO.eprint complaint.printed
    return status.toUInt32
  | .reportOn path flags => do
    writeReport flags (Text.ofString (← IO.FS.readFile path.printed))
  | .lacksFile => giveUp "standard input cannot be read"

end Command

end EcmaSyntax

open EcmaSyntax in
def main (args : List String) : IO UInt32 := do
  let isTerminal ← (← IO.getStdin).isTty
  (Command.plan (args.map Text.ofString) isTerminal).carryOut
