import EcmaSyntax.Grammar.Program
import EcmaSyntax.Program.Options
import EcmaSyntax.Program.Report

/-!
# Programs

`Program.parse` reads a whole program. What it reports depends on the options, what it accepts only
on those that name a language; and comments are attached after the fact. Only a fault in that comes
first, before a refusal of the source.
-/

namespace EcmaSyntax

/-- A program that was read, as it is reported, with the events of the run. -/
structure Program where
  tree : Value
  events : List Event
  deriving Inhabited

namespace Program

def setting (s : Source) (o : Options) (d : Delegate) : ParseSetting where
  source := s
  edition := o.edition
  tolerant := o.tolerant
  jsx := o.jsx
  classFields := o.classFields
  delegate := d

def read (s : Source) (o : Options) (d : Delegate) : EStateM.Result Failure ParseState Node :=
  Grammar.program o.isModule (setting s o d) (.start s)

def tracksComments (o : Options) : Bool := o.comments || o.attach

/-- The comments of a run, as far as they are attached. Whoever looks for comments looks at every node
that was finished. -/
def commentsOf (o : Options) (s : ParseState) : Except Failure (Array NodeComments) :=
  if tracksComments o && s.events.any (·.taken.isStandIn) then throw (.fault .missingAttribute)
  else if o.attach then (Comments.attach s.events).mapError .fault
  else return #[]

def reportOf (o : Options) (comments : Array NodeComments) : Report :=
  { range := o.range, loc := o.loc, source := o.source, comments }

/-- What belongs to a whole run: its comments, its tokens and its errors. -/
def additions (source : Source) (o : Options) (r : Report) (s : ParseState) :
    List (String × Value) :=
  let found := s.events.toList.filter fun e => Comments.isComment e.taken
  (if o.comments then [("comments", .list (found.map fun e => r.collected e.taken))] else [])
    ++ (if o.tokens then [("tokens", .list (s.tokens.toList.map (r.token source)))] else [])
    ++ (if o.tolerant then [("errors", .list (s.scan.errors.toList.map Report.error))] else [])

/-- The report of a run. A value that is no node cannot be given what belongs to the whole run. -/
def report (source : Source) (o : Options) (comments : Array NodeComments) (program : Node)
    (s : ParseState) : Except Fault Value :=
  let r := reportOf o comments
  let more := additions source o r s
  match r.reveal (.node program) with
  | .object form serial span fields extra =>
    return .node ((Node.mk form serial span fields extra).setAll more).settle
  | v => if more.isEmpty then return v else throw .missingAttribute

def parse (code : Text) (o : Options) (d : Delegate) : Except Failure Program := do
  let source := Source.ofText code
  match read source o d with
  | .ok program s =>
    let comments ← commentsOf o s
    let events := s.events.toList.filter fun e => !e.isComment || tracksComments o
    return ⟨← (report source o comments program s).mapError .fault, events⟩
  | .error e s =>
    discard <| commentsOf o s
    throw e

def run (e : EntryPoint) (code : Text) (o : OptionList) (d : Delegate) : Except Failure Program := do
  parse code (← (Options.preset (e.options o)).mapError .fault) d

/-- Lists the tokens of a source, and its comments if they are of interest. The second part has the
errors that were tolerated. -/
def tokenize (code : Text) (o : OptionList) : Except Failure (List Value × List SyntaxError) := do
  let stream ← TokenStream.ofText code (o.flag "tolerant")
  let r : Report := { range := o.flag "range", loc := o.flag "loc", source := .null, comments := #[] }
  let isListed : StreamEntry → Bool
    | .comment _ => o.flag "comment"
    | .token _ _ => true
  return ((stream.entries.filter isListed).map (r.entry (.ofText code)), stream.errors)

end Program

end EcmaSyntax
