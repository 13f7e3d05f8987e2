import Deadwood.Command.Help
import Deadwood.Command.Options

/-! A run of the command line, from its arguments and files to what it prints and
writes. -/
namespace Deadwood.Command

/-- What a run is given. Standard output and standard error have one encoding. What is no
text in an argument counts as characters that it does not take. -/
structure Invocation where
  args : List String
  stdin : String := ""
  terminal : Bool := false
  workspace : Workspace
  output : Text.Encoding := .utf8

structure Outcome where
  exit : Nat
  stdout : String
  stderr : String
  store : Store
deriving DecidableEq, Repr

/-- What is printed so far. Status lines make way on standard output when it carries the
script. -/
structure Console where
  encoding : Text.Encoding
  statusAside : Bool
  stdout : String := ""
  stderr : String := ""

namespace Console

/-- Print on standard output, which refuses a text that it cannot encode. -/
def out (c : Console) (text : List Text.Point) : Except Text.EncodeError Console := do
  return { c with stdout := c.stdout ++ (← c.encoding.encode text) }

/-- Print on standard error, with escapes for what it cannot encode. -/
def err (c : Console) (text : String) : Console := { c with stderr := c.stderr ++ c.encoding.escape text }

def status (c : Console) (text : String) : Except Text.EncodeError Console :=
  if c.statusAside then .ok (c.err text) else c.out text

/-- A status line in ASCII, which every encoding takes. -/
def plainStatus (c : Console) (text : String) : Console :=
  if c.statusAside then c.err text else { c with stdout := c.stdout ++ text }

end Console

inductive Color where
  | green | red | cyan

def Color.paint (c : Color) (text : String) : String :=
  let code := match c with
    | .green => "92"
    | .red => "91"
    | .cyan => "96"
  "\x1b[" ++ code ++ "m" ++ text ++ "\x1b[0m"

/-- Why a run failed. -/
inductive Trouble where
  | pipeline (f : Failure)
  | file (e : FileError)
  | undecodable (e : Text.Utf8Error)
  | unencodable (e : Text.EncodeError)
deriving DecidableEq, Repr

/-- What a run says about its trouble. A file that is missing is taken to be the script. -/
def Trouble.text (name : String) : Trouble → String
  | .pipeline (.report r) => "\n" ++ Color.red.paint ("--- OPTIMIZATION ERROR ---\n" ++ r.message) ++ "\n"
  | .pipeline f => unexpected "InternalOptimizerError" f.message
  | .file e =>
    if e.fault = .missing then Color.red.paint ("ERROR: Script file '" ++ name ++ "' not found.") ++ "\n"
    else unexpected e.fault.label e.message
  | .undecodable e => unexpected "UnicodeDecodeError" e.message
  | .unencodable e => unexpected "UnicodeEncodeError" e.message
where
  unexpected (label message : String) : String :=
    "\n" ++ Color.red.paint "--- UNEXPECTED OPTIMIZER ERROR ---" ++ "\n" ++
      "This may be a bug in rprune. Please report it.\n" ++ label ++ ": " ++ message ++ "\n"

namespace Options

/-- The input file, unless it is absent or empty. -/
def script (o : Options) : Option String := Report.named o.input

def toStdout (o : Options) : Bool := o.output == some "-"

def displayName (o : Options) : String := o.script.getD "stdin"

def settings (o : Options) : Settings :=
  { passes := some o.passes, maxRounds := o.maxRounds, validate := o.validate }

/-- Where the script goes without a word on it. -/
def defaultOutput (o : Options) : String :=
  match o.script with
  | some f => Path.stem f ++ ".opt.R"
  | none => "stdin.opt.R"

def outputPath (o : Options) (cwd : Path) : Path :=
  cwd.resolve ((Report.named o.output).getD o.defaultOutput)

/-- The script's text. -/
def readScript (o : Options) (i : Invocation) : Except Trouble String :=
  match o.script with
  | none => .ok i.stdin
  | some f =>
    let path := i.workspace.cwd.resolve f
    match i.workspace.store.read path.parts with
    | .error fault => .error (.file ⟨fault, path.text⟩)
    | .ok bytes =>
      match Text.decodeUtf8 bytes with
      | .error e => .error (.undecodable e)
      | .ok cs => .ok (String.ofList (Text.unifyLineEnds cs))

def job (o : Options) (i : Invocation) (source : String) : Job where
  source
  file := o.script.map fun f => (i.workspace.cwd.resolve f).text
  dumps := (o.stop.map (·.stage.name)).toList
  stopAfter := o.stop.map (·.stage.name)
  settings := o.settings
  output := i.output

/-- Write the optimised script, making the directories on its way. The file is open, and
empty, by the time the text is encoded. -/
def writeScript (store : Store) (path : Path) (text : List Text.Point) : Store × Except Trouble Unit :=
  match store.makeDirectories [] path.parent.parts with
  | .error e => (store, .error (.file e))
  | .ok made =>
    match made.create path.parts with
    | .error f => (made, .error (.file ⟨f, path.text⟩))
    | .ok opened =>
      match Text.Encoding.utf8.encode text with
      | .error e => (opened, .error (.unencodable e))
      | .ok text => (opened.put path.parts (.file (Text.encodeUtf8 text)), .ok ())

/-- Hand over the product of the pipeline. -/
def deliver (o : Options) (i : Invocation) (c : Console) (store : Store) (product : Product) :
    Console × Store × Except Trouble Unit :=
  match o.stop, product with
  | some k, _ =>
    (c.plainStatus ("\n" ++ Color.green.paint ("--- Stopped after stage '" ++ k.text ++ " (" ++
      k.description ++ ")' ---") ++ "\n"), store, .ok ())
  | none, .program _ => (c, store, .ok ())
  | none, .text text =>
    if o.toStdout then
      match c.out (Script.points text) with
      | .error e => (c, store, .error (.unencodable e))
      | .ok c => (c, store, .ok ())
    else
      let path := o.outputPath i.workspace.cwd
      match writeScript store path (Script.points text) with
      | (store, .error t) => (c, store, .error t)
      | (store, .ok ()) =>
        let c := c.plainStatus ("\n" ++ Color.green.paint "--- Optimization Successful ---" ++ "\n")
        match c.status ("Optimized code written to " ++ path.text ++ "\n") with
        | .error e => (c, store, .error (.unencodable e))
        | .ok c => (c, store, .ok ())

/-- The console once the pipeline is through. -/
def told (o : Options) (c : Console) (trail : Trail) : Console :=
  let c := { c with stdout := c.stdout ++ trail.stdout }
  if o.verbose then c.err (String.join (trail.log.map fun l => l.render ++ "\n")) else c

/-- Do what the options ask for. -/
def attempt [Text.CharNames] (o : Options) (i : Invocation) (c : Console) : Console × Store × Except Trouble Unit :=
  match o.readScript i with
  | .error t => (c, i.workspace.store, .error t)
  | .ok source =>
    let (result, trail) := (o.job i source).run i.workspace
    let c := o.told c trail
    match result with
    | .error f => (c, trail.store, .error (.pipeline f))
    | .ok product => o.deliver i c trail.store product

/-- The paths a run may read or write. -/
def footprint (o : Options) (cwd : Path) : List Path :=
  let dump (f : Option String) (k : StopKey) : Path :=
    cwd.resolve (({ source := "", file := f } : Job).dumpPath cwd k.stage)
  (o.script.map cwd.resolve).toList ++ o.outputPath cwd :: (o.stop.map (dump o.script)).toList

end Options

/-- A run that has only its time left to tell. -/
structure Finished where
  exit : Nat
  console : Console
  store : Store

/-- Tell the time a run took, in seconds. -/
def Finished.close (f : Finished) (elapsed : String) : Outcome :=
  let c := f.console.plainStatus ("\n" ++
    Color.cyan.paint ("--- Total Execution Time: " ++ elapsed ++ " seconds ---") ++ "\n")
  ⟨f.exit, c.stdout, c.stderr, f.store⟩

/-- The console with the first status line. -/
def Options.opened (o : Options) (i : Invocation) : Except Text.EncodeError Console :=
  ({ encoding := i.output, statusAside := o.toStdout } : Console).status
    ("--- Optimizing " ++ o.displayName ++ " ---\n")

def Options.execute [Text.CharNames] (o : Options) (i : Invocation) (c : Console) : Finished :=
  match o.attempt i c with
  | (c, store, .ok ()) => ⟨0, c, store⟩
  | (c, store, .error t) => ⟨1, c.err (t.text o.displayName), store⟩

def misused (i : Invocation) (e : UsageError) : Outcome :=
  ⟨2, "", i.output.escape (usage ++ "rprune: error: " ++ e.message ++ "\n"), i.workspace.store⟩

/-- A run that ends before anything could be told. Of the message only the last line is
given. -/
def crashed (i : Invocation) (e : Text.EncodeError) : Outcome :=
  ⟨1, "", i.output.escape ("UnicodeEncodeError: " ++ e.message ++ "\n"), i.workspace.store⟩

/-- Do what the arguments ask for, or tell at once why not. -/
def start [Text.CharNames] (i : Invocation) : Except Outcome Finished :=
  match Options.ofArgs i.args with
  | .error .help => .error ⟨0, help, "", i.workspace.store⟩
  | .error (.misuse e) => .error (misused i e)
  | .ok o =>
    if o.script.isNone && i.terminal then .error (misused i .inputMissing)
    else match o.opened i with
      | .error e => .error (crashed i e)
      | .ok c => .ok (o.execute i c)

def run [Text.CharNames] (i : Invocation) (elapsed : String) : Outcome :=
  match start i with
  | .error o => o
  | .ok f => f.close elapsed

/-- A string value where only characters can be shown: a surrogate shows as the replacement
character. -/
instance : CoeOut (List Text.Point) String where
  coe ps := String.ofList (ps.map fun p => p.char?.getD '\ufffd')

end Deadwood.Command
