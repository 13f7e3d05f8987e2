import Deadwood.Files.Store
import Deadwood.Optimize
import Deadwood.Source.Parse
import Deadwood.Text.Encoding
import Deadwood.Text.Utf8
import Deadwood.Tree.Dump
import Deadwood.Tree.Print

/-! A script on its way: read as a tree, optimised, printed. The product of each stage
can be saved next to the script, and the way can end early. -/
namespace Deadwood

inductive Stage where
  | tree | optimizedTree | source
deriving DecidableEq, Repr

namespace Stage

def name : Stage → String
  | .tree => "ast"
  | .optimizedTree => "optimized_ast"
  | .source => "source"

def all : List Stage := [.tree, .optimizedTree, .source]

def ofName? (name : String) : Option Stage := all.find? (·.name == name)

end Stage

/-- Why no product came out: a problem to report at a place of the script, or anything
else that went wrong on the way. -/
inductive Failure where
  | report (r : Report)
  | inside (detail : String)
deriving DecidableEq, Repr

def Failure.message : Failure → String
  | .report r => r.message
  | .inside detail => "An unexpected internal error occurred: " ++ detail

def ParseError.failure : ParseError → Failure
  | .report r => .report r
  | .misread m => .inside m.message

def OptimizeError.failure : OptimizeError → Failure
  | .report r => .report r
  | .violation v => .inside v.message

/-- Optimise the text of a script. -/
def optimizeSource [Text.CharNames] (source : String) (settings : Settings := {}) (file : String := Report.unnamed) :
    Except Failure String := do
  let program ← (Program.parse source file).mapError ParseError.failure
  let progress ← (program.optimize settings).result.mapError OptimizeError.failure
  progress.program.print.mapError fun e => .inside e.message

/-- Optimise scripts one after the other; the first failure is the answer. -/
def optimizeSources [Text.CharNames] (sources : List String) (settings : Settings := {}) :
    Except Failure (List String) :=
  sources.mapM (optimizeSource · settings)

inductive Product where
  | program (p : Program)
  | text (s : String)

/-- What is saved of a product. -/
def Product.dump : Product → String
  | .program p => p.toJson.text
  | .text s => Json.quotePoints (Script.points s)

/-- The directory a run starts in, and the files it sees. -/
structure Workspace where
  cwd : Path
  store : Store

/-- A script with what to do on its way, and how standard output is encoded. -/
structure Job where
  source : String
  file : Option String := none
  dumps : List String := []
  stopAfter : Option String := none
  settings : Settings := {}
  output : Text.Encoding := .utf8

/-- What a run leaves behind besides its product. -/
structure Trail where
  store : Store
  products : List (Stage × Product) := []
  stdout : String := ""
  log : List LogLine := []

namespace Job

/-- The name a script goes by: its full path if it has one. -/
def fileName (job : Job) (cwd : Path) : String :=
  match Report.named job.file with
  | some f => (cwd.resolve f).text
  | none => Report.unnamed

/-- Where the product of a stage is saved. -/
def dumpPath (job : Job) (cwd : Path) (stage : Stage) : String :=
  let base := match Report.named job.file with
    | some f => Path.stem (cwd.resolve f).text
    | none => "stdin_output"
  base ++ "." ++ stage.name ++ ".json"

/-- The first stage asked for that there is none of. -/
def unknownStage? (job : Job) : Option String :=
  (job.dumps ++ (Report.named job.stopAfter).toList).find? fun n => (Stage.ofName? n).isNone

/-- A step of a run. The trail stays when a step fails. -/
abbrev Step := ExceptT Failure (StateM Trail)

/-- Print a line on standard output, which may refuse it. -/
def say (job : Job) (text : String) : Step Unit :=
  match job.output.encode (Text.points text) with
  | .ok text => modify fun t => { t with stdout := t.stdout ++ text }
  | .error e => throw (.inside e.message)

def note (lines : List LogLine) : Step Unit := modify fun t => { t with log := t.log ++ lines }

/-- Save a product. A file that cannot be written is told, and the run goes on. -/
def save (job : Job) (cwd : Path) (stage : Stage) (product : Product) : Step Unit := do
  let path := job.dumpPath cwd stage
  job.say ("--- Saving artifact '" ++ stage.name ++ "' to " ++ path ++ " ---\n")
  match (← get).store.write (cwd.resolve path).parts (Text.encodeUtf8 product.dump) with
  | .ok store => modify fun t => { t with store }
  | .error .nullByte => throw (.inside (FileFault.nullByte.describe path))
  | .error f =>
    job.say ("Error: Could not save artifact '" ++ stage.name ++ "': " ++ f.describe path ++ "\n")

/-- A stage has its product. -/
def finish (job : Job) (cwd : Path) (stage : Stage) (product : Product) : Step Unit := do
  modify fun t => { t with products := t.products ++ [(stage, product)] }
  if job.dumps.contains stage.name then job.save cwd stage product

def stopsAfter (job : Job) (stage : Stage) : Bool := job.stopAfter == some stage.name

def readTree [Text.CharNames] (job : Job) (file : String) : Step Program := do
  let program ← MonadExcept.ofExcept ((Program.parse job.source file).mapError ParseError.failure)
  note [⟨"rprune.parser", "Parsed '" ++ file ++ "' into " ++ toString program.body.length ++
    " top-level statement(s)"⟩]
  return program

def optimizeTree (job : Job) (file : String) (program : Program) : Step Program := do
  let optimized := program.optimize job.settings
  note optimized.progress.log
  let progress ← MonadExcept.ofExcept (optimized.result.mapError OptimizeError.failure)
  note [⟨"rprune.pipeline", "'" ++ file ++ "' reached a fixpoint after " ++
    toString progress.rounds ++ " round(s)"⟩]
  return progress.program

def stages [Text.CharNames] (job : Job) (cwd : Path) : Step Product := do
  let file := job.fileName cwd
  let program ← job.readTree file
  job.finish cwd .tree (.program program)
  if job.stopsAfter .tree then return .program program
  else
    let optimized ← job.optimizeTree file program
    job.finish cwd .optimizedTree (.program optimized)
    if job.stopsAfter .optimizedTree then return .program optimized
    else
      let text ← MonadExcept.ofExcept (optimized.print.mapError fun e => Failure.inside e.message)
      job.finish cwd .source (.text text)
      return .text text

/-- Send a script on its way. -/
def run [Text.CharNames] (job : Job) (w : Workspace) : Except Failure Product × Trail :=
  match job.unknownStage? with
  | some n => (.error (.report { problem := .unknownStage n }), { store := w.store })
  | none => (job.stages w.cwd).run { store := w.store }

end Job
end Deadwood
