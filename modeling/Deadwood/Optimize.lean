import Deadwood.Pass.Fold
import Deadwood.Pass.Prune
import Deadwood.Pass.Validate
import Deadwood.Problem

/-! The passes, run in rounds until a round changes nothing. -/
namespace Deadwood

inductive Pass where
  | constantFolding | deadCode
deriving DecidableEq, Repr

namespace Pass

def name : Pass → String
  | .constantFolding => "constant_folding"
  | .deadCode => "dead_code_elimination"

/-- All passes in the order they run. Folding comes first, so that pruning sees the
literal conditions it makes. -/
def all : List Pass := [.constantFolding, .deadCode]

def ofName? (name : String) : Option Pass := all.find? (·.name == name)

def apply : Pass → Program → Program
  | .constantFolding, p => p.fold
  | .deadCode, p => p.prune

/-- Whether a pass reports a change. -/
def changes : Pass → Program → Bool
  | .constantFolding, p => p.foldings != 0
  | .deadCode, p => p.pruneShrinks

end Pass

/-- A line of the debugging log: who writes it, and what. -/
structure LogLine where
  source : String
  text : String
deriving DecidableEq, Repr

def LogLine.render (l : LogLine) : String := l.source ++ ": " ++ l.text

/-- What a pass logs on a program. -/
def Pass.log : Pass → Program → List LogLine
  | .constantFolding, p =>
    [⟨"rprune.optimizer.constant_folding",
      "Folded " ++ toString p.foldings ++ " constant expression(s)"⟩]
  | .deadCode, p =>
    let line := LogLine.mk "rprune.optimizer.dead_code_elimination"
    line ("Running dead code elimination on '" ++ p.file ++ "'") ::
      p.pruneNotes.map (fun n => line n.text) ++
      [line ("Dropped " ++ toString p.droppedCount ++ " unreachable statement(s), collapsed " ++
        toString p.collapsedCount ++ " literal-conditioned construct(s)")]

/-- What to run. Without a list of passes all of them run. -/
structure Settings where
  passes : Option (List String) := none
  maxRounds : Int := 10
  validate : Bool := false
deriving DecidableEq, Repr

/-- The names of all passes, as messages list them. -/
def Pass.available : String := String.intercalate ", " (all.map (·.name))

namespace Settings

/-- The selected passes in the order they run, or what is wrong with the settings. -/
def selected (s : Settings) : Except Report (List Pass) :=
  let names := s.passes.getD (Pass.all.map (·.name))
  match names.find? fun n => (Pass.ofName? n).isNone with
  | some n => .error { problem := .unknownPass n Pass.available }
  | none =>
    if s.maxRounds < 1 then .error { problem := .tooFewRounds (toString s.maxRounds) }
    else .ok (Pass.all.filter fun p => names.contains p.name)

end Settings

/-- Where a run of the passes stands. `snapshots` holds each pass's latest result. -/
structure Progress where
  program : Program
  rounds : Nat := 0
  snapshots : List (Pass × Program) := []
  log : List LogLine := []

namespace Progress

def record (pass : Pass) (p : Program) (snapshots : List (Pass × Program)) : List (Pass × Program) :=
  if snapshots.any (·.1 == pass) then snapshots.map fun s => if s.1 == pass then (pass, p) else s
  else snapshots ++ [(pass, p)]

def outcomeLine (round : Nat) (pass : Pass) (changed : Bool) : LogLine :=
  ⟨"rprune.ast_optimizer", "Round " ++ toString round ++ ": pass '" ++ pass.name ++ "' " ++
    (if changed then "changed" else "did not change") ++ " the program"⟩

/-- Run one pass, and tell whether it changed the program. -/
def step (s : Progress) (pass : Pass) : Progress × Bool :=
  let next := pass.apply s.program
  let changed := pass.changes s.program
  ({ s with
      program := next
      snapshots := record pass next s.snapshots
      log := s.log ++ pass.log s.program ++ [outcomeLine s.rounds pass changed] }, changed)

/-- Run passes one after the other. -/
def steps (s : Progress) : List Pass → Progress × Bool
  | [] => (s, false)
  | pass :: passes =>
    let (s, changed) := s.step pass
    let (s, later) := s.steps passes
    (s, changed || later)

/-- At most `left` further rounds. -/
def run (passes : List Pass) : Nat → Progress → Progress
  | 0, s =>
    { s with log := s.log ++ [⟨"rprune.ast_optimizer",
        "Stopped after the maximum of " ++ toString s.rounds ++ " round(s)"⟩] }
  | left + 1, s =>
    let (s, changed) := { s with rounds := s.rounds + 1 }.steps passes
    if changed then run passes left s else s

end Progress

inductive OptimizeError where
  | report (r : Report)
  | violation (v : Violation)
deriving DecidableEq, Repr

/-- What optimising gives: how far it came, and why it failed if it did. -/
structure Optimized where
  progress : Progress
  error? : Option OptimizeError

/-- Run the selected passes until a round changes nothing. With `validate` the result
is checked, if pruning was selected. -/
def Program.optimize (p : Program) (s : Settings := {}) : Optimized :=
  match s.selected with
  | .error r => ⟨{ program := p }, some (.report r)⟩
  | .ok passes =>
    let progress := Progress.run passes s.maxRounds.toNat { program := p }
    let violation := if s.validate && passes.contains .deadCode then progress.program.violation? else none
    ⟨progress, violation.map .violation⟩

def Optimized.result (o : Optimized) : Except OptimizeError Progress :=
  match o.error? with
  | some e => .error e
  | none => .ok o.progress

end Deadwood
