import Deadwood.Command.Run

/-! The program: `Command.run` on the arguments, streams and files of a process. -/
namespace Deadwood.Main
open Command

/-- All of standard input. -/
partial def readAll (input : IO.FS.Stream) (sofar : String := "") : IO String := do
  let line ← input.getLine
  if line.isEmpty then return sofar else readAll input (sofar ++ line)

/-- What stands at a path on disk. Reading a directory fails in a way of its own. -/
def entryAt (path : String) : IO (Option Entry) := do
  try return some (.file (← IO.FS.readBinFile path).toList)
  catch
    | .inappropriateType _ 21 _ => return some .directory
    | _ => return none

/-- Load a path and the directories above it. -/
def load (store : Store) (path : Path) : IO Store :=
  (List.range path.parts.length).foldlM (fun store n => do
    let parts := path.parts.take (n + 1)
    match ← entryAt (Path.text ⟨parts, false⟩) with
    | some e => return store.put parts e
    | none => return store) store

/-- Write what a run changed. -/
def flush (before after : Store) : IO Unit :=
  after.entries.forM fun (parts, e) => do
    let path := Path.text ⟨parts, false⟩
    unless before.find? parts == some e do
      match e with
      | .directory => IO.FS.createDir path
      | .file bytes => IO.FS.writeBinFile path ⟨bytes.toArray⟩

/-- A duration in seconds, with four decimals. -/
def seconds (nanos : Nat) : String :=
  let n := (nanos + 50000) / 100000
  toString (n / 10000) ++ "." ++ String.ofList ((toString (10000 + n % 10000)).toList.drop 1)

def exec (args : List String) : IO UInt32 := do
  let began ← IO.monoNanosNow
  let stdin ← IO.getStdin
  let terminal ← stdin.isTty
  let cwd := Path.resolve ⟨[], false⟩ (toString (← IO.currentDir))
  let options := (Options.ofArgs args).toOption
  let paths := (options.map (·.footprint cwd)).getD []
  let store ← paths.foldlM load {}
  let piped := (options.map (·.script.isNone)).getD false && !terminal
  let text ← if piped then readAll stdin else pure ""
  let outcome ← match start { args, stdin := text, terminal, workspace := ⟨cwd, store⟩ } with
    | .error o => pure o
    | .ok f => do pure (f.close (seconds ((← IO.monoNanosNow) - began)))
  flush store outcome.store
  (← IO.getStdout).putStr outcome.stdout
  (← IO.getStderr).putStr outcome.stderr
  return UInt32.ofNat outcome.exit

end Deadwood.Main

def main (args : List String) : IO UInt32 := Deadwood.Main.exec args
