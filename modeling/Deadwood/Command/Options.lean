import Deadwood.Command.Switch
import Deadwood.Pipeline

/-! What the arguments of the command line ask for. -/
namespace Deadwood.Command

/-- The stages a run can be asked to stop after, by the key that asks for them. -/
inductive StopKey where
  | one | two
deriving DecidableEq, Repr

namespace StopKey

def text : StopKey → String
  | .one => "1"
  | .two => "2"

def ofText? : String → Option StopKey
  | "1" => some .one
  | "2" => some .two
  | _ => none

def stage : StopKey → Stage
  | .one => .tree
  | .two => .optimizedTree

def description : StopKey → String
  | .one => "Abstract Syntax Tree"
  | .two => "Optimized Abstract Syntax Tree"

end StopKey

structure Options where
  input : Option String := none
  output : Option String := none
  stop : Option StopKey := none
  passes : List String := Pass.all.map (·.name)
  maxRounds : Int := ({} : Settings).maxRounds
  validate : Bool := false
  verbose : Bool := false
deriving DecidableEq, Repr

/-- Why there are no options to run with. -/
inductive Halt where
  | help
  | misuse (e : UsageError)
deriving DecidableEq, Repr

def trim (blank : Char → Bool) (cs : List Char) : List Char :=
  ((cs.dropWhile blank).reverse.dropWhile blank).reverse

/-- Names between commas, without the blanks around them. Empty ones are left out. -/
def readNames (text : String) : List String :=
  ((Text.splitAt ',' text.toList).map (trim Text.isSpace)).filterMap fun cs =>
    if cs.isEmpty then none else some (String.ofList cs)

namespace Integer

/-- Blanks around an integer; the separator controls are none. -/
def isBlank (c : Char) : Bool := Text.isSpace c && !(28 ≤ c.toNat && c.toNat ≤ 31)

/-- The values of digits of any script. One underscore may stand between two digits. -/
def digits? : List Char → Option (List Nat)
  | [] => none
  | c :: rest => do
    let d ← Text.digitValue? c
    match rest with
    | [] => return [d]
    | '_' :: rest => return d :: (← digits? rest)
    | rest => return d :: (← digits? rest)

def maxDigits : Nat := 4300

def natural? (cs : List Char) : Option Nat := do
  let ds ← digits? cs
  if ds.length ≤ maxDigits then some (ds.foldl (fun n d => 10 * n + d) 0) else none

def read? (text : String) : Option Int :=
  match trim isBlank text.toList with
  | '-' :: cs => (natural? cs).map fun n => -Int.ofNat n
  | '+' :: cs => (natural? cs).map Int.ofNat
  | cs => (natural? cs).map Int.ofNat

end Integer

namespace Options

/-- Apply a switch without a value. -/
def flag (o : Options) : Switch → Except Halt Options
  | .help => .error .help
  | .validate => .ok { o with validate := true }
  | .verbose => .ok { o with verbose := true }
  | _ => .ok o

/-- Apply a switch with its value. A divider as a value stands for nothing. -/
def set (o : Options) (s : Switch) (value : String) : Except Halt Options :=
  let nothing := value == Word.dividerText
  match s with
  | .output => .ok { o with output := if nothing then none else some value }
  | .compile =>
    if nothing then .ok { o with stop := none }
    else match StopKey.ofText? value with
      | some k => .ok { o with stop := some k }
      | none => .error (.misuse (.badChoice s value))
  | .passes => .ok { o with passes := if nothing then [] else readNames value }
  | .maxRounds =>
    match Integer.read? value with
    | some n => .ok { o with maxRounds := n }
    | none => .error (.misuse (.badInteger s value))
  | s => o.flag s

def flags (o : Options) : List Switch → Except Halt Options
  | [] => .ok o
  | s :: ss => do (← o.flag s).flags ss

/-- Letters joined to a short switch: further switches, until one takes the rest as its
value. Gives the switches before the last, the last, and its value if it is joined. -/
def cluster (s : Switch) : List Char → Except UsageError (List Switch × Switch × Option String)
  | [] => .ok ([], s, none)
  | c :: rest =>
    let value := String.ofList (c :: rest)
    if s.takesValue then .ok ([], s, some value)
    else match Switch.ofLetter? c with
      | none => .error (.unusedValue s value)
      | some next => do
        let (before, last) ← cluster next rest
        return (s :: before, last)

/-- The switches an argument stands for. -/
def spread (s : Switch) (short : Bool) : Option String →
    Except UsageError (List Switch × Switch × Option String)
  | none => .ok ([], s, none)
  | some value =>
    if s.takesValue then .ok ([], s, some value)
    else if short && value != "" then cluster s value.toList
    else .error (.unusedValue s value)

/-- Where reading stands: what is asked for so far, whether the place of the input file
is taken, and the arguments that have no place. -/
structure Reading where
  options : Options := {}
  placed : Bool := false
  extra : List String := []

/-- Read words in order. The input file is the first plain word that is no value; a
divider beside it belongs to it. -/
def read (r : Reading) : List Word → Except Halt Reading
  | [] => .ok r
  | .unknown text :: rest => read { r with extra := r.extra ++ [text] } rest
  | .plain text :: rest =>
    if r.placed then read { r with extra := r.extra ++ [text] } rest
    else
      let r := { r with options := { r.options with input := some text }, placed := true }
      match rest with
      | .divider :: rest => read r rest
      | rest => read r rest
  | .divider :: rest =>
    if r.placed then read { r with extra := r.extra ++ [Word.dividerText] } rest
    else match rest with
      | .plain text :: rest =>
        read { r with options := { r.options with input := some text }, placed := true } rest
      | rest => read { r with placed := true } rest
  | .switch s short joined :: rest =>
    match spread s short joined with
    | .error e => .error (.misuse e)
    | .ok (before, last, some value) => do
      let o ← r.options.flags before
      read { r with options := ← o.set last value } rest
    | .ok (before, last, none) =>
      if last.takesValue then
        match rest with
        | .plain value :: rest => do
          let o ← r.options.flags before
          read { r with options := ← o.set last value } rest
        | _ => .error (.misuse (.valueMissing last))
      else do
        let o ← r.options.flags before
        read { r with options := ← o.flag last } rest

def ofArgs (args : List String) : Except Halt Options := do
  let words ← (Word.ofArgs args).mapError .misuse
  let r ← read {} words
  if r.extra.isEmpty then return r.options else throw (.misuse (.unrecognized r.extra))

end Options
end Deadwood.Command
