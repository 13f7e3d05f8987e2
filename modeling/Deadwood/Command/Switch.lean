import Deadwood.Text.Class
import Deadwood.Text.Shown

/-! The switches of the command line, and how an argument names one. -/
namespace Deadwood.Command

inductive Switch where
  | help | output | compile | passes | maxRounds | validate | verbose
deriving DecidableEq, Repr

namespace Switch

def all : List Switch := [.help, .output, .compile, .passes, .maxRounds, .validate, .verbose]

def names : Switch → List String
  | .help => ["-h", "--help"]
  | .output => ["-o", "--output"]
  | .compile => ["-c", "--compile"]
  | .passes => ["--passes"]
  | .maxRounds => ["--max-rounds"]
  | .validate => ["--validate"]
  | .verbose => ["-v", "--verbose"]

/-- How messages name a switch. -/
def label (s : Switch) : String := String.intercalate "/" s.names

def takesValue : Switch → Bool
  | .output | .compile | .passes | .maxRounds => true
  | .help | .validate | .verbose => false

/-- All names with their switches, in the order messages list them. -/
def named : List (String × Switch) := all.flatMap fun s => s.names.map (·, s)

def ofName? (name : String) : Option Switch := named.lookup name

def ofLetter? (c : Char) : Option Switch := ofName? (String.ofList ['-', c])

end Switch

inductive UsageError where
  | ambiguous (arg : String) (names : List String)
  | unusedValue (s : Switch) (value : String)
  | valueMissing (s : Switch)
  | badChoice (s : Switch) (value : String)
  | badInteger (s : Switch) (value : String)
  | unrecognized (args : List String)
  | inputMissing
deriving DecidableEq, Repr

def UsageError.message : UsageError → String
  | .ambiguous arg names =>
    "ambiguous option: " ++ arg ++ " could match " ++ String.intercalate ", " names
  | .unusedValue s v => at' s ("ignored explicit argument " ++ Text.shown v)
  | .valueMissing s => at' s "expected one argument"
  | .badChoice s v => at' s ("invalid choice: " ++ Text.shown v ++ " (choose from '1', '2')")
  | .badInteger s v => at' s ("invalid int value: " ++ Text.shown v)
  | .unrecognized args => "unrecognized arguments: " ++ String.intercalate " " args
  | .inputMissing => "input_file is required when not reading from a pipe."
where at' (s : Switch) (text : String) : String := "argument " ++ s.label ++ ": " ++ text

/-- An argument by itself. A switch may have a value joined to it; `short` tells whether
its name has a single dash. -/
inductive Word where
  | plain (text : String)
  | divider
  | switch (s : Switch) (short : Bool) (value : Option String)
  | unknown (text : String)
deriving DecidableEq, Repr

namespace Word

def dividerText : String := "--"

/-- A text cut at its first equals sign. -/
def cutValue (cs : List Char) : List Char × Option String :=
  let name := cs.takeWhile (· != '=')
  match cs.drop name.length with
  | [] => (name, none)
  | _ :: value => (name, some (String.ofList value))

/-- Whole and decimal numbers after a minus sign are no switches. -/
def isNegativeNumber : List Char → Bool
  | '-' :: r =>
    let whole := r.takeWhile Text.isDecimal
    match r.drop whole.length with
    | [] => !whole.isEmpty
    | '.' :: fraction => !fraction.isEmpty && fraction.all Text.isDecimal
    | _ => false
  | _ => false

def switchNamed? (cs : List Char) (value : Option String) : Option Word :=
  (Switch.ofName? (String.ofList cs)).map (.switch · (cs.take 2 != ['-', '-']) value)

/-- The long names that an argument abbreviates. -/
def completions (cs : List Char) : List (String × Switch) :=
  Switch.named.filter fun n => cs.isPrefixOf n.1.toList

/-- An argument that begins with a dash and names no switch exactly. -/
def guess (arg : String) : List Char → Except UsageError Word
  | '-' :: '-' :: r =>
    let (name, value) := cutValue ('-' :: '-' :: r)
    match completions name with
    | [] => .ok (other arg)
    | [(_, s)] => .ok (.switch s false value)
    | several => .error (.ambiguous arg (several.map (·.1)))
  | cs =>
    match switchNamed? (cs.take 2) (some (String.ofList (cs.drop 2))) with
    | some w => .ok w
    | none => .ok (other arg)
where
  other (arg : String) : Word :=
    if isNegativeNumber arg.toList || arg.toList.contains ' ' then .plain arg else .unknown arg

/-- What an argument is. -/
def ofArg (arg : String) : Except UsageError Word :=
  match arg.toList with
  | '-' :: c :: r =>
    let cs := '-' :: c :: r
    match switchNamed? cs none with
    | some w => .ok w
    | none =>
      let (name, value) := cutValue cs
      match if value.isSome then switchNamed? name value else none with
      | some w => .ok w
      | none => guess arg cs
  | _ => .ok (.plain arg)

/-- What the arguments are. After the divider all are plain. -/
def ofArgs : List String → Except UsageError (List Word)
  | [] => .ok []
  | a :: rest =>
    if a == dividerText then .ok (.divider :: rest.map .plain)
    else do return (← ofArg a) :: (← ofArgs rest)

end Word
end Deadwood.Command
