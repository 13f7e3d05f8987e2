import Deadwood.Files.Path
import Deadwood.Text.Shown

/-! The files a run can see: a tree of directories with files of bytes. -/
namespace Deadwood

inductive Entry where
  | directory
  | file (bytes : List UInt8)
deriving DecidableEq, Repr

inductive FileFault where
  | missing | alreadyThere | notDirectory | isDirectory | nullByte
deriving DecidableEq, Repr

namespace FileFault

/-- The name of a fault's class. -/
def label : FileFault → String
  | .missing => "FileNotFoundError"
  | .alreadyThere => "FileExistsError"
  | .notDirectory => "NotADirectoryError"
  | .isDirectory => "IsADirectoryError"
  | .nullByte => "ValueError"

def describe (f : FileFault) (path : String) : String :=
  let numbered (n text : String) := "[Errno " ++ n ++ "] " ++ text ++ ": " ++ Text.shown path
  match f with
  | .missing => numbered "2" "No such file or directory"
  | .alreadyThere => numbered "17" "File exists"
  | .notDirectory => numbered "20" "Not a directory"
  | .isDirectory => numbered "21" "Is a directory"
  | .nullByte => "embedded null byte"

end FileFault

/-- A fault and the path it concerns, as it was named. -/
structure FileError where
  fault : FileFault
  path : String
deriving DecidableEq, Repr

def FileError.message (e : FileError) : String := e.fault.describe e.path

/-- What stands where. The root is always there. -/
structure Store where
  entries : List (List String × Entry) := []
deriving DecidableEq, Repr

namespace Store

def find? (s : Store) (parts : List String) : Option Entry :=
  if parts.isEmpty then some .directory else s.entries.lookup parts

def put (s : Store) (parts : List String) (e : Entry) : Store :=
  ⟨(s.entries.filter fun x => x.1 != parts) ++ [(parts, e)]⟩

/-- Go on from `here` through directories, to what stands at the end. -/
def walk (s : Store) (here : List String) : List String → Except FileFault (Option Entry)
  | [] => .ok (s.find? here)
  | c :: rest =>
    match s.find? here with
    | some .directory => s.walk (here ++ [c]) rest
    | some (.file _) => .error .notDirectory
    | none => .error .missing

/-- What stands at a path. -/
def look (s : Store) (parts : List String) : Except FileFault (Option Entry) :=
  if parts.any fun c => c.toList.contains '\x00' then .error .nullByte else s.walk [] parts

def read (s : Store) (parts : List String) : Except FileFault (List UInt8) :=
  match s.look parts with
  | .error f => .error f
  | .ok none => .error .missing
  | .ok (some .directory) => .error .isDirectory
  | .ok (some (.file bytes)) => .ok bytes

/-- Open a file to write it: it is made, or what it held is gone. -/
def create (s : Store) (parts : List String) : Except FileFault Store :=
  match s.look parts with
  | .error f => .error f
  | .ok (some .directory) => .error .isDirectory
  | .ok _ => .ok (s.put parts (.file []))

/-- Open a file and write it. -/
def write (s : Store) (parts : List String) (bytes : List UInt8) : Except FileFault Store :=
  (s.create parts).map (·.put parts (.file bytes))

def makeDirectory (s : Store) (parts : List String) : Except FileFault Store :=
  match s.look parts with
  | .error f => .error f
  | .ok (some _) => .error .alreadyThere
  | .ok none => .ok (s.put parts .directory)

/-- Make the directories from `here` on that are missing. A file in the way is noticed
at the directory below it, or at the end. -/
def makeDirectories (s : Store) (here : List String) : List String → Except FileError Store
  | [] => .ok s
  | c :: rest =>
    let next := here ++ [c]
    let named (f : FileFault) : FileError := ⟨f, Path.text ⟨next, false⟩⟩
    match s.look next with
    | .ok (some .directory) => s.makeDirectories next rest
    | .ok (some (.file _)) =>
      if rest.isEmpty then .error (named .alreadyThere) else s.makeDirectories next rest
    | _ =>
      match s.makeDirectory next with
      | .ok s => s.makeDirectories next rest
      | .error f => .error (named f)

end Store
end Deadwood
