import Formulary.Text.Quoted

/-!
Files by their paths. A folder holds the contents of its files; a path is walked from the folder, and
what keeps it from leading to a file is a fault.
-/
namespace Formulary

/-- Why a file cannot be read. -/
inductive ReadFault where
  | missing | notDirectory | isDirectory | nameTooLong
  | other (code : Nat) (text : String)
  | nulInName
deriving DecidableEq, Repr

namespace ReadFault

/-- The number and the words of a fault that the system reports. -/
def system : ReadFault → Nat × String
  | .missing => (2, "No such file or directory")
  | .notDirectory => (20, "Not a directory")
  | .isDirectory => (21, "Is a directory")
  | .nameTooLong => (36, "File name too long")
  | .other code text => (code, text)
  | .nulInName => (22, "Invalid argument")

def message (f : ReadFault) (path : String) : String :=
  let (code, text) := f.system
  "[Errno " ++ toString code ++ "] " ++ text ++ ": " ++ quoted path

end ReadFault

/-- Files by their names, which may have folders in front. -/
abbrev Folder := List (String × List Nat)

namespace Folder

def parts (path : String) : List String := path.splitOn "/"

/-- Where a walk has come to. Outside the folder little is known: what stands in the root of a system, and
the empty file among its devices. -/
inductive Spot where
  | folder (names : List String)
  | outside
  | root
  | devices
  | file (octets : List Nat)

def rootFolders : List String :=
  ["bin", "boot", "etc", "home", "lib", "media", "mnt", "opt", "proc", "root", "run", "sbin", "srv", "sys",
    "tmp", "usr", "var"]

def stepOutside (spot : Spot) (name : String) : Except ReadFault Spot :=
  if 255 < name.utf8ByteSize then .error .nameTooLong
  else if name = "" || name = "." then .ok spot
  else
    match spot with
    | .root =>
      if name = ".." then .ok .root
      else if name = "dev" then .ok .devices
      else if rootFolders.contains name then .ok .outside
      else .error .missing
    | .devices =>
      if name = ".." then .ok .root
      else if name = "null" then .ok (.file [])
      else .error .missing
    | _ => if name = ".." then .ok .outside else .error .missing

def step (f : Folder) (names : List String) (name : String) : Except ReadFault Spot :=
  let names := names ++ [name]
  if 255 < name.utf8ByteSize then .error .nameTooLong
  else match f.find? fun file => parts file.1 = names with
    | some file => .ok (.file file.2)
    | none =>
      if f.any fun file => names.isPrefixOf (parts file.1) then .ok (.folder names)
      else .error .missing

def walk (f : Folder) (spot : Spot) : List String → Except ReadFault Spot
  | [] => .ok spot
  | name :: rest =>
    match spot with
    | .file _ => .error .notDirectory
    | .folder names =>
      if name = "" || name = "." then f.walk spot rest
      else if name = ".." then
        f.walk (if names.isEmpty then .outside else .folder names.dropLast) rest
      else match f.step names name with
        | .ok spot => f.walk spot rest
        | .error fault => .error fault
    | spot =>
      match stepOutside spot name with
      | .ok spot => f.walk spot rest
      | .error fault => .error fault

/-- The content of the file that a path leads to. -/
def read (f : Folder) (path : String) : Except ReadFault (List Nat) :=
  if path.toList.contains '\x00' then .error .nulInName
  else if 4096 ≤ path.utf8ByteSize then .error .nameTooLong
  else
    let start := if path.startsWith "/" then Spot.root else .folder []
    match f.walk start (parts path) with
    | .ok (.file octets) => .ok octets
    | .ok _ => .error .isDirectory
    | .error fault => .error fault

end Folder
end Formulary
