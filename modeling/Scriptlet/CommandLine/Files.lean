/-!
The files a command works on: an interface to read and write them, and a directory held in
memory that offers it. Paths are walked name by name. Of what lies outside the directory only
the top folders of a system and the null device are known: nothing else is found there, and
what is written there is forgotten.
-/
namespace Scriptlet.CommandLine

inductive FileFault
  | missing
  | notDirectory
  | isDirectory
  | nameTooLong
  | other (text : String)
deriving DecidableEq, Repr

def FileFault.message : FileFault → String
  | missing => "No such file or directory (os error 2)"
  | notDirectory => "Not a directory (os error 20)"
  | isDirectory => "Is a directory (os error 21)"
  | nameTooLong => "File name too long (os error 36)"
  | other text => text

class Files (m : Type → Type) where
  read : String → m (Except FileFault ByteArray)
  write : String → ByteArray → m (Except FileFault Unit)

/-- Folders and files by the names that lead to them. -/
structure Directory where
  folders : List (List String) := []
  files : List (List String × ByteArray) := []

namespace Directory

inductive Place
  | folder (path : List String)
  | file (path : List String) (content : ByteArray)
  /-- A folder above the directory, wherever that is. -/
  | above
  /-- A folder of the system, by the names from its root. -/
  | system (path : List String)
  | null

/-- The names of a path; a dot stands for the folder itself. -/
def names (path : String) : List String :=
  (path.splitOn "/").filter fun n => n != "" && n != "."

def onTheWay (path : List String) : List (List String) :=
  (List.range path.length).map fun k => path.take (k + 1)

def addFolder (d : Directory) (path : String) : Directory :=
  { d with folders := onTheWay (names path) ++ d.folders }

def file? (d : Directory) (path : List String) : Option ByteArray :=
  d.files.lookup path

def put (d : Directory) (path : List String) (content : ByteArray) : Directory :=
  { d with files := (path, content) :: d.files.filter fun f => f.1 != path }

def addFile (d : Directory) (path : String) (content : ByteArray) : Directory :=
  { d with folders := onTheWay (names path).dropLast ++ d.folders }.put (names path) content

def find (d : Directory) (path : List String) : Except FileFault Place :=
  match d.file? path with
  | some content => .ok (.file path content)
  | none => if d.folders.contains path then .ok (.folder path) else .error .missing

def systemFolders : List String :=
  ["bin", "boot", "dev", "etc", "home", "lib", "media", "mnt", "opt", "proc", "root", "run",
   "sbin", "srv", "sys", "tmp", "usr", "var"]

def findSystem : List String → Except FileFault Place
  | ["dev", "null"] => .ok .null
  | [n] => if systemFolders.contains n then .ok (.system [n]) else .error .missing
  | _ => .error .missing

def maxName : Nat := 255

def maxPath : Nat := 4095

def parts (path : String) : Except FileFault (List String) :=
  if path.isEmpty then .error .missing
  else if maxPath < path.utf8ByteSize then .error .nameTooLong
  else .ok (path.splitOn "/")

def Place.parent : Place → Place
  | .folder [] => .above
  | .folder path => .folder path.dropLast
  | .system path => .system path.dropLast
  | place => place

def enter (d : Directory) (place : Place) (n : String) : Except FileFault Place :=
  if maxName < n.utf8ByteSize then .error .nameTooLong
  else
    match place with
    | .folder path => d.find (path ++ [n])
    | .system path => findSystem (path ++ [n])
    | _ => .error .missing

def Place.isFolder : Place → Bool
  | .file _ _ | .null => false
  | _ => true

/-- One part of a path further. Even an empty part, as after a last slash, needs a folder. -/
def step (d : Directory) (place : Place) (n : String) : Except FileFault Place :=
  if !place.isFolder then .error .notDirectory
  else if n = "" ∨ n = "." then .ok place
  else if n = ".." then .ok place.parent
  else d.enter place n

/-- Walks the parts of a path; one that starts with a slash starts at the root of the system. -/
def walk (d : Directory) (ps : List String) : Except FileFault Place :=
  ps.foldlM d.step (if ps.head? = some "" then .system [] else .folder [])

def read (d : Directory) (path : String) : Except FileFault ByteArray := do
  match ← d.walk (← parts path) with
  | .file _ content => return content
  | .null => return .empty
  | _ => throw .isDirectory

def writeIn (d : Directory) (place : Place) (n : String) (content : ByteArray) :
    Except FileFault Directory :=
  match d.step place n, place with
  | .ok (.file path _), _ => .ok (d.put path content)
  | .ok .null, _ => .ok d
  | .ok _, _ => .error .isDirectory
  | .error .missing, .folder path => .ok (d.put (path ++ [n]) content)
  | .error .missing, _ => .ok d
  | .error e, _ => .error e

/-- Writes a file. A path that ends in a slash names a folder, whether there is one or not, as
long as there is a folder for it to be in. -/
def write (d : Directory) (path : String) (content : ByteArray) : Except FileFault Directory := do
  let all ← parts path
  let named := (all.reverse.dropWhile (· == "")).reverse
  match named.getLast? with
  | none => throw .isDirectory
  | some n =>
    let place ← d.walk named.dropLast
    if named.length < all.length then
      let _ ← d.step place ""
      throw .isDirectory
    else d.writeIn place n content

def changesSince (d before : Directory) : List (String × ByteArray) :=
  (d.files.filter fun f => before.file? f.1 != some f.2).map fun f =>
    ("/".intercalate f.1, f.2)

end Directory

instance : Files (StateM Directory) where
  read path := do
    return (← get).read path
  write path content := do
    match (← get).write path content with
    | .ok d =>
      set d
      return .ok ()
    | .error e => return .error e

end Scriptlet.CommandLine
