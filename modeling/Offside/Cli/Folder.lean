import Offside.Cli.Report

/-!
# Folders

A folder of files held in memory, and what reading a path in it gives. A path is walked name by
name, and the first name that leads nowhere decides what is wrong with it.

Of what is around the folder only this is known: there are folders above it, up to the root, and in
the root what every system has there.
-/

namespace Offside.Cli

/-- The files of a folder, by name, in the order they were written. -/
structure Folder where
  files : List (String × ByteArray)

namespace Folder

/-- The longest file name there is, in bytes. -/
def longestName : Nat := 255

/-- The longest path there is, in bytes. -/
def longestPath : Nat := 4095

/-- The file of this name. Of two the later one counts. -/
def get? (folder : Folder) (name : String) : Option ByteArray := folder.files.reverse.lookup name

/-- Where a part of a path leads. -/
inductive Place
  /-- The folder itself. -/
  | here
  /-- A folder above it. -/
  | above
  | root
  /-- The folder of devices, below the root. -/
  | devices
  /-- The folder for files that are soon deleted, below the root. -/
  | scratch
  | file (content : ByteArray)

namespace Place

/-- The folder above a folder. The root is above itself. -/
def up : Place → Place
  | here => above
  | above => above
  | root => root
  | devices => root
  | scratch => root
  | file content => file content

/-- What a folder has under a name. The null device is an empty file. -/
def enter (folder : Folder) (name : String) : Place → Option Place
  | here => (folder.get? name).map file
  | root =>
    if name = "dev" then some devices else if name = "tmp" then some scratch else none
  | devices => if name = "null" then some (file .empty) else none
  | _ => none

/-- One name further. An empty name and a dot stay where they are, but only in a folder. -/
def step (folder : Folder) (name : String) : Place → Except ReadError Place
  | file _ => .error .notDirectory
  | p =>
    if name = "" ∨ name = "." then .ok p
    else if name = ".." then .ok p.up
    else if longestName < name.utf8ByteSize then .error .nameTooLong
    else
      match p.enter folder name with
      | some q => .ok q
      | none => .error .notFound

/-- The place that names lead to, one after the other. -/
def walk (folder : Folder) (p : Place) (names : List String) : Except ReadError Place :=
  names.foldlM (fun q name => step folder name q) p

end Place

/-- The place that a path leads to; one that begins with a slash is walked from the root. -/
def resolve (folder : Folder) (path : String) : Except ReadError Place :=
  if path = "" then .error .notFound
  else if longestPath < path.utf8ByteSize then .error .nameTooLong
  else
    match path.splitOn "/" with
    | "" :: names => Place.root.walk folder names
    | names => Place.here.walk folder names

/-- Reads a path. Only files can be read. -/
def read (folder : Folder) (path : String) : Except ReadError ByteArray := do
  match ← folder.resolve path with
  | .file content => return content
  | _ => .error .isDirectory

def file (folder : Folder) (path : String) : File :=
  ⟨path, do decode (← folder.read path)⟩

end Folder

end Offside.Cli
