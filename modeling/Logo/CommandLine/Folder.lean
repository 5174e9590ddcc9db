import Logo.CommandLine.Report

/-!
# Folders

A folder with one file in it, and what reading a path from inside that folder gives.
-/

namespace Logo

namespace CommandLine

/-- A folder that holds at most one file. -/
structure Folder where
  /-- The name and the bytes of the file. -/
  file? : Option (String × ByteArray)

namespace Folder

/-- The longest name that a file can have, in bytes. -/
def maxName : Nat := 255

/-- The longest path that can be followed, in bytes. -/
def maxPath : Nat := 4095

/-- The parts of a path between its slashes. -/
def parts (path : String) : List String :=
  (path.toList.splitOn '/').map String.ofList

/-- What a path leads to after some of its parts. -/
inductive Place where
  /-- A folder; only the one with the file is known. -/
  | folder (inside : Bool)
  /-- The file. -/
  | file (bytes : ByteArray)

/-- The place one part of a path further.  Empty parts and `.` stay in a folder. -/
def enter (f : Folder) (part : String) : Place → Except FileError Place
  | .file _ => .error .notFolder
  | .folder inside =>
    if part = "" ∨ part = "." then .ok (.folder inside)
    else if maxName < part.utf8ByteSize then .error .nameTooLong
    else if part = ".." then .ok (.folder false)
    else
      match inside, f.file? with
      | true, some (name, bytes) => if part = name then .ok (.file bytes) else .error .notFound
      | _, _ => .error .notFound

/-- Reads the text at a path. -/
def read (f : Folder) (path : String) : Except FileError String :=
  if path = "" then .error .notFound
  else if maxPath < path.utf8ByteSize then .error .nameTooLong
  else do
    let start : Place := .folder (path.toList.head? ≠ some '/')
    match ← (parts path).foldlM (fun place part => f.enter part place) start with
    | .folder _ => throw .isFolder
    | .file bytes =>
      match String.fromUTF8? bytes with
      | some text => return text
      | none => throw .notText

end Folder

end CommandLine

end Logo
