import SingleTape.Encoding
import SingleTape.Files
import SingleTape.Program.Compile

/-!
# Programs and configurations from files

A program file is read as it is, whatever its name.  A directory is searched for files whose
name ends in `.tm`, in ascending order of their names; each is compiled on an empty tape.  A file
is passed over if its path, the name put behind the directory's path, is too long to lead to it.
-/

namespace SingleTape

namespace Loader

/-- The text of a program file. -/
def source (read : FileReader) (path : String) : Except Error String :=
  match read path with
  | .error fault => .error (.unreadableFile path fault)
  | .ok text => .ok text

/-- The program of a file, on an initial tape placed at `offset`. -/
def program (read : FileReader) (path tape : String) (offset : Position) :
    Except Error Program := do
  let text ← source read path
  Program.compile text tape offset

/-- The part of a name after its last dot; a dot at the very beginning does not count. -/
def extension? (name : List Char) : Option (List Char) :=
  let ending := (name.reverse.takeWhile (· ≠ '.')).reverse
  if ending.length + 1 < name.length then some ending else none

/-- Tells whether a file name is that of a program file. -/
def isProgramName (name : String) : Bool :=
  extension? name.toList = some ['t', 'm']

/-- The path of a file in a directory. -/
def join (directory name : String) : String :=
  if directory.toList.getLast? = some '/' then directory ++ name else directory ++ "/" ++ name

/-- The programs of a directory with their paths, or what is wrong with them. -/
def directory (files : FileTree) (path : String) : List (Except Error (String × Program)) :=
  match files.list path with
  | .error fault => [.error (.unreadableDirectory path fault)]
  | .ok names =>
    let programs := names.filter fun name => isProgramName name && files.isFile (join path name)
    (programs.mergeSort fun a b => a ≤ b).map fun name => do
      let p ← program files.read (join path name) "" .origin
      return (join path name, p)

end Loader

/-- The configuration of a file. -/
def Config.load (read : FileReader) (path : String) : Except Error Config :=
  match read path with
  | .error fault => .error (.unreadableConfig path fault)
  | .ok text => Config.decode text

end SingleTape
