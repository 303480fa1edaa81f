import SingleTape.Error

/-!
# Files

The files below a working directory, as far as they matter here: which there are, which
directories stand between, and what the files contain.  Of what lies outside the working
directory nothing is known but that there is a directory.

A path is refused as a whole if it holds a NUL, is empty or has more than `pathLimit` bytes.
After that its names are followed one by one; a name of more than `nameLimit` bytes is refused
when it is looked up in a directory, so a fault of an earlier name comes first.
-/

namespace SingleTape

/-- A way to get at the text of a file by its path. -/
abbrev FileReader := String → Except FileFault String

/-- The text in some bytes. -/
def decodeText (bytes : ByteArray) : Except FileFault String :=
  match String.fromUTF8? bytes with
  | none => .error .invalidText
  | some text => .ok text

/-- The most bytes that a name in a directory may have. -/
def nameLimit : Nat := 255

/-- The most bytes that a path may have. -/
def pathLimit : Nat := 4095

/-- The names in a path: what stands before, between and after its slashes. -/
def pathNames (path : String) : List String :=
  (path.toList.foldr (fun c names =>
    if c = '/' then [] :: names else (c :: names.headD []) :: names.tail) [[]]).map String.ofList

/-- The files and directories below a working directory, by the names on the way to them. -/
structure FileTree where
  /-- The files with their contents. -/
  files : List (List String × ByteArray)
  /-- Directories that hold nothing, and perhaps others. -/
  directories : List (List String)

namespace FileTree

/-- The tree with a file put into it, in place of a file of the same names. -/
def put (t : FileTree) (names : List String) (content : ByteArray) : FileTree :=
  { t with files := (names, content) :: t.files.filter fun f => f.1 ≠ names }

/-- A place to which a path leads. -/
inductive Place where
  /-- A file or a directory below the working directory, or that directory itself. -/
  | inside (names : List String)
  /-- A directory outside the working directory. -/
  | outside
deriving DecidableEq

/-- The content of a file. -/
def content? (t : FileTree) (names : List String) : Option ByteArray :=
  (t.files.find? fun f => f.1 = names).map (·.2)

/-- Tells whether the names lead to a directory. -/
def isDirectory (t : FileTree) (names : List String) : Bool :=
  names = [] || t.directories.any (fun d => names.isPrefixOf d) ||
    t.files.any fun f => names.isPrefixOf f.1 && names ≠ f.1

/-- Follows one name of a path. -/
def enter (t : FileTree) (place : Place) (name : String) : Except FileFault Place :=
  match place with
  | .outside =>
    if name ∈ ["", ".", ".."] then .ok .outside
    else if nameLimit < name.utf8ByteSize then .error .nameTooLong
    else .error .notFound
  | .inside names =>
    if !t.isDirectory names then .error .notDirectory
    else if name = "" ∨ name = "." then .ok place
    else if name = ".." then
      .ok (if names = [] then .outside else .inside names.dropLast)
    else if nameLimit < name.utf8ByteSize then .error .nameTooLong
    else
      let inner := names ++ [name]
      if t.isDirectory inner || (t.content? inner).isSome then .ok (.inside inner)
      else .error .notFound

/-- Follows a path, whose names are separated by slashes. -/
def resolve (t : FileTree) (path : String) : Except FileFault Place :=
  if '\x00' ∈ path.toList then .error .nulInPath
  else if path = "" then .error .notFound
  else if pathLimit < path.utf8ByteSize then .error .nameTooLong
  else
    match pathNames path with
    | "" :: names => names.foldlM t.enter .outside
    | names => names.foldlM t.enter (.inside [])

/-- Tells whether a path leads to a file. -/
def isFile (t : FileTree) (path : String) : Bool :=
  match t.resolve path with
  | .ok (.inside names) => (t.content? names).isSome
  | _ => false

/-- The text of a file. -/
def read (t : FileTree) : FileReader := fun path =>
  match t.resolve path with
  | .error fault => .error fault
  | .ok .outside => .error .isDirectory
  | .ok (.inside names) =>
    match t.content? names with
    | none => .error .isDirectory
    | some bytes => decodeText bytes

/-- The names of the files that stand directly in a directory. -/
def filesIn (t : FileTree) (names : List String) : List String :=
  t.files.filterMap fun f =>
    match f.1.getLast? with
    | none => none
    | some name => if f.1.dropLast = names then some name else none

/-- The names of the files in the directory to which a path leads. -/
def list (t : FileTree) (path : String) : Except FileFault (List String) :=
  match t.resolve path with
  | .error fault => .error fault
  | .ok .outside => .ok []
  | .ok (.inside names) =>
    if t.isDirectory names then .ok (t.filesIn names) else .error .notDirectory

end FileTree

end SingleTape
