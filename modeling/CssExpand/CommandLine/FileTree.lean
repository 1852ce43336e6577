/-!
# Files by name

What the command line may know about a file name (`Place`), and a tree of files that answers it
(`FileTree`). A tree holds files only; a directory is there when something is in it, or when it has
been made on the way to a file. Names are resolved from the top of the tree. Nothing is known to lie
outside but the null device, and what is written there is lost.
-/

set_option autoImplicit false

namespace CssExpand

/-- What a file name names. -/
inductive PathKind where
  | missing
  | file (bytes : ByteArray)
  | directory
  /-- No file can have the name. -/
  | impossible

/-- Why nothing can be written under a name. -/
inductive WriteFault where
  /-- The directory for the file is itself a file. -/
  | parentIsFile
  /-- A directory further up is a file. -/
  | ancestorIsFile
  /-- The name is that of a directory. -/
  | isDirectory
  /-- The name, or a part of it, has too many bytes. -/
  | nameTooLong
  deriving DecidableEq, Repr

/-- What is known about a file name. -/
structure Place where
  kind : PathKind
  /-- The file that a text written under the name goes to; none if the text is lost. -/
  target : Except WriteFault (Option String)

/-! ## Names -/

/-- The parts of a name. -/
def nameParts (name : String) : List String := name.splitOn "/"

/-- The parts of a name that lead somewhere else. -/
def properParts (name : String) : List String :=
  (nameParts name).filter fun part => part != "" && part != "."

/-- Whether a name starts at the top of the whole file system. -/
def isAbsoluteName (name : String) : Bool := name.toList.head? == some '/'

/-- The most bytes in one part of a name. -/
def maxPartBytes : Nat := 255

/-- The most bytes in a whole name. -/
def maxNameBytes : Nat := 4095

/-- Where a text can be read that is empty, and where one can be lost. -/
def nullDevice : String := "/dev/null"

/-! ## Trees -/

/-- Files by their paths, each a list of directories and a last name. -/
structure FileTree where
  files : List (List String × ByteArray)

namespace FileTree

/-- A tree of files with slashes in their names. -/
def ofList (files : List (String × ByteArray)) : FileTree :=
  ⟨files.map fun f => (properParts f.1, f.2)⟩

/-- The content of a file. -/
def content? (t : FileTree) (path : List String) : Option ByteArray := t.files.lookup path

/-- Whether a path is that of a directory. -/
def isDirectory (t : FileTree) (path : List String) : Bool :=
  path.isEmpty || t.files.any fun f => path.isPrefixOf f.1 && path.length < f.1.length

/-- What a path is. -/
def kindAt (t : FileTree) (path : List String) : PathKind :=
  match t.content? path with
  | some bytes => .file bytes
  | none => if t.isDirectory path then .directory else .missing

/-- The directory above a path; none above the tree. -/
def above (path : List String) : Option (List String) :=
  if path.isEmpty then none else some path.dropLast

/-! ## Looking a name up -/

/-- What the parts of a name lead to from a path, or from above the tree. Each part but the last has
to be a directory. -/
def kindFrom (t : FileTree) (path : Option (List String)) : List String → PathKind
  | [] =>
    match path with
    | some path => t.kindAt path
    | none => .directory
  | part :: parts =>
    match path with
    | none =>
      if part == "" || part == "." || part == ".." then t.kindFrom none parts else .missing
    | some path =>
      if !t.isDirectory path then .missing
      else if part == "" || part == "." then t.kindFrom (some path) parts
      else if part == ".." then t.kindFrom (above path) parts
      else t.kindFrom (some (path ++ [part])) parts

/-- What a name is. -/
def kind (t : FileTree) (name : String) : PathKind :=
  if name.toList.contains '\x00' then .impossible
  else if name.isEmpty || maxNameBytes < name.utf8ByteSize then .missing
  else if name == nullDevice then .file ByteArray.empty
  else t.kindFrom (if isAbsoluteName name then none else some []) (nameParts name)

/-! ## Writing under a name -/

/-- How far the making of directories has come: the path reached, none outside the tree, and the
directories that were made. -/
structure Making where
  path : Option (List String)
  made : List (List String) := []
  deriving DecidableEq, Repr

/-- Goes on through the parts of a name and makes the directories that are missing. From the first
of these on, every directory is made by itself, so a file in the way is then the last part. -/
def makeDirectories (t : FileTree) (m : Making) : List String → Except WriteFault Making
  | [] => .ok m
  | part :: parts =>
    match m.path with
    | none => t.makeDirectories m parts
    | some path =>
      if part == ".." then t.makeDirectories { m with path := above path } parts
      else
        let next := path ++ [part]
        if (t.content? next).isSome then
          .error (if parts.isEmpty || !m.made.isEmpty then .parentIsFile else .ancestorIsFile)
        else if t.isDirectory next || m.made.contains next then
          t.makeDirectories { m with path := some next } parts
        else if maxPartBytes < part.utf8ByteSize then .error .nameTooLong
        else t.makeDirectories ⟨some next, next :: m.made⟩ parts

/-- The file that the last part of a name leads to when its directories have been made. -/
def fileIn (t : FileTree) (m : Making) (part : String) : Except WriteFault (Option String) :=
  match m.path with
  | none => if part == ".." then .error .isDirectory else .ok none
  | some path =>
    let file := path ++ [part]
    if part == ".." || t.isDirectory file || m.made.contains file then .error .isDirectory
    else if maxPartBytes < part.utf8ByteSize then .error .nameTooLong
    else .ok (some ("/".intercalate file))

/-- The number of bytes of a name that is made of parts again. -/
def bytesOf (isAbsolute : Bool) (parts : List String) : Nat :=
  ("/".intercalate parts).utf8ByteSize + isAbsolute.toNat

/-- The file that a text written under a name goes to. -/
def target (t : FileTree) (name : String) : Except WriteFault (Option String) := do
  let parts := properParts name
  let isAbsolute := isAbsoluteName name
  if maxNameBytes < bytesOf isAbsolute parts.dropLast then throw .nameTooLong
  let m ← t.makeDirectories { path := if isAbsolute then none else some [] } parts.dropLast
  if maxNameBytes < bytesOf isAbsolute parts then throw .nameTooLong
  match parts.getLast? with
  | none => throw .isDirectory
  | some part => t.fileIn m part

/-- What is known about a name. -/
def place (t : FileTree) (name : String) : Place := ⟨t.kind name, t.target name⟩

end FileTree

end CssExpand
