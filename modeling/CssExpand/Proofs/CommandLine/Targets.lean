import CssExpand.CommandLine.FileTree

/-!
# Where a text can be written

What is written under a name goes to the file that the name names, and writing fails for one of three
reasons only: a file stands where the name wants a directory, the name is that of a directory, or it
is too long (`target_cases`). So a name that leads through no file (`FileTree.parents`) can be written
unless no file can have it.

The paths that a name leads through do not depend on the tree, nor on the directories that are made
on the way. That is what the inductions over the parts of the name carry.
-/

set_option autoImplicit false

namespace CssExpand

namespace FileTree

variable {t : FileTree}

/-- The paths that parts lead through from a path, each a directory on the way. -/
def pathsThrough : Option (List String) → List String → List (List String)
  | _, [] => []
  | none, _ :: _ => []
  | some path, part :: parts =>
    if part == ".." then pathsThrough (above path) parts
    else (path ++ [part]) :: pathsThrough (some (path ++ [part])) parts

/-- Where a name starts. -/
def start (name : String) : Option (List String) := if isAbsoluteName name then none else some []

/-- What is in the way when directories cannot be made: a file, or a part that is too long. -/
def Blocked (t : FileTree) (path : Option (List String)) (parts : List String)
    (fault : WriteFault) : Prop :=
  ((fault = .parentIsFile ∨ fault = .ancestorIsFile) ∧
      ∃ file ∈ pathsThrough path parts, (t.content? file).isSome = true) ∨
    (fault = .nameTooLong ∧ ∃ part ∈ parts, maxPartBytes < part.utf8ByteSize)

variable {fault : WriteFault}

/-- What is in the way further on is in the way. -/
theorem Blocked.cons {path path' : Option (List String)} {part : String} {parts : List String}
    (h : t.Blocked path' parts fault)
    (hsub : pathsThrough path' parts ⊆ pathsThrough path (part :: parts)) :
    t.Blocked path (part :: parts) fault := by
  rcases h with ⟨hfault, file, hfile, hcontent⟩ | ⟨hfault, long, hlong, hsize⟩
  · exact .inl ⟨hfault, file, hsub hfile, hcontent⟩
  · exact .inr ⟨hfault, long, List.mem_cons_of_mem part hlong, hsize⟩

end FileTree

end CssExpand
