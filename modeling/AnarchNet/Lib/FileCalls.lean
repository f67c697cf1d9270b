import AnarchNet.Lib.Effect
import AnarchNet.Lib.FileTree

/-!
# File system calls

The calls of `boost::filesystem` and of the file streams over a file tree. A `World` is the tree
together with the log of every path that a call was told to open, create or remove. Queries
(`present`, `isDirectory`, `fileSize`) leave no trace in the log. A call fails only because of its
path argument: there are no full disks and no permissions here.
-/

namespace FileSystem

/-- A file tree and the paths opened, created or removed so far. -/
structure World where
  tree : FileTree
  log : List FilePath

/-- The order in which a system lists a directory: some rearrangement of its entries. -/
structure Listing where
  order : List Name → List Name
  perm : ∀ names, (order names).Perm names

/-- The exceptions of a program whose file system calls may throw. -/
class FileFault (ε : Type) where
  filesystemError : ε

namespace FileTree

/-- The directory and the name under which a path would be created. -/
def slot (tree : FileTree) (path : FilePath) : Option (FilePath × Name) :=
  match path.getLast? with
  | none => none
  | some name =>
      if Proper name then
        match tree.resolve path.dropLast with
        | none => none
        | some dir => if tree.get dir = some .dir then some (dir, name) else none
      else none

/-- The node that a path names, a link at its end not followed. -/
def locate (tree : FileTree) (path : FilePath) : Option FilePath :=
  match tree.slot path with
  | none => tree.resolve path
  | some (dir, name) => if tree.get (dir ++ [name]) = none then none else some (dir ++ [name])

end FileTree

/-- Write `new` over `old` at `position`; a gap is filled with zero bytes. -/
def overlay (old : Bytes) (position : Nat) (new : Bytes) : Bytes :=
  old.take position ++ List.replicate (position - old.length) 0 ++ new ++
    old.drop (position + new.length)

section Calls

variable {ε : Type} [FileFault ε]

/-- Note a path in the log. -/
def record (path : FilePath) : EStateM ε World Unit :=
  modify fun world => { world with log := world.log ++ [path] }

/-- Replace the tree. -/
def setTree (tree : FileTree) : EStateM ε World Unit :=
  modify fun world => { world with tree := tree }

/-- `exists`: the path leads to something. -/
def present (path : FilePath) : EStateM ε World Bool := do
  let world ← get
  return (world.tree.resolve path).isSome

/-- `is_directory`: the path leads to a directory. -/
def isDirectory (path : FilePath) : EStateM ε World Bool := do
  let world ← get
  return decide ((world.tree.resolve path).bind world.tree.get = some .dir)

/-- `file_size`: the length of a regular file. -/
def fileSize (path : FilePath) : EStateM ε World Nat := do
  let world ← get
  match (world.tree.resolve path).bind world.tree.get with
  | some (.file content) => return content.length
  | _ => throw FileFault.filesystemError

/-- Create one node. -/
def createNode (path : FilePath) (node : Node) : EStateM ε World Unit := do
  record path
  let world ← get
  match world.tree.slot path with
  | none => throw FileFault.filesystemError
  | some (dir, name) =>
      match world.tree.create dir name node with
      | none => throw FileFault.filesystemError
      | some tree => setTree tree

/-- Go along `rest` from the existing directory `done` and create what is missing. The result
tells whether the last component had to be created. -/
def createMissing (done : FilePath) : FilePath → Bool → EStateM ε World Bool
  | [], made => return made
  | name :: rest, _ => do
      if ← isDirectory (done ++ [name]) then
        createMissing (done ++ [name]) rest false
      else if ← present (done ++ [name]) then
        throw FileFault.filesystemError
      else do
        createNode (done ++ [name]) .dir
        createMissing (done ++ [name]) rest true

/-- `create_directories`: create a directory and the missing ones above it. The result tells
whether the last one is new. Repeated and trailing slashes do not count. -/
def createDirectories (path : FilePath) : EStateM ε World Bool :=
  createMissing [] (path.filter (· ≠ [])) false

/-- Make sure that a directory is there: `exists`, and `create_directories` if it is not. -/
def ensureDirectory (path : FilePath) : EStateM ε World Bool := do
  if ← present path then return true
  else createDirectories path

/-- `create_symlink`: the link is created whether or not its target exists. -/
def createSymlink (target path : FilePath) : EStateM ε World Unit :=
  createNode path (.link target)

/-- Open an output file stream: an existing file is emptied, a missing one is created. The
result is the file written to, or nothing when the stream is not good. -/
def openOut (path : FilePath) : EStateM ε World (Option FilePath) := do
  record path
  let world ← get
  match world.tree.resolve path with
  | some file =>
      match world.tree.get file with
      | some (.file _) => do
          setTree (world.tree.write file [])
          return some file
      | _ => return none
  | none =>
      match world.tree.slot path with
      | none => return none
      | some (dir, name) =>
          match world.tree.create dir name (.file []) with
          | none => return none
          | some tree => do
              setTree tree
              return some (dir ++ [name])

/-- The bytes of a regular file. Reading a directory fails. -/
def FileTree.content (tree : FileTree) (file : FilePath) : Option Bytes :=
  match tree.get file with
  | some (.file content) => some content
  | _ => none

/-- Write to an open file at a position. -/
def writeAt (file : FilePath) (position : Nat) (bytes : Bytes) : EStateM ε World Unit :=
  modify fun world =>
    { world with
      tree := world.tree.write file
        (overlay ((world.tree.content file).getD []) position bytes) }

/-- Open an input file stream. Directories can be opened too; only reading them fails. -/
def openIn (path : FilePath) : EStateM ε World (Option FilePath) := do
  record path
  let world ← get
  return world.tree.resolve path

/-- What an open input stream reads from its beginning to its end. -/
def readAll (file : FilePath) : EStateM ε World (Option Bytes) := do
  let world ← get
  return world.tree.content file

/-- A `directory_iterator`: the names of a directory in the order the system lists them. -/
def listDirectory (listing : Listing) (path : FilePath) : EStateM ε World (List Name) := do
  record path
  let world ← get
  match world.tree.resolve path with
  | none => throw FileFault.filesystemError
  | some dir =>
      if world.tree.get dir = some .dir then return listing.order (world.tree.names dir)
      else throw FileFault.filesystemError

/-- `remove`: remove a file, a link or an empty directory; the result tells whether there was
something to remove. A path that ends in a dot names no entry, and the system refuses it. -/
def remove (path : FilePath) : EStateM ε World Bool := do
  record path
  let world ← get
  match world.tree.locate path with
  | none => return false
  | some found =>
      if EndsInName path ∧ found ≠ [] ∧ world.tree.names found = [] then do
        setTree (world.tree.prune found)
        return true
      else throw FileFault.filesystemError

/-- Everything below a directory removed, entry by entry. -/
def FileTree.clear (tree : FileTree) (dir : FilePath) : FileTree :=
  (tree.names dir).foldl (fun rest name => rest.prune (dir ++ [name])) tree

/-- `remove_all`: remove a node and everything below it; the result is the number of nodes
removed. What a path that ends in a dot leads to loses its contents before the call fails. -/
def removeAll (path : FilePath) : EStateM ε World Nat := do
  record path
  let world ← get
  match world.tree.locate path with
  | none => return 0
  | some found =>
      if EndsInName path ∧ found ≠ [] then do
        setTree (world.tree.prune found)
        return (world.tree.nodes.filter fun entry => decide (found <+: entry.1)).length
      else do
        setTree (world.tree.clear found)
        throw FileFault.filesystemError

end Calls

end FileSystem
