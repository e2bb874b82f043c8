import Abnf.Command.Path
import Abnf.Command.World
import Abnf.Text.Lines

/-
  File trees in memory.

  A tree holds files and directories by the names on the way
  to them from its root. Paths that do not start at the root
  are followed from a directory of the tree, its home.

  Key definitions include:
    * `Abnf.FileTree`
    * `Abnf.FileTree.resolve`
    * `Abnf.FileTree.makeDirectory`
    * `Abnf.FileTree.write`
    * `Abnf.Machine`
    * `Abnf.Machine.world`
-/

------------------------------------------------------------
-- Trees
------------------------------------------------------------

namespace Abnf

/- What stands at a place of a tree. -/
inductive FileNode where
  | file (bytes : Array UInt8)
  | directory
  /- A file that never has anything in it. -/
  | sink
deriving DecidableEq, Inhabited

/- Files and directories by the names on the way to them. -/
structure FileTree where
  /- Where relative paths start. -/
  home : List String
  nodes : List (List String × FileNode)
deriving Inhabited

namespace FileTree

/- What stands at a place; the root is a directory. -/
def at?
    (tree : FileTree)
    (place : List String) : Option FileNode :=
  if place.isEmpty then
    some .directory
  else
    tree.nodes.lookup place

/- There is a directory at a place. -/
def hasDirectory
    (tree : FileTree)
    (place : List String) : Bool :=
  tree.at? place == some .directory

/- Put something at a place. -/
def put
    (tree : FileTree)
    (place : List String)
    (node : FileNode) : FileTree :=
  { tree with
    nodes :=
      (place, node) :: tree.nodes.filter (·.1 != place) }

/- The most bytes in a name. -/
def nameLimit : Nat := 255

/- Paths have fewer bytes than this. -/
def pathLimit : Nat := 4096

/-
  The place that some steps lead to. Above the root there is
  the root again.
-/
def follow
    (tree : FileTree) :
    List String → List String →
      Except SystemError (List String)
  | here, [] => .ok here
  | here, step :: rest =>
      if !tree.hasDirectory here then
        .error .notDirectory
      else if step = "." then
        follow tree here rest
      else if step = ".." then
        follow tree here.dropLast rest
      else if nameLimit < step.utf8ByteSize then
        .error .nameTooLong
      else if (tree.at? (here ++ [step])).isSome then
        follow tree (here ++ [step]) rest
      else
        .error .notFound

/- Where a path starts, if it can be followed at all. -/
def start
    (tree : FileTree)
    (path : String) : Except SystemError (List String) :=
  if path.toList.contains '\x00' then
    .error .zeroInName
  else if path.isEmpty then
    .error .notFound
  else if pathLimit ≤ path.utf8ByteSize then
    .error .nameTooLong
  else if Path.isAbsolute path then
    .ok []
  else
    .ok tree.home

/- The place that a path leads to. -/
def resolve
    (tree : FileTree)
    (path : String) :
    Except SystemError (List String) := do
  tree.follow (← tree.start path) (Path.steps path)

/- The bytes of the file at a path. -/
def read
    (tree : FileTree)
    (path : String) : Except FileFault (Array UInt8) :=
  match tree.resolve path with
  | .error error => .error (.opening error)
  | .ok place =>
      match tree.at? place with
      | some (.file bytes) => .ok bytes
      | some .sink => .ok #[]
      | some .directory => .error (.reading .isDirectory)
      | none => .error (.opening .notFound)

/- There is a directory at a path. -/
def isDirectory
    (tree : FileTree)
    (path : String) : Bool :=
  match tree.resolve path with
  | .ok place => tree.hasDirectory place
  | .error _ => false

/- The names in the directory at a path, in order. -/
def list
    (tree : FileTree)
    (path : String) :
    Except SystemError (List String) := do
  let place ← tree.resolve path
  unless tree.hasDirectory place do
    throw .notDirectory
  let names := tree.nodes.filterMap
    (fun node =>
      if node.1.dropLast = place then
        node.1.getLast?
      else
        none)
  return names.mergeSort (fun a b => decide (a ≤ b))

/- The most names on the way to a file or a directory. -/
def depth
    (tree : FileTree) : Nat :=
  (tree.nodes.map (·.1.length)).foldl Nat.max 0

end FileTree

end Abnf

------------------------------------------------------------
-- Changes
------------------------------------------------------------

namespace Abnf

namespace FileTree

/-
  The directory that the steps before the last one lead to,
  and the last step.
-/
def resolveParent
    (tree : FileTree)
    (path : String) :
    Except SystemError (List String × String) := do
  let start ← tree.start path
  let steps := Path.names path
  let place ← tree.follow start steps.dropLast
  if tree.hasDirectory place then
    return (place, steps.getLast?.getD ".")
  else
    throw .notDirectory

/- Make one directory. -/
def makeDirectory
    (tree : FileTree)
    (path : String) : Except SystemError FileTree := do
  let (place, last) ← tree.resolveParent path
  let target := place ++ [last]
  if last = "." || last = ".." then
    throw .occupied
  if nameLimit < last.utf8ByteSize then
    throw .nameTooLong
  if (tree.at? target).isSome then
    throw .occupied
  return tree.put target .directory

/- Put bytes into a file, given those it has. -/
def update
    (tree : FileTree)
    (path : String)
    (change : Array UInt8 → Array UInt8) :
    Except SystemError FileTree := do
  let (place, last) ← tree.resolveParent path
  if last = "." || last = ".." || Path.endsOpen path then
    throw .isDirectory
  if nameLimit < last.utf8ByteSize then
    throw .nameTooLong
  let target := place ++ [last]
  match tree.at? target with
  | some .directory => throw .isDirectory
  | some .sink => return tree
  | some (.file bytes) =>
      return tree.put target (.file (change bytes))
  | none =>
      return tree.put target (.file (change #[]))

/- Put a text into a file in place of what it has. -/
def write
    (tree : FileTree)
    (path text : String) : Except SystemError FileTree :=
  tree.update path (fun _ => Text.bytes text)

/- Put a text at the end of a file. -/
def append
    (tree : FileTree)
    (path text : String) : Except SystemError FileTree :=
  tree.update path (· ++ Text.bytes text)

end FileTree

end Abnf

------------------------------------------------------------
-- Machines
------------------------------------------------------------

namespace Abnf

/- A file tree and what was printed. -/
structure Machine where
  tree : FileTree
  printed : String
deriving Inhabited

namespace Machine

/- Take over a changed tree, if the change succeeds. -/
def change
    (result : FileTree → Except SystemError FileTree) :
    StateM Machine (Except SystemError Unit) :=
  fun machine =>
    match result machine.tree with
    | .ok tree => (.ok (), { machine with tree := tree })
    | .error error => (.error error, machine)

/- The text of a file of the tree. -/
def readText
    (path : String) :
    StateM Machine (Except FileFault String) :=
  fun machine =>
    let result :=
      match machine.tree.read path with
      | .error fault => .error fault
      | .ok bytes =>
          match String.fromUTF8? ⟨bytes⟩ with
          | some text => .ok text
          | none => .error (.reading .notText)
    (result, machine)

/-
  A machine as the surroundings of a command. Its clock
  stands still.
-/
def world
    (stamp : String) : World (StateM Machine) :=
  { read := readText
    isDirectory := fun path machine =>
      (machine.tree.isDirectory path, machine)
    list := fun path machine =>
      (machine.tree.list path, machine)
    depth := fun machine => (machine.tree.depth, machine)
    makeDirectory := fun path =>
      change (·.makeDirectory path)
    write := fun path text => change (·.write path text)
    append := fun path text => change (·.append path text)
    print := fun text machine =>
      ((), { machine with
        printed := machine.printed ++ text })
    stamp := pure stamp
    elapsed := pure 0 }

end Machine

end Abnf
