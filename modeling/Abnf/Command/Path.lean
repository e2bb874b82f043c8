/-
  Paths as texts.

  A path is a list of names with slashes between them. A
  leading slash makes it absolute. Slashes at the end, and
  single dots behind a slash, add nothing to what a path
  names.

  Key definitions include:
    * `Abnf.Path.join`
    * `Abnf.Path.fileName?`
    * `Abnf.Path.parent?`
    * `Abnf.Path.ancestors`
    * `Abnf.Path.withExtension`
    * `Abnf.Path.names`
    * `Abnf.Path.steps`
-/

------------------------------------------------------------
-- Ends Of Paths
------------------------------------------------------------

namespace Abnf

namespace Path

/-
  Drop what adds nothing at the end of a path, whose
  characters are given from the last to the first.
-/
def trimReversed : List Char → List Char
  | ['/'] => ['/']
  | '/' :: rest => trimReversed rest
  | '.' :: '/' :: rest => trimReversed ('/' :: rest)
  | rest => rest

/- The path without what adds nothing at its end. -/
def trimmed
    (path : String) : List Char :=
  (trimReversed path.toList.reverse).reverse

/-
  The part of a trimmed path up to its last slash, and the
  name behind it.
-/
def splitLast
    (path : List Char) : List Char × List Char :=
  let reversed := path.reverse
  ((reversed.dropWhile (· != '/')).reverse,
   (reversed.takeWhile (· != '/')).reverse)

/- The last name of a path, if it names a file. -/
def fileName?
    (path : String) : Option String :=
  let name := String.ofList (splitLast (trimmed path)).2
  if name = "" ∨ name = "." ∨ name = ".." then
    none
  else
    some name

/- The path without its last name. -/
def parent?
    (path : String) : Option String :=
  let whole := trimmed path
  if whole = [] ∨ whole = ['/'] then
    none
  else
    some
      (String.ofList
        (trimmed (String.ofList (splitLast whole).1)))

/-
  A path and those above it, at most a given number. Each
  one is shorter than the one before.
-/
def ancestorsWithin :
    Nat → String → List String
  | 0, path => [path]
  | limit + 1, path =>
      path ::
        (match parent? path with
         | none => []
         | some parent => ancestorsWithin limit parent)

/- A path and all those above it. -/
def ancestors
    (path : String) : List String :=
  ancestorsWithin path.length path

end Path

end Abnf

------------------------------------------------------------
-- Building Paths
------------------------------------------------------------

namespace Abnf

namespace Path

/- The path starts at the root. -/
def isAbsolute
    (path : String) : Bool :=
  path.toList.head? == some '/'

/- The path has a slash at its end. -/
def endsOpen
    (path : String) : Bool :=
  path.toList.getLast? == some '/'

/-
  A path seen from a directory. An absolute path stands for
  itself; a slash comes between only if it is needed.
-/
def join
    (base path : String) : String :=
  if isAbsolute path || base.isEmpty then
    path
  else if endsOpen base then
    base ++ path
  else
    base ++ "/" ++ path

/-
  A name in two parts: before and behind its last dot. A dot
  that comes first is part of the name.
-/
def splitExtension
    (name : List Char) : List Char × Option (List Char) :=
  let reversed := name.reverse
  match reversed.dropWhile (· != '.') with
  | '.' :: c :: before =>
      ((c :: before).reverse,
       some (reversed.takeWhile (· != '.')).reverse)
  | _ => (name, none)

/-
  The path with an extension in place of the one of its last
  name. A path that names no file stays as it is.
-/
def setExtension
    (path : String)
    (extension : String) : String :=
  match fileName? path with
  | none => path
  | some name =>
      String.ofList
        ((splitLast (trimmed path)).1 ++
          (splitExtension name.toList).1) ++
        "." ++ extension

/-
  The path with another extension in its last name. As many
  characters as the old extension has are dropped from the
  end of the path first. Where that leaves two dots as the
  last name, there is no file any more to extend.
-/
def withExtension
    (path : String)
    (extension : String) : String :=
  let old :=
    ((fileName? path).bind
      (fun name => (splitExtension name.toList).2)).getD []
  let chars := path.toList
  setExtension
    (String.ofList
      (chars.take (chars.length - old.length)))
    extension

/-
  The names on the way along a path. A dot stays in place,
  two dots go up.
-/
def names
    (path : String) : List String :=
  ((path.toList.splitOn '/').map String.ofList).filter
    (· != "")

/-
  The names on the way along a path, with a dot for a slash
  at the end, since only a directory can stand before it.
-/
def steps
    (path : String) : List String :=
  if endsOpen path then names path ++ ["."] else names path

end Path

end Abnf
