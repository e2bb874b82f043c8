import Abnf.Pattern.Expr
import Abnf.Pattern.Named
import Abnf.Text.Folding
import Abnf.Text.Hexadecimal

/-
  Reading expressions.

  Characters stand for themselves but for some. A dot stands
  for any character but a line feed, brackets for one of
  some characters, parentheses for groups, bars for choices,
  and `*`, `+`, `?` and numbers in braces for copies. Some
  escapes stand for sets and for looks. Settings change how
  the rest of a group is read.

  Key definitions include:
    * `Abnf.Pattern.Settings`
    * `Abnf.Pattern.readEscape?`
    * `Abnf.Pattern.readMembers?`
    * `Abnf.Pattern.readCopies?`
    * `Abnf.Pattern.Reading.step?`
    * `Abnf.Pattern.read?`
-/

------------------------------------------------------------
-- Settings
------------------------------------------------------------

namespace Abnf

namespace Pattern

/- How an expression is read. -/
structure Settings where
  /- Letters stand for themselves in either case. -/
  foldCase : Bool
  /- The usual ends are those of lines. -/
  lines : Bool
  /- A dot stands for line feeds as well. -/
  dotAll : Bool
  /- Carriage returns belong to the ends of lines. -/
  returns : Bool
  /- Sets and cases are those of Unicode. -/
  unicode : Bool
  /- Blanks and comments stand for nothing. -/
  spaced : Bool
deriving DecidableEq, Inhabited

/- The settings to start with. -/
def Settings.initial : Settings :=
  ⟨false, false, false, false, true, false⟩

/- What can be set. -/
inductive Flag where
  | foldCase
  | lines
  | dotAll
  | returns
  | unicode
  | spaced
  /- Copies take as little as they can. -/
  | lazy
deriving DecidableEq, Inhabited

namespace Flag

/- The flag of a letter. -/
def ofChar?
    (c : Char) : Option Flag :=
  [('i', foldCase), ('m', lines), ('s', dotAll),
   ('R', returns), ('u', unicode), ('x', spaced),
   ('U', lazy)].lookup c

/- The settings with a flag on or off. -/
def set
    (on : Bool)
    (settings : Settings) : Flag → Settings
  | foldCase => { settings with foldCase := on }
  | lines => { settings with lines := on }
  | dotAll => { settings with dotAll := on }
  | returns => { settings with returns := on }
  | unicode => { settings with unicode := on }
  | spaced => { settings with spaced := on }
  | lazy => settings

end Flag

/-
  Read flags up to a colon or a parenthesis: the settings
  they lead to, that they are not empty, the character that
  ends them, and the rest. Those behind a dash are off. No
  flag comes twice.
-/
def readFlags?
    (on : Bool)
    (seen : List Flag)
    (settings : Settings) :
    List Char →
      Option (Settings × Bool × Char × List Char)
  | [] => none
  | ':' :: rest => some (settings, !seen.isEmpty, ':', rest)
  | ')' :: rest => some (settings, !seen.isEmpty, ')', rest)
  | ['-'] => none
  | '-' :: next :: rest =>
      if !on || next = ':' || next = ')' then
        none
      else
        readFlags? false seen settings (next :: rest)
  | c :: rest =>
      match Flag.ofChar? c with
      | none => none
      | some flag =>
          if seen.contains flag then
            none
          else
            readFlags? on (flag :: seen)
              (flag.set on settings) rest

/-
  Skip what stands for nothing. The limit is the length of
  the text.
-/
def skipWithin : Nat → List Char → List Char
  | 0, text => text
  | _, [] => []
  | limit + 1, c :: rest =>
      if c = '#' then
        skipWithin limit ((rest.dropWhile (· != '\n')).drop 1)
      else if isBlank c then
        skipWithin limit rest
      else
        c :: rest

/- Skip what stands for nothing, if blanks do. -/
def skip
    (settings : Settings)
    (text : List Char) : List Char :=
  if settings.spaced then
    skipWithin text.length text
  else
    text

end Pattern

end Abnf

------------------------------------------------------------
-- Sets
------------------------------------------------------------

namespace Abnf

namespace Pattern

/- A set with all cases of its letters, if cases are one. -/
def foldIf
    (settings : Settings)
    (set : Runs) : Runs :=
  if !settings.foldCase then
    set
  else if settings.unicode then
    Folding.close set
  else
    Folding.closeAscii set

/-
  What is not in a set, if that is asked for. There is no
  such set of ASCII characters.
-/
def negateIf?
    (settings : Settings)
    (negated : Bool)
    (set : Runs) : Option Runs :=
  if !negated then
    some set
  else if settings.unicode then
    some set.complement
  else
    none

/- A set of digits, blanks or words, by its letter. -/
def kindOf?
    (settings : Settings)
    (letter : Char) : Option Runs :=
  let set :=
    if letter.toLower = 'd' then
      if settings.unicode then digits else asciiDigits
    else if letter.toLower = 's' then
      if settings.unicode then blanks else asciiBlanks
    else
      if settings.unicode then wordLetters else asciiWord
  negateIf? settings letter.isUpper set

/- The set that a dot stands for. -/
def dotSet?
    (settings : Settings) : Option Runs :=
  if !settings.unicode then
    none
  else if settings.dotAll then
    some .all
  else if settings.returns then
    some (Runs.ofList [(10, 10), (13, 13)]).complement
  else
    some (Runs.single 10).complement

/- The letters of words. -/
def lettersOf
    (settings : Settings) : Runs :=
  if settings.unicode then wordLetters else asciiWord

end Pattern

end Abnf

------------------------------------------------------------
-- Escapes
------------------------------------------------------------

namespace Abnf

namespace Pattern

/- What an escape stands for. -/
inductive Atom where
  /-
    A character. It is a byte if it was written as the
    number of one.
  -/
  | character (isByte : Bool) (c : Char)
  | set (set : Runs)
  | look (asked : Look)
deriving DecidableEq, Inhabited

/- Read a number of hexadecimal digits. -/
def readHexDigits?
    (settings : Settings)
    (code : Nat) :
    Nat → List Char → Option (Nat × List Char)
  | 0, text => some (code, text)
  | _ + 1, [] => none
  | count + 1, c :: rest => do
      let value ← Text.hexValue? c
      readHexDigits? settings (16 * code + value) count
        (skip settings rest)

/-
  Read hexadecimal digits up to a brace. The limit is the
  length of the text.
-/
def readHexBrace?
    (settings : Settings)
    (code : Nat)
    (some? : Bool) :
    Nat → List Char → Option (Nat × List Char)
  | 0, _ => none
  | _, [] => none
  | limit + 1, c :: rest =>
      if c = '\x7d' then
        if some? then some (code, skip settings rest)
        else none
      else do
        let value ← Text.hexValue? c
        readHexBrace? settings (16 * code + value) true
          limit (skip settings rest)

/- Read the character of a number, behind its letter. -/
def readHex?
    (settings : Settings)
    (letter : Char)
    (text : List Char) : Option (Atom × List Char) :=
  match skip settings text with
  | '\x7b' :: rest => do
      let (code, rest) ←
        readHexBrace? settings 0 false text.length
          (skip settings rest)
      return (.character false (← Text.charOf? code), rest)
  | text => do
      let count :=
        if letter = 'x' then 2
        else if letter = 'u' then 4
        else 8
      let (code, rest) ← readHexDigits? settings 0 count text
      return (.character (letter = 'x') (← Text.charOf? code),
        rest)

/-
  The characters up to a brace, without what stands for
  nothing, and the rest behind the brace.
-/
def readName?
    (settings : Settings) :
    Nat → List Char → Option (List Char × List Char)
  | 0, _ => none
  | _, [] => none
  | limit + 1, c :: rest =>
      if c = '\x7d' then
        some ([], rest)
      else do
        let (name, rest) ←
          readName? settings limit (skip settings rest)
        some (c :: name, rest)

/- The parts of a name before and behind a mark. -/
def splitAt?
    (mark : List Char) :
    List Char → Option (List Char × List Char)
  | [] => none
  | c :: rest =>
      if mark.isPrefixOf (c :: rest) then
        some ([], (c :: rest).drop mark.length)
      else
        (splitAt? mark rest).map
          (fun parts => (c :: parts.1, parts.2))

/- The set of a name, or of a name and a value. -/
def namedSet?
    (settings : Settings)
    (negated : Bool)
    (name : List Char) : Option Runs :=
  let found (negated : Bool) (set : Option Runs) :=
    set.bind
      (fun set =>
        negateIf? settings negated (foldIf settings set))
  if !settings.unicode then
    none
  else
    match splitAt? ['!', '='] name with
    | some (name, value) =>
        found (!negated) (unicodeValued? name value)
    | none =>
        match splitAt? [':'] name with
        | some (name, value) =>
            found negated (unicodeValued? name value)
        | none =>
            match splitAt? ['='] name with
            | some (name, value) =>
                found negated (unicodeValued? name value)
            | none => found negated (unicodeNamed? name)

/- Read the set of a name, behind its letter. -/
def readNamed?
    (settings : Settings)
    (negated : Bool)
    (text : List Char) : Option (Runs × List Char) :=
  match skip settings text with
  | [] => none
  | '\x7b' :: rest => do
      let (name, rest) ←
        readName? settings text.length (skip settings rest)
      return (← namedSet? settings negated name, rest)
  | '\\' :: _ => none
  | c :: rest => do
      let set ←
        (unicodeNamed? [c]).bind
          (fun set =>
            negateIf? settings negated
              (foldIf settings set))
      if settings.unicode then
        return (set, skip settings rest)
      else
        none

/- The edge of words of a name in braces. -/
def edgeNamed?
    (name : String) : Option WordEdge :=
  [("start", .start), ("end", .stop),
   ("start-half", .startHalf),
   ("end-half", .stopHalf)].lookup name

/- A character can stand in the name of an edge. -/
def isEdgeChar
    (c : Char) : Bool :=
  c.isAlpha || c = '-'

/- The characters of the name of an edge, and the rest. -/
def readEdgeName
    (settings : Settings) :
    Nat → List Char → List Char × List Char
  | 0, text => ([], text)
  | _, [] => ([], [])
  | limit + 1, c :: rest =>
      if isEdgeChar c then
        let (name, rest) :=
          readEdgeName settings limit (skip settings rest)
        (c :: name, rest)
      else
        ([], c :: rest)

/-
  Read the edge of words behind its letter. Braces that do
  not start with a name belong to copies.
-/
def readEdge?
    (settings : Settings)
    (text : List Char) : Option (WordEdge × List Char) :=
  match text with
  | '\x7b' :: rest =>
      match skip settings rest with
      | [] => none
      | c :: inner =>
          if !isEdgeChar c then
            some (.boundary, text)
          else
            match readEdgeName settings text.length
                (c :: inner) with
            | (name, '\x7d' :: rest) =>
                (edgeNamed? (String.ofList name)).map
                  (fun edge => (edge, rest))
            | _ => none
  | _ => some (.boundary, text)

/- The controls that letters stand for. -/
def controlOf?
    (c : Char) : Option Char :=
  [('a', '\x07'), ('f', '\x0c'), ('t', '\t'), ('n', '\n'),
   ('r', '\r'), ('v', '\x0b')].lookup c

/- Any ASCII character but letters, digits and angles. -/
def isEscapable
    (c : Char) : Bool :=
  c.toNat < 128 && !c.isAlphanum && c != '<' && c != '>'

/- Read an escape behind its backslash. -/
def readEscape?
    (settings : Settings) :
    List Char → Option (Atom × List Char)
  | [] => none
  | c :: rest =>
      let edge (edge : WordEdge) : Atom :=
        .look (.word edge (lettersOf settings))
      if ['x', 'u', 'U'].contains c then
        readHex? settings c rest
      else if c = 'p' ∨ c = 'P' then
        (readNamed? settings (c = 'P') rest).map
          (fun named => (.set named.1, named.2))
      else if ['d', 's', 'w', 'D', 'S', 'W'].contains c then
        (kindOf? settings c).map (fun set => (.set set, rest))
      else if isEscapable c then
        some (.character false c, rest)
      else if c = 'A' then
        some (.look .textStart, rest)
      else if c = 'z' then
        some (.look .textEnd, rest)
      else if c = 'b' then
        (readEdge? settings rest).map
          (fun found => (edge found.1, found.2))
      else if c = 'B' then
        some (edge .inner, rest)
      else if c = '<' then
        some (edge .start, rest)
      else if c = '>' then
        some (edge .stop, rest)
      else
        (controlOf? c).map
          (fun control => (.character false control, rest))

end Pattern

end Abnf

------------------------------------------------------------
-- Brackets
------------------------------------------------------------

namespace Abnf

namespace Pattern

/- A set between brackets, with how deep brackets nest. -/
structure Members where
  nesting : Nat
  set : Runs
deriving DecidableEq, Inhabited

namespace Members

/- All members of some sets. -/
def ofParts : List Members → Members
  | [] => ⟨0, .empty⟩
  | [part] => part
  | parts =>
      ⟨(parts.map (·.nesting)).foldl max 0 + 1,
       .unionAll (parts.map (·.set))⟩

end Members

/- How two sets between brackets are joined. -/
inductive SetOperator where
  | inter
  | diff
  | symmDiff
deriving DecidableEq, Inhabited

/- The set that an operator makes of two sets. -/
def SetOperator.apply
    (a b : Runs) : SetOperator → Runs
  | inter => a.inter b
  | diff => a.diff b
  | symmDiff => a.symmDiff b

/- The operator at the start of a text. -/
def operatorAt? : List Char → Option SetOperator
  | '&' :: '&' :: _ => some .inter
  | '-' :: '-' :: _ => some .diff
  | '~' :: '~' :: _ => some .symmDiff
  | _ => none

/- Join the set before an operator with the one behind. -/
def applyPending
    (settings : Settings)
    (pending : Option (Members × SetOperator))
    (behind : Members) : Members :=
  match pending with
  | none => behind
  | some (before, operator) =>
      ⟨max before.nesting behind.nesting + 1,
       operator.apply (foldIf settings before.set)
         (foldIf settings behind.set)⟩

/-
  The first character behind a dash that is not skipped. A
  sign for a comment is passed over once.
-/
def peekBehind
    (settings : Settings)
    (text : List Char) : Option Char :=
  if settings.spaced then
    let rest := text.dropWhile isBlank
    let rest :=
      match rest with
      | '#' :: more => more.dropWhile isBlank
      | _ => rest
    (rest.head?).or text.head?
  else
    text.head?

/- Read a character or an escape between brackets. -/
def readMember?
    (settings : Settings) :
    List Char → Option (Atom × List Char)
  | [] => none
  | '\\' :: rest => readEscape? settings rest
  | c :: rest => some (.character false c, rest)

/-
  The code point of a member of a set. Without Unicode, only
  ASCII characters can be members.
-/
def memberCode?
    (settings : Settings) : Atom → Option Nat
  | .character _ c =>
      if settings.unicode || c.toNat < 128 then
        some c.toNat
      else
        none
  | _ => none

/- The set of a single member. -/
def memberSet?
    (settings : Settings) : Atom → Option Runs
  | .set set => some set
  | atom => (memberCode? settings atom).map Runs.single

/- Read a member or a range of members. -/
def readRange?
    (settings : Settings)
    (text : List Char) : Option (Runs × List Char) := do
  let (first, rest) ← readMember? settings text
  match skip settings rest with
  | [] => none
  | '-' :: behind =>
      let next := peekBehind settings behind
      if next = some ']' ∨ next = some '-' then
        return (← memberSet? settings first, '-' :: behind)
      else
        let (last, rest) ←
          readMember? settings (skip settings behind)
        let low ← memberCode? settings first
        let high ← memberCode? settings last
        if low ≤ high then
          return (.range low high, rest)
        else
          none
  | rest => return (← memberSet? settings first, rest)

/-
  Read the name of an ASCII set in brackets and colons: that
  it is negated, the set, and the rest.
-/
def readAsciiNamed? :
    List Char → Option (Bool × Runs × List Char)
  | '[' :: ':' :: text =>
      let (negated, text) :=
        match text with
        | '^' :: rest => (true, rest)
        | _ => (false, text)
      match text.dropWhile (· != ':') with
      | ':' :: ']' :: rest =>
          (asciiNamed?
            (String.ofList
              (text.takeWhile (· != ':')))).map
            (fun set => (negated, set, rest))
      | _ => none
  | _ => none

/-
  Read the dashes that brackets start with. They stand for
  themselves.
-/
def readDashes
    (settings : Settings) :
    Nat → List Char → List Members × List Char
  | 0, text => ([], text)
  | limit + 1, text =>
      match text with
      | '-' :: rest =>
          let (dashes, rest) :=
            readDashes settings limit (skip settings rest)
          (⟨0, .single '-'.toNat⟩ :: dashes, rest)
      | _ => ([], text)

/-
  Read how brackets open: that what they hold is negated,
  the first members, and the rest. A bracket that comes
  first stands for itself.
-/
def readOpening
    (settings : Settings)
    (text : List Char) : Bool × List Members × List Char :=
  let text := skip settings text
  let (negated, text) :=
    match text with
    | '^' :: rest => (true, skip settings rest)
    | _ => (false, text)
  match readDashes settings text.length text with
  | ([], ']' :: rest) =>
      (negated, [⟨0, .single ']'.toNat⟩],
        skip settings rest)
  | (dashes, rest) => (negated, dashes, rest)

/- The set in brackets, in the end. -/
def closeSet?
    (settings : Settings)
    (negated : Bool)
    (members : Members) : Option Members :=
  (negateIf? settings negated
    (foldIf settings members.set)).map
    (fun set => ⟨members.nesting + 1, set⟩)

/-
  Read members up to the closing bracket, behind those in
  `parts`, which are in reverse. Every step takes a
  character at least, so the limit is the length of the
  text.
-/
def readMembers?
    (settings : Settings) :
    Nat → Option (Members × SetOperator) → List Members →
      List Char → Option (Members × List Char)
  | 0, _, _, _ => none
  | limit + 1, pending, parts, text =>
      let all := fun (_ : Unit) =>
        applyPending settings pending
          (.ofParts parts.reverse)
      match skip settings text with
      | [] => none
      | '[' :: rest =>
          match readAsciiNamed? ('[' :: rest) with
          | some (negated, set, rest) => do
              let set ←
                negateIf? settings negated
                  (foldIf settings set)
              readMembers? settings limit pending
                (⟨0, set⟩ :: parts) rest
          | none => do
              let (negated, first, rest) :=
                readOpening settings rest
              let (inner, rest) ←
                readMembers? settings limit none
                  first.reverse rest
              let inner ← closeSet? settings negated inner
              readMembers? settings limit pending
                (inner :: parts) rest
      | ']' :: rest => some (all (), rest)
      | text =>
          match operatorAt? text with
          | some operator =>
              readMembers? settings limit
                (some (all (), operator)) [] (text.drop 2)
          | none => do
              let (set, rest) ← readRange? settings text
              readMembers? settings limit pending
                (⟨0, set⟩ :: parts) rest

/- Read a set behind its opening bracket. -/
def readSet?
    (settings : Settings)
    (text : List Char) : Option (Members × List Char) := do
  let (negated, first, rest) := readOpening settings text
  let (members, rest) ←
    readMembers? settings text.length none first.reverse
      rest
  return (← closeSet? settings negated members, rest)

end Pattern

end Abnf

------------------------------------------------------------
-- Copies
------------------------------------------------------------

namespace Abnf

namespace Pattern

/- Numbers of copies are below this limit. -/
def copyLimit : Nat := 1 <<< 32

/-
  Read decimal digits with blanks around them: the digits
  and the rest. The limit is the length of the text.
-/
def readDigits
    (settings : Settings) :
    Nat → List Char → List Char × List Char
  | 0, text => ([], text)
  | _, [] => ([], [])
  | limit + 1, c :: rest =>
      if c.isDigit then
        let (digits, rest) :=
          readDigits settings limit (skip settings rest)
        (c :: digits, rest)
      else
        ([], c :: rest)

/- Skip blanks, and comments if they stand for nothing. -/
def skipBlanks
    (settings : Settings) :
    Nat → List Char → List Char
  | 0, text => text
  | _, [] => []
  | limit + 1, c :: rest =>
      if isBlank c then
        skipBlanks settings limit (skip settings rest)
      else
        c :: rest

/-
  Read a number of copies with blanks around it. There is no
  number without digits; a number can be too large.
-/
def readCount?
    (settings : Settings)
    (text : List Char) :
    Option (Option Nat × List Char) :=
  let (digits, rest) :=
    readDigits settings text.length
      (text.dropWhile isBlank)
  let rest := skipBlanks settings rest.length rest
  let count := digits.foldl
    (fun n c => 10 * n + (c.toNat - '0'.toNat)) 0
  if digits.isEmpty then
    some (none, rest)
  else if count < copyLimit then
    some (some count, rest)
  else
    none

/- Read bounds behind their opening brace. -/
def readBounds?
    (settings : Settings)
    (text : List Char) :
    Option (Nat × Option Nat × List Char) := do
  let (min, rest) ← readCount? settings (skip settings text)
  let min ← min
  match rest with
  | ',' :: rest =>
      match skip settings rest with
      | '\x7d' :: rest => return (min, none, rest)
      | rest =>
          let (max, rest) ← readCount? settings rest
          let max ← max
          match rest with
          | '\x7d' :: rest =>
              if min ≤ max then
                return (min, some max, rest)
              else
                none
          | _ => none
  | '\x7d' :: rest => return (min, some min, rest)
  | _ => none

/- Drop the mark of copies that take as little as they can. -/
def dropLazy : List Char → List Char
  | '?' :: rest => rest
  | text => text

/- Read the bounds of copies, if some are given here. -/
def readCopies?
    (settings : Settings) :
    List Char → Option (Nat × Option Nat × List Char)
  | '?' :: rest => some (0, some 1, dropLazy rest)
  | '*' :: rest => some (0, none, dropLazy rest)
  | '+' :: rest => some (1, none, dropLazy rest)
  | '\x7b' :: rest => do
      let (min, max, rest) ← readBounds? settings rest
      return (min, max, dropLazy (skip settings rest))
  | _ => none

/- The character stands for copies of what is before it. -/
def isCopyMark
    (c : Char) : Bool :=
  ['?', '*', '+', '\x7b'].contains c

end Pattern

end Abnf

------------------------------------------------------------
-- Groups
------------------------------------------------------------

namespace Abnf

namespace Pattern

/- How a group opens. -/
inductive Opening where
  /- A change of settings for the rest of the group. -/
  | setting (settings : Settings)
  /- A group that is numbered and can have a name. -/
  | numbered (name : Option String)
  /- A group with settings of its own. -/
  | plain (settings : Settings)
deriving DecidableEq, Inhabited

/- The code points that names start with. -/
def nameLetters : Runs :=
  Property.alphabetic.members

/- The code points that names can have behind the first. -/
def nameSigns : Runs :=
  nameLetters.union (Category.members Category.numerals)

/- A character can stand in the name of a group. -/
def isNameChar
    (isFirst : Bool)
    (c : Char) : Bool :=
  if isFirst then
    c = '_' || nameLetters.has c.toNat
  else
    ['_', '.', '[', ']'].contains c ||
      nameSigns.has c.toNat

/- Read the name of a group up to its angle. -/
def readGroupName?
    (text : List Char) : Option (String × List Char) :=
  let name := text.takeWhile (· != '>')
  match name, text.dropWhile (· != '>') with
  | first :: others, '>' :: rest =>
      if isNameChar true first &&
          others.all (isNameChar false) then
        some (String.ofList name, rest)
      else
        none
  | _, _ => none

/- Read how a group opens, behind its parenthesis. -/
def readGroup?
    (settings : Settings)
    (text : List Char) : Option (Opening × List Char) :=
  match skip settings text with
  | '?' :: '=' :: _ => none
  | '?' :: '!' :: _ => none
  | '?' :: '<' :: '=' :: _ => none
  | '?' :: '<' :: '!' :: _ => none
  | '?' :: 'P' :: '<' :: rest =>
      (readGroupName? rest).map
        (fun found => (.numbered (some found.1), found.2))
  | '?' :: '<' :: rest =>
      (readGroupName? rest).map
        (fun found => (.numbered (some found.1), found.2))
  | '?' :: rest =>
      match readFlags? true [] settings rest with
      | none => none
      | some (inner, _, ':', rest) =>
          some (.plain inner, rest)
      | some (inner, given, _, rest) =>
          if given then some (.setting inner, rest) else none
  | text => some (.numbered none, text)

end Pattern

end Abnf

------------------------------------------------------------
-- Expressions
------------------------------------------------------------

namespace Abnf

namespace Pattern

/- A group that is still open. -/
structure Frame where
  /- What stands before it, in reverse. -/
  before : List Expr
  /- The choices before those parts, in reverse. -/
  choices : List Expr
  /- The settings around it. -/
  settings : Settings
  numbered : Bool

/- An expression that is being read. -/
structure Reading where
  /- The groups around, from the inside. -/
  frames : List Frame
  /- The choices before, in reverse. -/
  choices : List Expr
  /- The parts since, in reverse. -/
  parts : List Expr
  settings : Settings
  /- The names of groups so far. -/
  names : List String

namespace Reading

/- Nothing has been read. -/
def initial : Reading :=
  ⟨[], [], [], .initial, []⟩

/- The expression in the group that is open. -/
def body
    (reading : Reading) : Expr :=
  .ofChoice
    (.ofSequence reading.parts.reverse ::
      reading.choices).reverse

/- Take one more part. -/
def push
    (reading : Reading)
    (part : Expr) : Reading :=
  { reading with parts := part :: reading.parts }

/- The expression of an escape or a character. -/
def ofAtom?
    (settings : Settings) : Atom → Option Expr
  | .character isByte c =>
      if isByte && !settings.unicode && 128 ≤ c.toNat then
        none
      else
        some (.one 0 (foldIf settings (.single c.toNat)))
  | .set set => some (.one 0 set)
  | .look asked => some (.look asked)

/- The look that `^` stands for. -/
def startLook
    (settings : Settings) : Look :=
  if !settings.lines then .textStart
  else if settings.returns then .anyLineStart
  else .lineStart

/- The look that `$` stands for. -/
def endLook
    (settings : Settings) : Look :=
  if !settings.lines then .textEnd
  else if settings.returns then .anyLineEnd
  else .lineEnd

/- Open a group or change the settings. -/
def opened?
    (reading : Reading)
    (opening : Opening) : Option Reading :=
  let frame (numbered : Bool) : Frame :=
    ⟨reading.parts, reading.choices, reading.settings,
     numbered⟩
  match opening with
  | .setting settings =>
      some
        { reading.push .setting with settings := settings }
  | .plain settings =>
      some
        ⟨frame false :: reading.frames, [], [], settings,
         reading.names⟩
  | .numbered name =>
      if name.any reading.names.contains then
        none
      else
        some
          ⟨frame true :: reading.frames, [], [],
           reading.settings, name.toList ++ reading.names⟩

/- Close the group that is open. -/
def closed?
    (reading : Reading) : Option Reading :=
  match reading.frames with
  | [] => none
  | frame :: frames =>
      some
        ⟨frames, frame.choices,
         .group frame.numbered reading.body :: frame.before,
         frame.settings, reading.names⟩

/- Make copies of the last part, which must be one. -/
def copied?
    (reading : Reading)
    (min : Nat)
    (max : Option Nat) : Option Reading :=
  match reading.parts with
  | [] => none
  | .setting :: _ => none
  | part :: before =>
      some
        { reading with
          parts := .copies min max part :: before }

/- Read one part of an expression. -/
def step?
    (reading : Reading) :
    List Char → Option (Reading × List Char)
  | [] => none
  | c :: rest =>
      let settings := reading.settings
      if c = '(' then do
        let (opening, rest) ← readGroup? settings rest
        return (← reading.opened? opening, rest)
      else if c = ')' then do
        return (← reading.closed?, rest)
      else if c = '|' then
        some
          ({ reading with
              choices :=
                .ofSequence reading.parts.reverse ::
                  reading.choices
              parts := [] },
           rest)
      else if c = '[' then do
        let (members, rest) ← readSet? settings rest
        let part := .one members.nesting members.set
        return (reading.push part, rest)
      else if isCopyMark c then do
        let (min, max, rest) ←
          readCopies? settings (c :: rest)
        return (← reading.copied? min max, rest)
      else if c = '\\' then do
        let (atom, rest) ← readEscape? settings rest
        return (reading.push (← ofAtom? settings atom), rest)
      else if c = '.' then do
        let set ← dotSet? settings
        return (reading.push (.one 0 set), rest)
      else if c = '^' then
        some (reading.push (.look (startLook settings)), rest)
      else if c = '$' then
        some (reading.push (.look (endLook settings)), rest)
      else do
        let part ← ofAtom? settings (.character false c)
        return (reading.push part, rest)

/-
  Read to the end. Every step takes a character at least, so
  the limit is the length of the text.
-/
def finish? :
    Nat → Reading → List Char → Option Expr
  | limit, reading, text =>
      match skip reading.settings text with
      | [] =>
          if reading.frames.isEmpty then
            some reading.body
          else
            none
      | text =>
          match limit with
          | 0 => none
          | limit + 1 => do
              let (reading, rest) ← reading.step? text
              finish? limit reading rest

end Reading

/- The expression of a text. -/
def read?
    (text : String) : Option Expr :=
  Reading.initial.finish? text.length text.toList

end Pattern

end Abnf
