import Abnf.Proofs.GrammarWords

/-
  The trees of written elements.

  `Turns` says what calls make of an assembly without error,
  and `Written` that a text is a word of a rule whose calls
  put one element into the innermost frame, wherever the
  text stands. There is one lemma for each form of writing;
  together they show that the notation of an element is read
  as the flat form of the element.

  Key definitions include:
    * `Abnf.Grammar.Stage`
    * `Abnf.Grammar.Turns`
    * `Abnf.Grammar.Adds`
    * `Abnf.Grammar.Written`
    * `Abnf.Grammar.Listed`

  Main declarations:
    * `Abnf.Grammar.written_series`
    * `Abnf.Grammar.written_repeated`
    * `Abnf.Grammar.legible_of_check`
-/

------------------------------------------------------------
-- Stages Of An Assembly
------------------------------------------------------------

namespace Abnf

namespace Grammar

open Assembly

/- What counts of an assembly without error. -/
structure Stage where
  rules : List Rule
  frames : List Frame

/- An assembly without error is at a stage. -/
structure Assembly.IsAt
    (assembly : Assembly)
    (stage : Stage) : Prop where
  rules : assembly.rules = stage.rules
  frames : assembly.frames = stage.frames
  error : assembly.error = none

/- Calls lead from one stage to another. -/
def Turns
    (input : Array UInt8)
    (calls : List Call)
    (stage stage' : Stage) : Prop :=
  ∀ assembly : Assembly,
    assembly.IsAt stage →
      ((Call.eventsOfAll calls).foldl (observe input)
        assembly).IsAt stage'

/- The match of a rule leads from one stage to another. -/
def Accepts
    (input : Array UInt8)
    (name : String)
    (frame : Option Frame)
    (start stop : Nat)
    (stage stage' : Stage) : Prop :=
  ∀ assembly : Assembly,
    assembly.IsAt stage →
      ∃ next,
        assembly.matchResult input name frame start stop =
          .ok next ∧
        next.IsAt stage'

variable {input : Array UInt8}
variable {calls calls' inner : List Call}
variable {stage stage' stage'' : Stage}
variable {name : String}
variable {start stop : Nat}

theorem turns_nil
    (stage : Stage) :
    Turns input [] stage stage :=
  fun _ h => h

theorem Turns.append
    (h : Turns input calls stage stage')
    (h' : Turns input calls' stage' stage'') :
    Turns input (calls ++ calls') stage stage'' := by
  intro assembly hAt
  rw [Call.eventsOfAll_append, List.foldl_append]
  exact h' _ (h assembly hAt)

/- The exit of a call, once its frame is closed. -/
theorem isAt_observe_exit
    {assembly : Assembly}
    {frame : Option Frame}
    (hError : assembly.error = none)
    (hFrame : (assembly.close (Part.ofName name)).1 = frame)
    (hClosed : (assembly.leave name stop).IsAt stage)
    (hTake :
      Accepts input name frame start stop stage stage') :
    (assembly.observe input
      (.exit name start (some stop))).IsAt stage' := by
  rcases hTake _ hClosed with ⟨next, hNext, hAt⟩
  rw [observe_exit, hError, Option.isSome_none,
    if_neg Bool.false_ne_true, takeMatch_eq, hFrame, hNext]
  exact hAt

/- A call of a part without a frame. -/
theorem turns_call_of_none
    (hPart : (Part.ofName name).frame? = none)
    (hInner : Turns input inner stage stage')
    (hTake :
      Accepts input name none start stop stage' stage'') :
    Turns input [.call name start (some stop) inner] stage
      stage'' := by
  intro assembly hAt
  have hEnter :
      assembly.observe input (.enter name start) =
        assembly := by
    rw [observe, hPart]
    rfl
  rw [Call.eventsOfAll_cons, Call.events_call]
  simp only [List.foldl_append, List.foldl_cons, hEnter,
    Call.eventsOfAll, Call.eventsOfAllBefore,
    List.foldl_nil]
  have hMade := hInner assembly hAt
  rw [Call.eventsOfAll] at hMade
  generalize
    (Call.eventsOfAllBefore [] inner).foldl (observe input)
      assembly = made at hMade
  have hClose := close_of_none hPart made
  apply isAt_observe_exit hMade.error
    (by rw [hClose]) _ hTake
  have hLeave : (made.leave name stop).rules = made.rules ∧
      (made.leave name stop).frames = made.frames := by
    rw [leave, hClose]
    exact ⟨rfl, rfl⟩
  exact
    ⟨hLeave.1.trans hMade.rules,
     hLeave.2.trans hMade.frames,
     (error_leave made name stop).trans hMade.error⟩

/- A call of a part with a frame, which is closed again. -/
theorem turns_call_of_frame
    {frame frame' : Frame}
    {rules rules' : List Rule}
    {frames frames' : List Frame}
    (hPart : (Part.ofName name).frame? = some frame)
    (hInner :
      Turns input inner ⟨rules, frame :: frames⟩
        ⟨rules', frame' :: frames'⟩)
    (hTake :
      Accepts input name (some frame') start stop
        ⟨rules', frames'⟩ stage'') :
    Turns input [.call name start (some stop) inner]
      ⟨rules, frames⟩ stage'' := by
  intro assembly hAt
  have hEnter :
      (assembly.observe input (.enter name start)).IsAt
        ⟨rules, frame :: frames⟩ := by
    refine ⟨hAt.rules, ?_, hAt.error⟩
    rw [observe, hPart]
    exact congrArg (frame :: ·) hAt.frames
  rw [Call.eventsOfAll_cons, Call.events_call]
  simp only [List.foldl_append, List.foldl_cons,
    Call.eventsOfAll, Call.eventsOfAllBefore,
    List.foldl_nil]
  have hMade := hInner _ hEnter
  rw [Call.eventsOfAll] at hMade
  generalize
    (Call.eventsOfAllBefore [] inner).foldl (observe input)
      (assembly.observe input (.enter name start)) =
        made at hMade
  have hClose := close_of_some hPart hMade.frames
  apply isAt_observe_exit hMade.error
    (by rw [hClose]) _ hTake
  have hLeave : (made.leave name stop).rules = made.rules ∧
      (made.leave name stop).frames = frames' := by
    rw [leave, hClose]
    exact ⟨rfl, rfl⟩
  exact
    ⟨hLeave.1.trans hMade.rules, hLeave.2,
     (error_leave made name stop).trans hMade.error⟩

end Grammar

end Abnf

------------------------------------------------------------
-- Elements In A Frame
------------------------------------------------------------

namespace Abnf

namespace Grammar

open Assembly

/- Put elements into a frame one after the other. -/
def Frame.addAll
    (top : Frame)
    (elements : List Element) : Frame :=
  elements.foldl (fun frame element => frame.add element) top

theorem Frame.kind_addAll
    (top : Frame)
    (elements : List Element) :
    (top.addAll elements).kind = top.kind := by
  induction elements generalizing top with
  | nil => rfl
  | cons element elements ih =>
    rw [addAll, List.foldl_cons]
    exact (ih (top.add element)).trans
      (Frame.kind_add element top)

theorem Frame.addAll_append
    (top : Frame)
    (elements elements' : List Element) :
    top.addAll (elements ++ elements') =
      (top.addAll elements).addAll elements' :=
  List.foldl_append

theorem Frame.addAll_elements
    (parts elements : List Element) :
    (Frame.elements parts).addAll elements =
      .elements (parts ++ elements) := by
  induction elements generalizing parts with
  | nil => rw [List.append_nil]; rfl
  | cons element elements ih =>
    rw [addAll, List.foldl_cons]
    have hRest := ih (parts ++ [element])
    rw [List.append_assoc] at hRest
    exact hRest

/- Calls put elements into any frame that holds some. -/
def Adds
    (input : Array UInt8)
    (calls : List Call)
    (elements : List Element) : Prop :=
  ∀ (rules : List Rule) (top : Frame) (rest : List Frame),
    top.kind ≠ .rule →
      Turns input calls ⟨rules, top :: rest⟩
        ⟨rules, top.addAll elements :: rest⟩

variable {input : Array UInt8}
variable {calls calls' inner : List Call}
variable {name : String}
variable {start stop : Nat}
variable {rules : List Rule}
variable {top : Frame}
variable {rest : List Frame}

theorem adds_nil :
    Adds input [] [] :=
  fun _ _ _ _ => turns_nil _

theorem Adds.append
    {elements elements' : List Element}
    (h : Adds input calls elements)
    (h' : Adds input calls' elements') :
    Adds input (calls ++ calls') (elements ++ elements') := by
  intro rules top rest hTop
  rw [Frame.addAll_append]
  apply (h rules top rest hTop).append
  apply h' rules (top.addAll elements) rest
  rw [Frame.kind_addAll]
  exact hTop

/- A match that makes an element puts it into the frame. -/
theorem accepts_of_push
    {frame : Option Frame}
    {element : Element}
    (hTop : top.kind ≠ .rule)
    (hResult :
      ∀ assembly : Assembly,
        assembly.frames = top :: rest →
          assembly.matchResult input name frame start stop =
            assembly.push element) :
    Accepts input name frame start stop
      ⟨rules, top :: rest⟩
      ⟨rules, top.addAll [element] :: rest⟩ := by
  intro assembly hAt
  have hPush :
      assembly.push element =
        .ok { assembly with
          frames := top.add element :: rest } := by
    unfold push
    rw [hAt.frames]
    cases top with
    | rule _ _ _ => exact absurd rfl hTop
    | elements parts => rfl
    | repetition bounds parts => rfl
  exact
    ⟨_, (hResult assembly hAt.frames).trans hPush,
     hAt.rules, rfl, hAt.error⟩

/- The name of a rule in an element. -/
theorem accepts_reference
    {text : String}
    (hSlice : slice? input start stop = some text.toList)
    (hCheck : checkName text = .ok ())
    (hTop : top.kind ≠ .rule) :
    Accepts input "rulename" none start stop
      ⟨rules, top :: rest⟩
      ⟨rules, top.addAll [.ruleName text] :: rest⟩ := by
  apply accepts_of_push hTop
  intro assembly hFrames
  have hChecked :
      Element.checkedRuleName text = .ok (.ruleName text) := by
    rw [Element.checkedRuleName, hCheck]
    rfl
  rw [matchResult_of_read rfl hSlice]
  change assembly.takeName (String.ofList text.toList) = _
  rw [String.ofList_toList]
  unfold takeName
  rw [hFrames]
  cases top with
  | rule _ _ _ => exact absurd rfl hTop
  | elements parts => rw [hChecked]; rfl
  | repetition bounds parts => rw [hChecked]; rfl

/- A value that is read from its text. -/
theorem accepts_value
    {text : List Char}
    {element : Element}
    (hName :
      name ∈
        ["char-val", "bin-val", "dec-val", "hex-val",
         "prose-val"])
    (hSlice : slice? input start stop = some text)
    (hValue : valueOf name text = .ok element)
    (hTop : top.kind ≠ .rule) :
    Accepts input name none start stop
      ⟨rules, top :: rest⟩
      ⟨rules, top.addAll [element] :: rest⟩ := by
  apply accepts_of_push hTop
  intro assembly _
  have hTake :
      assembly.matchResult input name none start stop =
        assembly.takeValue (valueOf name text) := by
    simp only [List.mem_cons, List.not_mem_nil,
      or_false] at hName
    rcases hName with rfl | rfl | rfl | rfl | rfl
    all_goals
      rw [matchResult_of_read rfl hSlice]
      rfl
  rw [hTake, hValue]
  rfl

/- The parts of a series; a single one stands for itself. -/
theorem takeSeries_eq_push
    {series : List Element → Element}
    {checked : List Element → Except ElementError Element}
    (hChecked :
      ∀ parts, 2 ≤ parts.length →
        checked parts = .ok (series parts))
    {parts : List Element}
    (hSome : parts ≠ [])
    (assembly : Assembly) :
    assembly.takeSeries (some (.elements parts)) checked =
      assembly.push (Element.collapse series parts) := by
  match parts, hSome with
  | [part], _ => rfl
  | first :: second :: others, _ =>
    have hSeries :=
      hChecked (first :: second :: others)
        (by simp only [List.length_cons]; omega)
    rw [takeSeries]
    change
      (ReadError.liftElement
        (checked (first :: second :: others)) >>= _) = _
    rw [hSeries]
    rfl

theorem checkedConcatenation_of_two_le
    (parts : List Element)
    (hTwo : 2 ≤ parts.length) :
    Element.checkedConcatenation parts =
      .ok (.concatenation parts) := by
  rw [Element.checkedConcatenation,
    Element.checkCount_eq_ok_iff.mpr hTwo]
  rfl

theorem checkedAlternation_of_two_le
    (parts : List Element)
    (hTwo : 2 ≤ parts.length) :
    Element.checkedAlternation parts =
      .ok (.alternation parts) := by
  rw [Element.checkedAlternation,
    Element.checkCount_eq_ok_iff.mpr hTwo]
  rfl

/- An element with its bounds, if it has any. -/
theorem accepts_repetition
    {element : Element}
    (hTop : top.kind ≠ .rule) :
    Accepts input "repetition"
      (some (.repetition none [element])) start stop
      ⟨rules, top :: rest⟩
      ⟨rules, top.addAll [element] :: rest⟩ := by
  apply accepts_of_push hTop
  intro assembly _
  rw [matchResult_of_not_read rfl]
  rfl

theorem accepts_bounded
    {min : Nat}
    {max : Option Nat}
    {element : Element}
    (hBounds : ∀ limit, max = some limit → min ≤ limit)
    (hTop : top.kind ≠ .rule) :
    Accepts input "repetition"
      (some (.repetition (some (min, max)) [element])) start
      stop ⟨rules, top :: rest⟩
      ⟨rules,
        top.addAll [.repetition min max element] :: rest⟩ := by
  apply accepts_of_push hTop
  intro assembly _
  have hChecked :
      Element.checkedRepetition min max element =
        .ok (.repetition min max element) := by
    rw [Element.checkedRepetition,
      Element.checkBounds_eq_ok_iff.mpr hBounds]
    rfl
  rw [matchResult_of_not_read rfl]
  change
    (ReadError.liftElement
      (Element.checkedRepetition min max element) >>= _) = _
  rw [hChecked]
  rfl

/- The bounds before an element. -/
theorem accepts_repeat
    {text : List Char}
    {bounds : Nat × Option Nat}
    {old : Option (Nat × Option Nat)}
    {parts : List Element}
    (hSlice : slice? input start stop = some text)
    (hBounds : readRepeat text = .ok bounds) :
    Accepts input "repeat" none start stop
      ⟨rules, .repetition old parts :: rest⟩
      ⟨rules, .repetition (some bounds) parts :: rest⟩ := by
  intro assembly hAt
  refine
    ⟨{ assembly with
        frames := .repetition (some bounds) parts :: rest },
     ?_, hAt.rules, rfl, hAt.error⟩
  rw [matchResult_of_read rfl hSlice]
  change assembly.takeBounds text = _
  unfold takeBounds
  rw [hBounds, hAt.frames]
  rfl

theorem accepts_option
    {element : Element}
    (hTop : top.kind ≠ .rule) :
    Accepts input "option" (some (.elements [element]))
      start stop ⟨rules, top :: rest⟩
      ⟨rules, top.addAll [.optional element] :: rest⟩ := by
  apply accepts_of_push hTop
  intro assembly _
  rw [matchResult_of_not_read rfl]
  rfl

end Grammar

end Abnf

------------------------------------------------------------
-- Derivations Of Rules
------------------------------------------------------------

namespace Abnf

namespace Grammar

open Element

variable {input : Array UInt8}
variable {calls calls' inner : List Call}
variable {name : String}
variable {start mid stop : Nat}

/- A derivation of the element of a rule is one of it. -/
theorem parses_rule
    {rule : Rule}
    (hRule : rule ∈ rules)
    (h :
      scope.Parses makes input (.one rule.element) start stop
        inner) :
    scope.Parses makes input (.one (ruleName rule.name))
      start stop
      (if makes rule.name then
        [.call rule.name start (some stop) inner]
      else
        inner) :=
  .ruleName (find?_of_mem_rules hRule) h

/- A part that is read from its text makes no other calls. -/
theorem parses_read
    (hName : name ∈ readNames)
    {text : List Char}
    (hWord :
      scope.Generates (ruleName name) (word text))
    (hOccurs : Text.Occurs input start (word text)) :
    scope.Parses makes input (.one (ruleName name)) start
      (start + text.length)
      [.call name start (some (start + text.length)) []] := by
  rcases exists_rule_of_mem_readNames name hName with
    ⟨rule, hRule, rfl, hNames⟩
  have hMakes : makes rule.name = true := by
    generalize rule.name = name at hName
    revert hName name
    decide
  rcases @Scope.Generates.exists_parses scope makes input _ _
      hWord start hOccurs with
    ⟨calls, hParses⟩
  rw [length_word] at hParses
  rcases exists_parses_of_mem hRule hParses with
    ⟨inner, hBody, hCalls⟩
  have hNone : inner = [] :=
    @calls_eq_nil_of_names input (.one rule.element)
      (fun _ hIn => hNames hIn) _ _ _ hBody
  rw [hMakes, if_pos rfl, hNone] at hCalls
  rw [hCalls] at hParses
  exact hParses

/- A word of hushed names makes no calls. -/
theorem parses_hushed
    {element : Element}
    (hNames : ∀ name ∈ element.names, name ∈ hushedNames)
    {text : List Char}
    (hWord : scope.Generates element (word text))
    (hOccurs : Text.Occurs input start (word text)) :
    scope.Parses makes input (.one element) start
      (start + text.length) [] := by
  rcases @Scope.Generates.exists_parses scope makes input _ _
      hWord start hOccurs with
    ⟨calls, hParses⟩
  rw [length_word] at hParses
  have hNone : calls = [] :=
    @calls_eq_nil_of_names input (.one element) hNames _ _ _
      hParses
  rw [hNone] at hParses
  exact hParses

/- Series can be put one behind the other. -/
theorem parses_append
    {parts parts' : List Element}
    (h :
      scope.Parses makes input (.all parts) start mid calls)
    (h' :
      scope.Parses makes input (.all parts') mid stop
        calls') :
    scope.Parses makes input (.all (parts ++ parts')) start
      stop (calls ++ calls') := by
  induction parts generalizing start calls with
  | nil =>
    cases h with
    | allNone => exact h'
  | cons part parts ih =>
    cases h with
    | allNext hFirst hRest =>
      rw [List.append_assoc]
      exact .allNext hFirst (ih hRest)

theorem parses_last
    {part : Element}
    (h :
      scope.Parses makes input (.one part) start stop
        calls) :
    scope.Parses makes input (.all [part]) start stop
      calls := by
  have hAll :=
    Scope.Parses.allNext h
      (@Scope.Parses.allNone scope makes input stop)
  rw [List.append_nil] at hAll
  exact hAll

/- No blanks at all. -/
theorem parses_blanks_none
    (index : Nat) :
    scope.Parses makes input (.one blanks) index index [] :=
  .repetition (Nat.zero_le 0) (fun _ hLimit => nomatch hLimit)
    .copiesNone

end Grammar

end Abnf

------------------------------------------------------------
-- Written Elements
------------------------------------------------------------

namespace Abnf

namespace Grammar

open Element

/-
  A text is a word of a rule, wherever it stands, and the
  calls of the rule put one element into a frame.
-/
structure Written
    (name : String)
    (text : List Char)
    (element : Element) : Prop where
  ascii : IsAscii text
  parses :
    ∀ input start,
      Text.Occurs input start (word text) →
        ∃ calls,
          scope.Parses makes input (.one (ruleName name))
            start (start + text.length) calls ∧
          Adds input calls [element]

variable {name : String}
variable {text : List Char}
variable {element : Element}

/- The name of a rule. -/
theorem written_reference
    {reference : String}
    (hCheck : checkName reference = .ok ())
    (hLetter : startsWithLetter reference = true) :
    Written "rulename" reference.toList
      (ruleName reference) := by
  refine ⟨isAscii_of_checkName hCheck, ?_⟩
  intro input start hOccurs
  have hSome := (checkName_eq_ok_iff.mp hCheck).1
  have hSlice :=
    slice?_of_occurs (isAscii_of_checkName hCheck) hSome
      hOccurs
  refine
    ⟨_,
     parses_read (by decide)
       (generates_rulename hCheck hLetter) hOccurs, ?_⟩
  intro rules top rest hTop
  exact
    turns_call_of_none rfl (turns_nil _)
      (accepts_reference hSlice hCheck hTop)

/- A value that is read from its text. -/
theorem written_value
    (hName : name ∈ ["char-val", "hex-val"])
    (hAscii : IsAscii text)
    (hSome : text ≠ [])
    (hWord : scope.Generates (ruleName name) (word text))
    (hValue : valueOf name text = .ok element) :
    Written name text element := by
  refine ⟨hAscii, ?_⟩
  intro input start hOccurs
  have hSlice := slice?_of_occurs hAscii hSome hOccurs
  have hReads :
      ∀ other ∈ ["char-val", "hex-val"],
        other ∈ readNames ∧
          (Part.ofName other).frame? = none ∧
          other ∈
            ["char-val", "bin-val", "dec-val", "hex-val",
             "prose-val"] := by
    decide
  have hRead := hReads name hName
  refine
    ⟨_, parses_read hRead.1 hWord hOccurs, ?_⟩
  intro rules top rest hTop
  exact
    turns_call_of_none hRead.2.1 (turns_nil _)
      (accepts_value hRead.2.2 hSlice hValue hTop)

/- The empty text. -/
theorem written_empty :
    Written "char-val" ['"', '"'] Element.empty :=
  written_value (by decide) (by decide) (by simp)
    (@generates_charVal [] [] false (by decide)
      (fun _ hc => nomatch hc)) rfl

theorem valueOf_hexVal
    (text : List Char) :
    valueOf "hex-val" text = readNumVal 16 text :=
  rfl

/- A run of characters. -/
theorem written_run
    {run : Nat × Nat}
    (hOrdered : run.1 ≤ run.2)
    (hTable : run.2 < CharSet.tableSize) :
    Written "num-val" ('%' :: numText run)
      (terminal (.ofRun run)) := by
  have hHex :
      Written "hex-val" (numText run)
        (terminal (.ofRun run)) :=
    written_value (by decide)
      (isAscii_numText hOrdered hTable) (by simp [numText])
      (generates_hexVal hOrdered hTable)
      ((valueOf_hexVal _).trans
        (readNumVal_numText hOrdered hTable))
  have hRule :
      (⟨"num-val",
        concatenation
          [chars "%",
           alternation
             [ruleName "bin-val", ruleName "dec-val",
              ruleName "hex-val"]]⟩ : Rule) ∈ rules := by
    decide
  refine
    ⟨@isAscii_append ['%'] _ (by decide) hHex.ascii, ?_⟩
  intro input start hOccurs
  change
    Text.Occurs input start
      (byteOf '%' :: word (numText run)) at hOccurs
  rw [Text.Occurs] at hOccurs
  rcases hHex.parses input (start + 1) hOccurs.2 with
    ⟨calls, hParses, hAdds⟩
  have hSign :
      scope.Parses makes input (.one (chars "%")) start
        (start + 1) [] :=
    .member hOccurs.1 (by decide)
  have hEnd :
      start + 1 + (numText run).length =
        start + ('%' :: numText run).length := by
    rw [List.length_cons]
    omega
  rw [hEnd] at hParses
  refine ⟨calls, ?_, hAdds⟩
  exact
    parses_rule hRule
      (.concatenation
        (.allNext hSign
          (parses_last
            (.alternation (by simp) hParses))))

/- An element is written as what it consists of. -/
theorem written_element
    (hName : name ∈ elementNames)
    (h : Written name text element) :
    Written "element" text element := by
  have hRule :
      (⟨"element",
        alternation (elementNames.map ruleName)⟩ : Rule) ∈
        rules := by
    decide
  refine ⟨h.ascii, ?_⟩
  intro input start hOccurs
  rcases h.parses input start hOccurs with
    ⟨calls, hParses, hAdds⟩
  exact
    ⟨calls,
     parses_rule hRule
       (.alternation (List.mem_map_of_mem hName) hParses),
     hAdds⟩

/- A text between two brackets. -/
theorem parses_enclosed
    {first last : Char}
    (hFirst :
      (CharSet.ofRange first first).containsByte
        (byteOf first) = true)
    (hLast :
      (CharSet.ofRange last last).containsByte
        (byteOf last) = true)
    (h : Written "alternation" text element)
    {input : Array UInt8}
    {start : Nat}
    (hOccurs :
      Text.Occurs input start
        (word (first :: text ++ [last]))) :
    ∃ calls,
      scope.Parses makes input (.one (enclosed first last))
        start (start + (first :: text ++ [last]).length)
        calls ∧
      Adds input calls [element] := by
  rw [List.cons_append] at hOccurs
  change
    Text.Occurs input start
      (byteOf first :: word (text ++ [last])) at hOccurs
  rw [Text.Occurs, word_append,
    Text.occurs_append_iff] at hOccurs
  rcases hOccurs with ⟨hOpen, hText, hClose⟩
  rw [length_word] at hClose
  rcases h.parses input (start + 1) hText with
    ⟨calls, hParses, hAdds⟩
  have hEnd :
      start + (first :: text ++ [last]).length =
        start + 1 + text.length + 1 := by
    rw [List.length_append, List.length_cons,
      List.length_singleton]
    omega
  rw [hEnd]
  have hAll :=
    Scope.Parses.allNext (.member hOpen hFirst)
      (.allNext (parses_blanks_none (start + 1))
        (.allNext hParses
          (.allNext
            (parses_blanks_none (start + 1 + text.length))
            (parses_last (.member hClose.1 hLast)))))
  simp only [List.nil_append, List.append_nil] at hAll
  exact ⟨calls, .concatenation hAll, hAdds⟩

theorem isAscii_brackets
    {first last : Char}
    (hBrackets : IsAscii [first, last])
    (h : IsAscii text) :
    IsAscii (first :: text ++ [last]) :=
  isAscii_append
    (@isAscii_append [first] text
      (fun _ hc => hBrackets _ (by simp_all)) h)
    (fun _ hc => hBrackets _ (by simp_all))

/- An element in parentheses. -/
theorem written_group
    (h : Written "alternation" text element) :
    Written "group" ('(' :: text ++ [')']) element := by
  refine ⟨isAscii_brackets (by decide) h.ascii, ?_⟩
  intro input start hOccurs
  rcases parses_enclosed (by decide) (by decide) h hOccurs
    with ⟨calls, hParses, hAdds⟩
  exact
    ⟨calls, parses_rule isBracket_group.rule hParses, hAdds⟩

/- An element in square brackets. -/
theorem written_option
    (h : Written "alternation" text element) :
    Written "option" ('[' :: text ++ [']'])
      (optional element) := by
  refine ⟨isAscii_brackets (by decide) h.ascii, ?_⟩
  intro input start hOccurs
  rcases parses_enclosed (by decide) (by decide) h hOccurs
    with ⟨calls, hParses, hAdds⟩
  refine
    ⟨_, parses_rule isBracket_option.rule hParses, ?_⟩
  intro rules top rest hTop
  exact
    turns_call_of_frame rfl
      (hAdds rules (.elements []) (top :: rest) (by decide))
      (accepts_option hTop)

/- An element without bounds. -/
theorem written_unbounded
    (h : Written "element" text element) :
    Written "repetition" text element := by
  have hRule :
      (⟨"repetition",
        concatenation
          [optional (ruleName "repeat"),
           ruleName "element"]⟩ : Rule) ∈ rules := by
    decide
  refine ⟨h.ascii, ?_⟩
  intro input start hOccurs
  rcases h.parses input start hOccurs with
    ⟨calls, hParses, hAdds⟩
  have hNone :
      scope.Parses makes input
        (.one (optional (ruleName "repeat"))) start start
        [] :=
    .repetition (Nat.zero_le 0) (fun _ _ => Nat.zero_le _)
      .copiesNone
  refine
    ⟨_,
     parses_rule hRule
       (.concatenation
         (.allNext hNone (parses_last hParses))), ?_⟩
  intro rules top rest hTop
  exact
    turns_call_of_frame rfl
      (hAdds rules (.repetition none []) (top :: rest)
        (by decide))
      (accepts_repetition hTop)

/- An element behind its bounds. -/
theorem written_bounded
    {min : Nat}
    {max : Option Nat}
    (hFit : boundsFit min max = true)
    (hBounds : ∀ limit, max = some limit → min ≤ limit)
    (h : Written "element" text element) :
    Written "repetition" ((boundsText min max).toList ++ text)
      (repetition min max element) := by
  have hRule :
      (⟨"repetition",
        concatenation
          [optional (ruleName "repeat"),
           ruleName "element"]⟩ : Rule) ∈ rules := by
    decide
  refine
    ⟨isAscii_append (isAscii_boundsText min max) h.ascii, ?_⟩
  intro input start hOccurs
  rw [word_append, Text.occurs_append_iff,
    length_word] at hOccurs
  rcases h.parses input _ hOccurs.2 with ⟨calls, hParses, hAdds⟩
  have hRepeat :=
    parses_read (by decide) (generates_repeat min max)
      hOccurs.1
  have hSlice :=
    slice?_of_occurs (isAscii_boundsText min max)
      (boundsText_ne_nil min max) hOccurs.1
  have hOne :
      scope.Parses makes input
        (.one (optional (ruleName "repeat"))) start
        (start + (boundsText min max).toList.length)
        ([.call "repeat" start
            (some
              (start + (boundsText min max).toList.length))
            []] ++ []) :=
    .repetition (Nat.zero_le 1)
      (by rintro _ ⟨⟩; exact Nat.le_refl _)
      (.copiesNext hRepeat .copiesNone)
  rw [List.length_append, ← Nat.add_assoc]
  refine
    ⟨_,
     parses_rule hRule
       (.concatenation
         (.allNext hOne (parses_last hParses))), ?_⟩
  intro rules top rest hTop
  have hCount :
      Turns input
        [.call "repeat" start
          (some (start + (boundsText min max).toList.length))
          []]
        ⟨rules, .repetition none [] :: top :: rest⟩
        ⟨rules,
          .repetition (some (min, max)) [] :: top :: rest⟩ :=
    turns_call_of_none rfl (turns_nil _)
      (accepts_repeat hSlice (readRepeat_boundsText hFit))
  exact
    turns_call_of_frame rfl
      (hCount.append
        (hAdds rules (.repetition (some (min, max)) [])
          (top :: rest) nofun))
      (accepts_bounded hBounds hTop)

end Grammar

end Abnf

------------------------------------------------------------
-- Written Series
------------------------------------------------------------

namespace Abnf

namespace Grammar

open Element

/- Texts of a rule with a separator between them. -/
inductive Listed
    (item : String)
    (separator : List Char) :
    List Char → List Element → Prop
  | one {text : List Char} {element : Element} :
      Written item text element →
      Listed item separator text [element]
  | next
      {text rest : List Char}
      {element : Element} {elements : List Element} :
      Written item text element →
      Listed item separator rest elements →
      Listed item separator (text ++ (separator ++ rest))
        (element :: elements)

variable {item : String}
variable {separator : List Char}
variable {text text' : List Char}
variable {elements elements' : List Element}

theorem Listed.append
    (h : Listed item separator text elements)
    (h' : Listed item separator text' elements') :
    Listed item separator (text ++ (separator ++ text'))
      (elements ++ elements') := by
  induction h with
  | one hText => exact .next hText h'
  | next hText _ ih =>
    rw [List.append_assoc, List.append_assoc]
    exact .next hText ih

theorem Listed.ne_nil
    (h : Listed item separator text elements) :
    elements ≠ [] := by
  cases h with
  | one _ => simp
  | next _ _ => simp

/- The items of a list and its separators are ASCII. -/
theorem Listed.ascii
    (hSeparator : IsAscii separator)
    (h : Listed item separator text elements) :
    IsAscii text := by
  induction h with
  | one hText => exact hText.ascii
  | next hText _ ih =>
    exact
      isAscii_append hText.ascii
        (isAscii_append hSeparator ih)

/-
  Between two items of a series there are elements that make
  no calls, and the separator is a word of them.
-/
structure Separates
    (between : List Element)
    (separator : List Char) : Prop where
  ascii : IsAscii separator
  names : ∀ name ∈ namesOfAll between, name ∈ hushedNames
  word :
    scope.Generates (concatenation between)
      (Grammar.word separator)

variable {between : List Element}
variable {element : Element}
variable {input : Array UInt8}
variable {start : Nat}

/- A separator and one more item. -/
theorem exists_parses_next
    (hSeparates : Separates between separator)
    (h : Written item text element)
    (hOccurs :
      Text.Occurs input start (word (separator ++ text))) :
    ∃ calls,
      scope.Parses makes input
        (.one (concatenation (between ++ [ruleName item])))
        start (start + (separator ++ text).length) calls ∧
      Adds input calls [element] := by
  rw [word_append, Text.occurs_append_iff,
    length_word] at hOccurs
  rcases h.parses input _ hOccurs.2 with
    ⟨calls, hParses, hAdds⟩
  have hNames :
      ∀ name ∈ (concatenation between).names,
        name ∈ hushedNames := by
    rw [Element.names]
    exact hSeparates.names
  have hBetween :=
    parses_hushed hNames hSeparates.word hOccurs.1
  rw [List.length_append, ← Nat.add_assoc]
  cases hBetween with
  | concatenation hAll =>
    exact
      ⟨calls,
       .concatenation
         (parses_append hAll (parses_last hParses)),
       hAdds⟩

/- A separator and all further items. -/
theorem exists_parses_further
    (hSeparates : Separates between separator)
    (h : Listed item separator text elements)
    (hOccurs :
      Text.Occurs input start (word (separator ++ text))) :
    ∃ calls,
      scope.Parses makes input
        (.copies elements.length
          (concatenation (between ++ [ruleName item])))
        start (start + (separator ++ text).length) calls ∧
      Adds input calls elements := by
  induction h generalizing start with
  | one hText =>
    rcases exists_parses_next hSeparates hText hOccurs with
      ⟨calls, hParses, hAdds⟩
    exact
      ⟨_, .copiesNext hParses .copiesNone,
       hAdds.append adds_nil⟩
  | @next text rest element elements hText hRest ih =>
    rw [← List.append_assoc, word_append,
      Text.occurs_append_iff, length_word] at hOccurs
    rcases exists_parses_next hSeparates hText hOccurs.1 with
      ⟨calls, hParses, hAdds⟩
    rcases ih hOccurs.2 with ⟨calls', hParses', hAdds'⟩
    rw [← List.append_assoc, List.length_append,
      ← Nat.add_assoc]
    exact
      ⟨_, .copiesNext hParses hParses',
       hAdds.append hAdds'⟩

/- What a rule of series makes of the parts in its frame. -/
structure IsSeries
    (name item : String)
    (between : List Element)
    (series : List Element → Element) : Prop where
  rule :
    ⟨name,
      concatenation
        [ruleName item,
         any (concatenation (between ++ [ruleName item]))]⟩ ∈
      rules
  makes : makes name = true
  frame : (Part.ofName name).frame? = some (.elements [])
  result :
    ∀ (input : Array UInt8) (start stop : Nat)
        (parts : List Element),
      parts ≠ [] →
      ∀ assembly : Assembly,
        assembly.matchResult input name
            (some (.elements parts)) start stop =
          assembly.push (collapse series parts)

theorem isSeries_concatenation :
    IsSeries "concatenation" "repetition"
      [atLeast 1 (ruleName "c-wsp")] concatenation where
  rule := by decide
  makes := by decide
  frame := rfl
  result _ _ _ _ hSome assembly := by
    rw [matchResult_of_not_read rfl]
    exact
      takeSeries_eq_push checkedConcatenation_of_two_le
        hSome assembly

theorem isSeries_alternation :
    IsSeries "alternation" "concatenation"
      [blanks, chars "/", blanks] alternation where
  rule := by decide
  makes := by decide
  frame := rfl
  result _ _ _ _ hSome assembly := by
    rw [matchResult_of_not_read rfl]
    exact
      takeSeries_eq_push checkedAlternation_of_two_le
        hSome assembly

theorem separates_space :
    Separates [atLeast 1 (ruleName "c-wsp")] [' '] where
  ascii := by decide
  names := by decide
  word := generates_last (generates_space (Nat.le_refl 1))

theorem separates_slash :
    Separates [blanks, chars "/", blanks]
      [' ', '/', ' '] where
  ascii := by decide
  names := by decide
  word :=
    generates_cons (generates_space (Nat.zero_le 1))
      (generates_cons (generates_chars '/' (by decide))
        (generates_last (generates_space (Nat.zero_le 1))))

/- Items with separators are a series. -/
theorem written_series
    {name : String}
    {series : List Element → Element}
    (hSeries : IsSeries name item between series)
    (hSeparates : Separates between separator)
    (h : Listed item separator text elements) :
    Written name text (collapse series elements) := by
  refine ⟨h.ascii hSeparates.ascii, ?_⟩
  intro input start hOccurs
  have hParts :
      ∃ calls,
        scope.Parses makes input
          (.one
            (concatenation
              [ruleName item,
               any
                 (concatenation
                   (between ++ [ruleName item]))]))
          start (start + text.length) calls ∧
        Adds input calls elements := by
    cases h with
    | one hText =>
      rcases hText.parses input start hOccurs with
        ⟨calls, hParses, hAdds⟩
      exact
        ⟨_,
         .concatenation
           (.allNext hParses
             (parses_last
               (.repetition (Nat.zero_le 0)
                 (fun _ hLimit => nomatch hLimit)
                 .copiesNone))),
         hAdds.append adds_nil⟩
    | next hText hRest =>
      rw [word_append, Text.occurs_append_iff,
        length_word] at hOccurs
      rcases hText.parses input start hOccurs.1 with
        ⟨calls, hParses, hAdds⟩
      rcases exists_parses_further hSeparates hRest
          hOccurs.2 with
        ⟨calls', hParses', hAdds'⟩
      rw [List.length_append, ← Nat.add_assoc]
      exact
        ⟨_,
         .concatenation
           (.allNext hParses
             (parses_last
               (.repetition (Nat.zero_le _)
                 (fun _ hLimit => nomatch hLimit) hParses'))),
         hAdds.append hAdds'⟩
  rcases hParts with ⟨inner, hParses, hAdds⟩
  have hRule := parses_rule hSeries.rule hParses
  rw [hSeries.makes, if_pos rfl] at hRule
  refine ⟨_, hRule, ?_⟩
  intro rules top rest hTop
  have hInner :=
    hAdds rules (.elements []) (top :: rest) (by decide)
  rw [Frame.addAll_elements, List.nil_append] at hInner
  exact
    turns_call_of_frame hSeries.frame hInner
      (accepts_of_push hTop
        (fun assembly _ =>
          hSeries.result input start (start + text.length)
            elements h.ne_nil assembly))

end Grammar

end Abnf

------------------------------------------------------------
-- The Notation Of Elements
------------------------------------------------------------

namespace Abnf

namespace Element

mutual

/- The bounds of all repetitions fit into counts. -/
def countsFit : Element → Bool
  | ruleName _ => true
  | terminal _ => true
  | repetition min max body =>
      Grammar.boundsFit min max && countsFit body
  | concatenation parts => allCountsFit parts
  | alternation parts => allCountsFit parts

/- The same for the elements of a list. -/
def allCountsFit : List Element → Bool
  | [] => true
  | part :: parts => countsFit part && allCountsFit parts

end

end Element

namespace Grammar

open Element

/-
  The notation of an element is read as its flat form: as
  the body of a repetition, as parts of a concatenation, as
  parts of an alternation, and by itself.
-/
structure Legible
    (element : Element) : Prop where
  body :
    Written "element"
      (grouped element.groupedInRepetition
        element.text).toList element.flat
  series :
    Listed "repetition" [' '] element.itemText.toList
      element.flat.seriesParts
  choice :
    Listed "concatenation" [' ', '/', ' ']
      element.text.toList element.flat.choiceParts
  whole : Written "alternation" element.text.toList element.flat

variable {element : Element}

theorem toList_grouped
    (text : String) :
    (grouped true text).toList =
      '(' :: text.toList ++ [')'] := by
  rw [grouped, if_pos rfl, String.toList_append,
    String.toList_append]
  rfl

/- Parentheses make an element of anything. -/
theorem written_grouped
    {text : String}
    (h : Written "alternation" text.toList element) :
    Written "element" (grouped true text).toList element := by
  rw [toList_grouped]
  exact written_element (by decide) (written_group h)

/- A series of more parts than one is not collapsed. -/
theorem collapse_of_length
    {series : List Element → Element}
    {parts : List Element}
    (h : parts.length ≠ 1) :
    collapse series parts = series parts := by
  unfold collapse
  split
  · exact absurd rfl h
  · rfl

/- Parts of a concatenation that stand without brackets. -/
theorem legible_of_series
    (hSeries :
      Listed "repetition" [' '] element.text.toList
        element.flat.seriesParts)
    (hFlat :
      collapse concatenation element.flat.seriesParts =
        element.flat)
    (hBare : element.groupedInConcatenation = false)
    (hChoice : element.flat.choiceParts = [element.flat])
    (hBody :
      element.groupedInRepetition = true ∨
        Written "element" element.text.toList
          element.flat ∧ element.groupedInRepetition = false) :
    Legible element := by
  have hItem : element.itemText = element.text := by
    rw [itemText, hBare]
    rfl
  have hWritten :=
    written_series isSeries_concatenation separates_space
      hSeries
  rw [hFlat] at hWritten
  have hList :
      Listed "concatenation" [' ', '/', ' ']
        element.text.toList [element.flat] :=
    .one hWritten
  have hWhole :=
    written_series isSeries_alternation separates_slash hList
  refine ⟨?_, ?_, ?_, hWhole⟩
  · rcases hBody with hGroup | ⟨hBody, hGroup⟩
    · rw [hGroup]
      exact written_grouped hWhole
    · rw [hGroup]
      exact hBody
  · rw [hItem]
    exact hSeries
  · rw [hChoice]
    exact hList

/- An element that stands by itself everywhere. -/
theorem legible_of_element
    (h : Written "element" element.text.toList element.flat)
    (hBare : element.groupedInConcatenation = false)
    (hBare' : element.groupedInRepetition = false)
    (hSeries : element.flat.seriesParts = [element.flat])
    (hChoice : element.flat.choiceParts = [element.flat]) :
    Legible element := by
  apply legible_of_series _ _ hBare hChoice
    (Or.inr ⟨h, hBare'⟩)
  · rw [hSeries]
    exact .one (written_unbounded h)
  · rw [hSeries]
    rfl

/- Parts of an alternation, which needs brackets. -/
theorem legible_of_choice
    {parts : List Element}
    (hFlat : element.flat = alternation parts)
    (hTwo : 2 ≤ parts.length)
    (hChoice :
      Listed "concatenation" [' ', '/', ' ']
        element.text.toList parts)
    (hGroup : element.groupedInConcatenation = true)
    (hGroup' : element.groupedInRepetition = true) :
    Legible element := by
  have hWhole :=
    written_series isSeries_alternation separates_slash
      hChoice
  rw [collapse_of_length (by omega), ← hFlat] at hWhole
  have hBody := written_grouped hWhole
  refine ⟨?_, ?_, ?_, hWhole⟩
  · rw [hGroup']
    exact hBody
  · rw [itemText, hGroup, hFlat]
    rw [hFlat] at hBody
    exact .one (written_unbounded hBody)
  · rw [hFlat]
    exact hChoice

/- The notations of several elements in a row. -/
theorem listed_of_parts
    {item : String}
    {separator : String}
    {write : Element → String}
    {partsOf : Element → List Element}
    {parts : List Element}
    (hSome : parts ≠ [])
    (h :
      ∀ part ∈ parts,
        Listed item separator.toList (write part).toList
          (partsOf part)) :
    Listed item separator.toList
      (separator.intercalate (parts.map write)).toList
      (parts.flatMap partsOf) := by
  induction parts with
  | nil => exact absurd rfl hSome
  | cons part parts ih =>
    have hPart := h part List.mem_cons_self
    by_cases hNone : parts = []
    · subst hNone
      simpa using hPart
    · have hRest := ih hNone (fun other hOther =>
        h other (List.mem_cons_of_mem _ hOther))
      rw [List.map_cons,
        String.intercalate_cons_of_ne_nil
          (by simpa using hNone),
        String.toList_append, String.toList_append,
        List.append_assoc, List.flatMap_cons]
      exact hPart.append hRest

theorem flatSeries_eq_flatMap
    (parts : List Element) :
    flatSeries parts =
      parts.flatMap (fun part => part.flat.seriesParts) := by
  induction parts with
  | nil => rfl
  | cons part parts ih =>
    rw [flatSeries, ih, List.flatMap_cons]

theorem flatChoice_eq_flatMap
    (parts : List Element) :
    flatChoice parts =
      parts.flatMap (fun part => part.flat.choiceParts) := by
  induction parts with
  | nil => rfl
  | cons part parts ih =>
    rw [flatChoice, ih, List.flatMap_cons]

/- The name of a rule. -/
theorem legible_ruleName
    {name : String}
    (hCheck : checkName name = .ok ())
    (hLetter : startsWithLetter name = true) :
    Legible (ruleName name) := by
  have hFlat : (ruleName name).flat = ruleName name := by
    rw [flat]
  apply legible_of_element
  · rw [hFlat, text]
    exact
      written_element (by decide)
        (written_reference hCheck hLetter)
  · rfl
  · rfl
  · rw [hFlat]
    rfl
  · rw [hFlat]
    rfl

/- A set of at most one run. -/
theorem written_terminal
    {s : CharSet}
    (hSingle : s.isSingleRun = true) :
    Written "element" s.text.toList (terminal s) := by
  have hLength := (CharSet.isSingleRun_iff s).mp hSingle
  match hRuns : s.runs, hLength with
  | [], _ =>
    have hEmpty := CharSet.eq_empty_of_runs hRuns
    have hText : s.text = "\"\"" := by
      rw [CharSet.text, hRuns]
      rfl
    rw [hText, hEmpty]
    exact written_element (by decide) written_empty
  | [run], _ =>
    have hSet := CharSet.eq_ofRun_of_runs hRuns
    have hBounds : run.1 ≤ run.2 ∧ run.2 < CharSet.tableSize := by
      apply @CharSet.bounds_of_mem_runs s
      rw [hRuns]
      exact List.mem_singleton_self run
    rw [hSet, text_ofRun hBounds.1 hBounds.2, toList_runText]
    exact
      written_element (by decide)
        (written_run hBounds.1 hBounds.2)

theorem legible_terminal
    (s : CharSet) :
    Legible (terminal s) := by
  cases hSingle : s.isSingleRun with
  | true =>
    have hFlat : (terminal s).flat = terminal s := by
      rw [flat, hSingle, if_pos rfl]
    apply legible_of_element
    · rw [hFlat, text]
      exact written_terminal hSingle
    · rw [groupedInConcatenation, hSingle]
      rfl
    · rw [groupedInRepetition, hSingle]
      simp
    · rw [hFlat]
      rfl
    · rw [hFlat]
      rfl
  | false =>
    have hFlat :
        (terminal s).flat =
          alternation
            (s.runs.map (fun run => terminal (.ofRun run))) := by
      rw [flat, hSingle, if_neg Bool.false_ne_true]
    have hMany : ¬ s.runs.length ≤ 1 := by
      rw [← CharSet.isSingleRun_iff, hSingle]
      exact Bool.false_ne_true
    have hSize :=
      CharSet.one_lt_size_of_not_isSingleRun hSingle
    apply legible_of_choice hFlat
    · rw [List.length_map]
      omega
    · have hParts :
          ∀ part ∈
              s.runs.map (fun run => terminal (.ofRun run)),
            Listed "concatenation" " / ".toList
              part.text.toList [part] := by
        intro part hPart
        rcases List.mem_map.mp hPart with ⟨run, hRun, rfl⟩
        have hBounds := CharSet.bounds_of_mem_runs hRun
        have hElement :
            Written "element"
              (terminal (.ofRun run)).text.toList
              (terminal (.ofRun run)) := by
          rw [text]
          apply written_terminal
          rw [CharSet.isSingleRun_iff,
            CharSet.runs_ofRun hBounds.1 hBounds.2]
          exact Nat.le_refl 1
        have hOne :
            Listed "repetition" [' ']
              (terminal (.ofRun run)).text.toList
              [terminal (.ofRun run)] :=
          .one (written_unbounded hElement)
        exact
          .one
            (written_series isSeries_concatenation
              separates_space hOne)
      have hList :=
        listed_of_parts
          (by
            rw [ne_eq, ← List.length_eq_zero_iff,
              List.length_map]
            omega)
          hParts
      rw [List.flatMap_singleton', ← text_alternation,
        text_alternation_runs hSingle] at hList
      rw [text]
      exact hList
    · rw [groupedInConcatenation, hSingle]
      rfl
    · rw [groupedInRepetition, hSingle]
      simp [hSize]

/- A repetition, as an option if it is one. -/
theorem legible_repetition
    {min : Nat}
    {max : Option Nat}
    {body : Element}
    (hBounds : ∀ limit, max = some limit → min ≤ limit)
    (hFit : boundsFit min max = true)
    (hBody : Legible body) :
    Legible (repetition min max body) := by
  have hFlat :
      (repetition min max body).flat =
        repetition min max body.flat := by
    rw [flat]
  have hWritten :
      Written "repetition"
        (repetition min max body).text.toList
        (repetition min max body.flat) := by
    rw [text]
    split
    · rename_i hOption
      rw [Bool.and_eq_true, decide_eq_true_iff,
        decide_eq_true_iff] at hOption
      rw [hOption.1, hOption.2, String.toList_append,
        String.toList_append]
      exact
        written_unbounded
          (written_element (by decide)
            (written_option hBody.whole))
    · rw [String.toList_append]
      exact written_bounded hFit hBounds hBody.body
  apply legible_of_series
  · rw [hFlat]
    exact .one hWritten
  · rw [hFlat]
    rfl
  · rfl
  · rw [hFlat]
    rfl
  · exact Or.inl rfl

theorem legible_concatenation
    {parts : List Element}
    (hCheck : (concatenation parts).check = .ok ())
    (hParts : ∀ part ∈ parts, Legible part) :
    Legible (concatenation parts) := by
  have hChecked := check_concatenation_iff.mp hCheck
  have hLength := length_le_flatSeries parts hChecked.2
  have hSome : parts ≠ [] := by
    rw [ne_eq, ← List.length_eq_zero_iff]
    omega
  have hFlat :
      (concatenation parts).flat =
        concatenation (flatSeries parts) := by
    rw [flat]
  apply legible_of_series
  · rw [hFlat, seriesParts, flatSeries_eq_flatMap,
      text_concatenation]
    exact
      @listed_of_parts "repetition" " " itemText
        (fun part => part.flat.seriesParts) parts hSome
        (fun part hPart => (hParts part hPart).series)
  · rw [hFlat, seriesParts, collapse_of_length (by omega)]
  · rfl
  · rw [hFlat]
    rfl
  · exact Or.inl rfl

theorem legible_alternation
    {parts : List Element}
    (hCheck : (alternation parts).check = .ok ())
    (hParts : ∀ part ∈ parts, Legible part) :
    Legible (alternation parts) := by
  have hChecked := check_alternation_iff.mp hCheck
  have hLength := length_le_flatChoice parts hChecked.2
  have hSome : parts ≠ [] := by
    rw [ne_eq, ← List.length_eq_zero_iff]
    omega
  have hFlat :
      (alternation parts).flat =
        alternation (flatChoice parts) := by
    rw [flat]
  apply legible_of_choice hFlat (by omega)
  · rw [flatChoice_eq_flatMap, text_alternation]
    exact
      @listed_of_parts "concatenation" " / " text
        (fun part => part.flat.choiceParts) parts hSome
        (fun part hPart => (hParts part hPart).choice)
  · rfl
  · rfl

mutual

/-
  The notation of every element can be read: one that is
  checked, whose names start with letters and whose bounds
  fit into counts.
-/
theorem legible_of_check :
    ∀ element : Element,
      element.check = .ok () →
      (∀ name ∈ element.names,
        startsWithLetter name = true) →
      element.countsFit = true →
        Legible element
  | ruleName name, hCheck, hLetters, _ =>
      legible_ruleName hCheck
        (hLetters name (List.mem_singleton_self name))
  | terminal s, _, _, _ => legible_terminal s
  | repetition min max body, hCheck, hLetters, hFit => by
      rw [check_repetition_iff] at hCheck
      rw [countsFit, Bool.and_eq_true] at hFit
      rw [Element.names] at hLetters
      exact
        legible_repetition hCheck.1 hFit.1
          (legible_of_check body hCheck.2 hLetters hFit.2)
  | concatenation parts, hCheck, hLetters, hFit => by
      rw [countsFit] at hFit
      rw [Element.names] at hLetters
      exact
        legible_concatenation hCheck
          (legible_of_checkAll parts
            (check_concatenation_iff.mp hCheck).2 hLetters
            hFit)
  | alternation parts, hCheck, hLetters, hFit => by
      rw [countsFit] at hFit
      rw [Element.names] at hLetters
      exact
        legible_alternation hCheck
          (legible_of_checkAll parts
            (check_alternation_iff.mp hCheck).2 hLetters
            hFit)

theorem legible_of_checkAll :
    ∀ parts : List Element,
      (∀ part ∈ parts, part.check = .ok ()) →
      (∀ name ∈ namesOfAll parts,
        startsWithLetter name = true) →
      allCountsFit parts = true →
        ∀ part ∈ parts, Legible part
  | [], _, _, _ => fun _ hPart => nomatch hPart
  | first :: parts, hCheck, hLetters, hFit => by
      rw [allCountsFit, Bool.and_eq_true] at hFit
      simp only [namesOfAll, List.mem_append] at hLetters
      have hFirst :=
        legible_of_check first
          (hCheck first List.mem_cons_self)
          (fun name hName => hLetters name (Or.inl hName))
          hFit.1
      have hOthers :=
        legible_of_checkAll parts
          (fun other hOther =>
            hCheck other (List.mem_cons_of_mem _ hOther))
          (fun name hName => hLetters name (Or.inr hName))
          hFit.2
      intro part hPart
      rcases List.mem_cons.mp hPart with hHere | hRest
      · rw [hHere]
        exact hFirst
      · exact hOthers part hRest

end

end Grammar

end Abnf
