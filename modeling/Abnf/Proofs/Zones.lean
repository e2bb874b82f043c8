import Abnf.Proofs.ByteTest
import Abnf.Proofs.ViablePrefixes

/-
  Zones of a grammar text.

  What a byte of a grammar text is part of can be told from
  the bytes in front of it alone, without a parse: comments,
  quoted texts, names in angle brackets and numbers behind
  `%x` have signs at which they start and end. A scan goes
  from zone to zone and is lost at a small letter that could
  be a digit of a number.

  The parse keeps to the zones. A table says for each rule
  from which zones its runs start and in which zones its
  matches end. The elements of the rules bear the table out,
  so it holds of all runs, also in attempts that fail.

  Key definitions include:
    * `Abnf.Zone`
    * `Abnf.Zone.next`
    * `Abnf.Zone.at?`
    * `Abnf.Element.leads`
    * `Abnf.Run.Lands`
    * `Abnf.Grammar.zoneTable`

  Main declarations:
    * `Abnf.Element.lands_run`
    * `Abnf.Scope.lands_invoke`
    * `Abnf.Grammar.lands_rulelist`
-/

------------------------------------------------------------
-- Zones
------------------------------------------------------------

namespace Abnf

/- What the bytes of a grammar text can be part of. -/
inductive Zone where
  /- Names, counts and signs. -/
  | outer
  | comment
  | quoted
  | bracketed
  /- The place behind a percent sign. -/
  | percent
  /- Numbers behind `%x`. -/
  | number
deriving DecidableEq

namespace Zone

/- The zone that a character opens from outside. -/
def opened
    (c : Char) : Zone :=
  if c = ';' then comment
  else if c = '"' then quoted
  else if c = '<' then bracketed
  else if c = '%' then percent
  else outer

/- A capital digit, or a sign between digits. -/
def isNumeric
    (c : Char) : Bool :=
  Grammar.isHexDigit c || c == '.' || c == '-'

/- A small letter that could be a digit of a number. -/
def isSmallDigit
    (c : Char) : Bool :=
  ['a', 'b', 'c', 'd', 'e', 'f'].contains c

/- The zone behind a character, unless the scan is lost. -/
def next
    (zone : Zone)
    (c : Char) : Option Zone :=
  match zone with
  | outer => some (opened c)
  | comment => some (if c = '\n' then outer else comment)
  | quoted => some (if c = '"' then outer else quoted)
  | bracketed => some (if c = '>' then outer else bracketed)
  | percent =>
      if c = 'x' ∨ c = 'X' then
        some number
      else
        some (opened c)
  | number =>
      if isNumeric c then
        some number
      else if isSmallDigit c then
        none
      else
        some (opened c)

/- The zone behind some characters. -/
def behind
    (zone : Zone)
    (cs : List Char) : Option Zone :=
  cs.foldlM next zone

/-
  The zone of an offset of a text. Bytes that are not ASCII
  count as characters of their own.
-/
def at?
    (input : Array UInt8)
    (index : Nat) : Option Zone :=
  outer.behind (Grammar.charsOf (input.toList.take index))

theorem behind_append
    (zone : Zone)
    (first second : List Char) :
    zone.behind (first ++ second) =
      (zone.behind first).bind (·.behind second) :=
  List.foldlM_append

theorem behind_cons
    (zone : Zone)
    (c : Char)
    (rest : List Char) :
    zone.behind (c :: rest) =
      (zone.next c).bind (·.behind rest) :=
  List.foldlM_cons

theorem behind_singleton
    (zone : Zone)
    (c : Char) :
    zone.behind [c] = zone.next c := by
  rw [behind_cons]
  exact Option.bind_fun_some _

/- Numbers go on as long as their characters do. -/
theorem behind_number
    {digits : List Char}
    (h : ∀ d ∈ digits, isNumeric d = true) :
    number.behind digits = some number := by
  induction digits with
  | nil => rfl
  | cons d digits ih =>
      rw [List.forall_mem_cons] at h
      have hNext : number.next d = some number := by
        rw [next, if_pos h.1]
      rw [behind_cons, hNext, Option.bind_some, ih h.2]

variable {input : Array UInt8}
variable {index : Nat}

/- A byte leads from its offset to the next one. -/
theorem at?_succ
    {b : UInt8}
    (hByte : input[index]? = some b) :
    at? input (index + 1) =
      (at? input index).bind
        (·.next (Char.ofNat b.toNat)) := by
  have hLast :
      Grammar.charsOf (input.toList.take (index + 1)) =
        Grammar.charsOf (input.toList.take index) ++
          [Char.ofNat b.toNat] := by
    rw [List.take_add_one, Array.getElem?_toList, hByte,
      Grammar.charsOf_append]
    rfl
  rw [at?, hLast, behind_append]
  simp only [behind_singleton]
  rfl

/- Once a scan is lost, it stays so. -/
theorem at?_eq_none_of_le
    {index' : Nat}
    (hOrder : index ≤ index')
    (h : at? input index = none) :
    at? input index' = none := by
  have hSplit :
      input.toList.take index' =
        input.toList.take index ++
          (input.toList.take index').drop index := by
    conv_lhs =>
      rw [← List.take_append_drop index
        (input.toList.take index')]
    rw [List.take_take, Nat.min_eq_left hOrder]
  rw [at?] at h
  rw [at?, hSplit, Grammar.charsOf_append, behind_append, h]
  rfl

end Zone

end Abnf

------------------------------------------------------------
-- Zones That Elements Lead To
------------------------------------------------------------

namespace Abnf

namespace Zone

/- All zones to which some items lead. -/
def gather
    {α : Type}
    (lead : α → Option (List Zone)) :
    List α → Option (List Zone)
  | [] => some []
  | item :: items =>
      match lead item, gather lead items with
      | some ends, some others => some (ends ∪ others)
      | _, _ => none

/- What each item leads to is among all of it. -/
theorem exists_of_gather
    {α : Type}
    {lead : α → Option (List Zone)}
    {items : List α}
    {zones : List Zone}
    (h : gather lead items = some zones)
    {item : α}
    (hItem : item ∈ items) :
    ∃ ends, lead item = some ends ∧ ends ⊆ zones := by
  induction items generalizing zones with
  | nil => cases hItem
  | cons first items ih =>
      rw [gather] at h
      split at h
      · rename_i ends others hFirst hItems
        cases h
        rcases List.mem_cons.mp hItem with rfl | hLater
        · exact
            ⟨ends, hFirst,
              fun _ h => List.mem_union_iff.mpr (Or.inl h)⟩
        · rcases ih hItems hLater with ⟨part, hPart, hSub⟩
          exact
            ⟨part, hPart,
              fun _ h =>
                List.mem_union_iff.mpr (Or.inr (hSub h))⟩
      · cases h

end Zone

namespace Element

variable (table : String → Zone → Option (List Zone))

mutual

/-
  The zones in which a match of an element can end that
  starts in a zone, given those of the rules. There is no
  answer if the scan can get lost on the way or a rule
  cannot start where it is named. Copies must not lead to
  more zones than the first one does.
-/
def leads : Element → Zone → Option (List Zone)
  | ruleName name, zone => table name zone
  | terminal s, zone =>
      if s.isEmpty then
        some [zone]
      else
        Zone.gather
          (fun code =>
            (zone.next (Char.ofNat code)).map ([·]))
          s.codes
  | repetition min _ body, zone =>
      match leads body zone with
      | none => none
      | some once =>
          match Zone.gather (leads body) once with
          | none => none
          | some more =>
              if more.all once.contains then
                if min = 0 then
                  some (zone :: once)
                else
                  some once
              else
                none
  | concatenation parts, zone => leadsSeries parts zone
  | alternation parts, zone => leadsFirst parts zone

/- The same for elements one after the other. -/
def leadsSeries :
    List Element → Zone → Option (List Zone)
  | [], zone => some [zone]
  | part :: parts, zone =>
      (leads part zone).bind
        (Zone.gather (leadsSeries parts))

/- The same for the first element that matches. -/
def leadsFirst :
    List Element → Zone → Option (List Zone)
  | [], _ => some []
  | part :: parts, zone =>
      match leads part zone, leadsFirst parts zone with
      | some ends, some others => some (ends ∪ others)
      | _, _ => none

end

variable {table : String → Zone → Option (List Zone)}

/- All copies keep to the zones that the first leads to. -/
theorem exists_once_of_leads
    {min : Nat}
    {max : Option Nat}
    {body : Element}
    {zone : Zone}
    {ends : List Zone}
    (h :
      (repetition min max body).leads table zone =
        some ends) :
    ∃ once,
      body.leads table zone = some once ∧
      (∀ zone' ∈ once, ∃ part,
        body.leads table zone' = some part ∧
          part ⊆ once) ∧
      once ⊆ ends ∧
      (min = 0 → zone ∈ ends) := by
  rw [leads] at h
  split at h
  · cases h
  · rename_i once hOnce
    split at h
    · cases h
    · rename_i more hMore
      split at h
      · rename_i hAll
        rw [List.all_eq_true] at hAll
        refine ⟨once, hOnce, ?_, ?_⟩
        · intro zone' hZone'
          rcases Zone.exists_of_gather hMore hZone' with
            ⟨part, hPart, hSub⟩
          refine ⟨part, hPart, ?_⟩
          intro other hOther
          exact
            List.contains_iff_mem.mp
              (hAll other (hSub hOther))
        · split at h
          · cases h
            exact
              ⟨List.subset_cons_self zone once,
                fun _ => List.mem_cons_self⟩
          · rename_i hPositive
            cases h
            exact
              ⟨List.Subset.refl _,
                fun hZero => absurd hZero hPositive⟩
      · cases h

end Element

end Abnf

------------------------------------------------------------
-- Runs That Keep To Zones
------------------------------------------------------------

namespace Abnf

open Zone

/-
  A rule starts in a zone that the table has for it, and its
  match, if there is one, ends in a zone that goes with it.
-/
def Zone.Suits
    (table : String → Zone → Option (List Zone))
    (input : Array UInt8) :
    String → Nat → Option Nat → Prop :=
  fun rule start stop =>
    ∃ zone ends,
      at? input start = some zone ∧
      table rule zone = some ends ∧
      ∀ last, stop = some last →
        ∃ zone' ∈ ends, at? input last = some zone'

/-
  All that is told of in a run suits the table, and the run
  ends in one of some zones.
-/
structure Run.Lands
    (table : String → Zone → Option (List Zone))
    (input : Array UInt8)
    (ends : List Zone)
    (run : Run) : Prop where
  tells : run.Tells (Suits table input)
  ends :
    ∀ stop, run.outcome = .matched stop →
      ∃ zone ∈ ends, at? input stop = some zone

variable {table : String → Zone → Option (List Zone)}
variable {input : Array UInt8}

namespace Run.Lands

theorem mono
    {ends ends' : List Zone}
    {run : Run}
    (hSub : ends ⊆ ends')
    (h : run.Lands table input ends) :
    run.Lands table input ends' where
  tells := h.tells
  ends stop hStop := by
    rcases h.ends stop hStop with ⟨zone, hZone, hAt⟩
    exact ⟨zone, hSub hZone, hAt⟩

theorem failed
    {ends : List Zone} :
    (quiet .failed).Lands table input ends :=
  ⟨tells_quiet _, nofun⟩

theorem here
    {ends : List Zone}
    {zone : Zone}
    {index : Nat}
    (hAt : at? input index = some zone)
    (hZone : zone ∈ ends) :
    (quiet (.matched index)).Lands table input ends := by
  refine ⟨tells_quiet _, ?_⟩
  intro stop hStop
  cases hStop
  exact ⟨zone, hZone, hAt⟩

/- What goes on after a run lands where it should. -/
theorem resume
    {middle ends : List Zone}
    {run : Run}
    {onMatch : Nat → Run}
    {onFailure : Run}
    (hRun : run.Lands table input middle)
    (hMatch :
      ∀ stop, ∀ zone ∈ middle,
        at? input stop = some zone →
        (onMatch stop).Lands table input ends)
    (hFailure : onFailure.Lands table input ends) :
    (run.resume onMatch onFailure).Lands table input
      ends := by
  constructor
  · apply tells_resume hRun.tells
    · intro stop hStop
      rcases hRun.ends stop hStop with ⟨zone, hZone, hAt⟩
      exact (hMatch stop zone hZone hAt).tells
    · exact hFailure.tells
  · intro last hLast
    rcases matched_of_resume hLast with
      ⟨stop, hStop, hRest⟩ | ⟨_, hRest⟩
    · rcases hRun.ends stop hStop with ⟨zone, hZone, hAt⟩
      exact (hMatch stop zone hZone hAt).ends last hRest
    · exact hFailure.ends last hRest

end Run.Lands

/-
  Copies lead from the zone of the first to zones that each
  copy keeps to. By induction on the rounds that are left:
  only before the first copy can it still be the zone where
  the iteration has started.
-/
theorem Node.lands_runCopies
    {step : Nat → Run}
    {min : Nat}
    {max : Option Nat}
    {start : Zone}
    {once ends : List Zone}
    (hStep :
      ∀ index zone, zone = start ∨ zone ∈ once →
        at? input index = some zone →
        (step index).Lands table input once)
    (hOnce : once ⊆ ends)
    (hNone : min = 0 → start ∈ ends)
    {allowance count index : Nat}
    {zone : Zone}
    (hAt : at? input index = some zone)
    (hZone : zone ∈ once ∨ count = 0 ∧ zone = start) :
    (runCopies step min max allowance count
      index).Lands table input ends := by
  have hEnd :
      ∀ {count index zone},
        at? input index = some zone →
        zone ∈ once ∨ count = 0 ∧ zone = start →
        (Run.quiet (endCopies min count index)).Lands table
          input ends := by
    intro count index zone hAt hZone
    refine ⟨Run.tells_quiet _, ?_⟩
    intro stop hStop
    rcases endCopies_eq_matched hStop with ⟨hMin, rfl⟩
    refine ⟨zone, ?_, hAt⟩
    rcases hZone with hCopy | ⟨rfl, rfl⟩
    · exact hOnce hCopy
    · exact hNone (Nat.le_zero.mp hMin)
  induction allowance generalizing count index zone with
  | zero => exact ⟨Run.tells_quiet _, nofun⟩
  | succ allowance ih =>
      rw [runCopies_succ]
      split
      · exact hEnd hAt hZone
      · have hFrom : zone = start ∨ zone ∈ once := by
          rcases hZone with hCopy | ⟨_, hStart⟩
          · exact Or.inr hCopy
          · exact Or.inl hStart
        apply Run.Lands.resume (hStep index zone hFrom hAt)
        · intro next zone' hZone' hAt'
          split
          · rename_i hSame
            rw [← hSame]
            exact .here hAt' (hOnce hZone')
          · exact ih hAt' (Or.inl hZone')
        · exact hEnd hAt hZone

namespace Element

variable {callee : String → Nat → Run}

/- One byte of a set leads where its members do. -/
theorem lands_runSet
    {s : CharSet}
    {index : Nat}
    {zone : Zone}
    {ends : List Zone}
    (hAt : at? input index = some zone)
    (h : (terminal s).leads table zone = some ends) :
    (Run.quiet (runSet input s index)).Lands table input
      ends := by
  rw [leads] at h
  unfold runSet
  split at h
  · rename_i hEmpty
    cases h
    rw [if_pos hEmpty]
    exact .here hAt (List.mem_singleton_self zone)
  · rename_i hSome
    rw [if_neg hSome]
    split
    · rename_i b hByte
      split
      · rename_i hMember
        rcases exists_of_gather h
            ((s.mem_codes_iff b.toNat).mpr hMember) with
          ⟨part, hPart, hSub⟩
        rcases Option.map_eq_some_iff.mp hPart with
          ⟨zone', hNext, rfl⟩
        refine .here ?_ (hSub (List.mem_singleton_self _))
        rw [at?_succ hByte, hAt]
        exact hNext
      · exact .failed
    · exact .failed

mutual

/-
  The run of an element lands in the zones that it leads to,
  if that holds of the rules that it names.
-/
theorem lands_run
    (hRuns :
      ∀ name index zone ends,
        at? input index = some zone →
        table name zone = some ends →
        (callee name index).Lands table input ends) :
    ∀ (element : Element) (index : Nat)
      (zone : Zone) (ends : List Zone),
      at? input index = some zone →
      element.leads table zone = some ends →
      (element.run input callee index).Lands table input
        ends
  | .ruleName name, index, zone, ends, hAt, h => by
      rw [leads] at h
      rw [run]
      exact hRuns name index zone ends hAt h
  | .terminal s, index, zone, ends, hAt, h => by
      rw [run]
      exact lands_runSet hAt h
  | .repetition min max body, index, zone, ends, hAt, h => by
      rcases exists_once_of_leads h with
        ⟨once, hOnce, hClosed, hSub, hNone⟩
      rw [run]
      refine
        Node.lands_runCopies ?_ hSub hNone hAt
          (Or.inr ⟨rfl, rfl⟩)
      intro index zone' hFrom hAt'
      rcases hFrom with rfl | hCopy
      · exact
          lands_run hRuns body index zone' once hAt' hOnce
      · rcases hClosed zone' hCopy with ⟨part, hPart, hSub⟩
        exact
          (lands_run hRuns body index zone' part hAt'
            hPart).mono hSub
  | .concatenation parts, index, zone, ends, hAt, h => by
      rw [leads] at h
      rw [run]
      exact lands_runSeries hRuns parts index zone ends hAt h
  | .alternation parts, index, zone, ends, hAt, h => by
      rw [leads] at h
      rw [run]
      exact lands_runFirst hRuns parts index zone ends hAt h

/- The same for elements one after the other. -/
theorem lands_runSeries
    (hRuns :
      ∀ name index zone ends,
        at? input index = some zone →
        table name zone = some ends →
        (callee name index).Lands table input ends) :
    ∀ (parts : List Element) (index : Nat)
      (zone : Zone) (ends : List Zone),
      at? input index = some zone →
      leadsSeries table parts zone = some ends →
      (runSeries input callee parts index).Lands table input
        ends
  | [], index, zone, ends, hAt, h => by
      rw [leadsSeries] at h
      cases h
      rw [runSeries]
      exact .here hAt (List.mem_singleton_self zone)
  | part :: parts, index, zone, ends, hAt, h => by
      rw [leadsSeries] at h
      rcases Option.bind_eq_some_iff.mp h with
        ⟨middle, hPart, hParts⟩
      rw [runSeries, Run.andThen_eq_resume]
      apply Run.Lands.resume
        (lands_run hRuns part index zone middle hAt hPart)
      · intro stop zone' hZone' hAt'
        rcases exists_of_gather hParts hZone' with
          ⟨others, hOthers, hSub⟩
        exact
          (lands_runSeries hRuns parts stop zone' others
            hAt' hOthers).mono hSub
      · exact .failed

/- The same for the first element that matches. -/
theorem lands_runFirst
    (hRuns :
      ∀ name index zone ends,
        at? input index = some zone →
        table name zone = some ends →
        (callee name index).Lands table input ends) :
    ∀ (parts : List Element) (index : Nat)
      (zone : Zone) (ends : List Zone),
      at? input index = some zone →
      leadsFirst table parts zone = some ends →
      (runFirst input callee parts index).Lands table input
        ends
  | [], index, zone, ends, hAt, h => by
      rw [runFirst]
      exact .failed
  | part :: parts, index, zone, ends, hAt, h => by
      rw [leadsFirst] at h
      split at h
      · rename_i first others hPart hParts
        cases h
        rw [runFirst, Run.orElse_eq_resume]
        apply Run.Lands.resume
          (lands_run hRuns part index zone first hAt hPart)
        · intro stop zone' hZone' hAt'
          exact
            .here hAt' (List.mem_union_iff.mpr (Or.inl hZone'))
        · exact
            (lands_runFirst hRuns parts index zone others hAt
              hParts).mono
                (fun _ h => List.mem_union_iff.mpr (Or.inr h))
      · cases h

end

end Element

/-
  The elements of the rules bear out a table: each leads to
  zones that the table has for its rule.
-/
def Scope.Bears
    (scope : Scope)
    (table : String → Zone → Option (List Zone)) : Prop :=
  ∀ name zone ends, table name zone = some ends →
    ∃ rule ends',
      scope.find? name = some rule ∧
      rule.element.leads table zone = some ends' ∧
      ends' ⊆ ends

/-
  The run of a rule lands in the zones of a table that the
  elements bear out. By induction on the depth.
-/
theorem Scope.lands_invoke
    {scope : Scope}
    (hBears : scope.Bears table)
    (depth : Nat)
    (name : String)
    (index : Nat)
    (zone : Zone)
    (ends : List Zone)
    (hAt : at? input index = some zone)
    (h : table name zone = some ends) :
    (scope.invoke input depth name index).Lands table input
      ends := by
  induction depth generalizing name index zone ends with
  | zero => exact ⟨Run.tells_quiet _, nofun⟩
  | succ depth ih =>
      rcases hBears name zone ends h with
        ⟨rule, ends', hFind, hLeads, hSub⟩
      have hBody :=
        (Element.lands_run ih rule.element index zone ends'
          hAt hLeads).mono hSub
      refine ⟨?_, ?_⟩
      · rw [invoke_succ hFind, report]
        split
        · apply Run.tells_reported _ hBody.tells
          refine ⟨zone, ends, hAt, h, ?_⟩
          intro last hLast
          exact
            hBody.ends last (Outcome.eq_matched_of_stop? hLast)
        · exact Run.tells_quiet _
      · intro stop hStop
        rw [invoke_succ hFind, outcome_report] at hStop
        exact hBody.ends stop hStop

end Abnf

------------------------------------------------------------
-- The Zones Of The Rules
------------------------------------------------------------

namespace Abnf

namespace Grammar

open Zone

/-
  The zones in which rules can start, each with those in
  which their matches end.
-/
def zoneTable :
    List (List String × List (Zone × List Zone)) :=
  [(["rulelist", "rule", "rulename", "defined-as",
      "repeat", "group", "option", "char-val",
      "case-insensitive-string", "case-sensitive-string",
      "quoted-string", "prose-val", "ALPHA", "BIT"],
    [(.outer, [.outer])]),
   (["elements", "alternation", "concatenation",
      "repetition", "element", "num-val"],
    [(.outer, [.outer, .number])]),
   (["c-wsp", "c-nl", "comment"],
    [(.outer, [.outer]), (.number, [.outer])]),
   (["bin-val", "dec-val"], [(.percent, [.outer])]),
   (["hex-val"], [(.percent, [.number])]),
   (["HEXDIG"], [(.number, [.number])]),
   (["DIGIT"], [(.outer, [.outer]), (.number, [.number])]),
   (["DQUOTE"], [(.outer, [.quoted]), (.quoted, [.outer])]),
   (["VCHAR"], [(.comment, [.comment])]),
   (["CR", "SP", "HTAB", "WSP"],
    [(.outer, [.outer]), (.number, [.outer]),
     (.comment, [.comment])]),
   (["LF", "CRLF"],
    [(.outer, [.outer]), (.number, [.outer]),
     (.comment, [.outer])])]

/- The zones that the table has for a rule. -/
def zonesOf
    (name : String)
    (zone : Zone) : Option (List Zone) :=
  (zoneTable.find? (·.1.contains name)).bind
    (·.2.lookup zone)

/- The elements of the rules bear the table out. -/
theorem bears_zonesOf :
    scope.Bears zonesOf := by
  have hCheck :
      ∀ row ∈ zoneTable, ∀ name ∈ row.1, ∀ entry ∈ row.2,
        ((scope.find? name).bind
          (fun rule =>
            rule.element.leads zonesOf entry.1)).any
              (·.all entry.2.contains) = true := by
    decide +kernel
  intro name zone ends h
  rcases Option.bind_eq_some_iff.mp h with
    ⟨row, hRow, hEntry⟩
  have hName := List.find?_some hRow
  have hRow := List.mem_of_find?_eq_some hRow
  rcases List.lookup_eq_some_iff.mp hEntry with
    ⟨before, after, hEntries, _⟩
  have hMember : (zone, ends) ∈ row.2 := by
    rw [hEntries]
    exact
      List.mem_append_right _ List.mem_cons_self
  have hBorne :=
    hCheck row hRow name (List.contains_iff_mem.mp hName)
      (zone, ends) hMember
  rw [Option.any_eq_true] at hBorne
  rcases hBorne with ⟨ends', hLeads, hAll⟩
  rcases Option.bind_eq_some_iff.mp hLeads with
    ⟨rule, hFind, hLeads⟩
  refine ⟨rule, ends', hFind, hLeads, ?_⟩
  intro zone' hZone'
  exact
    List.contains_iff_mem.mp
      (List.all_eq_true.mp hAll zone' hZone')

theorem zonesOf_hexVal
    {zone : Zone}
    {ends : List Zone}
    (h : zonesOf "hex-val" zone = some ends) :
    zone = .percent := by
  cases zone with
  | percent => rfl
  | outer => cases h
  | comment => cases h
  | quoted => cases h
  | bracketed => cases h
  | number => cases h

/- A list of rules starts and ends outside. -/
theorem lands_rulelist
    (input : Array UInt8)
    (depth : Nat) :
    (scope.invoke input depth "rulelist" 0).Lands zonesOf
      input [.outer] :=
  Scope.lands_invoke bears_zonesOf depth "rulelist" 0 .outer
    [.outer] rfl rfl

end Grammar

end Abnf
