import Abnf.Proofs.Zones

/-
  Texts in which the scan is lost.

  Where the scan of a grammar text gets lost, nothing goes on
  in the parse either. All that is tried starts and ends
  where there is a zone, so the text might as well end in
  front of the byte at which the scan gets lost: the parse
  makes the same calls and takes the same parts, and the
  same error is found.

  Key definitions include:
    * `Abnf.Run.Agrees`
    * `Abnf.Zone.AgreeOn`

  Main declarations:
    * `Abnf.Element.agrees_run`
    * `Abnf.Scope.agrees_invoke`
    * `Abnf.Grammar.read_append_of_lost`
-/

------------------------------------------------------------
-- Places Where The Scan Is Lost
------------------------------------------------------------

namespace Abnf

namespace Zone

variable {input : Array UInt8}
variable {place : Nat}

/- Only in a number can the scan get lost. -/
theorem eq_number_of_next
    {zone : Zone}
    {c : Char}
    (h : zone.next c = none) :
    zone = number := by
  cases zone with
  | number => rfl
  | outer => cases h
  | comment => cases h
  | quoted => cases h
  | bracketed => cases h
  | percent =>
      rw [next] at h
      split at h
      · cases h
      · cases h

/- Where the scan has a zone, it is not lost before. -/
theorem le_of_at?
    {index : Nat}
    {zone : Zone}
    (hLost : at? input (place + 1) = none)
    (hAt : at? input index = some zone) :
    index ≤ place := by
  by_contra hBeyond
  rw [at?_eq_none_of_le (Nat.not_le.mp hBeyond) hLost] at hAt
  cases hAt

/- A scan that is lost somewhere is lost at the end. -/
theorem at?_size_of_lost
    (hLost : at? input place = none) :
    at? input input.size = none := by
  rcases Nat.le_total place input.size with hInside | hBeyond
  · exact at?_eq_none_of_le hInside hLost
  · rw [at?, List.take_of_length_le hBeyond] at hLost
    rw [at?, List.take_of_length_le (Nat.le_refl input.size)]
    exact hLost

/- In front of the byte that it is lost at is a number. -/
theorem eq_number_of_lost
    {zone : Zone}
    (hLost : at? input (place + 1) = none)
    (hAt : at? input place = some zone) :
    zone = number := by
  cases hByte : input[place]? with
  | none =>
      have hSize : input.size ≤ place :=
        Array.getElem?_eq_none_iff.mp hByte
      rw [at?_eq_none_of_le hSize (at?_size_of_lost hLost)]
        at hAt
      cases hAt
  | some b =>
      rw [at?_succ hByte, hAt] at hLost
      exact eq_number_of_next hLost

end Zone

end Abnf

------------------------------------------------------------
-- Runs That Agree
------------------------------------------------------------

namespace Abnf

namespace Run

/- Two runs are the same if both are settled. -/
def Agrees
    (run run' : Run) : Prop :=
  run.outcome.isSettled = true →
    run'.outcome.isSettled = true →
    run = run'

theorem Agrees.refl
    (run : Run) :
    run.Agrees run :=
  fun _ _ => rfl

/- Runs agree that go on alike after runs that agree. -/
theorem Agrees.resume
    {run run' : Run}
    {onMatch onMatch' : Nat → Run}
    {onFailure onFailure' : Run}
    (hRun : run.Agrees run')
    (hMatch :
      ∀ stop, run.outcome = .matched stop →
        (onMatch stop).Agrees (onMatch' stop))
    (hFailure : onFailure.Agrees onFailure') :
    (run.resume onMatch onFailure).Agrees
      (run'.resume onMatch' onFailure') := by
  intro hSettled hSettled'
  have hFirst := isSettled_of_resume hSettled
  have hSame : run = run' :=
    hRun hFirst (isSettled_of_resume hSettled')
  subst hSame
  rcases Outcome.matched_or_failed hFirst with
    ⟨stop, hStop⟩ | hFailed
  · rw [resume_of_matched hStop] at hSettled hSettled'
    rw [resume_of_matched hStop, resume_of_matched hStop,
      hMatch stop hStop hSettled hSettled']
  · rw [resume_of_failed hFailed] at hSettled hSettled'
    rw [resume_of_failed hFailed, resume_of_failed hFailed,
      hFailure hSettled hSettled']

end Run

open Zone

variable {table : String → Zone → Option (List Zone)}
variable {input front behind : Array UInt8}

/-
  Where a rule can start, its run lands as the table says
  and agrees with another run.
-/
def Zone.AgreeOn
    (table : String → Zone → Option (List Zone))
    (input : Array UInt8)
    (callee callee' : String → Nat → Run) : Prop :=
  ∀ name index zone ends,
    at? input index = some zone →
    table name zone = some ends →
    (callee name index).Lands table input ends ∧
      (callee name index).Agrees (callee' name index)

theorem Zone.AgreeOn.lands
    {callee callee' : String → Nat → Run}
    (h : AgreeOn table input callee callee')
    (name : String)
    (index : Nat)
    (zone : Zone)
    (ends : List Zone)
    (hAt : at? input index = some zone)
    (hTable : table name zone = some ends) :
    (callee name index).Lands table input ends :=
  (h name index zone ends hAt hTable).1

/-
  Iterations agree if their copies do at the offsets that
  they come to. The allowances may differ: a settled
  iteration does not use its allowance up.
-/
theorem Node.agrees_runCopies
    (reached : Nat → Prop)
    {step step' : Nat → Run}
    {min : Nat}
    {max : Option Nat}
    (hNext :
      ∀ index next, reached index →
        (step index).outcome = .matched next →
        reached next)
    (hStep :
      ∀ index, reached index →
        (step index).Agrees (step' index))
    {allowance allowance' count index : Nat}
    (hIndex : reached index) :
    (runCopies step min max allowance count index).Agrees
      (runCopies step' min max allowance' count index) := by
  induction allowance
      generalizing allowance' count index with
  | zero => exact nofun
  | succ allowance ih =>
      cases allowance' with
      | zero => exact fun _ => nofun
      | succ allowance' =>
          rw [runCopies_succ, runCopies_succ]
          split
          · exact .refl _
          · apply (hStep index hIndex).resume
            · intro next hMatched
              split
              · exact .refl _
              · exact ih (hNext index next hIndex hMatched)
            · exact .refl _

namespace Element

variable {callee callee' : String → Nat → Run}

/-
  A set takes the same byte in front of the place where the
  scan gets lost, and none there.
-/
theorem runSet_append_of_lost
    {s : CharSet}
    {index : Nat}
    {zone : Zone}
    {ends : List Zone}
    (hLost : at? (front ++ behind) (front.size + 1) = none)
    (hAt : at? (front ++ behind) index = some zone)
    (h : (terminal s).leads table zone = some ends) :
    runSet (front ++ behind) s index =
      runSet front s index := by
  rcases Nat.lt_or_eq_of_le (le_of_at? hLost hAt) with
    hInside | rfl
  · rw [runSet, runSet, Array.getElem?_append_left hInside]
  · have hLands := lands_runSet hAt h
    have hEnd : front[front.size]? = none :=
      Array.getElem?_eq_none (Nat.le_refl front.size)
    rw [runSet, runSet, hEnd]
    split
    · rfl
    · rename_i hSome
      split
      · rename_i b hByte
        split
        · rename_i hMember
          -- The byte would lead to a zone.
          have hStop :
              runSet (front ++ behind) s front.size =
                .matched (front.size + 1) := by
            simp only [runSet, hByte, hMember, if_neg hSome,
              if_true]
          rcases hLands.ends (front.size + 1) hStop with
            ⟨zone', _, hAt'⟩
          rw [hLost] at hAt'
          cases hAt'
        · rfl
      · rfl

mutual

/-
  The runs of an element agree in a text and in its front,
  if that holds of the rules that it names.
-/
theorem agrees_run
    (hLost : at? (front ++ behind) (front.size + 1) = none)
    (hRuns : AgreeOn table (front ++ behind) callee callee') :
    ∀ (element : Element) (index : Nat)
      (zone : Zone) (ends : List Zone),
      at? (front ++ behind) index = some zone →
      element.leads table zone = some ends →
      (element.run (front ++ behind) callee index).Agrees
        (element.run front callee' index)
  | .ruleName name, index, zone, ends, hAt, h => by
      rw [leads] at h
      rw [run, run]
      exact (hRuns name index zone ends hAt h).2
  | .terminal s, index, zone, ends, hAt, h => by
      rw [run, run, runSet_append_of_lost hLost hAt h]
      exact .refl _
  | .repetition min max body, index, zone, ends, hAt, h => by
      rcases exists_once_of_leads h with
        ⟨once, hOnce, hClosed, _, _⟩
      rw [run, run]
      apply Node.agrees_runCopies
        (fun index => ∃ zone part,
          at? (front ++ behind) index = some zone ∧
            body.leads table zone = some part ∧
            part ⊆ once)
      · rintro index next ⟨zone, part, hAt, hPart, hSub⟩
          hNext
        have hBody :=
          lands_run hRuns.lands body index zone part hAt hPart
        rcases hBody.ends next hNext with
          ⟨zone', hZone', hAt'⟩
        rcases hClosed zone' (hSub hZone') with
          ⟨part', hPart', hSub'⟩
        exact ⟨zone', part', hAt', hPart', hSub'⟩
      · rintro index ⟨zone, part, hAt, hPart, _⟩
        exact
          agrees_run hLost hRuns body index zone part hAt
            hPart
      · exact
          ⟨zone, once, hAt, hOnce, List.Subset.refl once⟩
  | .concatenation parts, index, zone, ends, hAt, h => by
      rw [leads] at h
      rw [run, run]
      exact
        agrees_runSeries hLost hRuns parts index zone ends
          hAt h
  | .alternation parts, index, zone, ends, hAt, h => by
      rw [leads] at h
      rw [run, run]
      exact
        agrees_runFirst hLost hRuns parts index zone ends hAt
          h

/- The same for elements one after the other. -/
theorem agrees_runSeries
    (hLost : at? (front ++ behind) (front.size + 1) = none)
    (hRuns : AgreeOn table (front ++ behind) callee callee') :
    ∀ (parts : List Element) (index : Nat)
      (zone : Zone) (ends : List Zone),
      at? (front ++ behind) index = some zone →
      leadsSeries table parts zone = some ends →
      (runSeries (front ++ behind) callee parts index).Agrees
        (runSeries front callee' parts index)
  | [], index, zone, ends, hAt, h => by
      rw [runSeries, runSeries]
      exact .refl _
  | part :: parts, index, zone, ends, hAt, h => by
      rw [leadsSeries] at h
      rcases Option.bind_eq_some_iff.mp h with
        ⟨middle, hPart, hParts⟩
      have hFirst :=
        lands_run hRuns.lands part index zone middle hAt hPart
      rw [runSeries, runSeries, Run.andThen_eq_resume,
        Run.andThen_eq_resume]
      apply Run.Agrees.resume
        (agrees_run hLost hRuns part index zone middle hAt
          hPart)
      · intro stop hStop
        rcases hFirst.ends stop hStop with
          ⟨zone', hZone', hAt'⟩
        rcases exists_of_gather hParts hZone' with
          ⟨others, hOthers, _⟩
        exact
          agrees_runSeries hLost hRuns parts stop zone' others
            hAt' hOthers
      · exact .refl _

/- The same for the first element that matches. -/
theorem agrees_runFirst
    (hLost : at? (front ++ behind) (front.size + 1) = none)
    (hRuns : AgreeOn table (front ++ behind) callee callee') :
    ∀ (parts : List Element) (index : Nat)
      (zone : Zone) (ends : List Zone),
      at? (front ++ behind) index = some zone →
      leadsFirst table parts zone = some ends →
      (runFirst (front ++ behind) callee parts index).Agrees
        (runFirst front callee' parts index)
  | [], index, zone, ends, hAt, h => by
      rw [runFirst, runFirst]
      exact .refl _
  | part :: parts, index, zone, ends, hAt, h => by
      rw [leadsFirst] at h
      split at h
      · rename_i first others hPart hParts
        rw [runFirst, runFirst, Run.orElse_eq_resume,
          Run.orElse_eq_resume]
        apply Run.Agrees.resume
          (agrees_run hLost hRuns part index zone first hAt
            hPart)
        · intro stop _
          exact .refl _
        · exact
            agrees_runFirst hLost hRuns parts index zone
              others hAt hParts
      · cases h

end

end Element

/-
  The runs of a rule agree in a text and in its front, at
  whatever depths. By induction on the first one.
-/
theorem Scope.agrees_invoke
    {scope : Scope}
    (hBears : scope.Bears table)
    (hLost : at? (front ++ behind) (front.size + 1) = none)
    (depth depth' : Nat)
    (name : String)
    (index : Nat)
    (zone : Zone)
    (ends : List Zone)
    (hAt : at? (front ++ behind) index = some zone)
    (h : table name zone = some ends) :
    (scope.invoke (front ++ behind) depth name index).Agrees
      (scope.invoke front depth' name index) := by
  induction depth
      generalizing depth' name index zone ends with
  | zero => exact nofun
  | succ depth ih =>
      cases depth' with
      | zero => exact fun _ => nofun
      | succ depth' =>
          rcases hBears name zone ends h with
            ⟨rule, ends', hFind, hLeads, _⟩
          have hBody :=
            Element.agrees_run hLost
              (fun name index zone ends hAt h =>
                ⟨lands_invoke hBears depth name index zone
                    ends hAt h,
                  ih depth' name index zone ends hAt h⟩)
              rule.element index zone ends' hAt hLeads
          rw [invoke_succ hFind, invoke_succ hFind]
          intro hSettled hSettled'
          rw [outcome_report] at hSettled hSettled'
          rw [hBody hSettled hSettled']

end Abnf

------------------------------------------------------------
-- Reading The Front Of A Text
------------------------------------------------------------

namespace Abnf

namespace Grammar

variable {front behind : Array UInt8}

/- A span of the front is the same in the text. -/
theorem slice?_front
    {start stop : Nat}
    (hInside : stop ≤ front.size) :
    slice? (front ++ behind) start stop =
      slice? front start stop := by
  have hSpan :
      (front ++ behind).extract start stop =
        front.extract start stop := by
    rw [Array.extract_append,
      Nat.sub_eq_zero_of_le hInside, Array.extract_zero,
      Array.append_empty]
  have hSize :
      stop ≤ (front ++ behind).size ↔
        stop ≤ front.size := by
    rw [Array.size_append]
    omega
  rw [slice?, slice?, hSpan]
  simp only [hSize]

namespace Assembly

/- A match in the front is taken as in the text. -/
theorem observe_front
    {event : Event}
    (hInside :
      ∀ rule first last,
        event = .exit rule first (some last) →
        last ≤ front.size)
    (assembly : Assembly) :
    observe (front ++ behind) assembly event =
      observe front assembly event := by
  cases event with
  | enter rule first => rfl
  | exit rule first stop =>
      cases stop with
      | none => rfl
      | some last =>
          have hLast := hInside rule first last rfl
          simp only [observe, takeMatch, slice?_front hLast]

end Assembly

/- An offset of the front has the same position. -/
theorem position_front
    {index : Nat}
    (hInside : index ≤ front.size) :
    Text.position (front ++ behind) index =
      Text.position front index := by
  rw [Text.position, Text.position, Array.toList_append,
    List.take_append_of_le_length hInside]

/- What is matched in the front makes the same of both. -/
theorem assembly_front
    (behind : Array UInt8)
    {run : Run}
    (hInside :
      ∀ rule first last,
        .exit rule first (some last) ∈ run.events →
        last ≤ front.size) :
    assembly (front ++ behind) 0 run =
      assembly front 0 run := by
  apply List.foldl_ext
  intro made event hEvent
  apply Assembly.observe_front
  rintro rule first last rfl
  exact hInside rule first last hEvent

/- No match ends behind the place, so no extent does. -/
theorem furthest_assembly_le
    {input : Array UInt8}
    {run : Run}
    {place : Nat}
    (hInside :
      ∀ rule first last,
        .exit rule first (some last) ∈ run.events →
        last ≤ place) :
    (assembly input 0 run).furthest ≤ place := by
  rcases
      (@Assembly.isGreatest_foldl_observe input
        (Assembly.begin 0) run.events).1 with
    hNone | ⟨rule, first, hExit⟩
  · exact hNone.trans_le (Nat.zero_le place)
  · exact hInside rule first _ hExit

/- The parse of a text is a run that is deep enough. -/
theorem exists_parse_eq_invoke
    (input : Array UInt8) :
    ∃ depth,
      Readings input (scope.invoke input depth) ∧
        parse input 0 =
          .ok (scope.invoke input depth "rulelist" 0) := by
  have hRule :
      (⟨"rulelist", .atLeast 1 line⟩ : Rule) ∈ rules := by
    decide
  rcases exists_matcher hRule with
    ⟨matcher, entry, hProgram, hEntry, hTrace⟩
  rcases hTrace input with ⟨depth, hReadings, hRun⟩
  refine ⟨depth, hReadings, ?_⟩
  rw [parse_eq_trace hProgram hEntry, hRun 0]

/- A list of rules ends neither at the place nor behind it. -/
theorem outcome_rulelist_of_lost
    {input : Array UInt8}
    {place size depth : Nat}
    (hLost : Zone.at? input (place + 1) = none)
    (hSize : size = place ∨ size = input.size) :
    (scope.invoke input depth "rulelist" 0).outcome ≠
      .matched size := by
  intro hWhole
  rcases (lands_rulelist input depth).ends size hWhole with
    ⟨zone, hZone, hAt⟩
  cases List.mem_singleton.mp hZone
  rcases hSize with rfl | rfl
  · cases Zone.eq_number_of_lost hLost hAt
  · rw [Zone.at?_size_of_lost hLost] at hAt
    cases hAt

/- The end of an assembly with no match of a whole text. -/
theorem finish_of_short
    {made : Assembly}
    {input : Array UInt8}
    {outcome : Outcome}
    (hShort : outcome ≠ .matched input.size) :
    made.finish input outcome =
      .error
        (made.error.getD
          (.incomplete made.furthest
            (Text.position input made.furthest))) := by
  rw [Assembly.finish]
  split
  · rename_i error hError
    rw [hError, Option.getD_some]
  · rename_i hNone
    rw [if_neg hShort, hNone, Option.getD_none]

/- No match in a list of rules ends behind the place. -/
theorem exit_rulelist_of_lost
    {input : Array UInt8}
    {place depth : Nat}
    (hLost : Zone.at? input (place + 1) = none)
    (rule : String)
    (first last : Nat)
    (hExit :
      .exit rule first (some last) ∈
        (scope.invoke input depth "rulelist" 0).events) :
    last ≤ place := by
  rcases (lands_rulelist input depth).tells _ _ _ hExit with
    ⟨_, _, _, _, hEnds⟩
  rcases hEnds last rfl with ⟨_, _, hAt⟩
  exact Zone.le_of_at? hLost hAt

/-
  The parses of a text and of its front, at whatever depths
  are enough for them, end with one error.
-/
theorem finish_front_of_lost
    {depth depth' : Nat}
    (hLost :
      Zone.at? (front ++ behind) (front.size + 1) = none)
    (hReadings :
      Readings (front ++ behind)
        (scope.invoke (front ++ behind) depth))
    (hReadings' : Readings front (scope.invoke front depth')) :
    ∃ error,
      (assembly (front ++ behind) 0
          (scope.invoke (front ++ behind) depth "rulelist"
            0)).finish (front ++ behind)
            (scope.invoke (front ++ behind) depth "rulelist"
              0).outcome =
        .error error ∧
      (assembly front 0
          (scope.invoke front depth' "rulelist"
            0)).finish front
            (scope.invoke front depth' "rulelist"
              0).outcome =
        .error error ∧
      ∀ index position,
        error = .incomplete index position →
        index ≤ front.size := by
  have hSame :=
    Scope.agrees_invoke bears_zonesOf hLost depth depth'
      "rulelist" 0 .outer [.outer] rfl rfl
      (hReadings.settled "rulelist" (by decide) 0)
      (hReadings'.settled "rulelist" (by decide) 0)
  have hInside :=
    @exit_rulelist_of_lost _ _ depth hLost
  have hShort :=
    @outcome_rulelist_of_lost _ _ _ depth hLost (Or.inl rfl)
  have hShort' :=
    @outcome_rulelist_of_lost _ _ _ depth hLost (Or.inr rfl)
  have hSafe := (hReadings'.isSafe_rulelist 0).sound
  rw [hSame] at hInside hShort hShort' ⊢
  have hFurthest :=
    @furthest_assembly_le front _ _ hInside
  rw [finish_of_short hShort', finish_of_short hShort,
    assembly_front behind hInside, position_front hFurthest]
  refine ⟨_, rfl, rfl, ?_⟩
  intro index position hIncomplete
  cases hError :
      (assembly front 0
        (scope.invoke front depth' "rulelist" 0)).error with
  | none =>
      rw [hError] at hIncomplete
      cases hIncomplete
      exact hFurthest
  | some error =>
      -- No part that is refused is said to be incomplete.
      rw [hError] at hIncomplete
      cases hIncomplete
      cases hSafe _ hError

/-
  A text in which the scan gets lost is read as if it ended
  in front of the byte at which that happens. Both are
  refused with one error; if no part is refused, the text is
  incomplete at that place or before.
-/
theorem read_append_of_lost
    {front behind : String}
    (hLost :
      Zone.at? (Text.bytes (front ++ behind))
          (front.utf8ByteSize + 1) =
        none) :
    ∃ error,
      read (front ++ behind) = .error error ∧
      read front = .error error ∧
      ∀ index position,
        error = .incomplete index position →
        index ≤ front.utf8ByteSize := by
  rcases exists_parse_eq_invoke
      (Text.bytes (front ++ behind)) with
    ⟨depth, hReadings, hParse⟩
  rcases exists_parse_eq_invoke (Text.bytes front) with
    ⟨depth', hReadings', hParse'⟩
  rw [read, readFrom_eq hParse, read, readFrom_eq hParse']
  rw [bytes_append] at hLost hReadings ⊢
  exact finish_front_of_lost hLost hReadings hReadings'

end Grammar

end Abnf
