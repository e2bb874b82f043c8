import Abnf.Proofs.Attempts

/-
  The frames of an assembly.

  The events of a parse open and close calls in order. A
  part that has matched changes the innermost frame at most,
  so at every event there is one frame for each open call of
  a part that has one, and a call that fails leaves the
  frames as they were.

  What a run makes of given frames is stated for a match and
  for a failure on their own, as long as there is no error.
  An error that was made stays.

  Key definitions include:
    * `Abnf.Grammar.Frame.kind`
    * `Abnf.Grammar.SameBelow`
    * `Abnf.Event.follow`
    * `Abnf.ReadError.isOfPart`
    * `Abnf.Grammar.Does`

  Main declarations:
    * `Abnf.Grammar.Assembly.sameBelow_of_calls`
    * `Abnf.Grammar.Assembly.kinds_frames`
    * `Abnf.Grammar.Does.resume`
    * `Abnf.Grammar.Does.reported_of_frame`
-/

------------------------------------------------------------
-- Kinds Of Frames
------------------------------------------------------------

namespace Abnf

namespace Grammar

/- The kinds of frames. -/
inductive FrameKind where
  | rule
  | elements
  | repetition
deriving DecidableEq

/- The kind of frame that a call of a rule has, if any. -/
def kindOf? : String → Option FrameKind
  | "rule" => some .rule
  | "elements" => some .elements
  | "alternation" => some .elements
  | "concatenation" => some .elements
  | "option" => some .elements
  | "repetition" => some .repetition
  | _ => none

namespace Frame

def kind : Frame → FrameKind
  | rule _ _ _ => .rule
  | elements _ => .elements
  | repetition _ _ => .repetition

/- The elements that a frame holds. -/
def parts : Frame → List Element
  | rule _ _ _ => []
  | elements parts => parts
  | repetition _ parts => parts

/- Put an element into a frame that holds elements. -/
def add
    (element : Element) : Frame → Frame
  | rule name incremental old => rule name incremental old
  | elements parts => elements (parts ++ [element])
  | repetition bounds parts =>
      repetition bounds (parts ++ [element])

@[simp] theorem kind_add
    (element : Element)
    (frame : Frame) :
    (frame.add element).kind = frame.kind := by
  cases frame with
  | rule _ _ _ => rfl
  | elements _ => rfl
  | repetition _ _ => rfl

end Frame

/- A call has a frame of the kind that belongs to its rule. -/
theorem kind_frame?
    (name : String) :
    (Part.ofName name).frame?.map Frame.kind =
      kindOf? name := by
  unfold Part.ofName kindOf?
  split <;> simp_all [Part.frame?, Frame.kind]

/-
  Only the innermost of some frames has changed, and it is
  of the same kind as before.
-/
structure SameBelow
    (frames frames' : List Frame) : Prop where
  kinds : frames'.map Frame.kind = frames.map Frame.kind
  below : frames'.tail = frames.tail

namespace SameBelow

theorem refl
    (frames : List Frame) : SameBelow frames frames :=
  ⟨rfl, rfl⟩

theorem trans
    {one other third : List Frame}
    (h : SameBelow one other)
    (h' : SameBelow other third) : SameBelow one third :=
  ⟨h'.kinds.trans h.kinds, h'.below.trans h.below⟩

theorem cons
    {frame frame' : Frame}
    (hKind : frame'.kind = frame.kind)
    (frames : List Frame) :
    SameBelow (frame :: frames) (frame' :: frames) := by
  refine ⟨?_, rfl⟩
  rw [List.map_cons, List.map_cons, hKind]

/- Below a frame nothing has changed. -/
theorem exists_of_cons
    {frame : Frame}
    {frames frames' : List Frame}
    (h : SameBelow (frame :: frames) frames') :
    ∃ frame',
      frame'.kind = frame.kind ∧
        frames' = frame' :: frames := by
  cases frames' with
  | nil => exact absurd h.kinds (by simp)
  | cons frame' rest =>
      refine ⟨frame', ?_, ?_⟩
      · exact (List.cons.inj h.kinds).1
      · rw [← show rest = frames from h.below]

end SameBelow

end Grammar

end Abnf

------------------------------------------------------------
-- Parts Change The Innermost Frame
------------------------------------------------------------

namespace Abnf

namespace Grammar

namespace Assembly

/-
  If the step gives an assembly, then it has changed the
  innermost frame at most, made no error and reached no
  further.
-/
def ChangesTop
    (assembly : Assembly)
    (step : Except ReadError Assembly) : Prop :=
  ∀ next, step = .ok next →
    SameBelow assembly.frames next.frames ∧
      next.error = assembly.error ∧
      next.furthest = assembly.furthest

variable {assembly : Assembly}

theorem changesTop_ok
    {next : Assembly}
    (hFrames : SameBelow assembly.frames next.frames)
    (hError : next.error = assembly.error)
    (hFurthest : next.furthest = assembly.furthest) :
    ChangesTop assembly (.ok next) := by
  rintro next ⟨⟩
  exact ⟨hFrames, hError, hFurthest⟩

/- Another innermost frame of the same kind is put in. -/
theorem changesTop_cons
    {frame frame' : Frame}
    {rest : List Frame}
    (hFrames : assembly.frames = frame :: rest)
    (hKind : frame'.kind = frame.kind) :
    ChangesTop assembly
      (.ok { assembly with frames := frame' :: rest }) := by
  refine changesTop_ok ?_ rfl rfl
  rw [hFrames]
  exact .cons hKind rest

theorem changesTop_error
    (cause : ReadError) :
    ChangesTop assembly (.error cause) := by
  rintro next ⟨⟩

theorem changesTop_bind
    {α : Type}
    (value : Except ReadError α)
    {step : α → Except ReadError Assembly}
    (h : ∀ a, ChangesTop assembly (step a)) :
    ChangesTop assembly (value >>= step) := by
  cases value with
  | error cause => exact changesTop_error cause
  | ok a => exact h a

theorem changesTop_push
    (element : Element) :
    ChangesTop assembly (assembly.push element) := by
  unfold push
  split
  · rename_i hFrames
    exact changesTop_cons hFrames rfl
  · rename_i hFrames
    exact changesTop_cons hFrames rfl
  · exact changesTop_error _

theorem changesTop_closeRule
    (frame : Option Frame) :
    ChangesTop assembly (assembly.closeRule frame) := by
  unfold closeRule
  split
  · apply changesTop_bind
    intro rules
    exact changesTop_ok (.refl _) rfl rfl
  · exact changesTop_error _

theorem changesTop_takeName
    (name : String) :
    ChangesTop assembly (assembly.takeName name) := by
  unfold takeName
  split
  · rename_i hFrames
    exact changesTop_cons hFrames rfl
  · apply changesTop_bind
    intro element
    exact changesTop_push element

theorem changesTop_takeSign
    (incremental : Bool) :
    ChangesTop assembly (assembly.takeSign incremental) := by
  unfold takeSign
  split
  · rename_i hFrames
    exact changesTop_cons hFrames rfl
  · exact changesTop_error _

theorem changesTop_takeElements
    (frame : Option Frame) :
    ChangesTop assembly (assembly.takeElements frame) := by
  unfold takeElements
  apply changesTop_bind
  intro parts
  apply changesTop_bind
  intro element
  split
  · rename_i hFrames
    exact changesTop_cons hFrames rfl
  · exact changesTop_error _

theorem changesTop_takeSeries
    (frame : Option Frame)
    (series :
      List Element → Except ElementError Element) :
    ChangesTop assembly
      (assembly.takeSeries frame series) := by
  unfold takeSeries
  apply changesTop_bind
  intro parts
  split
  · exact changesTop_push _
  · apply changesTop_bind
    intro element
    exact changesTop_push element

theorem changesTop_takeRepetition
    (frame : Option Frame) :
    ChangesTop assembly
      (assembly.takeRepetition frame) := by
  unfold takeRepetition
  split
  · apply changesTop_bind
    intro element
    split
    · exact changesTop_push element
    · apply changesTop_bind
      intro repeated
      exact changesTop_push repeated
  · exact changesTop_error _

theorem changesTop_takeBounds
    (text : List Char) :
    ChangesTop assembly (assembly.takeBounds text) := by
  unfold takeBounds
  apply changesTop_bind
  intro bounds
  split
  · rename_i hFrames
    exact changesTop_cons hFrames rfl
  · exact changesTop_error _

theorem changesTop_takeOption
    (frame : Option Frame) :
    ChangesTop assembly (assembly.takeOption frame) := by
  unfold takeOption
  apply changesTop_bind
  intro parts
  apply changesTop_bind
  intro element
  exact changesTop_push _

theorem changesTop_takeValue
    (value : Except ReadError Element) :
    ChangesTop assembly (assembly.takeValue value) := by
  unfold takeValue
  apply changesTop_bind
  intro element
  exact changesTop_push element

theorem changesTop_assemble
    (part : Part)
    (text : List Char)
    (frame : Option Frame) :
    ChangesTop assembly
      (assembly.assemble part text frame) := by
  cases part with
  | rule => exact changesTop_closeRule frame
  | rulename => exact changesTop_takeName _
  | definedAs => exact changesTop_takeSign _
  | elements => exact changesTop_takeElements frame
  | alternation => exact changesTop_takeSeries frame _
  | concatenation => exact changesTop_takeSeries frame _
  | repetition => exact changesTop_takeRepetition frame
  | repeatCount => exact changesTop_takeBounds text
  | option => exact changesTop_takeOption frame
  | charVal => exact changesTop_takeValue _
  | binVal => exact changesTop_takeValue _
  | decVal => exact changesTop_takeValue _
  | hexVal => exact changesTop_takeValue _
  | proseVal => exact changesTop_takeValue _
  | other => exact changesTop_ok (.refl _) rfl rfl

/- The result of a part that has matched a span. -/
def matchResult
    (assembly : Assembly)
    (input : Array UInt8)
    (name : String)
    (frame : Option Frame)
    (start stop : Nat) : Except ReadError Assembly :=
  match
    (if (Part.ofName name).isRead then
      slice? input start stop
    else
      some []) with
  | some text =>
      assembly.assemble (Part.ofName name) text frame
  | none =>
      .error
        (.internal
          "match does not fall on character boundaries")

/- Take a match: the result counts, or the error does. -/
theorem takeMatch_eq
    (assembly : Assembly)
    (input : Array UInt8)
    (name : String)
    (frame : Option Frame)
    (start stop : Nat) :
    assembly.takeMatch input name frame start stop =
      match
        assembly.matchResult input name frame start
          stop with
      | .ok next => next
      | .error error =>
          { assembly with
            error := some error
            notes :=
              .refused name error :: assembly.notes } := by
  rfl

theorem changesTop_matchResult
    {input : Array UInt8}
    {name : String}
    {frame : Option Frame}
    {start stop : Nat} :
    ChangesTop assembly
      (assembly.matchResult input name frame start
        stop) := by
  unfold matchResult
  split
  · exact changesTop_assemble _ _ _
  · exact changesTop_error _

theorem sameBelow_takeMatch
    (assembly : Assembly)
    (input : Array UInt8)
    (name : String)
    (frame : Option Frame)
    (start stop : Nat) :
    SameBelow assembly.frames
      (assembly.takeMatch input name frame start
        stop).frames := by
  rw [takeMatch_eq]
  split
  · rename_i next hNext
    exact (changesTop_matchResult next hNext).1
  · exact .refl _

end Assembly

end Grammar

end Abnf

------------------------------------------------------------
-- Frames Of Open Calls
------------------------------------------------------------

namespace Abnf

/-
  The rules of the open calls after an event, the innermost
  first.
-/
def Event.follow
    (names : List String) : Event → List String
  | enter name _ => name :: names
  | exit _ _ _ => names.tail

namespace Call

mutual

/- After a call the same calls are open as before. -/
theorem foldl_follow_events
    (names : List String) :
    ∀ first : Call,
      first.events.foldl Event.follow names = names
  | call name start stop inner => by
      rw [events_call, List.foldl_cons, List.foldl_append,
        Event.follow, foldl_follow_eventsOfAll _ inner]
      rfl

/- The same for some calls. -/
theorem foldl_follow_eventsOfAll
    (names : List String) :
    ∀ calls : List Call,
      (eventsOfAll calls).foldl Event.follow names = names
  | [] => rfl
  | first :: others => by
      rw [eventsOfAll_cons, List.foldl_append,
        foldl_follow_events names first,
        foldl_follow_eventsOfAll names others]

end

mutual

/- A call that is about to be left is the innermost one. -/
theorem exists_follow_of_exit
    {name : String}
    {index : Nat}
    {end? : Option Nat}
    (names : List String) :
    ∀ (first : Call) {before behind : List Event},
      first.events =
        before ++ .exit name index end? :: behind →
      ∃ outer,
        before.foldl Event.follow names = name :: outer
  | call rule start stop inner, before, behind, h => by
      rw [events_call] at h
      cases before with
      | nil => cases h
      | cons event before =>
          rw [List.cons_append, List.cons.injEq] at h
          rcases h with ⟨rfl, h⟩
          rcases List.append_eq_append_iff.mp h with
            ⟨last, rfl, hLast⟩ | ⟨later, hLater, hLast⟩
          · cases last with
            | nil =>
                cases hLast
                rw [List.append_nil, List.foldl_cons,
                  foldl_follow_eventsOfAll]
                exact ⟨names, rfl⟩
            | cons _ _ => simp at hLast
          · cases later with
            | nil =>
                cases hLast
                rw [List.append_nil] at hLater
                rw [← hLater, List.foldl_cons,
                  foldl_follow_eventsOfAll]
                exact ⟨names, rfl⟩
            | cons event later =>
                rw [List.cons_append, List.cons.injEq]
                  at hLast
                rcases hLast with ⟨rfl, _⟩
                exact
                  exists_follow_of_exits (rule :: names)
                    inner hLater

/- The same for some calls. -/
theorem exists_follow_of_exits
    {name : String}
    {index : Nat}
    {end? : Option Nat}
    (names : List String) :
    ∀ (calls : List Call) {before behind : List Event},
      eventsOfAll calls =
        before ++ .exit name index end? :: behind →
      ∃ outer,
        before.foldl Event.follow names = name :: outer
  | [], before, behind, h => by
      cases before with
      | nil => cases h
      | cons _ _ => cases h
  | first :: others, before, behind, h => by
      rw [eventsOfAll_cons] at h
      rcases List.append_eq_append_iff.mp h with
        ⟨later, rfl, hLater⟩ | ⟨later, hLater, hLast⟩
      · rw [List.foldl_append, foldl_follow_events]
        exact exists_follow_of_exits names others hLater
      · cases later with
        | nil =>
            rw [List.append_nil] at hLater
            have hOthers :
                eventsOfAll others =
                  [] ++ .exit name index end? :: behind :=
              hLast.symm
            rw [← hLater, foldl_follow_events]
            exact exists_follow_of_exits names others hOthers
        | cons event later =>
            rw [List.cons_append, List.cons.injEq] at hLast
            rcases hLast with ⟨rfl, _⟩
            exact exists_follow_of_exit names first hLater

end

end Call

namespace Grammar

namespace Assembly

theorem close_of_none
    {part : Part}
    (hFrame : part.frame? = none)
    (assembly : Assembly) :
    assembly.close part = (none, assembly) := by
  simp [close, hFrame]

theorem close_of_some
    {part : Part}
    {frame : Frame}
    (hFrame : part.frame? = some frame)
    {assembly : Assembly}
    {frame' : Frame}
    {rest : List Frame}
    (hFrames : assembly.frames = frame' :: rest) :
    assembly.close part =
      (some frame', { assembly with frames := rest }) := by
  simp [close, hFrame, hFrames]

@[simp] theorem error_close
    (assembly : Assembly)
    (part : Part) :
    (assembly.close part).2.error = assembly.error := by
  unfold close
  split
  · rfl
  · rfl

/- The assembly once a part that has matched is closed. -/
def leave
    (assembly : Assembly)
    (name : String)
    (stop : Nat) : Assembly :=
  let closed := (assembly.close (Part.ofName name)).2
  { closed with furthest := Nat.max closed.furthest stop }

@[simp] theorem error_leave
    (assembly : Assembly)
    (name : String)
    (stop : Nat) :
    (assembly.leave name stop).error = assembly.error :=
  error_close assembly (Part.ofName name)

theorem observe_exit
    (assembly : Assembly)
    (input : Array UInt8)
    (name : String)
    (start stop : Nat) :
    assembly.observe input (.exit name start (some stop)) =
      if assembly.error.isSome then
        assembly.leave name stop
      else
        (assembly.leave name stop).takeMatch input name
          (assembly.close (Part.ofName name)).1 start
          stop := by
  rw [← error_leave assembly name stop]
  rfl

/- An exit changes the innermost frame that is left. -/
theorem sameBelow_observe_exit
    (assembly : Assembly)
    (input : Array UInt8)
    (name : String)
    (start : Nat)
    (stop : Option Nat) :
    SameBelow (assembly.close (Part.ofName name)).2.frames
      (assembly.observe input
        (.exit name start stop)).frames := by
  cases stop with
  | none => exact .refl _
  | some stop =>
      rw [observe_exit]
      split
      · exact .refl _
      · exact
          sameBelow_takeMatch (assembly.leave name stop) _ _
            _ _ _

mutual

/- A call changes the innermost frame at most. -/
theorem sameBelow_of_call
    (input : Array UInt8)
    (assembly : Assembly) :
    ∀ first : Call,
      SameBelow assembly.frames
        (first.events.foldl (observe input)
          assembly).frames
  | .call name start stop inner => by
      have hInner :=
        sameBelow_of_calls input
          (assembly.observe input (.enter name start)) inner
      rw [Call.events_call, List.foldl_cons,
        List.foldl_append]
      refine SameBelow.trans ?_
        (sameBelow_observe_exit _ input name start stop)
      rw [observe] at hInner
      cases hFrame : (Part.ofName name).frame? with
      | none =>
          rw [hFrame] at hInner
          rw [close_of_none hFrame]
          simpa [observe, hFrame] using hInner
      | some frame =>
          rw [hFrame] at hInner
          rcases SameBelow.exists_of_cons hInner with
            ⟨frame', _, hFrames⟩
          rw [close_of_some hFrame
            (by simpa [observe, hFrame] using hFrames)]
          exact .refl _

/- Calls change the innermost frame at most. -/
theorem sameBelow_of_calls
    (input : Array UInt8)
    (assembly : Assembly) :
    ∀ calls : List Call,
      SameBelow assembly.frames
        ((Call.eventsOfAll calls).foldl (observe input)
          assembly).frames
  | [] => .refl _
  | first :: others => by
      rw [Call.eventsOfAll_cons, List.foldl_append]
      exact
        (sameBelow_of_call input assembly first).trans
          (sameBelow_of_calls input _ others)

end

mutual

/-
  While a call is followed, there is a frame of the kind
  that belongs to it for each call that is open.
-/
theorem kinds_of_call
    {input : Array UInt8}
    {assembly : Assembly}
    {names : List String}
    (hKinds :
      assembly.frames.map Frame.kind =
        names.filterMap kindOf?) :
    ∀ (first : Call) {before behind : List Event},
      first.events = before ++ behind →
      (before.foldl (observe input)
          assembly).frames.map Frame.kind =
        (before.foldl Event.follow names).filterMap kindOf?
  | .call name start stop inner, before, behind, h => by
      have hWhole :=
        sameBelow_of_call input assembly
          (.call name start stop inner)
      have hNames :=
        (Call.call name start stop inner).foldl_follow_events
          names
      rw [Call.events_call] at h hWhole hNames
      cases before with
      | nil => exact hKinds
      | cons event before =>
          rw [List.cons_append, List.cons.injEq] at h
          rcases h with ⟨rfl, h⟩
          have hEntered :
              (assembly.observe input
                  (.enter name start)).frames.map
                    Frame.kind =
                (name :: names).filterMap kindOf? := by
            rw [List.filterMap_cons, ← kind_frame? name,
              ← hKinds, observe]
            cases (Part.ofName name).frame? with
            | none => rfl
            | some frame => rfl
          rcases List.append_eq_append_iff.mp h with
            ⟨last, rfl, hLast⟩ | ⟨rest, hRest, _⟩
          · rcases List.singleton_eq_append_iff.mp hLast with
              ⟨rfl, _⟩ | ⟨rfl, _⟩
            · exact
                kinds_of_calls hEntered inner
                  (by rw [List.append_nil, List.append_nil])
            · rw [hWhole.kinds, hNames]
              exact hKinds
          · exact kinds_of_calls hEntered inner hRest

/- The same while some calls are followed. -/
theorem kinds_of_calls
    {input : Array UInt8}
    {assembly : Assembly}
    {names : List String}
    (hKinds :
      assembly.frames.map Frame.kind =
        names.filterMap kindOf?) :
    ∀ (calls : List Call) {before behind : List Event},
      Call.eventsOfAll calls = before ++ behind →
      (before.foldl (observe input)
          assembly).frames.map Frame.kind =
        (before.foldl Event.follow names).filterMap kindOf?
  | [], before, behind, h => by
      rw [(List.append_eq_nil_iff.mp h.symm).1]
      exact hKinds
  | first :: others, before, behind, h => by
      rw [Call.eventsOfAll_cons] at h
      rcases List.append_eq_append_iff.mp h with
        ⟨later, rfl, hLater⟩ | ⟨rest, hRest, _⟩
      · rw [List.foldl_append, List.foldl_append,
          first.foldl_follow_events]
        apply kinds_of_calls _ others hLater
        rw [(sameBelow_of_call input assembly first).kinds]
        exact hKinds
      · exact kinds_of_call hKinds first hRest

end

end Assembly

end Grammar

end Abnf

------------------------------------------------------------
-- What Runs Make Of Frames
------------------------------------------------------------

namespace Abnf

/-
  The error is due to some part of the text, and not to the
  reader itself or to the lack of a match.
-/
def ReadError.isOfPart : ReadError → Bool
  | incomplete _ _ => false
  | bootstrap _ => false
  | internal _ => false
  | _ => true

namespace Grammar

namespace Assembly

/- The assembly after a run. -/
def afterRun
    (assembly : Assembly)
    (input : Array UInt8)
    (run : Run) : Assembly :=
  run.events.foldl (observe input) assembly

theorem afterRun_after
    (assembly : Assembly)
    (input : Array UInt8)
    (run next : Run) :
    assembly.afterRun input (.after run.calls next) =
      (assembly.afterRun input run).afterRun input next := by
  rw [afterRun, Run.events, Run.after,
    Call.eventsOfAll_append, List.foldl_append]
  rfl

/- The first error stands. -/
theorem error_observe
    {assembly : Assembly}
    {error : ReadError}
    (hError : assembly.error = some error)
    (input : Array UInt8)
    (event : Event) :
    (assembly.observe input event).error = some error := by
  cases event with
  | enter name start => exact hError
  | exit name start stop =>
      have hClosed :
          (assembly.close (Part.ofName name)).2.error =
            some error := by
        rw [error_close, hError]
      cases stop with
      | none => exact hClosed
      | some stop =>
          rw [observe_exit, hError]
          exact hClosed

theorem error_foldl_observe
    {assembly : Assembly}
    {error : ReadError}
    (hError : assembly.error = some error)
    (input : Array UInt8)
    (events : List Event) :
    (events.foldl (observe input) assembly).error =
      some error := by
  induction events generalizing assembly with
  | nil => exact hError
  | cons event events ih =>
      exact ih (error_observe hError input event)

theorem furthest_takeMatch
    (assembly : Assembly)
    (input : Array UInt8)
    (name : String)
    (frame : Option Frame)
    (start stop : Nat) :
    (assembly.takeMatch input name frame start
      stop).furthest = assembly.furthest := by
  rw [takeMatch_eq]
  split
  · rename_i next hNext
    exact (changesTop_matchResult next hNext).2.2
  · rfl

/- The furthest match is one of those that are left. -/
theorem furthest_foldl_observe
    {input : Array UInt8}
    {bound : Nat}
    {events : List Event}
    (hEvents :
      ∀ name start stop,
        .exit name start (some stop) ∈ events →
        stop ≤ bound)
    {assembly : Assembly}
    (hBound : assembly.furthest ≤ bound) :
    (events.foldl (observe input) assembly).furthest ≤
      bound := by
  induction events generalizing assembly with
  | nil => exact hBound
  | cons event events ih =>
      rw [List.foldl_cons]
      apply ih
      · intro name start stop hMember
        exact
          hEvents name start stop
            (List.mem_cons_of_mem _ hMember)
      · have hClosed :
            ∀ part : Part,
              (assembly.close part).2.furthest =
                assembly.furthest := by
          intro part
          unfold close
          split
          · rfl
          · rfl
        cases event with
        | enter name start => exact hBound
        | exit name start stop =>
            cases stop with
            | none =>
                exact
                  Nat.le_trans (Nat.le_of_eq (hClosed _))
                    hBound
            | some stop =>
                have hStop :=
                  hEvents name start stop List.mem_cons_self
                have hLeave :
                    (assembly.leave name stop).furthest ≤
                      bound := by
                  rw [leave, hClosed]
                  exact Nat.max_le.mpr ⟨hBound, hStop⟩
                rw [observe_exit]
                split
                · exact hLeave
                · rw [furthest_takeMatch]
                  exact hLeave

end Assembly

open Assembly

/-
  What an assembly with an outcome is like: an error is due
  to some part, and without one the frames are as they
  should be after a match or a failure.
-/
structure Ends
    (onMatch onFailure : List Frame → Prop)
    (outcome : Outcome)
    (made : Assembly) : Prop where
  sound :
    ∀ error, made.error = some error →
      error.isOfPart = true
  matched :
    made.error = none →
      ∀ stop, outcome = .matched stop → onMatch made.frames
  failed :
    made.error = none →
      outcome = .failed → onFailure made.frames

/- The run ends like this whenever there are some frames. -/
def Does
    (input : Array UInt8)
    (frames : List Frame)
    (onMatch onFailure : List Frame → Prop)
    (run : Run) : Prop :=
  ∀ assembly : Assembly,
    assembly.error = none →
    assembly.frames = frames →
    Ends onMatch onFailure run.outcome
      (assembly.afterRun input run)

variable {input : Array UInt8}
variable {frames : List Frame}
variable {onMatch onFailure : List Frame → Prop}
variable {onMatch' onFailure' : List Frame → Prop}
variable {run : Run}

/- After an error nothing is asked of the frames. -/
theorem Ends.of_error
    {made : Assembly}
    {outcome : Outcome}
    {error : ReadError}
    (hError : made.error = some error)
    (hFault : error.isOfPart = true) :
    Ends onMatch onFailure outcome made where
  sound := by
    intro other hOther
    rw [hError] at hOther
    cases hOther
    exact hFault
  matched := by
    intro hNone
    rw [hError] at hNone
    cases hNone
  failed := by
    intro hNone
    rw [hError] at hNone
    cases hNone

namespace Does

theorem mono
    (h : Does input frames onMatch onFailure run)
    (hMatch : ∀ f, onMatch f → onMatch' f)
    (hFailure : ∀ f, onFailure f → onFailure' f) :
    Does input frames onMatch' onFailure' run := by
  intro assembly hError hFrames
  have hEnds := h assembly hError hFrames
  exact
    ⟨hEnds.sound,
      fun hNone stop hStop =>
        hMatch _ (hEnds.matched hNone stop hStop),
      fun hNone hFailed =>
        hFailure _ (hEnds.failed hNone hFailed)⟩

theorem quiet
    {outcome : Outcome}
    (hMatch :
      ∀ stop, outcome = .matched stop → onMatch frames)
    (hFailure : outcome = .failed → onFailure frames) :
    Does input frames onMatch onFailure
      (.quiet outcome) := by
  intro assembly hError hFrames
  refine ⟨?_, ?_, ?_⟩
  · intro error hSome
    rw [show (assembly.afterRun input
      (.quiet outcome)).error = assembly.error from rfl,
      hError] at hSome
    cases hSome
  · intro _ stop hStop
    rw [← hFrames] at hMatch
    exact hMatch stop hStop
  · intro _ hFailed
    rw [← hFrames] at hFailure
    exact hFailure hFailed

/- A hushed run leaves the frames alone. -/
theorem of_hushed
    (hHushed : run.Hushed makes)
    (frames : List Frame) :
    Does input frames (· = frames) (· = frames) run := by
  intro assembly hError hFrames
  have hAlike :=
    alike_of_allHushed input assembly run.calls hHushed
  have hMade : (assembly.afterRun input run).frames = frames :=
    hAlike.frames.trans hFrames
  refine ⟨?_, fun _ _ _ => hMade, fun _ _ => hMade⟩
  intro error hSome
  rw [afterRun, Run.events, hAlike.error, hError] at hSome
  cases hSome

/- A run that fails need not say what a match does. -/
theorem of_failed
    (h : Does input frames onMatch onFailure run)
    (hFailed : run.outcome = .failed) :
    Does input frames onMatch' onFailure run := by
  intro assembly hError hFrames
  have hEnds := h assembly hError hFrames
  refine ⟨hEnds.sound, ?_, hEnds.failed⟩
  intro _ stop hStop
  rw [hFailed] at hStop
  cases hStop

/-
  Whatever a run that may change the innermost frame has
  done, the frames below it are the same.
-/
theorem below
    (h : Does input frames onMatch onFailure run) :
    Does input frames
      (fun f => onMatch f ∧ SameBelow frames f)
      (fun f => onFailure f ∧ SameBelow frames f) run := by
  intro assembly hError hFrames
  have hEnds := h assembly hError hFrames
  have hBelow :=
    sameBelow_of_calls input assembly run.calls
  rw [hFrames] at hBelow
  exact
    ⟨hEnds.sound,
      fun hNone stop hStop =>
        ⟨hEnds.matched hNone stop hStop, hBelow⟩,
      fun hNone hFailed =>
        ⟨hEnds.failed hNone hFailed, hBelow⟩⟩

/- A run may go on from what it has made. -/
theorem resume
    {next : Nat → Run}
    {other : Run}
    (h : Does input frames onMatch onFailure run)
    (hNext :
      ∀ stop, run.outcome = .matched stop →
        ∀ f, onMatch f →
          Does input f onMatch' onFailure' (next stop))
    (hOther :
      run.outcome = .failed →
        ∀ f, onFailure f →
          Does input f onMatch' onFailure' other) :
    Does input frames onMatch' onFailure'
      (run.resume next other) := by
  intro assembly hError hFrames
  have hEnds := h assembly hError hFrames
  -- After an error the second run changes nothing of note.
  have hAfter :
      ∀ (second : Run),
        (∀ f, (assembly.afterRun input run).error = none →
          (assembly.afterRun input run).frames = f →
          Does input f onMatch' onFailure' second) →
        Ends onMatch' onFailure'
          (Run.after run.calls second).outcome
          (assembly.afterRun input
            (.after run.calls second)) := by
    intro second hSecond
    rw [afterRun_after]
    cases hMade : (assembly.afterRun input run).error with
    | none => exact hSecond _ hMade rfl _ hMade rfl
    | some error =>
        exact
          .of_error
            (error_foldl_observe hMade input second.events)
            (hEnds.sound error hMade)
  rcases run.matched_or_failed_or_not with
    ⟨stop, hOutcome⟩ | hOutcome | hSettled
  · rw [Run.resume_of_matched hOutcome]
    apply hAfter
    rintro f hNone rfl
    exact
      hNext stop hOutcome _
        (hEnds.matched hNone stop hOutcome)
  · rw [Run.resume_of_failed hOutcome]
    apply hAfter
    rintro f hNone rfl
    exact hOther hOutcome _ (hEnds.failed hNone hOutcome)
  · rw [Run.resume_of_not_isSettled hSettled]
    refine ⟨hEnds.sound, ?_, ?_⟩
    · intro _ stop hStop
      rw [hStop] at hSettled
      cases hSettled
    · intro _ hFailed
      rw [hFailed] at hSettled
      cases hSettled

theorem andThen
    {next : Nat → Run}
    (h : Does input frames onMatch onFailure run)
    (hNext :
      ∀ stop, run.outcome = .matched stop →
        ∀ f, onMatch f →
          Does input f onMatch' onFailure' (next stop))
    (hFailure : ∀ f, onFailure f → onFailure' f) :
    Does input frames onMatch' onFailure'
      (run.andThen next) := by
  rw [Run.andThen_eq_resume]
  apply h.resume hNext
  intro _ f hF
  exact quiet (fun _ hNo => nomatch hNo) (fun _ => hFailure f hF)

theorem orElse
    {other : Unit → Run}
    (h : Does input frames onMatch onFailure run)
    (hOther :
      run.outcome = .failed →
        ∀ f, onFailure f →
          Does input f onMatch onFailure' (other ())) :
    Does input frames onMatch onFailure'
      (run.orElse other) := by
  rw [Run.orElse_eq_resume]
  refine h.resume ?_ hOther
  intro stop _ f hF
  exact quiet (fun _ _ => hF) (fun hNo => nomatch hNo)

/- What every copy keeps is kept by an iteration. -/
theorem runCopies
    {step : Nat → Run}
    {size low : Nat}
    {kept : List Frame → Prop}
    (hStays : ∀ index, (step index).StaysIn size index)
    (hStep :
      ∀ index, low ≤ index → ∀ f, kept f →
        Does input f kept kept (step index))
    {min : Nat}
    {max : Option Nat}
    {allowance count index : Nat}
    (hLow : low ≤ index)
    (hKept : kept frames) :
    Does input frames kept kept
      (Node.runCopies step min max allowance count
        index) := by
  induction allowance generalizing count index frames with
  | zero =>
      rw [Node.runCopies]
      exact quiet (fun _ _ => hKept) (fun _ => hKept)
  | succ allowance ih =>
      rw [Node.runCopies_succ]
      split
      · exact quiet (fun _ _ => hKept) (fun _ => hKept)
      · apply (hStep index hLow frames hKept).resume
        · intro next hNext f hF
          have hOrder := (hStays index next hNext).1
          split
          · exact quiet (fun _ _ => hF) (fun _ => hF)
          · exact ih (by omega) hF
        · intro _ f hF
          exact quiet (fun _ _ => hF) (fun _ => hF)

end Does

end Grammar

end Abnf

------------------------------------------------------------
-- What Calls Make Of Frames
------------------------------------------------------------

namespace Abnf

namespace Grammar

open Assembly

variable {input : Array UInt8}
variable {frames : List Frame}
variable {onMatch onFailure : List Frame → Prop}
variable {onMatch' : List Frame → Prop}
variable {run : Run}
variable {name : String}
variable {start : Nat}

/- A step makes good frames, or an error due to its part. -/
def Yields
    (good : List Frame → Prop) :
    Except ReadError Assembly → Prop
  | .ok next => good next.frames
  | .error error => error.isOfPart = true

/- A match of a rule makes good frames of some. -/
def Takes
    (input : Array UInt8)
    (frames : List Frame)
    (good : List Frame → Prop)
    (name : String)
    (frame : Option Frame)
    (start stop : Nat) : Prop :=
  ∀ assembly : Assembly,
    assembly.frames = frames →
    Yields good
      (assembly.matchResult input name frame start stop)

theorem Takes.mono
    {good good' : List Frame → Prop}
    {frame : Option Frame}
    {stop : Nat}
    (h : Takes input frames good name frame start stop)
    (hGood : ∀ f, good f → good' f) :
    Takes input frames good' name frame start stop := by
  intro assembly hFrames
  have hYields := h assembly hFrames
  cases hResult :
      assembly.matchResult input name frame start stop with
  | error error =>
      rw [hResult] at hYields
      exact hYields
  | ok next =>
      rw [hResult] at hYields
      exact hGood _ hYields

theorem ends_takeMatch
    {frame : Option Frame}
    {stop : Nat}
    (hTakes :
      Takes input frames onMatch name frame start stop)
    {assembly : Assembly}
    (hError : assembly.error = none)
    (hFrames : assembly.frames = frames) :
    Ends onMatch onFailure (.matched stop)
      (assembly.takeMatch input name frame start stop) := by
  have hYields := hTakes assembly hFrames
  rw [takeMatch_eq]
  cases hResult :
      assembly.matchResult input name frame start stop with
  | error error =>
      rw [hResult] at hYields
      exact .of_error rfl hYields
  | ok next =>
      rw [hResult] at hYields
      have hNext := (changesTop_matchResult next hResult).2.1
      rw [hError] at hNext
      refine
        ⟨?_, fun _ _ _ => hYields,
          fun _ hNo => (nomatch hNo)⟩
      intro error hSome
      rw [hNext] at hSome
      cases hSome

/- To leave a rule takes its match, or just closes it. -/
theorem ends_observe_exit
    {made : Assembly}
    {outcome : Outcome}
    (hSound :
      ∀ error, made.error = some error →
        error.isOfPart = true)
    (hMatch :
      ∀ stop, outcome = .matched stop →
        made.error = none →
        Takes input (made.close (Part.ofName name)).2.frames
          onMatch name (made.close (Part.ofName name)).1
          start stop)
    (hFailure :
      outcome = .failed → made.error = none →
        onFailure
          (made.close (Part.ofName name)).2.frames) :
    Ends onMatch onFailure outcome
      (made.observe input
        (.exit name start outcome.stop?)) := by
  have hClosed :
      ∀ error,
        (made.close (Part.ofName name)).2.error =
          some error →
        error.isOfPart = true := by
    rw [error_close]
    exact hSound
  cases hMade : made.error with
  | some error =>
      exact
        .of_error (error_observe hMade input _)
          (hSound error hMade)
  | none =>
      cases outcome with
      | matched stop =>
          rw [Outcome.stop?, observe_exit, hMade]
          apply ends_takeMatch (hMatch stop rfl hMade)
          · rw [error_leave, hMade]
          · rfl
      | failed =>
          exact
            ⟨hClosed, fun _ _ hNo => Outcome.noConfusion hNo,
              fun _ _ => hFailure rfl hMade⟩
      | noRoutine index =>
          exact
            ⟨hClosed, fun _ _ hNo => Outcome.noConfusion hNo,
              fun _ hNo => Outcome.noConfusion hNo⟩
      | tooDeep =>
          exact
            ⟨hClosed, fun _ _ hNo => Outcome.noConfusion hNo,
              fun _ hNo => Outcome.noConfusion hNo⟩

/- A call is entered, followed and left. -/
theorem afterRun_reported
    (assembly : Assembly)
    (input : Array UInt8)
    (run : Run)
    (name : String)
    (start : Nat) :
    assembly.afterRun input (run.reported name start) =
      ((assembly.observe input
        (.enter name start)).afterRun input run).observe
          input (.exit name start run.outcome.stop?) := by
  rw [afterRun, Run.events, Run.reported,
    Call.eventsOfAll_cons, Call.events_call]
  simp only [List.cons_append, List.append_assoc,
    List.foldl_cons, List.foldl_append]
  rfl

/- A call of a part without a frame. -/
theorem Does.reported_of_none
    (hFrame : (Part.ofName name).frame? = none)
    (hBody : Does input frames onMatch onFailure run)
    (hExit :
      ∀ stop, run.outcome = .matched stop →
        ∀ f, onMatch f →
          Takes input f onMatch' name none start stop) :
    Does input frames onMatch' onFailure
      (run.reported name start) := by
  intro assembly hError hFrames
  have hEnter :
      (assembly.observe input (.enter name start)).frames =
        frames := by
    simpa [observe, hFrame] using hFrames
  have hEnds :=
    hBody (assembly.observe input (.enter name start))
      hError hEnter
  rw [afterRun_reported, Run.outcome_reported]
  apply ends_observe_exit hEnds.sound
  · intro stop hStop hNone
    rw [close_of_none hFrame]
    exact
      hExit stop hStop _ (hEnds.matched hNone stop hStop)
  · intro hFailed hNone
    rw [close_of_none hFrame]
    exact hEnds.failed hNone hFailed

/-
  A call of a part with a frame. If it fails, then the frame
  goes, and the others are as they were.
-/
theorem Does.reported_of_frame
    {frame : Frame}
    (hFrame : (Part.ofName name).frame? = some frame)
    (hBody :
      Does input (frame :: frames) onMatch onFailure run)
    (hExit :
      ∀ stop, run.outcome = .matched stop →
        ∀ frame', onMatch (frame' :: frames) →
          Takes input frames onMatch' name (some frame')
            start stop) :
    Does input frames onMatch' (· = frames)
      (run.reported name start) := by
  intro assembly hError hFrames
  have hEnter :
      (assembly.observe input (.enter name start)).frames =
        frame :: frames := by
    simp [observe, hFrame, hFrames]
  have hEnds :=
    hBody.below (assembly.observe input (.enter name start))
      hError hEnter
  rw [afterRun_reported, Run.outcome_reported]
  apply ends_observe_exit hEnds.sound
  · intro stop hStop hNone
    rcases hEnds.matched hNone stop hStop with
      ⟨hMatch, hBelow⟩
    rcases hBelow.exists_of_cons with ⟨frame', _, hCons⟩
    rw [close_of_some hFrame hCons]
    rw [hCons] at hMatch
    exact hExit stop hStop frame' hMatch
  · intro hFailed hNone
    rcases hEnds.failed hNone hFailed with ⟨_, hBelow⟩
    rcases hBelow.exists_of_cons with ⟨frame', _, hCons⟩
    rw [close_of_some hFrame hCons]

end Grammar

end Abnf
