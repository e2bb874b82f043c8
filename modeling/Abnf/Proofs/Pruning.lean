import Abnf.Grammar

/-
  Traces without their failed attempts.

  `Event.prune` drops each entry whose exit has no end from a
  trace, with its exit and all in between. Seen as calls, a
  trace is pruned by dropping the calls without an end.

  A call is hushed if no part that makes something matches
  in it, and tidy if the calls in it that fail are hushed.
  The assembly of rules does not notice hushed calls, so
  tidy calls make the same before and after pruning.

  Key definitions include:
    * `Abnf.Event.prune`
    * `Abnf.Call.pruneAll`
    * `Abnf.Call.AllHushed`
    * `Abnf.Call.AllTidy`
    * `Abnf.Grammar.Assembly.Alike`

  Main declarations:
    * `Abnf.Call.prune_eventsOfAll`
    * `Abnf.Grammar.Assembly.alike_of_allHushed`
    * `Abnf.Grammar.Assembly.alike_of_allTidy`
    * `Abnf.Grammar.Assembly.finish_eq_of_alike`
-/

------------------------------------------------------------
-- Pruning
------------------------------------------------------------

namespace Abnf

namespace Event

/-
  Follow one event of a trace. `kept` holds what is kept of
  each open call, the innermost first, and last what is kept
  outside of calls.
-/
def keep
    (kept : List (List Event)) :
    Event → List (List Event)
  | enter rule start => [enter rule start] :: kept
  | exit _ _ none => kept.tail
  | exit rule start (some stop) =>
      match kept with
      | inner :: outer :: rest =>
          (outer ++ inner ++ [exit rule start (some stop)]) ::
            rest
      | few => few

/-
  A trace without the calls that have no end and all that is
  in them.
-/
def prune
    (events : List Event) : List Event :=
  (events.foldl keep [[]]).headD []

end Event

namespace Call

mutual

/- What is left of a call. -/
def prune : Call → List Call
  | call _ _ none _ => []
  | call rule start (some stop) inner =>
      [call rule start (some stop) (pruneAll inner)]

/- What is left of some calls. -/
def pruneAll : List Call → List Call
  | [] => []
  | first :: others => prune first ++ pruneAll others

end

theorem eventsOfAll_cons
    (first : Call)
    (others : List Call) :
    eventsOfAll (first :: others) =
      events first ++ eventsOfAll others := by
  rw [eventsOfAll, eventsOfAllBefore,
    eventsBefore_eq_append, eventsOfAll]

theorem eventsOfAll_append
    (calls calls' : List Call) :
    eventsOfAll (calls ++ calls') =
      eventsOfAll calls ++ eventsOfAll calls' := by
  induction calls with
  | nil => rfl
  | cons first others ih =>
      rw [List.cons_append, eventsOfAll_cons,
        eventsOfAll_cons, ih, List.append_assoc]

theorem events_call
    (rule : String)
    (start : Nat)
    (stop : Option Nat)
    (inner : List Call) :
    events (call rule start stop inner) =
      .enter rule start ::
        (eventsOfAll inner ++ [.exit rule start stop]) := by
  rw [events, eventsBefore, eventsOfAllBefore_eq_append]

mutual

/- The events of a call are kept as those of its remains. -/
theorem foldl_keep_events
    (outer : List Event)
    (rest : List (List Event)) :
    ∀ first : Call,
      first.events.foldl Event.keep (outer :: rest) =
        (outer ++ eventsOfAll first.prune) :: rest
  | call rule start none inner => by
      rw [events_call, List.foldl_cons, List.foldl_append,
        Event.keep, foldl_keep_eventsOfAll _ _ inner]
      simp [Event.keep, prune, eventsOfAll,
        eventsOfAllBefore]
  | call rule start (some stop) inner => by
      rw [events_call, List.foldl_cons, List.foldl_append,
        Event.keep, foldl_keep_eventsOfAll _ _ inner, prune,
        eventsOfAll_cons, events_call]
      simp [Event.keep, eventsOfAll, eventsOfAllBefore]

/- The same for the events of some calls. -/
theorem foldl_keep_eventsOfAll
    (outer : List Event)
    (rest : List (List Event)) :
    ∀ calls : List Call,
      (eventsOfAll calls).foldl Event.keep (outer :: rest) =
        (outer ++ eventsOfAll (pruneAll calls)) :: rest
  | [] => by
      simp [pruneAll, eventsOfAll, eventsOfAllBefore]
  | first :: others => by
      rw [eventsOfAll_cons, List.foldl_append,
        foldl_keep_events outer rest first,
        foldl_keep_eventsOfAll _ rest others, pruneAll,
        eventsOfAll_append, List.append_assoc]

end

/- To prune a trace is to prune its calls. -/
theorem prune_eventsOfAll
    (calls : List Call) :
    Event.prune (eventsOfAll calls) =
      eventsOfAll (pruneAll calls) := by
  rw [Event.prune, foldl_keep_eventsOfAll]
  rfl

end Call

end Abnf

------------------------------------------------------------
-- Hushed And Tidy Calls
------------------------------------------------------------

namespace Abnf

namespace Call

mutual

/-
  No rule that counts as loud matches in the call, nor is the
  call itself the match of one.
-/
def Hushed
    (loud : String → Bool) : Call → Prop
  | call rule _ stop inner =>
      (stop.isSome = true → loud rule = false) ∧
        AllHushed loud inner

/- The calls are all hushed. -/
def AllHushed
    (loud : String → Bool) : List Call → Prop
  | [] => True
  | first :: others =>
      Hushed loud first ∧ AllHushed loud others

end

mutual

/-
  Whatever failed in the call is hushed, be it the call
  itself.
-/
def Tidy
    (loud : String → Bool) : Call → Prop
  | call _ _ none inner => AllHushed loud inner
  | call _ _ (some _) inner => AllTidy loud inner

/- The calls are all tidy. -/
def AllTidy
    (loud : String → Bool) : List Call → Prop
  | [] => True
  | first :: others =>
      Tidy loud first ∧ AllTidy loud others

end

variable {loud : String → Bool}

theorem allHushed_append
    (calls calls' : List Call) :
    AllHushed loud (calls ++ calls') ↔
      AllHushed loud calls ∧ AllHushed loud calls' := by
  induction calls with
  | nil => simp [AllHushed]
  | cons first others ih =>
      simp [AllHushed, ih, and_assoc]

theorem allTidy_append
    (calls calls' : List Call) :
    AllTidy loud (calls ++ calls') ↔
      AllTidy loud calls ∧ AllTidy loud calls' := by
  induction calls with
  | nil => simp [AllTidy]
  | cons first others ih =>
      simp [AllTidy, ih, and_assoc]

mutual

/- A hushed call is tidy. -/
theorem Hushed.tidy :
    ∀ {first : Call},
      first.Hushed loud → first.Tidy loud
  | call _ _ none _, h => by
      rw [Tidy]
      rw [Hushed] at h
      exact h.2
  | call _ _ (some _) _, h => by
      rw [Tidy]
      rw [Hushed] at h
      exact AllHushed.allTidy h.2

/- Hushed calls are tidy. -/
theorem AllHushed.allTidy :
    ∀ {calls : List Call},
      AllHushed loud calls → AllTidy loud calls
  | [], _ => trivial
  | _ :: _, h => by
      rw [AllTidy]
      rw [AllHushed] at h
      exact ⟨h.1.tidy, h.2.allTidy⟩

end

end Call

end Abnf

------------------------------------------------------------
-- Assemblies That Make The Same
------------------------------------------------------------

namespace Abnf

namespace Grammar

namespace Assembly

/-
  Two assemblies agree on all but the extent of the parse
  and the notes.
-/
structure Alike
    (one other : Assembly) : Prop where
  rules : one.rules = other.rules
  frames : one.frames = other.frames
  error : one.error = other.error

theorem Alike.refl
    (assembly : Assembly) : Alike assembly assembly :=
  ⟨rfl, rfl, rfl⟩

theorem Alike.trans
    {one other third : Assembly}
    (h : Alike one other)
    (h' : Alike other third) : Alike one third :=
  ⟨h.rules.trans h'.rules, h.frames.trans h'.frames,
    h.error.trans h'.error⟩

/- Two steps give the same error or assemblies alike. -/
def AlikeResults :
    Except ReadError Assembly →
    Except ReadError Assembly → Prop
  | .ok one, .ok other => Alike one other
  | .error cause, .error cause' => cause = cause'
  | _, _ => False

/- Steps alike may follow upon one value. -/
theorem alikeResults_bind
    {α : Type}
    (value : Except ReadError α)
    {next next' : α → Except ReadError Assembly}
    (h : ∀ a, AlikeResults (next a) (next' a)) :
    AlikeResults (value >>= next) (value >>= next') := by
  cases value with
  | error cause => exact rfl
  | ok a => exact h a

variable {one other : Assembly}

theorem alikeResults_push
    (h : Alike one other)
    (element : Element) :
    AlikeResults (one.push element)
      (other.push element) := by
  unfold push
  rw [h.frames]
  split
  · exact ⟨h.rules, rfl, h.error⟩
  · exact ⟨h.rules, rfl, h.error⟩
  · exact rfl

theorem alikeResults_closeRule
    (h : Alike one other)
    (frame : Option Frame) :
    AlikeResults (one.closeRule frame)
      (other.closeRule frame) := by
  unfold closeRule
  rw [h.rules]
  split
  · apply alikeResults_bind
    intro rules
    exact ⟨rfl, h.frames, h.error⟩
  · exact rfl

theorem alikeResults_takeName
    (h : Alike one other)
    (name : String) :
    AlikeResults (one.takeName name)
      (other.takeName name) := by
  unfold takeName
  rw [h.frames]
  split
  · exact ⟨h.rules, rfl, h.error⟩
  · apply alikeResults_bind
    intro element
    exact alikeResults_push h element

theorem alikeResults_takeSign
    (h : Alike one other)
    (incremental : Bool) :
    AlikeResults (one.takeSign incremental)
      (other.takeSign incremental) := by
  unfold takeSign
  rw [h.frames]
  split
  · exact ⟨h.rules, rfl, h.error⟩
  · exact rfl

theorem alikeResults_takeElements
    (h : Alike one other)
    (frame : Option Frame) :
    AlikeResults (one.takeElements frame)
      (other.takeElements frame) := by
  unfold takeElements
  rw [h.frames]
  apply alikeResults_bind
  intro parts
  apply alikeResults_bind
  intro element
  split
  · exact ⟨h.rules, rfl, h.error⟩
  · exact rfl

theorem alikeResults_takeSeries
    (h : Alike one other)
    (frame : Option Frame)
    (series :
      List Element → Except ElementError Element) :
    AlikeResults (one.takeSeries frame series)
      (other.takeSeries frame series) := by
  unfold takeSeries
  apply alikeResults_bind
  intro parts
  split
  · exact alikeResults_push h _
  · apply alikeResults_bind
    intro element
    exact alikeResults_push h element

theorem alikeResults_takeRepetition
    (h : Alike one other)
    (frame : Option Frame) :
    AlikeResults (one.takeRepetition frame)
      (other.takeRepetition frame) := by
  unfold takeRepetition
  split
  · apply alikeResults_bind
    intro element
    split
    · exact alikeResults_push h element
    · apply alikeResults_bind
      intro repeated
      exact alikeResults_push h repeated
  · exact rfl

theorem alikeResults_takeBounds
    (h : Alike one other)
    (text : List Char) :
    AlikeResults (one.takeBounds text)
      (other.takeBounds text) := by
  unfold takeBounds
  rw [h.frames]
  apply alikeResults_bind
  intro bounds
  split
  · exact ⟨h.rules, rfl, h.error⟩
  · exact rfl

theorem alikeResults_takeOption
    (h : Alike one other)
    (frame : Option Frame) :
    AlikeResults (one.takeOption frame)
      (other.takeOption frame) := by
  unfold takeOption
  apply alikeResults_bind
  intro parts
  apply alikeResults_bind
  intro element
  exact alikeResults_push h _

theorem alikeResults_takeValue
    (h : Alike one other)
    (value : Except ReadError Element) :
    AlikeResults (one.takeValue value)
      (other.takeValue value) := by
  unfold takeValue
  apply alikeResults_bind
  intro element
  exact alikeResults_push h element

/- A part that has matched makes the same on both sides. -/
theorem alikeResults_assemble
    (h : Alike one other)
    (part : Part)
    (text : List Char)
    (frame : Option Frame) :
    AlikeResults (one.assemble part text frame)
      (other.assemble part text frame) := by
  cases part with
  | rule => exact alikeResults_closeRule h frame
  | rulename => exact alikeResults_takeName h _
  | definedAs => exact alikeResults_takeSign h _
  | elements => exact alikeResults_takeElements h frame
  | alternation => exact alikeResults_takeSeries h frame _
  | concatenation => exact alikeResults_takeSeries h frame _
  | repetition => exact alikeResults_takeRepetition h frame
  | repeatCount => exact alikeResults_takeBounds h text
  | option => exact alikeResults_takeOption h frame
  | charVal => exact alikeResults_takeValue h _
  | binVal => exact alikeResults_takeValue h _
  | decVal => exact alikeResults_takeValue h _
  | hexVal => exact alikeResults_takeValue h _
  | proseVal => exact alikeResults_takeValue h _
  | other => exact h

/- The same for a part with the span that it matches. -/
theorem alike_takeMatch
    (h : Alike one other)
    (input : Array UInt8)
    (name : String)
    (frame : Option Frame)
    (start stop : Nat) :
    Alike (one.takeMatch input name frame start stop)
      (other.takeMatch input name frame start stop) := by
  unfold takeMatch
  dsimp only
  cases
      (if (Part.ofName name).isRead then
        slice? input start stop
      else
        some []) with
  | none => exact ⟨h.rules, h.frames, rfl⟩
  | some text =>
      have hResults :=
        alikeResults_assemble h (Part.ofName name) text
          frame
      dsimp only
      cases hOne :
          one.assemble (Part.ofName name) text frame with
      | ok next =>
          cases hOther :
              other.assemble (Part.ofName name) text
                frame with
          | ok next' =>
              rw [hOne, hOther] at hResults
              exact hResults
          | error cause' =>
              rw [hOne, hOther] at hResults
              exact hResults.elim
      | error cause =>
          cases hOther :
              other.assemble (Part.ofName name) text
                frame with
          | ok next' =>
              rw [hOne, hOther] at hResults
              exact hResults.elim
          | error cause' =>
              rw [hOne, hOther] at hResults
              cases hResults
              exact ⟨h.rules, h.frames, rfl⟩

end Assembly

end Grammar

end Abnf

------------------------------------------------------------
-- Following Events
------------------------------------------------------------

namespace Abnf

namespace Grammar

/- A match of the rule can make something. -/
def makes
    (name : String) : Bool :=
  decide (Part.ofName name ≠ .other)

namespace Assembly

variable {one other : Assembly}

theorem alike_close
    (h : Alike one other)
    (part : Part) :
    (one.close part).1 = (other.close part).1 ∧
      Alike (one.close part).2 (other.close part).2 := by
  unfold close
  rw [h.frames]
  split
  · exact ⟨rfl, h.rules, rfl, h.error⟩
  · exact ⟨rfl, h⟩

/- An event keeps assemblies alike. -/
theorem alike_observe
    (h : Alike one other)
    (input : Array UInt8)
    (event : Event) :
    Alike (one.observe input event)
      (other.observe input event) := by
  cases event with
  | enter name start =>
      refine ⟨h.rules, ?_, h.error⟩
      simp only [observe, h.frames]
  | exit name start stop =>
      rcases alike_close h (Part.ofName name) with
        ⟨hFrame, hClosed⟩
      cases stop with
      | none => exact hClosed
      | some stop =>
          simp only [observe, hFrame, hClosed.error]
          split
          · exact ⟨hClosed.rules, hClosed.frames, rfl⟩
          · apply alike_takeMatch
            exact ⟨hClosed.rules, hClosed.frames, rfl⟩

/- A match of a rule that makes nothing has no effect. -/
theorem takeMatch_of_not_makes
    {name : String}
    (hName : makes name = false)
    (assembly : Assembly)
    (input : Array UInt8)
    (frame : Option Frame)
    (start stop : Nat) :
    assembly.takeMatch input name frame start stop =
      assembly := by
  have hPart : Part.ofName name = .other := by
    simpa [makes] using hName
  simp [takeMatch, hPart, Part.isRead, assemble]

/-
  To leave a part that was entered closes its frame. In the
  meantime nothing but the extent and the notes has changed.
-/
theorem alike_close_of_enter
    {input : Array UInt8}
    {name : String}
    {start : Nat}
    (h :
      Alike one (other.observe input (.enter name start))) :
    Alike (one.close (Part.ofName name)).2 other := by
  have hFrames := h.frames
  simp only [observe] at hFrames
  unfold close
  cases hFrame : (Part.ofName name).frame? with
  | none =>
      rw [hFrame] at hFrames
      exact ⟨h.rules, hFrames, h.error⟩
  | some frame =>
      rw [hFrame] at hFrames
      rw [hFrames]
      exact ⟨h.rules, rfl, h.error⟩

mutual

/- A hushed call makes nothing. -/
theorem alike_of_hushed
    (input : Array UInt8)
    (assembly : Assembly) :
    ∀ first : Call,
      first.Hushed makes →
      Alike (first.events.foldl (observe input) assembly)
        assembly
  | .call name start stop inner, h => by
      rw [Call.Hushed] at h
      have hInner :=
        alike_of_allHushed input
          (assembly.observe input (.enter name start))
          inner h.2
      have hClosed := alike_close_of_enter hInner
      rw [Call.events_call, List.foldl_cons,
        List.foldl_append]
      cases stop with
      | none => exact hClosed
      | some stop =>
          simp only [List.foldl_cons, List.foldl_nil,
            observe,
            takeMatch_of_not_makes (h.1 rfl), ite_self]
          exact
            ⟨hClosed.rules, hClosed.frames, hClosed.error⟩

/- Hushed calls make nothing. -/
theorem alike_of_allHushed
    (input : Array UInt8)
    (assembly : Assembly) :
    ∀ calls : List Call,
      Call.AllHushed makes calls →
      Alike
        ((Call.eventsOfAll calls).foldl (observe input)
          assembly)
        assembly
  | [], _ => Alike.refl assembly
  | first :: others, h => by
      rw [Call.AllHushed] at h
      rw [Call.eventsOfAll_cons, List.foldl_append]
      exact
        (alike_of_allHushed input _ others h.2).trans
          (alike_of_hushed input assembly first h.1)

end

mutual

/- A tidy call makes what its remains make. -/
theorem alike_of_tidy
    (input : Array UInt8) :
    ∀ {one other : Assembly} (first : Call),
      Alike one other →
      first.Tidy makes →
      Alike (first.events.foldl (observe input) one)
        ((Call.eventsOfAll first.prune).foldl
          (observe input) other)
  | one, _, .call name start none inner, h, hTidy => by
      rw [Call.Tidy] at hTidy
      have hHushed :
          (Call.call name start none inner).Hushed
            makes := by
        rw [Call.Hushed]
        exact ⟨by simp, hTidy⟩
      exact (alike_of_hushed input one _ hHushed).trans h
  | _, _, .call name start (some stop) inner, h, hTidy => by
      rw [Call.Tidy] at hTidy
      have hEnter :=
        alike_observe h input (.enter name start)
      have hInner := alike_of_allTidy input inner hEnter hTidy
      rw [Call.prune, Call.eventsOfAll_cons,
        Call.events_call, Call.events_call]
      simp only [List.foldl_cons, List.foldl_append,
        List.foldl_nil]
      exact
        alike_observe hInner input
          (.exit name start (some stop))

/- Tidy calls make what their remains make. -/
theorem alike_of_allTidy
    (input : Array UInt8) :
    ∀ {one other : Assembly} (calls : List Call),
      Alike one other →
      Call.AllTidy makes calls →
      Alike
        ((Call.eventsOfAll calls).foldl (observe input) one)
        ((Call.eventsOfAll (Call.pruneAll calls)).foldl
          (observe input) other)
  | _, _, [], h, _ => h
  | _, _, first :: others, h, hTidy => by
      rw [Call.AllTidy] at hTidy
      rw [Call.eventsOfAll_cons, Call.pruneAll,
        Call.eventsOfAll_append, List.foldl_append,
        List.foldl_append]
      exact
        alike_of_allTidy input others
          (alike_of_tidy input first h hTidy.1) hTidy.2

end

/-
  Assemblies alike give the same rules or the same error,
  once the whole text is matched.
-/
theorem finish_eq_of_alike
    (h : Alike one other)
    (input : Array UInt8) :
    one.finish input (.matched input.size) =
      other.finish input (.matched input.size) := by
  simp [finish, h.error, h.rules]

end Assembly

end Grammar

end Abnf
