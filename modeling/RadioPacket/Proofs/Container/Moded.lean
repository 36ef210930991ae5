import RadioPacket.Proofs.Container.InPlace

/-!
# Modes and the requests for them

Values, enables and modes are written by the same operations.  Here stands what it means that the
mode of a field follows all the same from the requests for it alone, and that no requests lead away
from the mandatory mode, for any kind of container.  What holds of whole runs is derived from what
holds of single operations.
-/

namespace RadioPacket

/-! ## Requests -/

namespace Mode

/-- The mode after a request, which is the one before when the request is refused. -/
def asked (name : String) (mode requested : Mode) : Mode :=
  match mode.request requested name with
  | .ok next => next
  | .error _ => mode

@[simp] theorem asked_mandatory (name : String) (requested : Mode) :
    asked name .mandatory requested = .mandatory := by
  cases requested with
  | disabled => rfl
  | optional => rfl
  | required => rfl
  | mandatory => rfl

/-- No requests lead away from the mandatory mode. -/
theorem foldl_asked_mandatory (name : String) (requests : List Mode) :
    requests.foldl (asked name) .mandatory = .mandatory := by
  induction requests with
  | nil => rfl
  | cons requested requests ih => rw [List.foldl_cons, asked_mandatory, ih]

end Mode

/-- What an operation makes of the mode of the field named `name`, when it asks for the given mode
or for none, and how it answers. -/
inductive Heeds (name : String) :
    Option Mode → Except OperationError Unit → Mode → Mode → Prop where
  /-- The operation asks nothing of the field, whatever else it does. -/
  | idle {answer : Except OperationError Unit} {mode : Mode} : Heeds name none answer mode mode
  | granted {mode requested next : Mode} :
      mode.request requested name = .ok next → Heeds name (some requested) (.ok ()) mode next
  | refused {mode requested : Mode} {error : ModeError} :
      mode.request requested name = .error error →
      Heeds name (some requested) (.error (.mode error)) mode mode

namespace Heeds

variable {name : String} {answer : Except OperationError Unit} {mode next requested : Mode}

theorem eq_foldl {request : Option Mode} (h : Heeds name request answer mode next) :
    next = request.toList.foldl (Mode.asked name) mode := by
  cases h with
  | idle => rfl
  | granted hrequest =>
      rw [Option.toList_some, List.foldl_cons, List.foldl_nil, Mode.asked, hrequest]
  | refused hrequest =>
      rw [Option.toList_some, List.foldl_cons, List.foldl_nil, Mode.asked, hrequest]

theorem answer_of_error (h : Heeds name (some requested) answer mode next) {error : ModeError}
    (hrequest : mode.request requested name = .error error) : answer = .error (.mode error) := by
  cases h with
  | granted hgranted => cases hgranted.symm.trans hrequest
  | refused hrefused =>
      cases hrefused.symm.trans hrequest
      rfl

theorem answer_of_ok (h : Heeds name (some requested) answer mode next) {granted : Mode}
    (hrequest : mode.request requested name = .ok granted) : answer = .ok () ∧ next = granted := by
  cases h with
  | granted hgranted =>
      cases hgranted.symm.trans hrequest
      exact ⟨rfl, rfl⟩
  | refused hrefused => cases hrefused.symm.trans hrequest

end Heeds

/-! ## Runs -/

namespace InPlace

variable {σ ε α : Type}

/-- The state that work in place leaves, with the answer. -/
def ending : EStateM.Result ε σ α → σ × Except ε α
  | .ok answer state => (state, .ok answer)
  | .error error left => (left, .error error)

@[simp] theorem ending_outcome (result : σ × Except ε α) : ending (outcome result) = result := by
  rcases result with ⟨state, error | answer⟩
  · rfl
  · rfl

theorem eq_ok_of_ending {result : EStateM.Result ε σ α} {answer : α}
    (h : (ending result).2 = .ok answer) : result = .ok answer (ending result).1 := by
  cases result with
  | ok found state =>
      cases h
      rfl
  | error error left => cases h

theorem eq_error_of_ending {result : EStateM.Result ε σ α} {error : ε}
    (h : (ending result).2 = .error error) : result = .error error (ending result).1 := by
  cases result with
  | ok found state => cases h
  | error cause left =>
      cases h
      rfl

end InPlace

/-- A kind of container whose fields have modes, with the operations that are carried out on it. -/
structure Moded (σ ω : Type) where
  perform : ω → InPlace σ OperationError Unit
  mode : σ → String → Except ModeError Mode
  read : σ → String → Except ValueError (Option Value)
  changeMode : String → Mode → ω
  /-- The mode that an operation asks for, for the field of the given name. -/
  request? : String → ω → Option Mode

namespace Moded

variable {σ ω : Type} (kind : Moded σ ω)

/-- What an operation leaves, be it refused or not. -/
def next (state : σ) (operation : ω) : σ := (InPlace.ending (kind.perform operation state)).1

def answer (state : σ) (operation : ω) : Except OperationError Unit :=
  (InPlace.ending (kind.perform operation state)).2

/-- What is left after some operations, some of which may be refused. -/
def after (state : σ) (operations : List ω) : σ := operations.foldl kind.next state

/-- The field is mandatory.  A request to relax it is refused and leaves everything as it was, and a
request for a mode that decides presence succeeds, leaves it mandatory and makes it present. -/
structure Locked (name : String) (state : σ) : Prop where
  mandatory : kind.mode state name = .ok .mandatory
  relaxing : ∀ requested : Mode, requested = .disabled ∨ requested = .optional →
    kind.perform (kind.changeMode name requested) state =
      .error (.mode (.mandatoryLocked name requested)) state
  renewing : ∀ requested : Mode, requested = .required ∨ requested = .mandatory →
    ∃ renewed value, kind.perform (kind.changeMode name requested) state = .ok () renewed ∧
      kind.mode renewed name = .ok .mandatory ∧ kind.read renewed name = .ok (some value)

/-- The mode of a field, in the course of a run of operations that starts in the given state and
mode. -/
structure Absorbs (name : String) (state : σ) (mode : Mode) (operations : List ω) : Prop where
  /-- Each operation changes the mode only by a request that is granted. -/
  each : ∀ earlier operation later, operations = earlier ++ operation :: later →
    ∃ before next, kind.mode (kind.after state earlier) name = .ok before ∧
      kind.mode (kind.after state (earlier ++ [operation])) name = .ok next ∧
      Heeds name (kind.request? name operation)
        (kind.answer (kind.after state earlier) operation) before next
  /-- In the end the mode is the one to which the requests lead, one after the other. -/
  followed : kind.mode (kind.after state operations) name =
    .ok ((operations.filterMap (kind.request? name)).foldl (Mode.asked name) mode)
  /-- Without requests to this very field the mode stays. -/
  unasked : (∀ operation ∈ operations, ∀ requested, operation ≠ kind.changeMode name requested) →
    kind.mode (kind.after state operations) name = .ok mode
  /-- What is mandatory at the start is so in the end. -/
  locked : mode = .mandatory → kind.Locked name (kind.after state operations)

/-- The facts on single operations that runs rest on.  They hold of states that fit and of
operations that are admitted. -/
structure Sound (fits : σ → Prop) (admits : ω → Prop) : Prop where
  keeps : ∀ {state operation}, fits state → admits operation → fits (kind.next state operation)
  heeds : ∀ {state operation name mode}, fits state → admits operation →
    kind.mode state name = .ok mode →
    ∃ next, kind.mode (kind.next state operation) name = .ok next ∧
      Heeds name (kind.request? name operation) (kind.answer state operation) mode next
  request?_eq_some : ∀ {name operation requested},
    kind.request? name operation = some requested ↔ operation = kind.changeMode name requested
  admits_changeMode : ∀ name requested, admits (kind.changeMode name requested)
  /-- A refused request leaves everything. -/
  still : ∀ {state name requested error}, fits state →
    kind.answer state (kind.changeMode name requested) = .error error →
    kind.next state (kind.changeMode name requested) = state
  /-- A granted request for a mode of present fields makes the field present. -/
  shows : ∀ {state name mode requested next}, fits state → kind.mode state name = .ok mode →
    mode.request requested name = .ok next → next.presence? = some true →
    ∃ value, kind.read (kind.next state (kind.changeMode name requested)) name = .ok (some value)

variable {kind} {fits : σ → Prop} {admits : ω → Prop} (h : kind.Sound fits admits) {state : σ}
  {name : String} {mode : Mode} {operations : List ω}

theorem after_append (earlier later : List ω) :
    kind.after state (earlier ++ later) = kind.after (kind.after state earlier) later :=
  List.foldl_append

namespace Sound

include h

theorem fits_after (hstate : fits state) (hadmits : ∀ operation ∈ operations, admits operation) :
    fits (kind.after state operations) := by
  induction operations generalizing state with
  | nil => exact hstate
  | cons operation operations ih =>
      obtain ⟨hfirst, hrest⟩ := List.forall_mem_cons.mp hadmits
      exact ih (h.keeps hstate hfirst) hrest

/-- A run leads to the mode to which its requests lead. -/
theorem mode_after (hstate : fits state) (hadmits : ∀ operation ∈ operations, admits operation)
    (hmode : kind.mode state name = .ok mode) :
    kind.mode (kind.after state operations) name =
      .ok ((operations.filterMap (kind.request? name)).foldl (Mode.asked name) mode) := by
  induction operations generalizing state mode with
  | nil => exact hmode
  | cons operation operations ih =>
      obtain ⟨hfirst, hrest⟩ := List.forall_mem_cons.mp hadmits
      obtain ⟨next, hnext, hheeds⟩ := h.heeds hstate hfirst hmode
      have hlater : kind.mode (kind.after state (operation :: operations)) name = _ :=
        ih (h.keeps hstate hfirst) hrest hnext
      rw [hlater, hheeds.eq_foldl]
      rcases hrequest : kind.request? name operation with _ | requested
      · rw [List.filterMap_cons_none hrequest]
        rfl
      · rw [List.filterMap_cons_some hrequest]
        rfl

theorem locked (hstate : fits state) (hmode : kind.mode state name = .ok .mandatory) :
    kind.Locked name state where
  mandatory := hmode
  relaxing requested hrelaxing := by
    have hrequest : Mode.mandatory.request requested name =
        .error (.mandatoryLocked name requested) := by
      rcases hrelaxing with rfl | rfl
      · rfl
      · rfl
    obtain ⟨next, _, hheeds⟩ := h.heeds hstate (h.admits_changeMode name requested) hmode
    rw [h.request?_eq_some.mpr rfl] at hheeds
    have hanswer := hheeds.answer_of_error hrequest
    have hleft := h.still hstate hanswer
    rw [Moded.next] at hleft
    rw [InPlace.eq_error_of_ending hanswer, hleft]
  renewing requested hrenewing := by
    have hrequest : Mode.mandatory.request requested name = .ok .mandatory := by
      rcases hrenewing with rfl | rfl
      · rfl
      · rfl
    obtain ⟨next, hnext, hheeds⟩ := h.heeds hstate (h.admits_changeMode name requested) hmode
    rw [h.request?_eq_some.mpr rfl] at hheeds
    obtain ⟨hanswer, rfl⟩ := hheeds.answer_of_ok hrequest
    obtain ⟨value, hvalue⟩ := h.shows hstate hmode hrequest rfl
    exact ⟨_, value, InPlace.eq_ok_of_ending hanswer, hnext, hvalue⟩

/-- What a run makes of the mode of a field follows from what each operation makes of it. -/
theorem absorbs (hstate : fits state) (hadmits : ∀ operation ∈ operations, admits operation)
    (hmode : kind.mode state name = .ok mode) : kind.Absorbs name state mode operations where
  each earlier operation later hrun := by
    subst hrun
    have hearlier : ∀ first ∈ earlier, admits first := fun first hfirst =>
      hadmits first (List.mem_append_left _ hfirst)
    have hoperation : admits operation :=
      hadmits operation (List.mem_append_right _ List.mem_cons_self)
    have hbefore := h.mode_after hstate hearlier hmode
    obtain ⟨next, hnext, hheeds⟩ :=
      h.heeds (h.fits_after hstate hearlier) hoperation hbefore
    refine ⟨_, next, hbefore, ?_, hheeds⟩
    rw [after_append]
    exact hnext
  followed := h.mode_after hstate hadmits hmode
  unasked hunasked := by
    have hnone : operations.filterMap (kind.request? name) = [] := by
      apply List.filterMap_eq_nil_iff.mpr
      intro operation hmem
      apply Option.eq_none_iff_forall_ne_some.mpr
      intro requested hrequest
      exact hunasked operation hmem requested (h.request?_eq_some.mp hrequest)
    rw [h.mode_after hstate hadmits hmode, hnone, List.foldl_nil]
  locked hmandatory := by
    subst hmandatory
    apply h.locked (h.fits_after hstate hadmits)
    rw [h.mode_after hstate hadmits hmode, Mode.foldl_asked_mandatory]

end Sound

end Moded

end RadioPacket
