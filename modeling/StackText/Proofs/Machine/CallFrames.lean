import Mathlib
import StackText.Proofs.Machine.OwnCode
import StackText.Reader.Basic

/-! The active calls of a run. There are never more than the limit, and every caller has something
left to do, since a call that its caller ends with takes the caller's place. So the limit stops only
calls that come on top of a full stack of callers, and code that calls at its end alone runs with
one active call.
-/

namespace StackText

namespace Machine

variable {m next last : Machine} {f : Function} {left : List UInt8} {callers : List (List UInt8)}

-----------------------------------------------------------------------------------------
-- Calls
-----------------------------------------------------------------------------------------

/-- (m.Calls f left callers) holds if the next instruction calls a function from a caller that has
(left) of its code to run behind the call, and was itself called by (callers).
-/
def Calls (m : Machine) (f : Function) (left : List UInt8) (callers : List (List UInt8)) : Prop :=
  ∃ i, fetch? m.frames = some (i, left :: callers) ∧ m.state.effect i = .call f

theorem frames_of_fetch? {frames behind : List (List UInt8)} {i : Instruction}
    (fetched : fetch? frames = some (i, behind))
    : ∃ caller left callers, frames = caller :: callers ∧ behind = left :: callers := by
  rw [fetch?.eq_def] at fetched
  split at fetched
  · obtain ⟨op, _, same⟩ := Option.map_eq_some_iff.mp fetched
    cases same
    exact ⟨_, _, _, rfl, rfl⟩
  · cases fetched

theorem Calls.length_frames (calls : m.Calls f left callers)
    : m.frames.length = callers.length + 1 := by
  obtain ⟨i, fetched, _⟩ := calls
  obtain ⟨caller, left, callers, whole, same⟩ := frames_of_fetch? fetched
  cases same
  rw [whole, List.length_cons]

/-- A call takes place on top of the callers that stay, if there is room. -/
theorem Calls.step (calls : m.Calls f left callers)
    : m.step
      = if m.depthLimit ≤ (staying (left :: callers)).length then
          .stopped (.fault (.callDepth m.depthLimit)) { m with frames := left :: callers }
        else .running { m with frames := f.chunk.toList :: staying (left :: callers) } := by
  obtain ⟨i, fetched, effect⟩ := calls
  rw [step_of_fetch? fetched, effect, proceed, call_eq_if]

/-- A step that leads on ends a call, passes an instruction of the innermost call, or starts a call
for which there is room.
-/
theorem frames_of_running (step : m.step = .running next)
    : m.frames = [] :: next.frames
      ∨ (∃ caller left callers, m.frames = caller :: callers ∧ next.frames = left :: callers)
      ∨ ∃ f left callers,
          m.Calls f left callers
          ∧ (staying (left :: callers)).length < m.depthLimit
          ∧ next.frames = f.chunk.toList :: staying (left :: callers) := by
  cases fetched : fetch? m.frames with
  | none =>
      have unknown : m.instruction? = none := by rw [instruction?, fetched]; rfl
      cases stepsTo_of_step step with
      | returned ended => exact .inl ended
      | next known | call known => cases unknown.symm.trans known
  | some taken =>
      obtain ⟨i, behind⟩ := taken
      obtain ⟨caller, left, callers, whole, rfl⟩ := frames_of_fetch? fetched
      cases effect : m.state.effect i with
      | next s =>
          rw [step_of_fetch? fetched, effect] at step
          cases step
          exact .inr (.inl ⟨caller, left, callers, whole, rfl⟩)
      | stop why s =>
          rw [step_of_fetch? fetched, effect] at step
          cases step
      | call f =>
          have calls : m.Calls f left callers := ⟨i, fetched, effect⟩
          rw [calls.step] at step
          split at step
          · cases step
          · next room =>
              cases step
              exact .inr (.inr ⟨f, left, callers, calls, Nat.lt_of_not_le room, rfl⟩)

/-- An instruction does not itself speak of the limit of active calls. -/
theorem effect_ne_callDepth {s after : State} {i : Instruction} {limit : Nat}
    : s.effect i ≠ .stop (.fault (.callDepth limit)) after := by
  intro effect
  obtain ⟨op, id⟩ := i
  cases op with
  | load =>
      simp only [State.effect] at effect
      split at effect <;> cases effect
  | assign =>
      simp only [State.effect] at effect
      split at effect
      · cases effect
      · split at effect <;> cases effect
  | apply =>
      simp only [State.effect] at effect
      split at effect
      · cases effect
      · rw [State.perform] at effect
        split at effect
        · cases effect
        · next failed => cases effect; cases Builtin.byBuiltin_run failed
      · cases effect
      · cases effect

/-- Only a call stops at the limit. -/
theorem calls_of_callDepth {limit : Nat}
    (step : m.step = .stopped (.fault (.callDepth limit)) last)
    : ∃ f left callers, m.Calls f left callers := by
  cases stepsTo_of_step step with
  | faulty blames => cases blames
  | stop _ effect => exact absurd effect effect_ne_callDepth
  | @tooDeep i f _ _ known effect =>
      obtain ⟨⟨_, behind⟩, fetched, rfl⟩ := Option.map_eq_some_iff.mp known
      obtain ⟨_, left, callers, _, rfl⟩ := frames_of_fetch? fetched
      exact ⟨f, left, callers, _, fetched, effect⟩

-----------------------------------------------------------------------------------------
-- The discipline
-----------------------------------------------------------------------------------------

/-- (m.Disciplined) holds if no more calls are active than may be, and all but the innermost have
code left.
-/
structure Disciplined (m : Machine) : Prop where
  bounded : m.frames.length ≤ m.depthLimit
  unfinished : ∀ frame ∈ m.frames.tail, frame ≠ []

theorem staying_of_ne_nil (unfinished : left ≠ [])
    : staying (left :: callers) = left :: callers := by
  cases left with
  | nil => exact absurd rfl unfinished
  | cons byte left => rfl

/-- Each step that leads on keeps the discipline, by cases of what it does to the calls. -/
theorem Disciplined.running (disciplined : m.Disciplined) (step : m.step = .running next)
    : next.Disciplined := by
  obtain ⟨bounded, unfinished⟩ := disciplined
  have limit : next.depthLimit = m.depthLimit := by cases stepsTo_of_step step <;> rfl
  rcases frames_of_running step with ended | ⟨caller, left, callers, whole, onward⟩
    | ⟨f, left, callers, calls, room, onward⟩
  · rw [ended] at bounded unfinished
    refine ⟨by simp only [List.length_cons] at bounded; omega, ?_⟩
    exact fun frame member => unfinished frame (List.mem_of_mem_tail member)
  · rw [whole] at bounded unfinished
    rw [← limit] at bounded
    constructor
    · rw [onward]
      exact bounded
    · rw [onward]
      exact unfinished
  · obtain ⟨i, fetched, _⟩ := calls
    obtain ⟨caller, _, _, whole, same⟩ := frames_of_fetch? fetched
    cases same
    rw [whole] at unfinished
    refine ⟨by rw [onward, List.length_cons]; omega, ?_⟩
    rw [onward, List.tail_cons]
    by_cases ends : left = []
    · subst ends
      exact unfinished
    · rw [staying_of_ne_nil ends]
      exact List.forall_mem_cons.mpr ⟨ends, unfinished⟩

/-- The discipline holds at each moment of a run, by induction on the steps. -/
theorem Disciplined.after {start : Machine} (disciplined : start.Disciplined) {steps : Nat}
    (reached : start.after steps = some m)
    : m.Disciplined := by
  induction steps generalizing start with
  | zero => cases reached; exact disciplined
  | succ steps ih =>
      rw [Machine.after] at reached
      split at reached
      · next step => exact ih (disciplined.running step) reached
      · cases reached

/-- A call that its caller ends with takes the caller's place. -/
theorem Disciplined.step_of_lastCall (disciplined : m.Disciplined) (calls : m.Calls f [] callers)
    : m.step = .running { m with frames := f.chunk.toList :: callers } := by
  have room : ¬m.depthLimit ≤ (staying ([] :: callers)).length := by
    have bounded := disciplined.bounded
    rw [calls.length_frames] at bounded
    exact Nat.not_le_of_lt bounded
  rw [calls.step, if_neg room]
  rfl

/-- The limit stops exactly the calls that come on top of as many callers as may be active. -/
theorem Disciplined.step_eq_callDepth_iff (disciplined : m.Disciplined) {limit : Nat}
    : m.step = .stopped (.fault (.callDepth limit)) last
      ↔ limit = m.depthLimit
        ∧ m.frames.length = m.depthLimit
        ∧ ∃ f left callers,
            m.Calls f left callers ∧ left ≠ [] ∧ last = { m with frames := left :: callers } := by
  constructor
  · intro step
    obtain ⟨f, left, callers, calls⟩ := calls_of_callDepth step
    have unfinished : left ≠ [] := by
      rintro rfl
      rw [disciplined.step_of_lastCall calls] at step
      cases step
    rw [calls.step, staying_of_ne_nil unfinished] at step
    split at step
    · next full =>
        cases step
        have bounded := disciplined.bounded
        rw [List.length_cons, ← calls.length_frames] at full
        exact ⟨rfl, Nat.le_antisymm bounded full, f, left, callers, calls, unfinished, rfl⟩
    · cases step
  · rintro ⟨rfl, full, f, left, callers, calls, unfinished, rfl⟩
    have active : m.depthLimit ≤ (left :: callers).length := by
      rw [List.length_cons, ← calls.length_frames, full]
    rw [calls.step, staying_of_ne_nil unfinished, if_pos active]

-----------------------------------------------------------------------------------------
-- Calls at the end of code
-----------------------------------------------------------------------------------------

/-- (start.CallsLast) holds if each call of a function in a run is the last thing its caller does.
-/
def CallsLast (start : Machine) : Prop :=
  ∀ steps m f left callers, start.after steps = some m → m.Calls f left callers → left = []

/-- Where callers end with their calls one call is active at most, by induction on the steps. -/
theorem CallsLast.length_frames_le {start : Machine} (callsLast : start.CallsLast)
    (one : start.frames.length ≤ 1) {steps : Nat} (reached : start.after steps = some m)
    : m.frames.length ≤ 1 := by
  induction steps generalizing start with
  | zero => cases reached; exact one
  | succ steps ih =>
      rw [after] at reached
      split at reached
      · next next step =>
          have later : next.CallsLast := by
            intro steps m f left callers moment calls
            exact callsLast (steps + 1) m f left callers (by rw [after, step]; exact moment) calls
          refine ih later ?_ reached
          rcases frames_of_running step with ended | ⟨caller, left, callers, whole, onward⟩
            | ⟨f, left, callers, calls, room, onward⟩
          · simp only [ended, List.length_cons] at one
            omega
          · simpa only [whole, onward, List.length_cons] using one
          · obtain rfl := callsLast 0 start f left callers rfl calls
            rw [calls.length_frames] at one
            rw [onward]
            exact one
      · cases reached

/-- Where callers end with their calls the limit stops no run. -/
theorem CallsLast.stop_ne {start : Machine} (callsLast : start.CallsLast)
    (disciplined : start.Disciplined) {fuel : Nat} {ending : Ending}
    (ran : start.run fuel = some ending) (limit : Nat)
    : ending.stop ≠ some (.fault (.callDepth limit)) := by
  obtain ⟨steps, m, _, reached, closes⟩ := closesWith_of_run ran
  cases closes with
  | finished idle => simp
  | stopped step =>
      rintro ⟨⟩
      obtain ⟨_, _, f, left, callers, calls, unfinished, _⟩ :=
        (disciplined.after reached).step_eq_callDepth_iff.mp step
      exact unfinished (callsLast steps m f left callers reached calls)

/-- (EndsWithCalls functions code) holds if no instruction but the last applies one of the slots
that may hold functions, and no other slots are assigned to.
-/
structure EndsWithCalls (functions : Nat → Prop) (code : List Instruction) : Prop where
  calls : ∀ id, ⟨.apply, id⟩ ∈ code.dropLast → ¬functions id
  assigns : ∀ id, ⟨.assign, id⟩ ∈ code → functions id

theorem EndsWithCalls.tail {functions : Nat → Prop} {i : Instruction} {code : List Instruction}
    (ends : EndsWithCalls functions (i :: code))
    : EndsWithCalls functions code := by
  refine ⟨fun id member => ends.calls id ?_, fun id member => ends.assigns id (by simp [member])⟩
  cases code with
  | nil => cases member
  | cons j code => exact List.mem_cons_of_mem i member

/-- Code that ends with its calls is run so: a slot that may not hold a function is never assigned
to, and what it held at first was none.
-/
theorem callsLast_of_endsWithCalls {start : Machine} {functions : Nat → Prop}
    (held : ∀ id f, start.store.get? id = some (.func f) → functions id)
    (ends : start.Satisfies (EndsWithCalls functions))
    : start.CallsLast := by
  intro steps m f left callers reached calls
  obtain ⟨i, fetched, effect⟩ := calls
  obtain ⟨applies, slot⟩ := State.effect_call effect
  obtain ⟨code, _, _, same, _, here⟩ := (ends.after EndsWithCalls.tail reached).fetch? fetched
  obtain ⟨rfl, _⟩ := List.cons.inj same
  have made : start.MadeOf fun j => ∀ id, j = ⟨.assign, id⟩ → functions id :=
    madeOf_iff_satisfies.mpr (ends.mono fun own j member id same => own.assigns id (same ▸ member))
  have callable : functions i.id := by
    by_contra outside
    have kept := made.get?_after (fun allowed => outside (allowed i.id rfl)) reached
    exact outside (held i.id f (kept.symm.trans slot))
  cases code with
  | nil => rfl
  | cons j code =>
      refine absurd callable (here.calls i.id ?_)
      rw [← applies]
      exact List.mem_cons_self

-----------------------------------------------------------------------------------------
-- Runs of well-formed code
-----------------------------------------------------------------------------------------

/-- A caller that has code left has an instruction left, if the code is well formed. -/
theorem Satisfies.exists_fetch? {good : List Instruction → Prop} (satisfies : m.Satisfies good)
    {frame : List UInt8} (member : frame ∈ m.frames) (unfinished : frame ≠ [])
    : ∃ i left, Machine.fetch? [frame] = some (i, [left]) := by
  obtain ⟨code, rfl, fits, _⟩ := satisfies.frames frame member
  cases code with
  | nil => exact absurd rfl unfinished
  | cons i code => exact ⟨i, encode code, fetch?_encode (fits i (by simp)) code []⟩

/-- The discipline of calls. Let well-formed code run on a machine that allows at least one active
call. At each moment of the run no more calls are active than allowed, and every one but the
innermost has an instruction left. A call that its caller ends with always takes place. A call is
stopped by the limit exactly if its caller has code left and as many calls are active as allowed,
and nothing else is stopped by it. So a run in which all callers end with their calls never has more
than one active call and is never stopped by the limit, however many calls it makes; and so runs all
code in which no instruction but the last applies a slot that may hold a function. Witness: a step
ends a call, passes an instruction or starts a call, and a caller without code left makes room
first.
-/
theorem frames_disciplined {chunk : Chunk} (room : 1 ≤ m.depthLimit)
    (formed : ∀ held ∈ chunk :: m.state.code, ∃ code, held.instructions = .ok code)
    : (∀ steps later,
        after steps { m with frames := [chunk.toList] } = some later
        → later.frames.length ≤ m.depthLimit
          ∧ (∀ frame ∈ later.frames.tail, ∃ i left, fetch? [frame] = some (i, [left]))
          ∧ (∀ f callers,
              later.Calls f [] callers
              → later.step = .running { later with frames := f.chunk.toList :: callers })
          ∧ ∀ limit last,
              later.step = .stopped (.fault (.callDepth limit)) last
              ↔ limit = m.depthLimit
                ∧ later.frames.length = m.depthLimit
                ∧ ∃ f left callers,
                    later.Calls f left callers
                    ∧ left ≠ []
                    ∧ last = { later with frames := left :: callers })
      ∧ (CallsLast { m with frames := [chunk.toList] }
        → (∀ steps later,
            after steps { m with frames := [chunk.toList] } = some later
            → later.frames.length ≤ 1)
          ∧ ∀ fuel ending limit,
              m.runChunk fuel chunk = some ending
              → ending.stop ≠ some (.fault (.callDepth limit)))
      ∧ ∀ functions : Nat → Prop,
          (∀ id f, m.store.get? id = some (.func f) → functions id)
          → (∀ held ∈ chunk :: m.state.code,
              ∃ code, held.instructions = .ok code ∧ EndsWithCalls functions code)
          → CallsLast { m with frames := [chunk.toList] } := by
  have start : Disciplined { m with frames := [chunk.toList] } := ⟨room, by simp⟩
  have whole : Satisfies (fun _ => True) { m with frames := [chunk.toList] } := by
    refine .start fun held member => ?_
    obtain ⟨code, decodes⟩ := formed held member
    exact ⟨code, decodes, trivial⟩
  refine ⟨?_, ?_, ?_⟩
  · intro steps later reached
    have limit : later.depthLimit = m.depthLimit :=
      depthLimit_after (m := { m with frames := [chunk.toList] }) reached
    have disciplined := start.after reached
    have satisfies := whole.after (fun _ => trivial) reached
    rw [← limit]
    refine ⟨disciplined.bounded, ?_, ?_, ?_⟩
    · intro frame member
      exact satisfies.exists_fetch? (List.mem_of_mem_tail member)
        (disciplined.unfinished frame member)
    · intro f callers calls
      exact disciplined.step_of_lastCall calls
    · intro limit last
      exact disciplined.step_eq_callDepth_iff
  · intro callsLast
    exact ⟨fun steps later reached => callsLast.length_frames_le (Nat.le_refl 1) reached,
      fun fuel ending limit ran => callsLast.stop_ne start ran limit⟩
  · intro functions held ends
    exact callsLast_of_endsWithCalls held (.start ends)

/-- A function that only calls itself runs for ever where no more than one call may be active. -/
theorem frames_of_endless_calls
    : let compiled := Reader.fresh.compile .withBuiltins "( f ) $=f f".toList true
      ∃ chunk,
        compiled.result = .ok chunk
        ∧ CallsLast { store := compiled.store, frames := [chunk.toList], depthLimit := 1 }
        ∧ ∀ steps,
            ∃ later f,
              after (steps + 2)
                  { store := compiled.store, frames := [chunk.toList], depthLimit := 1 }
                = some later
              ∧ later.Calls f [] []
              ∧ later.frames.length = 1 := by
  have evaluated : let compiled := Reader.fresh.compile .withBuiltins "( f ) $=f f".toList true
      compiled.result = .ok ⟨#[1, 0, 0, 0, 24, 3, 0, 0, 0, 23, 2, 0, 0, 0, 23]⟩
      ∧ (Machine.state { store := compiled.store }).code = [⟨#[2, 0, 0, 0, 23]⟩]
      ∧ compiled.store.values.toList.map Value.type = List.replicate 23 .builtin ++ [.nil, .func]
      ∧ (after 2
            {
              store := compiled.store
              frames := [[1, 0, 0, 0, 24, 3, 0, 0, 0, 23, 2, 0, 0, 0, 23]]
              depthLimit := 1
            }).map (fun m => (m.frames, (m.store.get? 23).map fun v => (v.type, v.code)))
          = some ([[2, 0, 0, 0, 23]], some (.func, [⟨#[2, 0, 0, 0, 23]⟩])) := by
    refine ⟨?_, ?_, ?_, ?_⟩ <;> cbv
  intro compiled
  obtain ⟨given, held, types, second⟩ : _ ∧ _ ∧ _ ∧ _ := evaluated
  have slots : ∀ id f, compiled.store.get? id = some (.func f) → 23 ≤ id := by
    intro id f slot
    have type : (compiled.store.values.toList.map Value.type)[id]? = some .func := by
      rw [List.getElem?_map, Array.getElem?_toList]
      exact congrArg (Option.map Value.type) slot
    by_contra below
    rw [types, List.getElem?_append_left (by simpa using below),
      List.getElem?_replicate_of_lt (by omega)] at type
    cases type
  have ends : ∀ own ∈ ⟨#[1, 0, 0, 0, 24, 3, 0, 0, 0, 23, 2, 0, 0, 0, 23]⟩
        :: (Machine.state { store := compiled.store }).code,
      ∃ code, own.instructions = .ok code ∧ EndsWithCalls (23 ≤ ·) code := by
    rw [held, List.forall_mem_cons, List.forall_mem_singleton]
    exact ⟨⟨[⟨.load, 24⟩, ⟨.assign, 23⟩, ⟨.apply, 23⟩], by cbv, by simp, by simp⟩,
      ⟨[⟨.apply, 23⟩], by cbv, by simp, by simp⟩⟩
  obtain ⟨moments, _, callsLast⟩ := frames_disciplined
    (m := { store := compiled.store, depthLimit := 1 }) (Nat.le_refl 1)
    fun own member => (ends own member).imp fun _ fits => fits.1
  refine ⟨_, given, callsLast (23 ≤ ·) slots ends, ?_⟩
  obtain ⟨loop, reached, same⟩ := Option.map_eq_some_iff.mp second
  obtain ⟨frames, slot⟩ := Prod.mk.inj same
  obtain ⟨v, slot, same⟩ := Option.map_eq_some_iff.mp slot
  obtain ⟨type, code⟩ := Prod.mk.inj same
  cases v with
  | func f =>
      have calls : loop.Calls f [] [] := by
        refine ⟨⟨.apply, 23⟩, by rw [frames]; rfl, ?_⟩
        have slot : loop.state.store.get? 23 = some (.func f) := slot
        simp only [State.effect, slot]
      have body : f.chunk.toList = [2, 0, 0, 0, 23] := by rw [(List.cons.inj code).1]; rfl
      have again : loop.step = .running loop := by
        rw [(moments 2 loop reached).2.2.1 f [] calls, body, ← frames]
      intro steps
      refine ⟨loop, f, ?_, calls, by rw [frames]; rfl⟩
      induction steps with
      | zero => exact reached
      | succ steps ih => exact after_succ ih again
  | _ => cases type

end Machine

end StackText
