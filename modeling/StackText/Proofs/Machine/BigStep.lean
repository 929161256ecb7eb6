import StackText.Proofs.Machine.ClosedState

/-! Execution without frames. The meaning of code is to carry out its instructions in order, where
the instructions of a called function are carried out in place. The machine keeps frames instead,
and a call from a frame with no code left replaces it; a second relation counts the frames that are
left to use, and the machine ends as it says. The two relations differ in the limit of active calls
and in nothing else.
-/

namespace StackText

/-- (Executes code s outcome last) holds if carrying out the code from a state ends in the last
state: at the end of the code if the outcome is none, else because of a stop. A called function is
carried out in place before its caller goes on.
-/
inductive Executes : List Instruction → State → Option Stop → State → Prop
  | done (s)
    : Executes [] s none s
  | next {i code s middle outcome last} (effect : s.effect i = .next middle)
    (later : Executes code middle outcome last)
    : Executes (i :: code) s outcome last
  | stop {i code s why last} (effect : s.effect i = .stop why last)
    : Executes (i :: code) s (some why) last
  | call {i code s f body middle outcome last} (effect : s.effect i = .call f)
    (decodes : f.chunk.instructions = .ok body) (inner : Executes body s none middle)
    (later : Executes code middle outcome last)
    : Executes (i :: code) s outcome last
  | callStop {i code s f body why last} (effect : s.effect i = .call f)
    (decodes : f.chunk.instructions = .ok body) (inner : Executes body s (some why) last)
    : Executes (i :: code) s (some why) last

/-- (ExecutesWithin limit room code s outcome last) is execution where so many more calls may
become active (room), and one more stops with the limit. The last instruction of some code calls
without using up room, since the caller has nothing left to do.
-/
inductive ExecutesWithin (limit : Nat)
    : Nat → List Instruction → State → Option Stop → State → Prop
  | done {room} (s)
    : ExecutesWithin limit room [] s none s
  | next {room i code s middle outcome last} (effect : s.effect i = .next middle)
    (later : ExecutesWithin limit room code middle outcome last)
    : ExecutesWithin limit room (i :: code) s outcome last
  | stop {room i code s why last} (effect : s.effect i = .stop why last)
    : ExecutesWithin limit room (i :: code) s (some why) last
  | lastCall {room i s f body outcome last} (effect : s.effect i = .call f)
    (decodes : f.chunk.instructions = .ok body)
    (inner : ExecutesWithin limit room body s outcome last)
    : ExecutesWithin limit room [i] s outcome last
  | call {room i code s f body middle outcome last} (effect : s.effect i = .call f)
    (decodes : f.chunk.instructions = .ok body) (left : code ≠ [])
    (inner : ExecutesWithin limit room body s none middle)
    (later : ExecutesWithin limit (room + 1) code middle outcome last)
    : ExecutesWithin limit (room + 1) (i :: code) s outcome last
  | callStop {room i code s f body why last} (effect : s.effect i = .call f)
    (decodes : f.chunk.instructions = .ok body) (left : code ≠ [])
    (inner : ExecutesWithin limit room body s (some why) last)
    : ExecutesWithin limit (room + 1) (i :: code) s (some why) last
  | tooDeep {i code s f} (effect : s.effect i = .call f) (left : code ≠ [])
    : ExecutesWithin limit 0 (i :: code) s (some (.fault (.callDepth limit))) s

-----------------------------------------------------------------------------------------
-- Code behind code
-----------------------------------------------------------------------------------------

/-- Code behind other code is executed from where that ends, by induction on the first. -/
theorem Executes.append {front back : List Instruction} {s middle last : State}
    {outcome : Option Stop} (first : Executes front s none middle)
    (second : Executes back middle outcome last)
    : Executes (front ++ back) s outcome last := by
  induction front generalizing s with
  | nil => cases first; exact second
  | cons i front ih =>
      cases first with
      | next effect later => exact .next effect (ih later)
      | call effect decodes inner later => exact .call effect decodes inner (ih later)

/-- Code behind code that is stopped is not reached. -/
theorem Executes.append_stop {front : List Instruction} {s last : State} {why : Stop}
    (stopped : Executes front s (some why) last) (back : List Instruction)
    : Executes (front ++ back) s (some why) last := by
  induction front generalizing s with
  | nil => cases stopped
  | cons i front ih =>
      cases stopped with
      | next effect later => exact .next effect (ih later)
      | stop effect => exact .stop effect
      | call effect decodes inner later => exact .call effect decodes inner (ih later)
      | callStop effect decodes inner => exact .callStop effect decodes inner

/-- Executing code in two parts: the first part ends and the second goes on from there, or the
first is stopped. The induction is on the first part.
-/
theorem Executes.split {front back : List Instruction} {s last : State} {outcome : Option Stop}
    (executes : Executes (front ++ back) s outcome last)
    : (∃ middle, Executes front s none middle ∧ Executes back middle outcome last)
      ∨ ∃ why, outcome = some why ∧ Executes front s (some why) last := by
  induction front generalizing s with
  | nil => exact .inl ⟨s, .done s, executes⟩
  | cons i front ih =>
      cases executes with
      | next effect later =>
          rcases ih later with ⟨middle, first, second⟩ | ⟨why, rfl, stopped⟩
          · exact .inl ⟨middle, .next effect first, second⟩
          · exact .inr ⟨why, rfl, .next effect stopped⟩
      | stop effect => exact .inr ⟨_, rfl, .stop effect⟩
      | call effect decodes inner later =>
          rcases ih later with ⟨middle, first, second⟩ | ⟨why, rfl, stopped⟩
          · exact .inl ⟨middle, .call effect decodes inner first, second⟩
          · exact .inr ⟨why, rfl, .call effect decodes inner stopped⟩
      | callStop effect decodes inner => exact .inr ⟨_, rfl, .callStop effect decodes inner⟩

/-- Calling a function comes to the same as having its instructions in place of the call. -/
theorem executes_call_iff_inlined {s last : State} {i : Instruction} {f : Function}
    {body code : List Instruction} {outcome : Option Stop} (effect : s.effect i = .call f)
    (decodes : f.chunk.instructions = .ok body)
    : Executes (i :: code) s outcome last ↔ Executes (body ++ code) s outcome last := by
  constructor
  · intro executes
    cases executes with
    | next other _ | stop other => rw [effect] at other; cases other
    | call other decodes' inner later =>
        cases effect.symm.trans other
        cases decodes.symm.trans decodes'
        exact inner.append later
    | callStop other decodes' inner =>
        cases effect.symm.trans other
        cases decodes.symm.trans decodes'
        exact inner.append_stop code
  · intro executes
    rcases executes.split with ⟨middle, inner, later⟩ | ⟨why, rfl, stopped⟩
    · exact .call effect decodes inner later
    · exact .callStop effect decodes stopped

-----------------------------------------------------------------------------------------
-- The limit
-----------------------------------------------------------------------------------------

/-- Execution that does not stop at the limit is plain execution, by induction on it. -/
theorem ExecutesWithin.executes {limit room : Nat} {code : List Instruction} {s last : State}
    {outcome : Option Stop} (within : ExecutesWithin limit room code s outcome last)
    (shallow : outcome ≠ some (.fault (.callDepth limit)))
    : Executes code s outcome last := by
  induction within with
  | done s => exact .done s
  | next effect _ ih => exact .next effect (ih shallow)
  | stop effect => exact .stop effect
  | @lastCall _ _ _ _ _ outcome _ effect decodes _ ih =>
      cases outcome with
      | none => exact .call effect decodes (ih shallow) (.done _)
      | some why => exact .callStop effect decodes (ih shallow)
  | call effect decodes _ _ _ inner later =>
      exact .call effect decodes (inner (by simp)) (later shallow)
  | callStop effect decodes _ _ ih => exact .callStop effect decodes (ih shallow)
  | tooDeep => exact absurd rfl shallow

/-- Plain execution takes place in any room, unless the limit stops it, by induction on it. -/
theorem Executes.within {code : List Instruction} {s last : State} {outcome : Option Stop}
    (executes : Executes code s outcome last) (limit room : Nat)
    : ExecutesWithin limit room code s outcome last
      ∨ ∃ deep, ExecutesWithin limit room code s (some (.fault (.callDepth limit))) deep := by
  induction executes generalizing room with
  | done s => exact .inl (.done s)
  | next effect _ ih =>
      rcases ih room with within | ⟨deep, stopped⟩
      · exact .inl (.next effect within)
      · exact .inr ⟨deep, .next effect stopped⟩
  | stop effect => exact .inl (.stop effect)
  | @call i code s f body middle outcome last effect decodes _ later ihInner ihLater =>
      by_cases left : code = []
      · subst left
        cases later
        rcases ihInner room with within | ⟨deep, stopped⟩
        · exact .inl (.lastCall effect decodes within)
        · exact .inr ⟨deep, .lastCall effect decodes stopped⟩
      · cases room with
        | zero => exact .inr ⟨s, .tooDeep effect left⟩
        | succ room =>
            rcases ihInner room with inner | ⟨deep, stopped⟩
            · rcases ihLater (room + 1) with within | ⟨deep, stopped⟩
              · exact .inl (.call effect decodes left inner within)
              · exact .inr ⟨deep, .call effect decodes left inner stopped⟩
            · exact .inr ⟨deep, .callStop effect decodes left stopped⟩
  | @callStop i code s f body why last effect decodes _ ih =>
      by_cases left : code = []
      · subst left
        rcases ih room with within | ⟨deep, stopped⟩
        · exact .inl (.lastCall effect decodes within)
        · exact .inr ⟨deep, .lastCall effect decodes stopped⟩
      · cases room with
        | zero => exact .inr ⟨s, .tooDeep effect left⟩
        | succ room =>
            rcases ih room with inner | ⟨deep, stopped⟩
            · exact .inl (.callStop effect decodes left inner)
            · exact .inr ⟨deep, .callStop effect decodes left stopped⟩

/-- Execution that does not stop at the limit takes place in more room as well, by induction on it.
-/
theorem ExecutesWithin.more {limit room : Nat} {code : List Instruction} {s last : State}
    {outcome : Option Stop} (within : ExecutesWithin limit room code s outcome last)
    (shallow : outcome ≠ some (.fault (.callDepth limit)))
    : ExecutesWithin limit (room + 1) code s outcome last := by
  induction within with
  | done s => exact .done s
  | next effect _ ih => exact .next effect (ih shallow)
  | stop effect => exact .stop effect
  | lastCall effect decodes _ ih => exact .lastCall effect decodes (ih shallow)
  | call effect decodes left _ _ inner later =>
      exact .call effect decodes left (inner (by simp)) (later shallow)
  | callStop effect decodes left _ ih => exact .callStop effect decodes left (ih shallow)
  | tooDeep => exact absurd rfl shallow

/-- Code that is executed to its end can be cut anywhere: the first part ends, and the second goes
on from there, in the same room. The induction is on the first part.
-/
theorem ExecutesWithin.split {limit room : Nat} {front back : List Instruction} {s last : State}
    (within : ExecutesWithin limit room (front ++ back) s none last)
    : ∃ middle, ExecutesWithin limit room front s none middle
        ∧ ExecutesWithin limit room back middle none last := by
  induction front generalizing s with
  | nil => exact ⟨s, .done s, within⟩
  | cons i front ih =>
      rw [List.cons_append] at within
      generalize whole : front ++ back = code at within
      cases within with
      | next effect later =>
          obtain ⟨middle, first, second⟩ := ih (whole ▸ later)
          exact ⟨middle, .next effect first, second⟩
      | lastCall effect decodes inner =>
          obtain ⟨rfl, rfl⟩ := List.append_eq_nil_iff.mp whole
          exact ⟨last, .lastCall effect decodes inner, .done last⟩
      | @call room _ _ _ _ _ middle _ _ effect decodes left inner later =>
          by_cases ends : front = []
          · -- The call was followed by the second part and is now the last of the first.
            subst ends
            obtain rfl : back = code := whole
            exact ⟨middle, .lastCall effect decodes (inner.more (by simp)), later⟩
          · obtain ⟨middle, first, second⟩ := ih (whole ▸ later)
            exact ⟨middle, .call effect decodes ends inner first, second⟩

/-- Execution keeps the state closed and the symbol table as it is, by induction on it. -/
theorem ExecutesWithin.closed {limit room : Nat} {code : List Instruction} {s last : State}
    {outcome : Option Stop} (within : ExecutesWithin limit room code s outcome last)
    (closed : s.Closed)
    : last.Closed ∧ last.store.symbols = s.store.symbols := by
  induction within with
  | done s => exact ⟨closed, rfl⟩
  | next effect _ ih =>
      obtain ⟨middle, same⟩ := closed.next effect
      obtain ⟨last, still⟩ := ih middle
      exact ⟨last, still.trans same⟩
  | stop effect => exact closed.stop effect
  | lastCall _ _ _ ih => exact ih closed
  | call _ _ _ _ _ ihInner ihLater =>
      obtain ⟨middle, same⟩ := ihInner closed
      obtain ⟨last, still⟩ := ihLater middle
      exact ⟨last, still.trans same⟩
  | callStop _ _ _ _ ih => exact ih closed
  | tooDeep => exact ⟨closed, rfl⟩

-----------------------------------------------------------------------------------------
-- The ends of runs
-----------------------------------------------------------------------------------------

namespace Machine

/-- (m.Ends ending) holds if enough steps of the machine come to the ending. -/
def Ends (m : Machine) (ending : Ending) : Prop := ∃ fuel, m.run fuel = some ending

theorem run_mono {fuel more : Nat} {m : Machine} {ending : Ending}
    (ran : m.run fuel = some ending) (enough : fuel ≤ more)
    : m.run more = some ending := by
  induction more generalizing fuel m with
  | zero => obtain rfl : fuel = 0 := by omega
            cases ran
  | succ more ih =>
      cases fuel with
      | zero => cases ran
      | succ fuel =>
          rw [run] at ran ⊢
          split at ran
          · exact ih ran (by omega)
          · exact ran
          · exact ran

theorem Ends.unique {m : Machine} {ending other : Ending} (ends : m.Ends ending)
    (also : m.Ends other)
    : ending = other := by
  obtain ⟨fuel, ran⟩ := ends
  obtain ⟨fuel', ran'⟩ := also
  have first := run_mono ran (Nat.le_max_left fuel fuel')
  have second := run_mono ran' (Nat.le_max_right fuel fuel')
  exact Option.some.inj (first.symm.trans second)

theorem ends_of_running {m next : Machine} (step : m.step = .running next) {ending : Ending}
    (ends : next.Ends ending)
    : m.Ends ending := by
  obtain ⟨fuel, ran⟩ := ends
  exact ⟨fuel + 1, by rw [run, step]; exact ran⟩

theorem ends_of_finished {m last : Machine} (step : m.step = .finished last)
    : m.Ends ⟨none, last⟩ :=
  ⟨1, by rw [run, step]⟩

theorem ends_of_stopped {m last : Machine} {why : Stop} (step : m.step = .stopped why last)
    : m.Ends ⟨some why, { last with frames := [] }⟩ :=
  ⟨1, by rw [run, step]⟩

end Machine

/-- (Resumes limit callers outcome last ending) holds if a call that is over leads to the ending:
its callers go on, unless it was stopped.
-/
def Resumes (limit : Nat) (callers : List (List Instruction))
    : Option Stop → State → Machine.Ending → Prop
  | none, last, ending => (last.calling callers limit).Ends ending
  | some why, last, ending => ending = ⟨some why, last.calling [] limit⟩

/-- The machine carries out execution with so much room, by induction on the execution, for any
callers that leave just that room.
-/
theorem ExecutesWithin.ends {limit room : Nat} {code : List Instruction} {s last : State}
    {outcome : Option Stop} (within : ExecutesWithin limit room code s outcome last)
    (fits : ∀ i ∈ code, i.id < idLimit) {callers : List (List Instruction)}
    (depth : callers.length + 1 + room = limit) {ending : Machine.Ending}
    (resumes : Resumes limit callers outcome last ending)
    : (s.calling (code :: callers) limit).Ends ending := by
  induction within generalizing callers with
  | done s => exact Machine.ends_of_running (s.step_return callers limit) resumes
  | @next room i code s middle outcome last effect _ ih =>
      have step := s.step_instruction (fits i (by simp)) code callers limit
      rw [effect] at step
      exact Machine.ends_of_running step
        (ih (fun j member => fits j (by simp [member])) depth resumes)
  | @stop room i code s why last effect =>
      have step := s.step_instruction (fits i (by simp)) code callers limit
      rw [effect] at step
      cases resumes
      exact Machine.ends_of_stopped step
  | @lastCall room i s f body outcome last effect decodes _ ih =>
      have encodes := Chunk.encodes_of_instructions decodes
      have step := s.step_instruction (fits i (by simp)) [] callers limit
      rw [effect, State.proceed, s.call_last encodes (by omega)] at step
      exact Machine.ends_of_running step (ih encodes.fits depth resumes)
  | @call room i code s f body middle outcome last effect decodes left _ _ ihInner ihLater =>
      have encodes := Chunk.encodes_of_instructions decodes
      have step := s.step_instruction (fits i (by simp)) code callers limit
      rw [effect, State.proceed, s.call_inner encodes left (by omega)] at step
      have later := ihLater (fun j member => fits j (by simp [member])) depth resumes
      exact Machine.ends_of_running step
        (ihInner encodes.fits (by simp only [List.length_cons]; omega) later)
  | @callStop room i code s f body why last effect decodes left _ ih =>
      have encodes := Chunk.encodes_of_instructions decodes
      have step := s.step_instruction (fits i (by simp)) code callers limit
      rw [effect, State.proceed, s.call_inner encodes left (by omega)] at step
      exact Machine.ends_of_running step
        (ih encodes.fits (by simp only [List.length_cons]; omega) resumes)
  | @tooDeep i code s f effect left =>
      have step := s.step_instruction (fits i (by simp)) code callers limit
      rw [effect, State.proceed, s.call_tooDeep f left (by omega)] at step
      cases resumes
      exact Machine.ends_of_stopped step

-----------------------------------------------------------------------------------------
-- From runs to execution
-----------------------------------------------------------------------------------------

/-- Execution of the code of all active calls, the innermost first, each with the room that its
callers leave.
-/
inductive ExecutesFrames (limit : Nat)
    : List (List Instruction) → State → Option Stop → State → Prop
  | finished (s)
    : ExecutesFrames limit [] s none s
  | returns {room code callers s middle outcome last}
    (depth : callers.length + 1 + room = limit)
    (inner : ExecutesWithin limit room code s none middle)
    (later : ExecutesFrames limit callers middle outcome last)
    : ExecutesFrames limit (code :: callers) s outcome last
  | stops {room code callers s why last} (depth : callers.length + 1 + room = limit)
    (inner : ExecutesWithin limit room code s (some why) last)
    : ExecutesFrames limit (code :: callers) s (some why) last

namespace ExecutesFrames

variable {limit : Nat} {i : Instruction} {f : Function} {body code : List Instruction}
  {callers : List (List Instruction)} {s middle last : State} {outcome : Option Stop}

theorem next (effect : s.effect i = .next middle)
    (later : ExecutesFrames limit (code :: callers) middle outcome last)
    : ExecutesFrames limit ((i :: code) :: callers) s outcome last := by
  cases later with
  | returns depth inner later => exact .returns depth (.next effect inner) later
  | stops depth inner => exact .stops depth (.next effect inner)

theorem lastCall (effect : s.effect i = .call f) (decodes : f.chunk.instructions = .ok body)
    (later : ExecutesFrames limit (body :: callers) s outcome last)
    : ExecutesFrames limit ([i] :: callers) s outcome last := by
  cases later with
  | returns depth inner later => exact .returns depth (.lastCall effect decodes inner) later
  | stops depth inner => exact .stops depth (.lastCall effect decodes inner)

theorem call (effect : s.effect i = .call f) (decodes : f.chunk.instructions = .ok body)
    (left : code ≠ [])
    (later : ExecutesFrames limit (body :: code :: callers) s outcome last)
    : ExecutesFrames limit ((i :: code) :: callers) s outcome last := by
  cases later with
  | @returns room _ _ _ _ _ _ depth inner later =>
      simp only [List.length_cons] at depth
      cases later with
      | @returns outside _ _ _ _ _ _ below rest later =>
          obtain rfl : outside = room + 1 := by omega
          exact .returns below (.call effect decodes left inner rest) later
      | @stops outside _ _ _ _ _ below rest =>
          obtain rfl : outside = room + 1 := by omega
          exact .stops below (.call effect decodes left inner rest)
  | @stops room _ _ _ _ _ depth inner =>
      simp only [List.length_cons] at depth
      exact .stops (by omega) (.callStop effect decodes left inner)

end ExecutesFrames

/-- What holds between the steps of a run: the state is closed, so that every called function
decodes, all code is made of instructions, and no more calls are active than may be.
-/
structure Framed (limit : Nat) (frames : List (List Instruction)) (s : State) : Prop where
  closed : s.Closed
  fits : ∀ code ∈ frames, ∀ i ∈ code, i.id < idLimit
  depth : frames.length ≤ limit

/-- The next instruction of the innermost call stops the run, or leads to frames whose execution
is the execution of the frames before.
-/
theorem Framed.instruction {limit : Nat} {i : Instruction} {code : List Instruction}
    {callers : List (List Instruction)} {s : State}
    (framed : Framed limit ((i :: code) :: callers) s)
    : (∃ why last,
        s.proceed (code :: callers) limit (s.effect i)
          = .stopped why (last.calling (code :: callers) limit)
        ∧ ExecutesFrames limit ((i :: code) :: callers) s (some why) last)
      ∨ ∃ frames next,
          s.proceed (code :: callers) limit (s.effect i) = .running (next.calling frames limit)
          ∧ Framed limit frames next
          ∧ ∀ outcome last, ExecutesFrames limit frames next outcome last
              → ExecutesFrames limit ((i :: code) :: callers) s outcome last := by
  obtain ⟨closed, fits, depth⟩ := framed
  have room : callers.length + 1 + (limit - (callers.length + 1)) = limit := by
    simp only [List.length_cons] at depth
    omega
  have rest : ∀ code' ∈ code :: callers, ∀ j ∈ code', j.id < idLimit := by
    obtain ⟨here, below⟩ := List.forall_mem_cons.mp fits
    exact List.forall_mem_cons.mpr ⟨(List.forall_mem_cons.mp here).2, below⟩
  cases effect : s.effect i with
  | next middle =>
      exact .inr ⟨code :: callers, middle, rfl, ⟨(closed.next effect).1, rest, depth⟩,
        fun _ _ later => .next effect later⟩
  | stop why last => exact .inl ⟨why, last, rfl, .stops room (.stop effect)⟩
  | call f =>
      obtain ⟨body, encodes, _⟩ := closed.call effect
      have decodes := encodes.instructions_eq
      by_cases left : code = []
      · subst left
        refine .inr ⟨body :: callers, s, s.call_last encodes (by omega), ⟨closed, ?_, depth⟩,
          fun _ _ later => .lastCall effect decodes later⟩
        exact List.forall_mem_cons.mpr ⟨encodes.fits, (List.forall_mem_cons.mp rest).2⟩
      · by_cases full : limit = callers.length + 1
        · exact .inl ⟨_, s, s.call_tooDeep f left full,
            .stops (by omega) (.tooDeep effect left)⟩
        · refine .inr ⟨body :: code :: callers, s, s.call_inner encodes left (by omega),
            ⟨closed, List.forall_mem_cons.mpr ⟨encodes.fits, rest⟩, ?_⟩,
            fun _ _ later => .call effect decodes left later⟩
          simp only [List.length_cons] at depth ⊢
          omega

/-- What the machine does to its frames is execution of them, by induction on the steps. -/
theorem Framed.executes {limit fuel : Nat} {frames : List (List Instruction)} {s : State}
    (framed : Framed limit frames s) {ending : Machine.Ending}
    (ran : (s.calling frames limit).run fuel = some ending)
    : ∃ last, ending.machine = last.calling [] limit
        ∧ ExecutesFrames limit frames s ending.stop last := by
  induction fuel generalizing frames s with
  | zero => cases ran
  | succ fuel ih =>
      rw [Machine.run] at ran
      match frames with
      | [] => cases ran; exact ⟨s, rfl, .finished s⟩
      | [] :: callers =>
          obtain ⟨closed, fits, depth⟩ := framed
          simp only [List.length_cons] at depth
          obtain ⟨last, machine, later⟩ :=
            ih ⟨closed, (List.forall_mem_cons.mp fits).2, by omega⟩ ran
          have room : callers.length + 1 + (limit - (callers.length + 1)) = limit := by omega
          exact ⟨last, machine, .returns room (.done s) later⟩
      | (i :: code) :: callers =>
          rw [s.step_instruction (framed.fits (i :: code) (by simp) i (by simp))] at ran
          rcases framed.instruction with ⟨why, last, stops, executes⟩ | ⟨_, _, runs, framed', back⟩
          · rw [stops] at ran
            cases ran
            exact ⟨last, rfl, executes⟩
          · rw [runs] at ran
            obtain ⟨last, machine, later⟩ := ih framed' ran
            exact ⟨last, machine, back _ _ later⟩

/-- A run of some code ends with no call active, and its end is that of executing the code with as
much room as one active call leaves.
-/
theorem executesWithin_of_run {limit fuel : Nat} (room : 0 < limit) {s : State}
    (closed : s.Closed) {code : List Instruction} (fits : ∀ i ∈ code, i.id < idLimit)
    {ending : Machine.Ending} (ran : (s.calling [code] limit).run fuel = some ending)
    : ∃ last, ending.machine = last.calling [] limit
        ∧ ExecutesWithin limit (limit - 1) code s ending.stop last := by
  have framed : Framed limit [code] s := ⟨closed, by simpa using fits, room⟩
  obtain ⟨last, machine, executes⟩ := framed.executes ran
  refine ⟨last, machine, ?_⟩
  generalize ending.stop = outcome at executes
  cases executes with
  | @returns inner _ _ _ _ _ _ depth within later =>
      cases later
      obtain rfl : inner = limit - 1 := by simp only [List.length_nil] at depth; omega
      exact within
  | @stops inner _ _ _ _ _ depth within =>
      obtain rfl : inner = limit - 1 := by simp only [List.length_nil] at depth; omega
      exact within

/-- Executing some code with as much room as one active call leaves is what a run of it comes to.
-/
theorem ExecutesWithin.runs {limit : Nat} (room : 0 < limit) {code : List Instruction}
    {s last : State} {outcome : Option Stop}
    (within : ExecutesWithin limit (limit - 1) code s outcome last)
    (fits : ∀ i ∈ code, i.id < idLimit)
    : (s.calling [code] limit).Ends ⟨outcome, last.calling [] limit⟩ := by
  refine within.ends fits (by simp only [List.length_nil]; omega) ?_
  cases outcome with
  | none => exact Machine.ends_of_finished (last.step_finished limit)
  | some why => rfl

end StackText
