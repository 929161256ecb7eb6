import Mathlib
import StackText.Proofs.Service.Framing

/-! Where a stream is cut into pieces makes no difference to the connection that receives it:
neither to its end nor to anything it does on the way there.
-/

namespace StackText.Connection

/-- Takes the whole lines off a buffer one after another, until the connection is over. What is left
behind the last line feed is kept.
-/
def drain (fuel : Nat) (connection : Connection) (buffer : List UInt8) : Option Connection :=
  match _cut : buffer.span (· ≠ 0xA) with
  | (_, []) => some { connection with line := buffer.reverse }
  | (line, _ :: rest) =>
      match { connection with line := [] }.takeLine fuel (strip line) with
      | none => none
      | some next => if next.ended.isSome then some next else drain fuel next rest
termination_by buffer.length
decreasing_by
  rw [List.span_eq_takeWhile_dropWhile] at _cut
  have shorter := (List.dropWhile_suffix (l := buffer) (· ≠ 0xA)).length_le
  rw [(Prod.mk.inj _cut).2, List.length_cons] at shorter
  omega

/-- Receives pieces by putting each behind what is kept and draining the whole. -/
def receiveBuffered (fuel : Nat) (connection : Connection)
    : List (List UInt8) → Option (Connection × Nat)
  | [] => some (connection, 0)
  | piece :: rest =>
      if piece.isEmpty then some (connection, rest.length)
      else
        match connection.drain fuel (connection.line.reverse ++ piece) with
        | none => none
        | some connection =>
            if connection.ended.isSome then some (connection, rest.length)
            else connection.receiveBuffered fuel rest

/-- (Visits fuel connection pieces moment) holds if a connection that receives the pieces is at the
moment once it has taken some of their bytes, whether or not it comes to an end.
-/
inductive Visits (fuel : Nat) : Connection → List (List UInt8) → Connection → Prop
  | start {connection pieces}
    : Visits fuel connection pieces connection
  | within {connection piece rest front moment} (begins : front <+: piece)
    (took : front.foldlM (takeByte fuel) connection = some moment)
    : Visits fuel connection (piece :: rest) moment
  | later {connection piece rest next moment} (filled : piece ≠ [])
    (took : piece.foldlM (takeByte fuel) connection = some next) (going : next.ended = none)
    (visits : Visits fuel next rest moment)
    : Visits fuel connection (piece :: rest) moment

variable {fuel : Nat} {connection next moment : Connection} {pieces others : List (List UInt8)}

-----------------------------------------------------------------------------------------
-- Whole lines of a buffer
-----------------------------------------------------------------------------------------

theorem ne_lineFeed {line : List UInt8} (unbroken : 0xA ∉ line)
    : ∀ byte ∈ line, decide (byte ≠ 0xA) = true := by
  intro byte member
  exact decide_eq_true fun same => unbroken (same ▸ member)

theorem drain_of_unbroken {buffer : List UInt8} (unbroken : 0xA ∉ buffer)
    : connection.drain fuel buffer = some { connection with line := buffer.reverse } := by
  have whole : buffer.span (· ≠ 0xA) = (buffer, []) := by
    rw [List.span_eq_takeWhile_dropWhile,
      List.takeWhile_eq_self_iff.mpr (ne_lineFeed unbroken),
      List.dropWhile_eq_nil_iff.mpr (ne_lineFeed unbroken)]
  rw [drain]
  split
  · rfl
  · next cut => cases whole.symm.trans cut

theorem drain_append_lineFeed {line : List UInt8} (unbroken : 0xA ∉ line) (rest : List UInt8)
    : connection.drain fuel (line ++ 0xA :: rest)
      = ({ connection with line := [] }.takeLine fuel (strip line)).bind fun next =>
          if next.ended.isSome then some next else next.drain fuel rest := by
  have cut : (line ++ 0xA :: rest).span (· ≠ 0xA) = (line, 0xA :: rest) := by
    rw [List.span_eq_takeWhile_dropWhile, List.takeWhile_append_of_pos (ne_lineFeed unbroken),
      List.dropWhile_append_of_pos (ne_lineFeed unbroken)]
    simp
  rw [drain]
  split
  · next other => cases cut.symm.trans other
  · next same =>
      cases cut.symm.trans same
      cases { connection with line := [] }.takeLine fuel (strip line) <;> rfl

/-- Draining looks at the buffer only, not at what the connection kept. -/
theorem drain_withLine (connection : Connection) (line buffer : List UInt8)
    : { connection with line }.drain fuel buffer = connection.drain fuel buffer := by
  rw [drain, drain.eq_def _ connection]

/-- Taking the bytes of a piece one by one is draining what is kept together with the piece, by
induction on the bytes.
-/
theorem foldlM_takeByte_eq_drain (going : connection.ended = none)
    (unbroken : 0xA ∉ connection.line) (piece : List UInt8)
    : piece.foldlM (takeByte fuel) connection
      = connection.drain fuel (connection.line.reverse ++ piece) := by
  induction piece generalizing connection with
  | nil =>
      rw [List.append_nil, drain_of_unbroken (by simpa using unbroken), List.reverse_reverse]
      rfl
  | cons byte piece ih =>
      rw [List.foldlM_cons, takeByte, if_neg (by simp [going])]
      by_cases feed : byte = 0xA
      · subst feed
        rw [if_pos rfl, drain_append_lineFeed (by simpa using unbroken)]
        cases took : { connection with line := [] }.takeLine fuel
          (strip connection.line.reverse) with
        | none => rfl
        | some next =>
            show piece.foldlM (takeByte fuel) next = if next.ended.isSome then _ else _
            split
            · next ended => exact foldlM_takeByte_of_ended ended piece
            · next going =>
                have empty : next.line = [] := line_takeLine took
                have rest := @ih next (by simpa using going) (by simp [empty])
                rw [empty] at rest
                exact rest
      · rw [if_neg feed]
        have rest := @ih { connection with line := byte :: connection.line } going
          (by simp [unbroken, Ne.symm feed])
        rw [List.reverse_cons, List.append_assoc, drain_withLine] at rest
        exact rest

theorem unbroken_takeByte {byte : UInt8} (unbroken : 0xA ∉ connection.line)
    (took : connection.takeByte fuel byte = some next)
    : 0xA ∉ next.line := by
  rw [takeByte] at took
  split at took
  · cases took; exact unbroken
  · split at took
    · have empty : next.line = [] := line_takeLine took
      simp [empty]
    · next other => cases took; simp [unbroken, Ne.symm other]

theorem unbroken_foldlM {piece : List UInt8} (unbroken : 0xA ∉ connection.line)
    (took : piece.foldlM (takeByte fuel) connection = some next)
    : 0xA ∉ next.line := by
  induction piece generalizing connection with
  | nil => cases took; exact unbroken
  | cons byte piece ih =>
      rw [List.foldlM_cons] at took
      obtain ⟨middle, first, rest⟩ := Option.bind_eq_some_iff.mp took
      exact ih (unbroken_takeByte unbroken first) rest

/-- Receiving pieces is draining each behind what is kept, by induction on the pieces. -/
theorem receive_eq_receiveBuffered (going : connection.ended = none)
    (unbroken : 0xA ∉ connection.line) (pieces : List (List UInt8))
    : connection.receive fuel pieces = connection.receiveBuffered fuel pieces := by
  induction pieces generalizing connection with
  | nil => rfl
  | cons piece pieces ih =>
      rw [receive, receiveBuffered, ← foldlM_takeByte_eq_drain going unbroken]
      cases took : piece.foldlM (takeByte fuel) connection with
      | none => rfl
      | some next =>
          simp only
          split
          · rfl
          · split
            · rfl
            · next going => exact ih (by simpa using going) (unbroken_foldlM unbroken took)

-----------------------------------------------------------------------------------------
-- The way through a stream
-----------------------------------------------------------------------------------------

/-- The moments of a connection are those that its bytes lead to one by one. Witness: induction on
the visit, and on the pieces; a connection that is over stays where it is.
-/
theorem visits_iff (nonempty : ∀ piece ∈ pieces, piece ≠ [])
    : Visits fuel connection pieces moment
      ↔ ∃ front, front <+: pieces.flatten
          ∧ front.foldlM (takeByte fuel) connection = some moment := by
  constructor
  · intro visits
    induction visits with
    | start => exact ⟨[], List.nil_prefix, rfl⟩
    | @within connection piece rest front moment begins took =>
        exact ⟨front, begins.trans (List.prefix_append piece rest.flatten), took⟩
    | @later connection piece rest next moment _ took _ _ ih =>
        obtain ⟨front, begins, onward⟩ := ih (List.forall_mem_cons.mp nonempty).2
        refine ⟨piece ++ front, (List.prefix_append_right_inj piece).mpr begins, ?_⟩
        rw [List.foldlM_append, took]
        exact onward
  · rintro ⟨front, begins, took⟩
    induction pieces generalizing connection front with
    | nil =>
        cases List.prefix_nil.mp begins
        cases took
        exact .start
    | cons piece rest ih =>
        obtain ⟨here, later⟩ := List.forall_mem_cons.mp nonempty
        rcases List.prefix_or_prefix_of_prefix begins (List.prefix_append piece rest.flatten)
          with inside | ⟨beyond, rfl⟩
        · exact .within inside took
        · rw [List.foldlM_append] at took
          obtain ⟨next, whole, onward⟩ := Option.bind_eq_some_iff.mp took
          by_cases ended : next.ended.isSome = true
          · rw [foldlM_takeByte_of_ended ended] at onward
            cases onward
            exact .within List.prefix_rfl whole
          · have behind := (List.prefix_append_right_inj piece).mp begins
            exact .later here whole (by simpa using ended) (ih later beyond behind onward)

/-- Bytes without a line feed, and all bytes once a connection is over, change at most what is kept
of a line, by induction on them.
-/
theorem foldlM_takeByte_of_idle {bytes : List UInt8} (connection : Connection)
    (idle : 0xA ∉ bytes ∨ connection.ended.isSome = true)
    : ∃ next,
        bytes.foldlM (takeByte fuel) connection = some next
        ∧ next.forgetLine = connection.forgetLine := by
  induction bytes generalizing connection with
  | nil => exact ⟨connection, rfl, rfl⟩
  | cons byte bytes ih =>
      by_cases ended : connection.ended.isSome = true
      · exact ⟨connection, foldlM_takeByte_of_ended ended _, rfl⟩
      · obtain ⟨other, later⟩ := List.ne_and_not_mem_of_not_mem_cons (idle.resolve_right ended)
        obtain ⟨next, took, same⟩ :=
          ih { connection with line := byte :: connection.line } (.inl later)
        refine ⟨next, ?_, same⟩
        rw [List.foldlM_cons, takeByte, if_neg ended, if_neg (Ne.symm other)]
        exact took

-----------------------------------------------------------------------------------------
-- Pieces of one stream
-----------------------------------------------------------------------------------------

/-- (Idle fuel service pieces tail) holds if there is nothing left to do for a tail behind the
pieces: it has no line feed, or the connection is over before it.
-/
def Idle (fuel : Nat) (service : Service) (pieces : List (List UInt8)) (tail : List UInt8) : Prop :=
  0xA ∉ tail
  ∨ ∃ connection unread,
      receive fuel { service } pieces = some (connection, unread)
      ∧ connection.ended.isSome = true

section IdleTail

variable {service : Service} {tail : List UInt8} (idle : Idle fuel service pieces tail)
  (nonempty : ∀ piece ∈ pieces, piece ≠ []) (filled : ∀ piece ∈ others, piece ≠ [])
  (longer : others.flatten = pieces.flatten ++ tail)

include idle nonempty

theorem Idle.foldlM_takeByte
    (took : pieces.flatten.foldlM (takeByte fuel) { service } = some connection)
    {part : List UInt8} (begins : part <+: tail)
    : ∃ next,
        part.foldlM (takeByte fuel) connection = some next
        ∧ next.forgetLine = connection.forgetLine := by
  refine foldlM_takeByte_of_idle connection ?_
  rcases idle with unbroken | ⟨last, unread, received, ended⟩
  · exact .inl fun member => unbroken (begins.subset member)
  · have same := @receive_eq_foldlM fuel pieces nonempty { service }
    rw [received, took] at same
    cases same
    exact .inr ended

include filled longer

/-- An idle tail leaves the end as it is. -/
theorem Idle.receive_eq
    : (receive fuel { service } others).map (·.1.forgetLine)
      = (receive fuel { service } pieces).map (·.1.forgetLine) := by
  have forgets : ∀ received : Option (Connection × Nat),
      received.map (·.1.forgetLine) = (received.map Prod.fst).map forgetLine :=
    fun received => (Option.map_map forgetLine Prod.fst received).symm
  rw [forgets, forgets, receive_eq_foldlM filled, receive_eq_foldlM nonempty, longer,
    List.foldlM_append]
  cases took : pieces.flatten.foldlM (takeByte fuel) { service } with
  | none => rfl
  | some connection =>
      obtain ⟨next, onward, same⟩ := idle.foldlM_takeByte nonempty took List.prefix_rfl
      show Option.map forgetLine (tail.foldlM (takeByte fuel) connection) = _
      rw [onward, Option.map_some, same, Option.map_some]

/-- An idle tail adds no moment, but for the bytes that are kept. -/
theorem Idle.visits_iff (shown : Connection)
    : (∃ moment, Visits fuel { service } others moment ∧ moment.forgetLine = shown)
      ↔ ∃ moment, Visits fuel { service } pieces moment ∧ moment.forgetLine = shown := by
  simp only [Connection.visits_iff filled, Connection.visits_iff nonempty, longer]
  constructor
  · rintro ⟨moment, ⟨front, begins, took⟩, rfl⟩
    rcases List.prefix_or_prefix_of_prefix begins (List.prefix_append pieces.flatten tail)
      with inside | ⟨part, rfl⟩
    · exact ⟨moment, ⟨front, inside, took⟩, rfl⟩
    · rw [List.foldlM_append] at took
      obtain ⟨connection, first, onward⟩ := Option.bind_eq_some_iff.mp took
      have behind := (List.prefix_append_right_inj pieces.flatten).mp begins
      obtain ⟨next, same, forgotten⟩ := idle.foldlM_takeByte nonempty first behind
      cases same.symm.trans onward
      exact ⟨connection, ⟨pieces.flatten, List.prefix_rfl, first⟩, forgotten.symm⟩
  · rintro ⟨moment, ⟨front, begins, took⟩, rfl⟩
    exact ⟨moment, ⟨front, begins.trans (List.prefix_append _ tail), took⟩, rfl⟩

end IdleTail

/-- How a stream is cut into pieces makes no difference. Whatever state a service is in, each piece
is put behind the bytes that are kept, and whole lines are taken off. Two ways to cut one stream, be
it inside a line or inside a character, come to the same connection: the same replies in the same
order, the same end or fault if there is one, the same service, or none if a request runs forever.
They also go through the same moments, so the replies before such a request are the same. Bytes
behind the last line feed and all bytes behind the end of a connection have no effect but to be
kept. Witness: pieces are taken byte by byte, so that only their concatenation matters.
-/
theorem cut_makes_no_difference (service : Service) (nonempty : ∀ piece ∈ pieces, piece ≠ [])
    (filled : ∀ piece ∈ others, piece ≠ []) (fuel : Nat)
    : receive fuel { service } pieces = receiveBuffered fuel { service } pieces
      ∧ (others.flatten = pieces.flatten
          → (receive fuel { service } others).map Prod.fst
              = (receive fuel { service } pieces).map Prod.fst
            ∧ ∀ moment,
                Visits fuel { service } others moment ↔ Visits fuel { service } pieces moment)
      ∧ ∀ tail,
          others.flatten = pieces.flatten ++ tail
          → Idle fuel service pieces tail
          → (receive fuel { service } others).map (·.1.forgetLine)
              = (receive fuel { service } pieces).map (·.1.forgetLine)
            ∧ ∀ shown,
                (∃ moment, Visits fuel { service } others moment ∧ moment.forgetLine = shown)
                ↔ ∃ moment, Visits fuel { service } pieces moment ∧ moment.forgetLine = shown := by
  refine ⟨receive_eq_receiveBuffered rfl (by simp) pieces, ?_, ?_⟩
  · intro same
    refine ⟨by rw [receive_eq_foldlM filled, receive_eq_foldlM nonempty, same], fun moment => ?_⟩
    rw [visits_iff filled, visits_iff nonempty, same]
  · intro tail longer idle
    exact ⟨idle.receive_eq nonempty filled longer, idle.visits_iff nonempty filled longer⟩

/-- A stream that is cut inside a character comes to the same reply as one that goes on behind its
exit and is cut elsewhere.
-/
theorem cut_inside_character
    : let stream := Utf8.encode "\x7b\"cmd\": \"eval\", \"code\": \"'é' 7 exit\"\x7d\n"
      let reply := "\x7b\"ok\": true, \"exit\": 7, \"output\": \"\", "
        ++ "\"stack\": [\"\\u00e9\", \"7\"]\x7d\n"
      (stream.take 27).getLast? = some 0xC3
      ∧ (receive 20 { service := Service.new [] } [stream.take 27, stream.drop 27]).map
          (·.1.forgetLine.sent) = some [reply]
      ∧ (receive 20 { service := Service.new [] } [stream ++ [0x35], [0xA, 0x36]]).map
          (·.1.forgetLine.sent) = some [reply] := by
  intro stream reply
  have came : (receive 20 { service := Service.new [] } [stream.take 27, stream.drop 27]).map
        (fun received => (received.1.forgetLine.sent, received.1.ended))
      = some ([reply], some .hungUp) := by
    simp only [stream, reply]
    cbv
  obtain ⟨⟨connection, unread⟩, received, same⟩ := Option.map_eq_some_iff.mp came
  obtain ⟨sent, ended⟩ := Prod.mk.inj same
  have nonempty : ∀ piece ∈ [stream.take 27, stream.drop 27], piece ≠ [] := by
    have all : [stream.take 27, stream.drop 27].all (!·.isEmpty) = true := by
      simp only [stream]
      cbv
    intro piece member
    simpa using List.all_eq_true.mp all piece member
  obtain ⟨_, _, tails⟩ := @cut_makes_no_difference _ [stream ++ [0x35], [0xA, 0x36]]
    (Service.new []) nonempty (by simp) 20
  have idle : Idle 20 (Service.new []) [stream.take 27, stream.drop 27] [0x35, 0xA, 0x36] :=
    .inr ⟨connection, unread, received, by rw [ended]; rfl⟩
  obtain ⟨unchanged, _⟩ := tails [0x35, 0xA, 0x36] (by simp) idle
  have last := congrArg (Option.map Connection.sent) unchanged
  rw [received, Option.map_map] at last
  refine ⟨?_, by rw [received]; exact congrArg some sent, ?_⟩
  · simp only [stream]
    cbv
  · exact last.trans (congrArg some sent)

end StackText.Connection
