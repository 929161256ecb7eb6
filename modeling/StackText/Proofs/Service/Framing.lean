import StackText.Service

/-! A connection is told by the lines of its stream: how the stream was cut into pieces, blank lines
and the bytes behind the last line feed make no difference to it.
-/

namespace StackText.Connection

/-- The requests in a stream: its whole lines, without the blanks at their ends, but for those that
are empty then.
-/
def requestLines (stream : List UInt8) : List (List UInt8) :=
  ((stream.splitOn 0xA).dropLast.map strip).filter (!·.isEmpty)

/-- Takes a whole line, unless the connection is over. -/
def offerLine (fuel : Nat) (connection : Connection) (line : List UInt8) : Option Connection :=
  if connection.ended.isSome then some connection else connection.takeLine fuel line

/-- The connection without what it has received of a line. -/
def forgetLine (connection : Connection) : Connection := { connection with line := [] }

variable {fuel : Nat} {connection next : Connection}

-----------------------------------------------------------------------------------------
-- Connections that are over
-----------------------------------------------------------------------------------------

theorem foldlM_takeByte_of_ended (ended : connection.ended.isSome = true) (bytes : List UInt8)
    : bytes.foldlM (takeByte fuel) connection = some connection := by
  induction bytes with
  | nil => rfl
  | cons byte bytes ih =>
      rw [List.foldlM_cons, takeByte, if_pos ended]
      exact ih

theorem foldlM_offerLine_of_ended (ended : connection.ended.isSome = true)
    (lines : List (List UInt8))
    : lines.foldlM (offerLine fuel) connection = some connection := by
  induction lines with
  | nil => rfl
  | cons line lines ih =>
      rw [List.foldlM_cons, offerLine, if_pos ended]
      exact ih

-----------------------------------------------------------------------------------------
-- From pieces to bytes
-----------------------------------------------------------------------------------------

/-- Receiving pieces is taking their bytes one by one, by induction on the pieces. -/
theorem receive_eq_foldlM {pieces : List (List UInt8)} (nonempty : ∀ piece ∈ pieces, piece ≠ [])
    (connection : Connection)
    : (connection.receive fuel pieces).map Prod.fst
      = pieces.flatten.foldlM (takeByte fuel) connection := by
  induction pieces generalizing connection with
  | nil => rfl
  | cons piece pieces ih =>
      obtain ⟨here, later⟩ := List.forall_mem_cons.mp nonempty
      have filled : piece.isEmpty = false := by simpa using here
      rw [receive, if_neg (by simp [filled]), List.flatten_cons, List.foldlM_append]
      cases piece.foldlM (takeByte fuel) connection with
      | none => rfl
      | some next =>
          show Option.map Prod.fst (if next.ended.isSome then _ else _)
            = pieces.flatten.foldlM (takeByte fuel) next
          split
          · next ended => exact (foldlM_takeByte_of_ended ended _).symm
          · exact ih later next

-----------------------------------------------------------------------------------------
-- From bytes to lines
-----------------------------------------------------------------------------------------

@[simp] theorem line_meet (connection : Connection) (fault : RequestFault)
    : (connection.meet fault).line = connection.line := by
  rw [meet]
  split <;> rfl

theorem line_takeLine {line : List UInt8} (took : connection.takeLine fuel line = some next)
    : next.line = connection.line := by
  rw [takeLine] at took
  split at took
  · cases took; rfl
  · split at took
    · cases took; exact line_meet ..
    · split at took
      · cases took
      · cases took; rfl
      · cases took; exact line_meet ..

/-- What was received of a line makes the first line with the bytes up to a line feed. -/
theorem lines_append_lineFeed {received : List UInt8} (unbroken : 0xA ∉ received)
    (bytes : List UInt8)
    : ((received ++ 0xA :: bytes).splitOn 0xA).dropLast
      = received :: (bytes.splitOn 0xA).dropLast := by
  rw [List.splitOn_append_cons_self_of_not_mem unbroken,
    List.dropLast_cons_of_ne_nil (List.splitOn_ne_nil _ _)]

/-- Bytes come to the whole lines that they make with what was received before, by induction on
them.
-/
theorem foldlM_takeByte (connection : Connection) (unbroken : 0xA ∉ connection.line)
    (bytes : List UInt8)
    : (bytes.foldlM (takeByte fuel) connection).map forgetLine
      = (((connection.line.reverse ++ bytes).splitOn 0xA).dropLast.map strip).foldlM
          (offerLine fuel) connection.forgetLine := by
  induction bytes generalizing connection with
  | nil =>
      have whole : (connection.line.reverse ++ []).splitOn 0xA = [connection.line.reverse] := by
        rw [List.append_nil]
        exact List.splitOn_eq_singleton (by simpa using unbroken)
      rw [whole]
      rfl
  | cons byte bytes ih =>
      by_cases ended : connection.ended.isSome = true
      · rw [foldlM_takeByte_of_ended ended]
        have stopped : connection.forgetLine.ended.isSome = true := ended
        exact (foldlM_offerLine_of_ended stopped _).symm
      rw [List.foldlM_cons, takeByte, if_neg ended]
      by_cases feed : byte = 0xA
      · subst feed
        rw [if_pos rfl, lines_append_lineFeed (by simpa using unbroken), List.map_cons,
          List.foldlM_cons, offerLine, if_neg (show ¬connection.forgetLine.ended.isSome from ended)]
        show Option.map _ (Option.bind (connection.forgetLine.takeLine fuel _) _)
          = Option.bind (connection.forgetLine.takeLine fuel _) _
        cases took : connection.forgetLine.takeLine fuel (strip connection.line.reverse) with
        | none => rfl
        | some next =>
            have empty : next.line = [] := line_takeLine took
            have fresh : next.forgetLine = next := by rw [forgetLine, ← empty]
            have rest := ih next (by simp [empty])
            rw [empty, fresh] at rest
            exact rest
      · rw [if_neg feed]
        have rest := ih { connection with line := byte :: connection.line }
          (by simp [unbroken, Ne.symm feed])
        rw [List.reverse_cons, List.append_assoc] at rest
        exact rest

-----------------------------------------------------------------------------------------
-- Streams
-----------------------------------------------------------------------------------------

/-- Empty lines are passed over, by induction on the lines. -/
theorem foldlM_offerLine_filter (lines : List (List UInt8)) (connection : Connection)
    : (lines.filter (!·.isEmpty)).foldlM (offerLine fuel) connection
      = lines.foldlM (offerLine fuel) connection := by
  induction lines generalizing connection with
  | nil => rfl
  | cons line lines ih =>
      cases line with
      | nil =>
          have passed : offerLine fuel connection [] = some connection := by
            rw [offerLine]
            split <;> rfl
          rw [List.foldlM_cons, passed]
          exact ih connection
      | cons byte line =>
          simp only [List.filter_cons, List.isEmpty_cons, Bool.not_false, if_true,
            List.foldlM_cons, ih]

/-- A new connection takes the requests in its stream one after another, however that is cut. -/
theorem receive_eq_requestLines {pieces : List (List UInt8)}
    (nonempty : ∀ piece ∈ pieces, piece ≠ []) (fuel : Nat) (service : Service)
    : (receive fuel { service } pieces).map (fun received => received.1.forgetLine)
      = (requestLines pieces.flatten).foldlM (offerLine fuel) { service } := by
  calc (receive fuel { service } pieces).map (fun received => received.1.forgetLine)
      = ((receive fuel { service } pieces).map Prod.fst).map forgetLine :=
        (Option.map_map forgetLine Prod.fst _).symm
    _ = (pieces.flatten.foldlM (takeByte fuel) { service }).map forgetLine := by
        rw [receive_eq_foldlM nonempty]
    _ = ((pieces.flatten.splitOn 0xA).dropLast.map strip).foldlM (offerLine fuel) { service } :=
        foldlM_takeByte { service } (by simp) pieces.flatten
    _ = (requestLines pieces.flatten).foldlM (offerLine fuel) { service } :=
        (foldlM_offerLine_filter _ _).symm

end StackText.Connection
