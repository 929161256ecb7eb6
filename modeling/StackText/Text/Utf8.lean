import StackText.Text.Quoted

/-! Reading bytes as UTF-8. A fault names the bytes that cannot be read: one byte that starts no
character, the bytes before the first one that does not continue a character, or all bytes of a
character that the end of the data cuts short.
-/

namespace StackText.Utf8

/-- Why bytes are not UTF-8. -/
inductive Cause where
  | invalidStart
  | invalidContinuation
  | unexpectedEnd
  deriving DecidableEq, Repr

/-- A fault in bytes: its cause, where it starts, how many bytes it spans and the first of them. -/
structure Fault where
  cause : Cause
  start : Nat
  span : Nat
  byte : UInt8
  deriving DecidableEq, Repr

/-- The wording of each cause. -/
def Cause.message : Cause → String
  | .invalidStart => "invalid start byte"
  | .invalidContinuation => "invalid continuation byte"
  | .unexpectedEnd => "unexpected end of data"

/-- A fault of one byte shows the byte; a longer one shows its first and last positions. -/
def Fault.message (fault : Fault) : String :=
  let place :=
    if fault.span = 1 then
      let byte := String.ofList (Text.hex 2 fault.byte.toNat)
      s!"byte 0x{byte} in position {fault.start}"
    else
      let last := fault.start + fault.span - 1
      s!"bytes in position {fault.start}-{last}"
  "'utf-8' codec can't decode " ++ place ++ ": " ++ fault.cause.message

/-- What a first byte announces: the payload bits it carries, the bounds on the byte after it,
and how many bytes follow that one.
-/
structure Lead where
  payload : Nat
  low : Nat
  high : Nat
  more : Nat

/-- The first bytes of characters that take more than one byte. The second byte is bounded more
closely after E0, ED, F0 and F4, so that no character has two spellings, none is a surrogate and
none lies beyond the last code point.
-/
def lead? (byte : Nat) : Option Lead :=
  if byte < 0xC2 then none
  else if byte < 0xE0 then some ⟨byte - 0xC0, 0x80, 0xBF, 0⟩
  else if byte = 0xE0 then some ⟨0, 0xA0, 0xBF, 1⟩
  else if byte = 0xED then some ⟨0xD, 0x80, 0x9F, 1⟩
  else if byte < 0xF0 then some ⟨byte - 0xE0, 0x80, 0xBF, 1⟩
  else if byte = 0xF0 then some ⟨0, 0x90, 0xBF, 2⟩
  else if byte < 0xF4 then some ⟨byte - 0xF0, 0x80, 0xBF, 2⟩
  else if byte = 0xF4 then some ⟨4, 0x80, 0x8F, 2⟩
  else none

/-- Where the reader stands: between characters, or inside one that began (taken) bytes ago with
(first), has (code) so far, bounds the next byte by (low) and (high) and needs (more) after it.
-/
inductive State where
  | between
  | inside (first : UInt8) (taken code low high more : Nat)

/-- Reads all bytes as characters, or reports the first fault. -/
def decode (bytes : List UInt8) : Except Fault (List Char) :=
  go .between 0 [] bytes
where
  /-- (go state pos done bytes) reads on at byte number (pos). -/
  go (state : State) (pos : Nat) (done : List Char) : List UInt8 → Except Fault (List Char)
    | [] =>
        match state with
        | .between => .ok done.reverse
        | .inside first taken _ _ _ _ => .error ⟨.unexpectedEnd, pos - taken, taken, first⟩
    | byte :: rest =>
        let n := byte.toNat
        match state with
        | .between =>
            if n < 0x80 then go .between (pos + 1) (Char.ofNat n :: done) rest
            else
              match lead? n with
              | none => .error ⟨.invalidStart, pos, 1, byte⟩
              | some ⟨payload, low, high, more⟩ =>
                  go (.inside byte 1 payload low high more) (pos + 1) done rest
        | .inside first taken code low high more =>
            if n < low || high < n then .error ⟨.invalidContinuation, pos - taken, taken, first⟩
            else
              let code := code * 64 + (n - 0x80)
              match more with
              | 0 => go .between (pos + 1) (Char.ofNat code :: done) rest
              | more + 1 => go (.inside first (taken + 1) code 0x80 0xBF more) (pos + 1) done rest

/-- The bytes of a text. -/
def encode (text : String) : List UInt8 :=
  text.toUTF8.toList

end StackText.Utf8
