import MlogAsm.Text.Quoted

/-!
# UTF-8

Decoding of bytes to characters, one byte at a time. Only shortest forms of code points outside the
surrogates are taken, so a byte is refused as soon as no character can begin with the bytes read
since the last complete one. The error gives that range of bytes.
-/

namespace MlogAsm.Text.Utf8

/-- Why bytes are not UTF-8. -/
inductive Reason where
  /-- The byte begins no character. -/
  | invalidStart
  /-- The byte after the faulty range does not continue the character begun there. -/
  | invalidContinuation
  /-- The bytes end within a character. -/
  | unexpectedEnd
  deriving DecidableEq, Repr

/-- The wording of a reason. -/
def Reason.message : Reason → String
  | .invalidStart => "invalid start byte"
  | .invalidContinuation => "invalid continuation byte"
  | .unexpectedEnd => "unexpected end of data"

/-- A faulty sequence: the bytes that begin a character which never becomes complete. -/
structure DecodeError where
  /-- Position of the first byte. -/
  start : Nat
  /-- The first byte. -/
  lead : UInt8
  /-- Number of bytes. -/
  length : Nat
  /-- What is wrong after them. -/
  reason : Reason
  deriving DecidableEq, Repr

/-- The wording of an error; a single byte is shown, more are given by their positions. -/
def DecodeError.message (e : DecodeError) : String :=
  let what :=
    if e.length = 1 then
      "byte 0x" ++ hexadecimal 2 e.lead.toNat ++ " in position " ++ toString e.start
    else
      "bytes in position " ++ toString e.start ++ "-" ++ toString (e.start + e.length - 1)
  "'utf-8' codec can't decode " ++ what ++ ": " ++ e.reason.message

/-- A character that has begun: what was read of it and what may come next. -/
structure Begun where
  /-- Its first byte. -/
  lead : UInt8
  /-- Number of bytes read. -/
  length : Nat
  /-- The bits read. -/
  bits : Nat
  /-- Number of bytes still owed. -/
  owed : Nat
  /-- The least next byte. -/
  low : UInt8
  /-- The greatest next byte. -/
  high : UInt8
  deriving DecidableEq, Repr

/-- What a byte begins if it stands between characters and is not ASCII. The narrower bounds for the
second byte keep out long forms, surrogates and code points that are too large. -/
def begin? (b : UInt8) : Option Begun :=
  if b < 0xc2 then none
  else if b < 0xe0 then some ⟨b, 1, b.toNat - 0xc0, 1, 0x80, 0xbf⟩
  else if b = 0xe0 then some ⟨b, 1, 0, 2, 0xa0, 0xbf⟩
  else if b = 0xed then some ⟨b, 1, 0xd, 2, 0x80, 0x9f⟩
  else if b < 0xf0 then some ⟨b, 1, b.toNat - 0xe0, 2, 0x80, 0xbf⟩
  else if b = 0xf0 then some ⟨b, 1, 0, 3, 0x90, 0xbf⟩
  else if b < 0xf4 then some ⟨b, 1, b.toNat - 0xf0, 3, 0x80, 0xbf⟩
  else if b = 0xf4 then some ⟨b, 1, 4, 3, 0x80, 0x8f⟩
  else none

/-- Takes one more byte into a character that has begun. -/
def Begun.push (s : Begun) (b : UInt8) : Begun :=
  { s with
    length := s.length + 1
    bits := s.bits * 64 + (b.toNat - 0x80)
    owed := s.owed - 1
    low := 0x80
    high := 0xbf }

/-- The error of a character that stays incomplete before the position `pos`. -/
def Begun.error (s : Begun) (pos : Nat) (reason : Reason) : DecodeError :=
  ⟨pos - s.length, s.lead, s.length, reason⟩

/-- Decodes the bytes from position `pos` on, after the bytes of a character that has begun. -/
def decodeFrom (pos : Nat) : Option Begun → List UInt8 → Except DecodeError (List Char)
  | none, [] => .ok []
  | some s, [] => .error (s.error pos .unexpectedEnd)
  | none, b :: rest =>
    if b < 0x80 then do
      let cs ← decodeFrom (pos + 1) none rest
      return Char.ofNat b.toNat :: cs
    else
      match begin? b with
      | none => .error ⟨pos, b, 1, .invalidStart⟩
      | some s => decodeFrom (pos + 1) (some s) rest
  | some s, b :: rest =>
    if s.low ≤ b && b ≤ s.high then
      let t := s.push b
      if t.owed = 0 then do
        let cs ← decodeFrom (pos + 1) none rest
        return Char.ofNat t.bits :: cs
      else decodeFrom (pos + 1) (some t) rest
    else .error (s.error pos .invalidContinuation)

/-- The text that bytes stand for. -/
def decode (bytes : List UInt8) : Except DecodeError String := do
  let cs ← decodeFrom 0 none bytes
  return String.ofList cs

/-- The bytes that stand for a text. -/
def encode (s : String) : List UInt8 :=
  s.toUTF8.toList

example : decode [0x61, 0xc3, 0xa9, 0xf0, 0x9f, 0x98, 0x80] = .ok "aé😀" := by cbv
example : decode [0x61, 0xe2, 0x82, 0x41] = .error ⟨1, 0xe2, 2, .invalidContinuation⟩ := by cbv
example : decode [0xed, 0xa0, 0x80] = .error ⟨0, 0xed, 1, .invalidContinuation⟩ := by cbv
example : decode [0x61, 0xf0, 0x9f] = .error ⟨1, 0xf0, 2, .unexpectedEnd⟩ := by cbv

end MlogAsm.Text.Utf8
