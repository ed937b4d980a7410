import InlineProject.Text.Digit
/-!
Reading bytes as UTF-8. Where the bytes are no text, the failure says which bytes are at fault and
why: a byte that starts no character, a character that is cut off by another byte, or by the end.
-/

namespace InlineProject.Utf8

inductive Fault where
  | invalidStart
  | invalidContinuation
  | unexpectedEnd
deriving DecidableEq, Repr

def Fault.message : Fault → String
  | .invalidStart => "invalid start byte"
  | .invalidContinuation => "invalid continuation byte"
  | .unexpectedEnd => "unexpected end of data"

/-- The bytes from `start` up to `stop` are no character; `byte` is the first of them. -/
structure Failure where
  byte : UInt8
  start : Nat
  stop : Nat
  fault : Fault
deriving DecidableEq, Repr

def Failure.message (f : Failure) : String :=
  let hex := String.ofList (Digit.padded 2 (Digit.ofNat 16 f.byte.toNat))
  if f.stop = f.start + 1 then
    "'utf-8' codec can't decode byte 0x" ++ hex ++ " in position " ++ toString f.start
      ++ ": " ++ f.fault.message
  else
    "'utf-8' codec can't decode bytes in position " ++ toString f.start ++ "-"
      ++ toString (f.stop - 1) ++ ": " ++ f.fault.message

def isContinuation (b : UInt8) : Bool := 0x80 ≤ b && b < 0xC0

-- The bytes that may follow a leading byte directly; the limits shut out overlong forms, halves of
-- surrogate pairs and numbers beyond the last character.
def mayFollow (lead next : UInt8) : Bool :=
  isContinuation next &&
    (if lead = 0xE0 then 0xA0 ≤ next
     else if lead = 0xED then next < 0xA0
     else if lead = 0xF0 then 0x90 ≤ next
     else if lead = 0xF4 then next < 0x90
     else true)

/-- How many bytes a character has that starts with this byte. -/
def width? (lead : UInt8) : Option Nat :=
  if lead < 0x80 then some 1
  else if 0xC2 ≤ lead && lead < 0xE0 then some 2
  else if 0xE0 ≤ lead && lead < 0xF0 then some 3
  else if 0xF0 ≤ lead && lead < 0xF5 then some 4
  else none

-- How many of the expected bytes after a leading byte are there, and whether a wrong byte or the
-- end of the data stopped the count.
def goodRun (lead : UInt8) : Nat → Nat → List UInt8 → Nat × Bool
  | 0, good, _ => (good, true)
  | _ + 1, good, [] => (good, true)
  | want + 1, good, b :: rest =>
      if (if good = 0 then mayFollow lead b else isContinuation b) then
        goodRun lead want (good + 1) rest
      else (good, false)

/-- The first fault in bytes that are no text; `fuel` is the number of bytes. -/
def locate : Nat → Nat → List UInt8 → Option Failure
  | 0, _, _ => none
  | _ + 1, _, [] => none
  | fuel + 1, position, lead :: rest =>
      match width? lead with
      | none => some ⟨lead, position, position + 1, .invalidStart⟩
      | some width =>
          match goodRun lead (width - 1) 0 rest with
          | (good, false) => some ⟨lead, position, position + 1 + good, .invalidContinuation⟩
          | (good, true) =>
              if good + 1 = width then locate fuel (position + width) (rest.drop good)
              else some ⟨lead, position, position + 1 + good, .unexpectedEnd⟩

/-- The text of some bytes, or the first fault in them. -/
def decode (bytes : ByteArray) : Except Failure String :=
  match String.fromUTF8? bytes with
  | some s => .ok s
  | none =>
      .error ((locate bytes.size 0 bytes.toList).getD ⟨0, 0, 0, .invalidStart⟩)

end InlineProject.Utf8
