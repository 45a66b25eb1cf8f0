/-!
Source text is a list of bytes, and offsets count bytes. A slice is clipped to the text, a negative
offset counts from the end. `decode` reads UTF-8 whole or not at all; `decodeLossy` drops every byte
that belongs to no character.
-/

namespace TimeLint

abbrev Bytes := List UInt8

namespace Bytes

def ofString (s : String) : Bytes := s.toUTF8.data.toList

/-- The place of offset `i` in a text of `size` bytes. -/
def clip (size : Nat) (i : Int) : Nat :=
  if i < 0 then (i + size).toNat else min i.toNat size

def slice (bs : Bytes) (start stop : Int) : Bytes :=
  (bs.take (clip bs.length stop)).drop (clip bs.length start)

def isContinuation (b : UInt8) : Bool := 0x80 ≤ b && b < 0xC0

/-- The low six bits of each byte, most significant first. -/
def payload (lead : Nat) (tail : Bytes) : Nat :=
  tail.foldl (fun n b => n * 64 + b.toNat % 64) lead

/-- The character written by a lead byte's bits and `tail`, if no shorter form exists for it. -/
def scalar? (lead least : Nat) (tail : Bytes) : Option Char :=
  let n := payload lead tail
  if tail.all isContinuation && least ≤ n && n.isValidChar then some (Char.ofNat n) else none

/-- The character at the head of the text, with the number of bytes that follow its lead byte. -/
def headChar? : Bytes → Option (Char × Nat)
  | [] => none
  | a :: rest =>
    let long (width lead least : Nat) : Option (Char × Nat) :=
      if rest.length < width then none
      else (scalar? lead least (rest.take width)).map fun c => (c, width)
    if a < 0x80 then some (Char.ofNat a.toNat, 0)
    else if a < 0xC0 then none
    else if a < 0xE0 then long 1 (a.toNat % 32) 0x80
    else if a < 0xF0 then long 2 (a.toNat % 16) 0x800
    else if a < 0xF8 then long 3 (a.toNat % 8) 0x10000
    else none

def decodeChars : Bytes → Option (List Char)
  | [] => some []
  | b :: rest =>
    match headChar? (b :: rest) with
    | none => none
    | some (c, more) => (decodeChars (rest.drop more)).map (c :: ·)
termination_by bs => bs.length
decreasing_by
  simp only [List.length_cons, List.length_drop]
  omega

def decodeCharsLossy : Bytes → List Char
  | [] => []
  | b :: rest =>
    match headChar? (b :: rest) with
    | none => decodeCharsLossy rest
    | some (c, more) => c :: decodeCharsLossy (rest.drop more)
termination_by bs => bs.length
decreasing_by all_goals simp; try omega

def decode (bs : Bytes) : Option String := (decodeChars bs).map String.ofList

def decodeLossy (bs : Bytes) : String := String.ofList (decodeCharsLossy bs)

end Bytes

end TimeLint
