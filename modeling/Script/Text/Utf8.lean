/-! Texts as bytes in UTF-8.

Bytes that are no text can be shown all the same: `mend` puts a replacement mark
in the place of each piece that is no character. Such a piece is as long as some
character starts so, and otherwise one byte, so no byte of a good character is
ever lost to a bad one before it. -/
namespace Script.Text

/-- The text that the bytes encode, if they encode one. -/
def decode? (bytes : List UInt8) : Option String := String.fromUTF8? ⟨bytes.toArray⟩

def encode (s : String) : List UInt8 := s.toUTF8.toList

/-- How a character of several bytes goes on behind its first: by how many bytes,
and between which bounds the next of them lies. -/
structure Tail where
  count : Nat
  low : UInt8
  high : UInt8
deriving DecidableEq, Repr, Inhabited

namespace Tail

/-- The tail that a first byte asks for. The bounds leave out what a shorter form
could encode, the surrogates, and all beyond U+10FFFF. -/
def ofFirst? (b : UInt8) : Option Tail :=
  if 0xc2 ≤ b ∧ b ≤ 0xdf then some ⟨1, 0x80, 0xbf⟩
  else if b = 0xe0 then some ⟨2, 0xa0, 0xbf⟩
  else if b = 0xed then some ⟨2, 0x80, 0x9f⟩
  else if 0xe1 ≤ b ∧ b ≤ 0xef then some ⟨2, 0x80, 0xbf⟩
  else if b = 0xf0 then some ⟨3, 0x90, 0xbf⟩
  else if 0xf1 ≤ b ∧ b ≤ 0xf3 then some ⟨3, 0x80, 0xbf⟩
  else if b = 0xf4 then some ⟨3, 0x80, 0x8f⟩
  else none

/-- The bytes that can belong to a tail of `count`, the first of them between the
bounds. -/
def take (low high : UInt8) : Nat → List UInt8 → List UInt8
  | 0, _ | _, [] => []
  | count + 1, b :: bs => if low ≤ b ∧ b ≤ high then b :: take 0x80 0xbf count bs else []

end Tail

/-- What stands for bytes that are no character. -/
def replacement : Char := '\ufffd'

/-- The character with this first byte and tail. -/
def assemble (first : UInt8) (tail : List UInt8) : Char :=
  Char.ofNat (tail.foldl (fun n b => 64 * n + b.toNat % 64)
    (first.toNat % Nat.pow 2 (6 - tail.length)))

/-- The first character of the bytes `b :: bs`, or its replacement, and the number
of bytes of `bs` that it takes up. -/
def mendFirst (b : UInt8) (bs : List UInt8) : Char × Nat :=
  if b < 0x80 then (Char.ofNat b.toNat, 0)
  else
    match Tail.ofFirst? b with
    | none => (replacement, 0)
    | some t =>
      let tail := Tail.take t.low t.high t.count bs
      (if tail.length = t.count then assemble b tail else replacement, tail.length)

/-- The characters of bytes, replacements among them. -/
def mendAll : List UInt8 → List Char
  | [] => []
  | b :: bs => (mendFirst b bs).1 :: mendAll (bs.drop (mendFirst b bs).2)
termination_by bytes => bytes.length
decreasing_by
  rw [List.length_drop, List.length_cons]
  omega

/-- The text of bytes, with replacements where they encode none. -/
def mend (bytes : List UInt8) : String := String.ofList (mendAll bytes)

end Script.Text
