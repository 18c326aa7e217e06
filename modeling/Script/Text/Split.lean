/-! Texts cut at a character, and bytes cut into lines. -/
namespace Script.Text

/-- The pieces between the occurrences of a character, one more than there are of
them. -/
def split (separator : Char) : List Char → List (List Char)
  | [] => [[]]
  | c :: cs =>
    if c = separator then [] :: split separator cs
    else
      match split separator cs with
      | [] => [[c]]
      | piece :: pieces => (c :: piece) :: pieces

/-- Cuts bytes behind the first line feed, which ends a line; without one all is
the line. -/
def takeLine : List UInt8 → List UInt8 × List UInt8
  | [] => ([], [])
  | b :: bs =>
    if b = 10 then ([b], bs)
    else
      let (line, rest) := takeLine bs
      (b :: line, rest)

end Script.Text
