/-!
# Bytes as text

Files and the standard input are bytes, and what is evaluated is text. A run of bytes is text
when it is the UTF-8 form of some list of characters: surrogates, overlong forms and cut
sequences are refused.
-/

namespace UntypedLambda.Text

/-- The contents of a file, or what is left of the input. -/
abbrev Bytes := List UInt8

/-- The text that `bs` encodes, if it encodes one. -/
def decode? (bs : Bytes) : Option String := String.fromUTF8? bs.toByteArray

/-- The bytes of a text. -/
def encode (text : String) : Bytes := text.toUTF8.data.toList

/-- The byte that ends a line. -/
def newline : UInt8 := 10

/-- Cuts off the first line, with the byte that ends it. Both parts are empty at the end of the
input, and only there is the first one. -/
def cutLine : Bytes → Bytes × Bytes
  | [] => ([], [])
  | b :: bs =>
    if b = newline then ([b], bs)
    else
      let (line, rest) := cutLine bs
      (b :: line, rest)

/-- The characters that take up exactly the first `n` bytes of a text, if the cut at `n` lies
between two characters and not beyond the end. -/
def takeBytes? : Nat → List Char → Option (List Char)
  | 0, _ => some []
  | _ + 1, [] => none
  | n + 1, c :: cs =>
    if c.utf8Size ≤ n + 1 then (takeBytes? (n + 1 - c.utf8Size) cs).map (c :: ·) else none

end UntypedLambda.Text
