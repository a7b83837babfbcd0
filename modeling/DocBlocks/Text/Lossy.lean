/-
  Text out of any bytes.

  Bytes that begin a character of UTF-8 and do not go on as it must stand for the replacement
  character, as many of them as could belong to one character.
-/

namespace DocBlocks

/-- The bytes that have to follow a first byte, by the bounds that each lies within, or nothing if
no character begins with the byte. -/
def boundsBehind? (lead : UInt8) : Option (List (UInt8 × UInt8)) :=
  let any : UInt8 × UInt8 := (0x80, 0xBF)
  if lead < 0x80 then some []
  else if lead < 0xC2 then none
  else if lead < 0xE0 then some [any]
  else if lead = 0xE0 then some [(0xA0, 0xBF), any]
  else if lead = 0xED then some [(0x80, 0x9F), any]
  else if lead < 0xF0 then some [any, any]
  else if lead = 0xF0 then some [(0x90, 0xBF), any, any]
  else if lead < 0xF4 then some [any, any, any]
  else if lead = 0xF4 then some [(0x80, 0x8F), any, any]
  else none

/-- The bytes at the front that lie within their bounds. -/
def takeWithin : List (UInt8 × UInt8) → List UInt8 → List UInt8
  | (low, high) :: bounds, b :: bs =>
    if low ≤ b && b ≤ high then b :: takeWithin bounds bs else []
  | _, _ => []

/-- The character of a first byte and those behind it. -/
def charOfBytes (lead : UInt8) (behind : List UInt8) : Char :=
  let bits := match behind.length with
    | 0 => lead.toNat
    | 1 => lead.toNat % 32
    | 2 => lead.toNat % 16
    | _ => lead.toNat % 8
  Char.ofNat (behind.foldl (fun n b => 64 * n + b.toNat % 64) bits)

/-- The characters that bytes stand for. -/
def lossyChars : List UInt8 → List Char
  | [] => []
  | b :: bs =>
    match boundsBehind? b with
    | none => '\uFFFD' :: lossyChars bs
    | some bounds =>
      let behind := takeWithin bounds bs
      let c := if behind.length = bounds.length then charOfBytes b behind else '\uFFFD'
      c :: lossyChars (bs.drop behind.length)
  termination_by bs => bs.length

/-- The text that bytes stand for: what they spell, if it is UTF-8. -/
def lossyText (bytes : ByteArray) : String :=
  (String.fromUTF8? bytes).getD (String.ofList (lossyChars bytes.toList))

end DocBlocks
