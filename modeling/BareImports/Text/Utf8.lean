/-!
# UTF-8

* `Utf8.encode`: the bytes of a text;
* `Utf8.scan`: the characters of a byte sequence, `none` in the place of each longest beginning of a
  character that the next byte does not continue;
* `Utf8.decode?`: the text of valid bytes; `Utf8.decodeLossy`: the text with a replacement character in
  the place of each invalid part.
-/

namespace BareImports.Text.Utf8

/-- The bytes of a character. -/
def encodeChar (c : Char) : List UInt8 :=
  let n := c.toNat
  if n < 0x80 then [n.toUInt8]
  else if n < 0x800 then [(0xC0 + n / 64).toUInt8, (0x80 + n % 64).toUInt8]
  else if n < 0x10000 then
    [(0xE0 + n / 4096).toUInt8, (0x80 + n / 64 % 64).toUInt8, (0x80 + n % 64).toUInt8]
  else
    [(0xF0 + n / 262144).toUInt8, (0x80 + n / 4096 % 64).toUInt8, (0x80 + n / 64 % 64).toUInt8,
      (0x80 + n % 64).toUInt8]

/-- The bytes of a text. -/
def encode (s : List Char) : List UInt8 := s.flatMap encodeChar

/-- What a first byte calls for: how many bytes follow it, and the least and greatest first of them. -/
structure Lead where
  /-- How many bytes follow. -/
  follow : Nat
  /-- The least value of the byte right after. -/
  low : UInt8
  /-- The greatest value of the byte right after. -/
  high : UInt8

/-- What a byte from 0x80 on calls for as the first one of a character, `none` if it cannot be that. -/
def lead? (b : UInt8) : Option Lead :=
  if b < 0xC2 then none
  else if b < 0xE0 then some ⟨1, 0x80, 0xBF⟩
  else if b == 0xE0 then some ⟨2, 0xA0, 0xBF⟩
  else if b == 0xED then some ⟨2, 0x80, 0x9F⟩
  else if b < 0xF0 then some ⟨2, 0x80, 0xBF⟩
  else if b == 0xF0 then some ⟨3, 0x90, 0xBF⟩
  else if b < 0xF4 then some ⟨3, 0x80, 0xBF⟩
  else if b == 0xF4 then some ⟨3, 0x80, 0x8F⟩
  else none

/-- The payload of a byte that is not the first one. -/
def tail (b : UInt8) : Nat := b.toNat - 0x80

/-- Whether a byte can be a later one. -/
def isTail (b : UInt8) : Bool := 0x80 ≤ b && b ≤ 0xBF

/-- The characters of a byte sequence, `none` for each longest beginning of a character that breaks off. -/
def scan : List UInt8 → List (Option Char)
  | [] => []
  | a :: s =>
    if a < 0x80 then some (Char.ofNat a.toNat) :: scan s
    else match lead? a with
      | none => none :: scan s
      | some l => match s with
        | [] => [none]
        | b :: s₁ =>
          if b < l.low || l.high < b then none :: scan (b :: s₁)
          else if l.follow == 1 then some (Char.ofNat ((a.toNat - 0xC0) * 64 + tail b)) :: scan s₁
          else match s₁ with
            | [] => [none]
            | c :: s₂ =>
              if !isTail c then none :: scan (c :: s₂)
              else if l.follow == 2 then
                some (Char.ofNat ((a.toNat - 0xE0) * 4096 + tail b * 64 + tail c)) :: scan s₂
              else match s₂ with
                | [] => [none]
                | d :: s₃ =>
                  if !isTail d then none :: scan (d :: s₃)
                  else
                    some (Char.ofNat ((a.toNat - 0xF0) * 262144 + tail b * 4096 + tail c * 64 + tail d)) ::
                      scan s₃

/-- The text of valid bytes. -/
def decode? (bytes : List UInt8) : Option (List Char) := (scan bytes).mapM id

/-- The text of any bytes, each invalid part replaced by U+FFFD. -/
def decodeLossy (bytes : List UInt8) : List Char := (scan bytes).map (·.getD '\ufffd')

end BareImports.Text.Utf8
