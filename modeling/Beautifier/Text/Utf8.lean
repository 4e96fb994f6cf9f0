/-
Reading UTF-8.

A byte sequence is cut into units: well-formed characters, and maximal
invalid parts, each the longest run of bytes that could start a character
and does not.  Strict reading asks that every unit be a character and
otherwise tells where the first invalid part starts; lenient reading puts
one U+FFFD in the place of each invalid part.
-/

namespace Beautifier.Utf8

inductive Piece where
  /-- A well-formed character of `width` bytes. -/
  | scalar (c : Char) (width : Nat)
  /-- A maximal invalid part of `width` bytes. -/
  | broken (width : Nat)
deriving DecidableEq, Repr

def Piece.width : Piece → Nat
  | scalar _ w => w
  | broken w => w

/-- The bytes that may follow a lead byte: how many, and the bounds of the first of them. -/
structure Tail where
  count : Nat
  low : UInt8
  high : UInt8

/-- What a lead byte above 0x7F asks for; none for a byte that leads no character. -/
def tailOf (lead : UInt8) : Option Tail :=
  if 0xC2 ≤ lead && lead ≤ 0xDF then some ⟨1, 0x80, 0xBF⟩
  else if lead == 0xE0 then some ⟨2, 0xA0, 0xBF⟩
  else if lead == 0xED then some ⟨2, 0x80, 0x9F⟩
  else if 0xE1 ≤ lead && lead ≤ 0xEF then some ⟨2, 0x80, 0xBF⟩
  else if lead == 0xF0 then some ⟨3, 0x90, 0xBF⟩
  else if 0xF1 ≤ lead && lead ≤ 0xF3 then some ⟨3, 0x80, 0xBF⟩
  else if lead == 0xF4 then some ⟨3, 0x80, 0x8F⟩
  else none

/-- The bits of the code point held by a lead byte with `count` bytes behind it. -/
def leadBits (count : Nat) (lead : UInt8) : Nat := lead.toNat % (64 >>> count)

/-- Reads the `count` bytes that are still owed, the first of them within the bounds.
`value` holds the bits read and `width` the bytes read so far. -/
def continuation (value width : Nat) : Nat → UInt8 → UInt8 → List UInt8 → Piece
  | 0, _, _, _ => .scalar (Char.ofNat value) width
  | _ + 1, _, _, [] => .broken width
  | count + 1, low, high, b :: rest =>
      if low ≤ b && b ≤ high then
        continuation (value * 64 + b.toNat % 64) (width + 1) count 0x80 0xBF rest
      else .broken width

/-- The piece that starts with the byte `lead`. -/
def piece (lead : UInt8) (rest : List UInt8) : Piece :=
  if lead < 0x80 then .scalar (Char.ofNat lead.toNat) 1
  else match tailOf lead with
    | none => .broken 1
    | some t => continuation (leadBits t.count lead) 1 t.count t.low t.high rest

/-- The pieces of a byte sequence: at each byte where a piece starts, that piece.
`skip` counts the bytes that belong to the piece before. -/
def piecesFrom : Nat → List UInt8 → List Piece
  | _, [] => []
  | skip + 1, _ :: rest => piecesFrom skip rest
  | 0, b :: rest =>
      let p := piece b rest
      p :: piecesFrom (p.width - 1) rest

def pieces (bytes : List UInt8) : List Piece := piecesFrom 0 bytes

/-- Strict reading of the pieces that start at byte `offset`. -/
def strict : Nat → List Piece → Except Nat (List Char)
  | _, [] => .ok []
  | offset, .broken _ :: _ => .error offset
  | offset, .scalar c w :: rest => (strict (offset + w) rest).map (c :: ·)

/-- The character that stands for an invalid part. -/
def replacement : Char := '\uFFFD'

/-- The character that lenient reading takes from a piece. -/
def Piece.lenient : Piece → Char
  | scalar c _ => c
  | broken _ => replacement

/-- The text of a byte sequence, or the offset of its first byte that is not part of valid
UTF-8. -/
def decode (bytes : List UInt8) : Except Nat String :=
  (strict 0 (pieces bytes)).map String.ofList

/-- The text of a byte sequence, U+FFFD in the place of each maximal invalid part. -/
def decodeLossy (bytes : List UInt8) : String :=
  String.ofList ((pieces bytes).map Piece.lenient)

/-- The bytes of a text. -/
def encode (text : String) : List UInt8 := text.toUTF8.toList

end Beautifier.Utf8
