/-! Reading bytes as UTF-8. Every byte sequence has a reading: what no character begins with is
replaced, one replacement for each longest run of bytes that could still have become a character. -/

namespace ModuleLoader.Text

def replacement : Char := '\uFFFD'

/-- The bytes that may follow a first byte of a multi-byte character. -/
def secondByteRange (lead : UInt8) : Option (UInt8 × UInt8) :=
  if 0xC2 ≤ lead && lead ≤ 0xDF then some (0x80, 0xBF)
  else if lead == 0xE0 then some (0xA0, 0xBF)
  else if lead == 0xED then some (0x80, 0x9F)
  else if 0xE1 ≤ lead && lead ≤ 0xEF then some (0x80, 0xBF)
  else if lead == 0xF0 then some (0x90, 0xBF)
  else if 0xF1 ≤ lead && lead ≤ 0xF3 then some (0x80, 0xBF)
  else if lead == 0xF4 then some (0x80, 0x8F)
  else none

def isTail (b : UInt8) : Bool := 0x80 ≤ b && b ≤ 0xBF

/-- The low six bits of a continuation byte. -/
def tailBits (b : UInt8) : Nat := b.toNat - 0x80

/-- The text of a byte sequence, with U+FFFD for each maximal ill-formed part. -/
def decodeLossy : List UInt8 → List Char
  | [] => []
  | a :: rest =>
    if a < 0x80 then Char.ofNat a.toNat :: decodeLossy rest
    else match secondByteRange a with
      | none => replacement :: decodeLossy rest
      | some (lo, hi) =>
        match rest with
        | [] => [replacement]
        | b :: rest₂ =>
          if !(lo ≤ b && b ≤ hi) then replacement :: decodeLossy (b :: rest₂)
          else if a < 0xE0 then
            Char.ofNat ((a.toNat - 0xC0) * 64 + tailBits b) :: decodeLossy rest₂
          else match rest₂ with
            | [] => [replacement]
            | c :: rest₃ =>
              if !isTail c then replacement :: decodeLossy (c :: rest₃)
              else if a < 0xF0 then
                Char.ofNat (((a.toNat - 0xE0) * 64 + tailBits b) * 64 + tailBits c)
                  :: decodeLossy rest₃
              else match rest₃ with
                | [] => [replacement]
                | d :: rest₄ =>
                  if !isTail d then replacement :: decodeLossy (d :: rest₄)
                  else
                    Char.ofNat ((((a.toNat - 0xF0) * 64 + tailBits b) * 64 + tailBits c) * 64
                      + tailBits d) :: decodeLossy rest₄

def readLossy (bytes : ByteArray) : String := String.ofList (decodeLossy bytes.data.toList)

def byteLength (s : List Char) : Nat := s.foldr (fun c n => c.utf8Size + n) 0

@[simp] theorem byteLength_nil : byteLength [] = 0 := rfl

@[simp] theorem byteLength_cons (c : Char) (s : List Char) :
    byteLength (c :: s) = c.utf8Size + byteLength s := rfl

@[simp] theorem byteLength_append (s t : List Char) :
    byteLength (s ++ t) = byteLength s + byteLength t := by
  induction s with
  | nil => simp
  | cons c s ih => simp [ih, Nat.add_assoc]

/-- The first byte of a character in UTF-8. -/
def leadByte (c : Char) : Nat :=
  let n := c.toNat
  if n < 0x80 then n
  else if n < 0x800 then 0xC0 + n / 64
  else if n < 0x10000 then 0xE0 + n / 4096
  else 0xF0 + n / 262144

/-- The front of a text that is exactly `n` bytes long, and what follows it. -/
def takeBytes? : Nat → List Char → Option (List Char × List Char)
  | 0, s => some ([], s)
  | _ + 1, [] => none
  | n + 1, c :: r =>
    if c.utf8Size ≤ n + 1 then
      (takeBytes? (n + 1 - c.utf8Size) r).map fun (front, rest) => (c :: front, rest)
    else none

end ModuleLoader.Text
