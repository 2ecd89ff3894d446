import Rill.Text.Bytes

/-!
# Base64

Bytes as text: three bytes are four characters, and equals signs fill up the last group.
-/

namespace Rill.Base64

/-- The character of six bits. -/
def character (n : Nat) : UInt8 :=
  if n < 26 then (0x41 + n).toUInt8
  else if n < 52 then (0x61 + (n - 26)).toUInt8
  else if n < 62 then (0x30 + (n - 52)).toUInt8
  else if n = 62 then 0x2B
  else 0x2F

/-- The text of bytes. -/
def encode : Bytes → Bytes
  | a :: b :: c :: rest =>
    let n := a.toNat * 65536 + b.toNat * 256 + c.toNat
    character (n / 262144) :: character (n / 4096 % 64) :: character (n / 64 % 64) ::
      character (n % 64) :: encode rest
  | [a, b] =>
    let n := a.toNat * 1024 + b.toNat * 4
    [character (n / 4096), character (n / 64 % 64), character (n % 64), 0x3D]
  | [a] => [character (a.toNat / 4), character (a.toNat % 4 * 16), 0x3D, 0x3D]
  | [] => []

/-- Pieces of a length; `bound` is at least the number of pieces. -/
def pieces (width : Nat) : Nat → Bytes → List Bytes
  | 0, _ => []
  | _ + 1, [] => []
  | bound + 1, s => s.take width :: pieces width bound (s.drop width)

/-- The text of bytes, in lines of seventy characters if it is that long. -/
def lines (s : Bytes) : Bytes :=
  let code := encode s
  if code.length < 70 then code
  else (pieces 70 code.length code).flatMap (· ++ text "\n")

end Rill.Base64
