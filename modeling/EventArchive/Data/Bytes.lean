/-!
# Byte strings

Keys and stored values are lists of bytes, compared byte by byte, so that a list comes before every
longer list it begins. Unsigned integers are written with the most significant byte first: at a
fixed width the order of the bytes is then the order of the numbers.
-/
namespace EventArchive

/-- A string of bytes in lexicographic order. -/
abbrev Bytes := List UInt8

namespace Bytes

/-- The lowest `width` bytes of a number, most significant first. -/
def bigEndian : (width : Nat) → Nat → Bytes
  | 0, _ => []
  | width + 1, n => bigEndian width (n / 256) ++ [UInt8.ofNat (n % 256)]

/-- The number whose bytes, most significant first, are given. -/
def toNatBE (bytes : Bytes) : Nat := bytes.foldl (fun n b => n * 256 + b.toNat) 0

/-- The UTF-8 encoding of a text. -/
def ofText (s : String) : Bytes := s.toByteArray.data.toList

/-- The text that bytes encode in UTF-8, if they do. -/
def toText? (bytes : Bytes) : Option String := String.fromUTF8? ⟨bytes.toArray⟩

/-- Bytes repeated from the start and cut to a length. -/
def cycle (bytes : Bytes) (n : Nat) : Bytes :=
  (List.range n).filterMap fun i => bytes[i % bytes.length]?

theorem length_bigEndian (width n : Nat) : (bigEndian width n).length = width := by
  induction width generalizing n with
  | zero => rfl
  | succ width ih => simp [bigEndian, ih]

theorem toNatBE_append_singleton (bytes : Bytes) (b : UInt8) :
    toNatBE (bytes ++ [b]) = toNatBE bytes * 256 + b.toNat := by
  simp [toNatBE]

theorem toText?_ofText (s : String) : toText? (ofText s) = some s := by
  simp [toText?, ofText, String.fromUTF8?, s.isValidUTF8, String.fromUTF8]

end Bytes
end EventArchive
