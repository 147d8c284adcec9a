import EventArchive.Data.Bytes

/-!
# Variable-length integers

A number as groups of seven bits, lowest first, in bytes whose high bit says that another follows.
A reader for numbers of at most `bits` bits looks at no more than `⌈bits / 7⌉` bytes, and refuses a
last byte with a bit beyond the width. Signed numbers are mapped to unsigned ones by zigzag: the
lowest bit is the sign.
-/
namespace EventArchive.Varint

/-- Why no number could be read. -/
inductive Error where
  /-- The bytes end inside the number. -/
  | ended
  /-- The number has too many bytes, or too many bits in its last byte. -/
  | unterminated
  deriving DecidableEq, Repr

/-- The bytes of a number. -/
def encode (n : Nat) : Bytes :=
  if n < 128 then [UInt8.ofNat n] else UInt8.ofNat (n % 128 + 128) :: encode (n / 128)
termination_by n
decreasing_by omega

/-- Read the groups of a number of which `bits` bits are still free; `groups` bounds the bytes. -/
def decodeGroups : (groups bits : Nat) → Bytes → Except Error (Nat × Bytes)
  | 0, _, _ => .error .unterminated
  | _ + 1, _, [] => .error .ended
  | groups + 1, bits, b :: rest =>
    if b.toNat < 128 then
      if groups = 0 ∧ 1 <<< bits ≤ b.toNat then .error .unterminated
      else .ok (b.toNat, rest)
    else do
      let (high, rest) ← decodeGroups groups (bits - 7) rest
      return (b.toNat - 128 + 128 * high, rest)

/-- Read a number of at most `bits` bits from the front. -/
def decode (bits : Nat) (bytes : Bytes) : Except Error (Nat × Bytes) :=
  decodeGroups ((bits + 6) / 7) bits bytes

/-- The unsigned number that stands for a signed one: `0, -1, 1, -2, …` become `0, 1, 2, 3, …`. -/
def zigzag : Int → Nat
  | .ofNat n => 2 * n
  | .negSucc n => 2 * n + 1

/-- The signed number that an unsigned one stands for. -/
def unzigzag (n : Nat) : Int :=
  if n % 2 = 0 then .ofNat (n / 2) else .negSucc (n / 2)

theorem unzigzag_zigzag (i : Int) : unzigzag (zigzag i) = i := by
  cases i with
  | ofNat n => simp [zigzag, unzigzag]
  | negSucc n =>
    have hhalf : (2 * n + 1) / 2 = n := by omega
    simp [zigzag, unzigzag, hhalf]

end EventArchive.Varint
