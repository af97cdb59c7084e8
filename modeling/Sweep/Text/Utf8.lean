/-!
# UTF-8

Names on a disk are bytes, and rules are text. `pieces` reads bytes from left to right as characters
and *bad* pieces: a bad piece is the longest start of a character's encoding that is cut short, or
else a single byte that starts no encoding. The two readings differ only in what a bad piece
becomes.

* `lossy` writes the replacement character for it, for showing and matching names.
* `decode?` refuses the bytes, for reading files.

## Main results

* `lossy_of_decode?` — where the strict reading succeeds, both agree.
* `length_readOn_le` — reading on never gives bytes back, so `pieces` ends.
-/

namespace Sweep.Text.Utf8

/-- The bytes of one character. -/
def encodeChar (c : Char) : List UInt8 :=
  let n := c.toNat
  if n < 0x80 then [.ofNat n]
  else if n < 0x800 then [.ofNat (0xC0 + n / 64), .ofNat (0x80 + n % 64)]
  else if n < 0x10000 then
    [.ofNat (0xE0 + n / 4096), .ofNat (0x80 + n / 64 % 64), .ofNat (0x80 + n % 64)]
  else
    [.ofNat (0xF0 + n / 262144), .ofNat (0x80 + n / 4096 % 64), .ofNat (0x80 + n / 64 % 64),
     .ofNat (0x80 + n % 64)]

/-- The bytes of a text. -/
def encode (cs : List Char) : List UInt8 :=
  cs.flatMap encodeChar

/-- What the first byte of an encoding promises. -/
structure Lead where
  /-- How many bytes follow. -/
  follow : Nat
  /-- The least second byte. -/
  low : Nat
  /-- The greatest second byte. -/
  high : Nat
  /-- The bits of the code point that the first byte holds. -/
  bits : Nat

/-- Reads a first byte. The bounds on the second byte keep out overlong encodings, surrogates and
numbers beyond the last code point. -/
def lead? (byte : UInt8) : Option Lead :=
  let b := byte.toNat
  if b < 0x80 then some ⟨0, 0x80, 0xBF, b⟩
  else if b < 0xC2 then none
  else if b < 0xE0 then some ⟨1, 0x80, 0xBF, b - 0xC0⟩
  else if b = 0xE0 then some ⟨2, 0xA0, 0xBF, 0⟩
  else if b = 0xED then some ⟨2, 0x80, 0x9F, 13⟩
  else if b < 0xF0 then some ⟨2, 0x80, 0xBF, b - 0xE0⟩
  else if b = 0xF0 then some ⟨3, 0x90, 0xBF, 0⟩
  else if b < 0xF4 then some ⟨3, 0x80, 0xBF, b - 0xF0⟩
  else if b = 0xF4 then some ⟨3, 0x80, 0x8F, 4⟩
  else none

/-- Reads the bytes that follow the first one: the code point and the bytes left, or nothing and
the bytes from the first one that does not fit. -/
def readOn (low high : Nat) : Nat → Nat → List UInt8 → Option Nat × List UInt8
  | 0, bits, bytes => (some bits, bytes)
  | _ + 1, _, [] => (none, [])
  | follow + 1, bits, byte :: bytes =>
    if low ≤ byte.toNat && byte.toNat ≤ high then
      readOn 0x80 0xBF follow (bits * 64 + (byte.toNat - 0x80)) bytes
    else (none, byte :: bytes)

theorem length_readOn_le (low high follow bits : Nat) (bytes : List UInt8) :
    (readOn low high follow bits bytes).2.length ≤ bytes.length := by
  fun_induction readOn low high follow bits bytes with
  | case1 => exact Nat.le_refl _
  | case2 => exact Nat.le_refl _
  | case3 low high follow bits byte bytes h ih => exact Nat.le_succ_of_le ih
  | case4 => exact Nat.le_refl _

/-- Bytes as characters, with `none` for each bad piece. -/
def pieces : List UInt8 → List (Option Char)
  | [] => []
  | byte :: bytes =>
    match lead? byte with
    | none => none :: pieces bytes
    | some lead =>
      let read := readOn lead.low lead.high lead.follow lead.bits bytes
      read.1.map Char.ofNat :: pieces read.2
termination_by bytes => bytes.length
decreasing_by
  · simp
  · exact Nat.lt_succ_of_le (length_readOn_le ..)

/-- Bytes as text, with the replacement character for each bad piece. -/
def lossy (bytes : List UInt8) : List Char :=
  (pieces bytes).map (·.getD '\uFFFD')

/-- Bytes as text, if there is no bad piece. -/
def decode? (bytes : List UInt8) : Option (List Char) :=
  (pieces bytes).mapM id

theorem map_getD_of_mapM_eq_some {α : Type} (d : α) (xs : List (Option α)) (ys : List α)
    (h : xs.mapM id = some ys) : xs.map (·.getD d) = ys := by
  induction xs generalizing ys with
  | nil => simpa using h
  | cons x xs ih =>
    cases x with
    | none => simp [List.mapM_cons] at h
    | some x =>
      cases hxs : xs.mapM id with
      | none => simp [List.mapM_cons, hxs] at h
      | some zs =>
        simp only [List.mapM_cons, hxs, id, Option.bind_eq_bind, Option.bind_some,
          Option.pure_def, Option.some.injEq] at h
        subst h
        simp [ih zs hxs]

/-- Where the strict reading succeeds, both agree. -/
theorem lossy_of_decode? {bytes : List UInt8} {cs : List Char} (h : decode? bytes = some cs) :
    lossy bytes = cs :=
  map_getD_of_mapM_eq_some _ _ _ h

end Sweep.Text.Utf8
