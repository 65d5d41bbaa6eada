import FileHash.Lib.Bytes

/-! The table driven CRC of `ffdb_hash_func.c`, as the code fills the table and
folds a buffer through it. Checksums are 32 bit words held in `Nat`. -/
namespace FileHash.Checksum

def crc32Poly : Nat := 0xedb88320

/-- One shift of the polynomial; the loop variable `h` of the table setup. -/
def crc32Shift (h : Nat) : Nat := (h >>> 1) ^^^ (if h % 2 = 1 then crc32Poly else 0)

/-- One pass of the inner loop: entry `i + j` from entry `j`, for `j` a multiple of `2 * i`. -/
def crc32Fill (table : Nat → Nat) (i h : Nat) : Nat → Nat := fun k =>
  if k < 256 ∧ k % (2 * i) = i then table (k - i) ^^^ h else table k

def crc32InitLoop : List Nat → Nat → (Nat → Nat) → Nat → Nat
  | [], _, table => table
  | i :: rest, h, table => crc32InitLoop rest (crc32Shift h) (crc32Fill table i (crc32Shift h))

def crcTable : Nat → Nat := crc32InitLoop [128, 64, 32, 16, 8, 4, 2, 1] 1 (fun _ => 0)

def crc32Byte (crc : Nat) (b : UInt8) : Nat :=
  (crc >>> 8) ^^^ crcTable ((crc ^^^ b.toNat) &&& 255)

def crc32Checksum (crc : Nat) (buf : List UInt8) : Nat :=
  buf.foldl crc32Byte (crc ^^^ 0xffffffff) ^^^ 0xffffffff

/-- The value of the first nonzero entry filled in is the polynomial itself. -/
example : crcTable 128 = crc32Poly := by decide

end FileHash.Checksum
