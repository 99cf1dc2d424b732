import WinIndex.IndexSerializer
import WinIndex.Lib.Crc

/-!
# The checksum

`Crc32` takes a byte at a time through a table. Each entry of the table is eight bit steps, so the checksum is the remainder of
the bytes by the reflected polynomial, and that is what feeding their bits one by one gives: the table computes CRC-32.
-/

namespace WinIndex

/-! ## The checksum as a remainder -/

/-- The polynomial of `Crc32`. -/
def crcPolynomial : BitVec 32 := 0xEDB88320#32

/-- One shift-and-xor step of the table's loop is a bit step. -/
theorem toBitVec_tableStep (c : UInt32) :
    (if c &&& 1 ≠ 0 then (0xEDB88320 : UInt32) ^^^ (c >>> 1) else c >>> 1).toBitVec = Crc.bitStep crcPolynomial c.toBitVec := by
  have hbit : c &&& 1 ≠ 0 ↔ c.toBitVec.getLsbD 0 = true := by
    rw [ne_eq, ← UInt32.toBitVec_inj]
    show ¬c.toBitVec &&& 1#32 = 0#32 ↔ _
    rw [BitVec.and_one_eq_setWidth_ofBool_getLsbD]
    cases c.toBitVec.getLsbD 0 <;> simp
  unfold Crc.bitStep
  by_cases h : c &&& 1 ≠ 0
  · rw [if_pos h, if_pos (hbit.1 h)]
    simp [crcPolynomial]
  · rw [if_neg h, if_neg (fun h' => h (hbit.2 h'))]
    simp

/-- The table holds eight bit steps of each byte. -/
theorem toBitVec_crcTable (i : UInt8) : (crcTable i).toBitVec = Crc.bitSteps crcPolynomial 8 (i.toBitVec.setWidth 32) := by
  have hrange : List.range 8 = [0, 1, 2, 3, 4, 5, 6, 7] := rfl
  rw [crcTable, hrange]
  simp only [List.foldl_cons, List.foldl_nil, toBitVec_tableStep, Crc.bitSteps, UInt8.toBitVec_toUInt32]

/-- A step of `Crc32` is a byte step. -/
theorem toBitVec_crcStep (crc : UInt32) (byte : UInt8) :
    (crcStep crc byte).toBitVec = Crc.byteStep crcPolynomial crc.toBitVec byte.toBitVec := by
  rw [Crc.byteStep_eq_table (by decide), crcStep, UInt32.toBitVec_xor, toBitVec_crcTable]
  simp

/-- `Crc32` is the remainder of the bytes, with all bits set at first and flipped at last. -/
theorem toBitVec_crc32 (data : List UInt8) :
    (crc32 data).toBitVec =
      Crc.remainder crcPolynomial (BitVec.allOnes 32) (data.map UInt8.toBitVec) ^^^ BitVec.allOnes 32 := by
  have hfold : ∀ crc : UInt32, (data.foldl crcStep crc).toBitVec =
      Crc.remainder crcPolynomial crc.toBitVec (data.map UInt8.toBitVec) := by
    induction data with
    | nil => intro crc; rfl
    | cons b bs ih =>
      intro crc
      rw [List.foldl_cons, ih, toBitVec_crcStep]
      rfl
  rw [crc32, UInt32.toBitVec_xor, hfold]
  rfl

/-! ## Bit by bit -/

/-- CRC-32 from its definition: the bits of each byte, least significant first, through the one-bit shift-and-xor step, with all
bits set at first and flipped at last. -/
def bitwiseCrc32 (data : List UInt8) : UInt32 :=
  .ofBitVec (Crc.bitwise crcPolynomial (BitVec.allOnes 32) (data.map UInt8.toBitVec) ^^^ BitVec.allOnes 32)

/-- For every byte string: the table-driven `Crc32` is CRC-32. -/
theorem crc32_eq_bitwiseCrc32 (data : List UInt8) : crc32 data = bitwiseCrc32 data := by
  apply UInt32.toBitVec_inj.1
  rw [toBitVec_crc32, Crc.remainder_eq_bitwise (by decide), bitwiseCrc32]

/-- The check value of CRC-32, that of the digits from 1 to 9. -/
example : crc32 [0x31, 0x32, 0x33, 0x34, 0x35, 0x36, 0x37, 0x38, 0x39] = 0xCBF43926 := by decide +kernel

end WinIndex
