import Mathlib.Logic.Function.Iterate

/-! CRC-32C as the record layer computes it: the byte-at-a-time table of the
reflected Castagnoli polynomial, and the extension of a checksum over further
bytes, which lets a scan carry it from one window to the next. -/

namespace OpcHub.Records

abbrev Bytes := List UInt8

/-- One bit of the reflected division. -/
def crcBit (crc : UInt32) : UInt32 :=
  (crc >>> 1) ^^^ (if crc &&& 1 = 1 then 0x82F63B78 else 0)

/-- An entry of the reflected table. -/
def reflectedTable (i : UInt8) : UInt32 := crcBit^[8] i.toUInt32

def crcByte (crc : UInt32) (ch : UInt8) : UInt32 :=
  reflectedTable (crc.toUInt8 ^^^ ch) ^^^ (crc >>> 8)

def calc32c (value : Bytes) : UInt32 := value.foldl crcByte 0xFFFFFFFF ^^^ 0xFFFFFFFF

/-- `calc32c` continued over more bytes. -/
def extend32c (crc : UInt32) (more : Bytes) : UInt32 :=
  more.foldl crcByte (crc ^^^ 0xFFFFFFFF) ^^^ 0xFFFFFFFF

@[simp] theorem extend32c_zero (value : Bytes) : extend32c 0 value = calc32c value := by
  simp [extend32c, calc32c]

theorem extend32c_calc32c (a b : Bytes) : extend32c (calc32c a) b = calc32c (a ++ b) := by
  simp only [extend32c, calc32c, List.foldl_append]
  rw [UInt32.xor_assoc, UInt32.xor_self, UInt32.xor_zero]

-- the check value the header asserts, of the digits 1 to 9
example : calc32c [0x31, 0x32, 0x33, 0x34, 0x35, 0x36, 0x37, 0x38, 0x39] = 0xE3069283 := by
  decide +kernel

end OpcHub.Records
