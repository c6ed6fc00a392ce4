import EventStreamCore.Events.EventFactory
import EventStreamCore.Lib.ReflectedCrc

/-!
# The checksum bit by bit

`EventFactory::calculateCRC32`, `src/core/events/event_factory.cpp:7–29`, goes over the payload a
byte at a time with a table. The check it computes is the reflected CRC-32, which takes one bit
of the message after another.
-/

namespace EventStreamCore.Events

open Lib

/-- The reflected CRC-32 of a message, bit by bit, each byte from its least significant bit. -/
def bitwiseCRC32 (data : Bytes) : UInt32 :=
  .ofBitVec <| ReflectedCrc.crc 0xEDB88320#32 0xFFFFFFFF#32 0xFFFFFFFF#32
    (data.flatMap fun byte ↦ ReflectedCrc.symbolBits byte.toBitVec)

namespace EventFactory

private theorem and_one_ne_zero (c : UInt32) : c &&& 1 ≠ 0 ↔ c.toBitVec.getLsbD 0 = true := by
  have hlow : (c &&& 1).toBitVec = (BitVec.ofBool (c.toBitVec.getLsbD 0)).setWidth 32 :=
    BitVec.and_one_eq_setWidth_ofBool_getLsbD
  rw [ne_eq, ← UInt32.toBitVec_inj, hlow]
  cases c.toBitVec.getLsbD 0 <;> decide

/-- A round of the table is a step of the register. -/
theorem toBitVec_crcRound (c : UInt32) :
    (crcRound c).toBitVec = ReflectedCrc.shift 0xEDB88320#32 c.toBitVec := by
  unfold crcRound ReflectedCrc.shift
  by_cases h : c.toBitVec.getLsbD 0 = true
  · rw [if_pos ((and_one_ne_zero c).mpr h), if_pos h]
    rfl
  · rw [if_neg (mt (and_one_ne_zero c).mp h), if_neg h]
    rfl

/-- An entry of the table is eight steps of the register. -/
theorem toBitVec_crc32Table (i : UInt32) :
    (crc32Table i).toBitVec = (ReflectedCrc.shift 0xEDB88320#32)^[8] i.toBitVec := by
  change (crcRound (crcRound (crcRound (crcRound (crcRound (crcRound (crcRound (crcRound
    i)))))))).toBitVec = _
  simp only [toBitVec_crcRound]
  rfl

/-- A round of the loop over the payload is the step of its eight bits. -/
theorem toBitVec_tableRound (c : UInt32) (byte : UInt8) :
    ((c >>> 8) ^^^ crc32Table ((c ^^^ byte.toUInt32) &&& 0xFF)).toBitVec
      = ReflectedCrc.tableStep 0xEDB88320#32 c.toBitVec byte.toBitVec := by
  rw [UInt32.toBitVec_xor, toBitVec_crc32Table]
  rfl

/-- The checksum of a payload is the reflected CRC-32 of its bits. -/
theorem calculateCRC32_eq_bitwise (data : Bytes) : calculateCRC32 data = bitwiseCRC32 data := by
  have hfold : ∀ c : UInt32,
      (data.foldl (fun (crc : UInt32) byte ↦
        (crc >>> 8) ^^^ crc32Table ((crc ^^^ byte.toUInt32) &&& 0xFF)) c).toBitVec
        = (data.map UInt8.toBitVec).foldl (ReflectedCrc.tableStep 0xEDB88320#32) c.toBitVec := by
    induction data with
    | nil => exact fun c ↦ rfl
    | cons byte data ih =>
      intro c
      rw [List.foldl_cons, ih, toBitVec_tableRound, List.map_cons, List.foldl_cons]
  have hbits : (data.flatMap fun byte ↦ ReflectedCrc.symbolBits byte.toBitVec)
      = (data.map UInt8.toBitVec).flatMap ReflectedCrc.symbolBits :=
    (List.flatMap_map _ _ data).symm
  apply UInt32.toBitVec_inj.mp
  rw [calculateCRC32, UInt32.toBitVec_xor, hfold, bitwiseCRC32, hbits,
    ReflectedCrc.crc_flatMap_symbolBits (by decide)]
  rfl

/-- The check value of the nine digits. -/
example : bitwiseCRC32 [0x31, 0x32, 0x33, 0x34, 0x35, 0x36, 0x37, 0x38, 0x39] = 0xCBF43926 := by
  decide +kernel

end EventFactory
end EventStreamCore.Events
