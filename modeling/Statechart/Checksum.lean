/-!
# Statechart.Checksum

The cyclic redundancy check CRC-32C (Castagnoli) of a byte sequence, written as eight hexadecimal
digits. The checksum of a chart is the check of its canonical text.
-/

namespace Statechart.Checksum

/-- The generator polynomial, lowest power in the highest bit. -/
def polynomial : UInt32 := 0x82F63B78

def shiftBit (register : UInt32) : UInt32 :=
  if register &&& 1 = 1 then (register >>> 1) ^^^ polynomial else register >>> 1

def addByte (register : UInt32) (byte : UInt8) : UInt32 :=
  Nat.repeat shiftBit 8 (register ^^^ byte.toUInt32)

def crc32c (bytes : ByteArray) : UInt32 :=
  bytes.data.toList.foldl addByte 0xFFFFFFFF ^^^ 0xFFFFFFFF

def hex (n : UInt32) : String :=
  String.ofList ((List.range 8).map fun i => Nat.digitChar (n.toNat / Nat.pow 16 (7 - i) % 16))

/-- The checksum of a text, taken over its UTF-8 bytes. -/
def ofText (text : String) : String :=
  hex (crc32c text.toUTF8)

end Statechart.Checksum
