import Marigold.Lib.Bytes

/-!
# Hashes and machine words as bytes

A `Hash` is 32 bytes; it is kept as the number those bytes spell with the most significant byte
first, so the byte-lexicographic order the node sorts hashes by is the order of the numbers.
-/

namespace Marigold

open Lib

/-! ## Integers on the wire (`to_le_bytes`) -/

def u16LE (v : UInt16) : Bytes := leBytes 2 v.toNat

def u32LE (v : UInt32) : Bytes := leBytes 4 v.toNat

def u64LE (v : UInt64) : Bytes := leBytes 8 v.toNat

variable (bs : Bytes)

def readU16LE : UInt16 := UInt16.ofNat (readLE bs)

def readU32LE : UInt32 := UInt32.ofNat (readLE bs)

def readU64LE : UInt64 := UInt64.ofNat (readLE bs)

@[simp] theorem u16LE_length (v : UInt16) : (u16LE v).length = 2 := leBytes_length ..

@[simp] theorem u32LE_length (v : UInt32) : (u32LE v).length = 4 := leBytes_length ..

@[simp] theorem u64LE_length (v : UInt64) : (u64LE v).length = 8 := leBytes_length ..

theorem u16LE_injective : u16LE.Injective := fun a b same =>
  UInt16.toNat_inj.mp (leBytes_inj a.toNat_lt b.toNat_lt same)

theorem u32LE_injective : u32LE.Injective := fun a b same =>
  UInt32.toNat_inj.mp (leBytes_inj a.toNat_lt b.toNat_lt same)

theorem u64LE_injective : u64LE.Injective := fun a b same =>
  UInt64.toNat_inj.mp (leBytes_inj a.toNat_lt b.toNat_lt same)

variable {bs}

theorem u16LE_readU16LE (width : bs.length = 2) : u16LE (readU16LE bs) = bs := by
  have fits : readLE bs < 2 ^ 16 := by simpa [width] using readLE_lt bs
  rw [u16LE, readU16LE, UInt16.toNat_ofNat_of_lt' fits, ← width, leBytes_readLE]

theorem u32LE_readU32LE (width : bs.length = 4) : u32LE (readU32LE bs) = bs := by
  have fits : readLE bs < 2 ^ 32 := by simpa [width] using readLE_lt bs
  rw [u32LE, readU32LE, UInt32.toNat_ofNat_of_lt' fits, ← width, leBytes_readLE]

theorem u64LE_readU64LE (width : bs.length = 8) : u64LE (readU64LE bs) = bs := by
  have fits : readLE bs < 2 ^ 64 := by simpa [width] using readLE_lt bs
  rw [u64LE, readU64LE, UInt64.toNat_ofNat_of_lt' fits, ← width, leBytes_readLE]

/-! ## Hashes -/

abbrev Hash := BitVec 256

instance : LawfulBEq Hash := inferInstance

namespace Hash

/-- `ZERO_HASH`. -/
def zero : Hash := 0#256

def asBytes (h : Hash) : Bytes := beBytes 32 h.toNat

def fromBytes (bs : Bytes) : Hash := BitVec.ofNat 256 (readBE bs)

@[simp] theorem asBytes_length (h : Hash) : h.asBytes.length = 32 := beBytes_length ..

theorem fromBytes_asBytes (h : Hash) : fromBytes h.asBytes = h := by
  apply BitVec.eq_of_toNat_eq
  rw [fromBytes, asBytes, readBE_beBytes, BitVec.toNat_ofNat]
  have fits := h.isLt
  omega

theorem asBytes_injective : asBytes.Injective :=
  Function.LeftInverse.injective fromBytes_asBytes

theorem asBytes_fromBytes {bs : Bytes} (width : bs.length = 32) : (fromBytes bs).asBytes = bs := by
  have fits : readBE bs < 2 ^ 256 := by simpa [width] using readBE_lt bs
  rw [asBytes, fromBytes, BitVec.toNat_ofNat, Nat.mod_eq_of_lt fits, ← width, beBytes_readBE]

end Hash

/-- The node's domain-separated hash functions. Nothing is assumed of them here; results that need
collision resistance say on which inputs. -/
structure Hashers where
  transactionID : Bytes → Hash
  payloadDigest : Bytes → Hash
  transactionRest : Bytes → Hash
  transactionV1Id : Bytes → Hash
  notePoolLeaf : Bytes → Hash
  notePoolSerial : Bytes → Hash
  notePoolSigning : Bytes → Hash
  notePoolOutputs : Bytes → Hash
  notePoolSmt : Bytes → Hash
  notePoolSmtCollapsed : Bytes → Hash

end Marigold
