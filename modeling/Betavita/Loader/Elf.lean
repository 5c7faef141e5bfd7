import Betavita.Memory.Access

/-!
# sce-type.h, ELF.h — the records of a SELF file

The file is a host buffer, and the loader casts offsets into it to packed structures.
A structure is read here as its bytes and then decoded field by field; reading past
the buffer is a `Trap`.
-/

namespace Betavita.Loader

open Memory ByteBuffer

abbrev DoubleWord := BitVec 64

/-- `n` bytes of a host buffer, from `off` on. -/
def bufRead (buf : List Byte) (off n : Nat) : Except Trap (List Byte) :=
  if n = 0 ∨ off + n ≤ buf.length then .ok (slice buf off n) else .error .outOfBounds

/-- A little-endian field of a structure: its offset and its width in bits. -/
def field (bytes : List Byte) (off width : Nat) : BitVec width :=
  BitVec.ofNat width (decode (slice bytes off (width / 8)))

def ET_SCE_EXEC : Half := 0xFE00#16
def ET_SCE_RELEXEC : Half := 0xFE04#16

def PT_LOAD : Word := 1#32
def PT_SCE_RELA : Word := 0x60000000#32

/-- The offsets `SCEHeader` gives. -/
structure SCEHeader where
  elfOffset : DoubleWord
  phdrOffset : DoubleWord
  sectionInfoOffset : DoubleWord
deriving DecidableEq

def readSCEHeader (buf : List Byte) : Except Trap SCEHeader := do
  let elfOffset ← bufRead buf 0x40 8
  let phdrOffset ← bufRead buf 0x48 8
  let sectionInfoOffset ← bufRead buf 0x58 8
  return ⟨field elfOffset 0 64, field phdrOffset 0 64, field sectionInfoOffset 0 64⟩

/-- The members of `ELFHdr32` the loader reads. -/
structure ELFHdr32 where
  eType : Half
  eEntry : Word
  ePhnum : Half
deriving DecidableEq

def readELFHdr32 (buf : List Byte) (off : Nat) : Except Trap ELFHdr32 := do
  let eType ← bufRead buf (off + 0x10) 2
  let eEntry ← bufRead buf (off + 0x18) 4
  let ePhnum ← bufRead buf (off + 0x2C) 2
  return ⟨field eType 0 16, field eEntry 0 32, field ePhnum 0 16⟩

structure ELFPhdr32 where
  pType : Word
  pOffset : Word
  pVaddr : Word
  pPaddr : Word
  pFilesz : Word
  pMemsz : Word
  pFlags : Word
  pAlign : Word
deriving DecidableEq

/-- The zeroed header of a value-initialised segment. -/
def ELFPhdr32.zero : ELFPhdr32 := ⟨0, 0, 0, 0, 0, 0, 0, 0⟩

/-- `*phdr`. -/
def readELFPhdr32 (buf : List Byte) (off : Nat) : Except Trap ELFPhdr32 := do
  let bytes ← bufRead buf off 0x20
  return {
    pType := field bytes 0x00 32
    pOffset := field bytes 0x04 32
    pVaddr := field bytes 0x08 32
    pPaddr := field bytes 0x0C 32
    pFilesz := field bytes 0x10 32
    pMemsz := field bytes 0x14 32
    pFlags := field bytes 0x18 32
    pAlign := field bytes 0x1C 32 }

structure SegmentInfo where
  offset : DoubleWord
  length : DoubleWord
  compression : DoubleWord
  encryption : DoubleWord
deriving DecidableEq

/-- `*info`. -/
def readSegmentInfo (buf : List Byte) (off : Nat) : Except Trap SegmentInfo := do
  let bytes ← bufRead buf off 0x20
  return {
    offset := field bytes 0x00 64
    length := field bytes 0x08 64
    compression := field bytes 0x10 64
    encryption := field bytes 0x18 64 }

/-- `DecryptedSegment`. The buffer of a value-initialised segment is null; it is empty
here, and no byte of it can be read either. -/
structure DecryptedSegment where
  name : String
  data : List Byte
  segmentLength : Nat
  relocatable : Bool
  canLoad : Bool
  phdr : ELFPhdr32
deriving DecidableEq

/-- `DecryptedSegment{}`. -/
def DecryptedSegment.zero : DecryptedSegment := ⟨"", [], 0, false, false, .zero⟩

structure SELFProgramData where
  entry : Word
  relocatable : Bool
  executableType : Half
  segments : List DecryptedSegment
deriving DecidableEq

theorem bufRead_zero (buf : List Byte) (off : Nat) : bufRead buf off 0 = .ok [] := by
  simp [bufRead, slice]

theorem bufRead_eq {buf bytes : List Byte} {off n : Nat} (h : bufRead buf off n = .ok bytes) :
    bytes = slice buf off n := by
  unfold bufRead at h
  split at h
  · exact (Except.ok.inj h).symm
  · cases h

theorem bufRead_length {buf bytes : List Byte} {off n : Nat} (h : bufRead buf off n = .ok bytes) :
    bytes.length = n := by
  unfold bufRead at h
  split at h
  · rename_i hfits
    cases h
    rcases hfits with rfl | hfits
    · simp [slice]
    · exact slice_length hfits
  · cases h

end Betavita.Loader
