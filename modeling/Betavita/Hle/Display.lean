import Betavita.Memory.Guest

/-!
# display.cpp, SceDisplayUser.cpp — the frame buffer

`sceDisplaySetFramebuf` hands a host pointer to the display, which copies a whole
`SceDisplayFramebuf` from it; for an address that is not mapped the pointer is null, and
only the base address is replaced.
-/

namespace Betavita.Hle

open Memory ByteBuffer

structure SceDisplayFramebuf where
  size : Word
  framebufferBase : Word
  pitch : Word
  framebufferPixelformat : Word
  framebufferWidth : Word
  framebufferHeight : Word
deriving DecidableEq

/-- `sizeof(SceDisplayFramebuf)`. -/
def SceDisplayFramebuf.sizeOf_ : Nat := 24

/-- The structure whose bytes these are. -/
def SceDisplayFramebuf.ofBytes (bytes : List Byte) : SceDisplayFramebuf :=
  let word (off : Nat) : Word := BitVec.ofNat 32 (decode (slice bytes off 4))
  ⟨word 0, word 4, word 8, word 12, word 16, word 20⟩

structure Display where
  framebufferParams : SceDisplayFramebuf
  syncType : Word
deriving DecidableEq

/-- `Display::set_framebuffer`. -/
def Display.setFramebuffer (display : Display) (maps : List MemoryMap)
    (framebuffer : Option HostPtr) (syncType : Word) : Except Trap Display :=
  let display := { display with syncType := syncType }
  match framebuffer with
  | some framebuffer => do
    let bytes ← readBytes maps framebuffer SceDisplayFramebuf.sizeOf_
    return { display with framebufferParams := .ofBytes bytes }
  | none =>
    .ok { display with
      framebufferParams := { display.framebufferParams with framebufferBase := 0x1EADBEEF#32 } }

/-- `sceDisplaySetFramebuf`: the display afterwards and the value returned. -/
def sceDisplaySetFramebuf (display : Display) (maps : List MemoryMap) (pParam sync : Word) :
    Except Trap (Display × Int) := do
  let display ← display.setFramebuffer maps (getPointerUnchecked maps pParam) sync
  return (display, 0)

/-- What the display keeps of an address without a structure. -/
def Display.withoutFramebuffer (display : Display) (syncType : Word) : Display where
  framebufferParams := { display.framebufferParams with framebufferBase := 0x1EADBEEF#32 }
  syncType := syncType

theorem sceDisplaySetFramebuf_of_none {display : Display} {maps : List MemoryMap} {pParam : Word}
    (h : getPointerUnchecked maps pParam = none) (sync : Word) :
    sceDisplaySetFramebuf display maps pParam sync = .ok (display.withoutFramebuffer sync, 0) := by
  rw [sceDisplaySetFramebuf, h]
  rfl

/-- A structure in a buffer is taken over whole. -/
theorem sceDisplaySetFramebuf_of_read {display : Display} {maps : List MemoryMap} {pParam : Word}
    {p : HostPtr} {bytes : List Byte} (h : getPointerUnchecked maps pParam = some p)
    (hread : readBytes maps p SceDisplayFramebuf.sizeOf_ = .ok bytes) (sync : Word) :
    sceDisplaySetFramebuf display maps pParam sync = .ok (⟨.ofBytes bytes, sync⟩, 0) := by
  rw [sceDisplaySetFramebuf, h, Display.setFramebuffer]
  simp only [hread, ok_bind]
  rfl

theorem sceDisplaySetFramebuf_error {display : Display} {maps : List MemoryMap} {pParam : Word}
    {p : HostPtr} (h : getPointerUnchecked maps pParam = some p)
    (hin : ¬ InBuffer maps p SceDisplayFramebuf.sizeOf_) (sync : Word) :
    sceDisplaySetFramebuf display maps pParam sync = .error .outOfBounds := by
  rw [sceDisplaySetFramebuf, h, Display.setFramebuffer]
  simp only [readBytes_error hin]
  rfl

end Betavita.Hle
