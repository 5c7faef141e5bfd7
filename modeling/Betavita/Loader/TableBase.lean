import Betavita.Loader.Load
import Betavita.Loader.TableWalk

/-!
# The base of the module tables

The module info lies in the segment that the entry names. The tables it points to are looked
for from the lowest address of a mapped segment, which need not be that segment's.
-/

namespace Betavita.Loader

open Memory Hle CursorWalk Results

/-! ## Up to the tables -/

section Tables

variable {data : SELFProgramData} {st : LoaderState} {modinfo : HostPtr} {baseAddress : Word}
  {maps : List MemoryMap}

end Tables

end Betavita.Loader
