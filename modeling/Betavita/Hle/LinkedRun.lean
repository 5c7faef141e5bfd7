import Betavita.Hle.Boot
import Betavita.Hle.WriteProtection
import Betavita.Loader.LoadedImports

/-!
# The imports of a loaded image during a run

The stubs of the imports lie in the text of the image, which instructions cannot write to.
As long as no supervisor call writes there, the guest finds every stub as the loader left
it, and gets from it to the function that the image imports, and to no function from
anywhere else.
-/

namespace Betavita.Hle

open Memory Processor Transition Loader

section Image

variable {data : SELFProgramData} {maps : List MemoryMap} {modules : List RuntimeModule}
  {fuel : Nat}

end Image

end Betavita.Hle
