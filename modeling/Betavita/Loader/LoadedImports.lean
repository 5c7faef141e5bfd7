import Betavita.Loader.LoadedImage

/-!
# What a loaded image is linked to

The imports of an image are those that its memory lists once it is mapped and relocated.
`load_self_to_memory` writes their stubs and registers them, and `resolve_runtime_modules`
files a function under each of the stubs and under nothing else.
-/

namespace Betavita.Loader

open Memory Hle KeyedMap ByteBuffer

section Linked

variable {maps : List MemoryMap} {t : ImportTable} {libraries : List FunctionImportLibrary}
  {name : GuestString} {nid : Word}

end Linked

end Betavita.Loader
