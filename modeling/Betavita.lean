import Betavita.Lib.Assignment
import Betavita.Lib.ByteBuffer
import Betavita.Lib.ByteStore
import Betavita.Lib.CountedLoop
import Betavita.Lib.CursorWalk
import Betavita.Lib.DoWhile
import Betavita.Lib.Intervals
import Betavita.Lib.KeyedMap
import Betavita.Lib.Ownership
import Betavita.Lib.Paging
import Betavita.Lib.PathWalk
import Betavita.Lib.Results
import Betavita.Lib.Simulation
import Betavita.Lib.Transition
import Betavita.Lib.UnstableSort
import Betavita.Memory.Map
import Betavita.Memory.Access
import Betavita.Memory.MapOrder
import Betavita.Memory.Guest
import Betavita.Memory.Store
import Betavita.Processor.EngineMap
import Betavita.Processor.Registers
import Betavita.Loader.Elf
import Betavita.Loader.Decrypt
import Betavita.Loader.Relocation
import Betavita.Loader.RelocationTable
import Betavita.Loader.SegmentIndex
import Betavita.Loader.TableBounds
import Betavita.Loader.RelocationField
import Betavita.Loader.RelocationOrder
import Betavita.Hle.SceLibKernel
import Betavita.Hle.ClibRange
import Betavita.Hle.MemoryManager
import Betavita.Hle.AllocatorRun
import Betavita.Hle.GuardPages
import Betavita.Hle.SceSysmem
import Betavita.Hle.Display
import Betavita.Hle.Kernel
import Betavita.Hle.Registry
import Betavita.Hle.Scheduler
import Betavita.Hle.Slice
import Betavita.Hle.Dispatch
import Betavita.Hle.Isolation
import Betavita.Hle.ThreadMemory
import Betavita.Hle.Runtime
import Betavita.Hle.Resolve
import Betavita.Hle.Wrapper
import Betavita.Hle.GuestRun
import Betavita.Hle.Emulator
import Betavita.Hle.Schedule
import Betavita.Hle.Teardown
import Betavita.Hle.GuestMemory
import Betavita.Hle.EmulatorMemory
import Betavita.Hle.GuestSafety
import Betavita.Hle.EngineRun
import Betavita.Hle.WriteProtection
import Betavita.Hle.Boot
import Betavita.Hle.LinkedRun
import Betavita.Loader.SegmentMap
import Betavita.Loader.Translation
import Betavita.Loader.ImageLayout
import Betavita.Loader.Placement
import Betavita.Loader.Import
import Betavita.Loader.WideAccess
import Betavita.Loader.ExportTables
import Betavita.Loader.ImportTables
import Betavita.Loader.TableWalk
import Betavita.Loader.ImportLinking
import Betavita.Loader.ImportAcceptance
import Betavita.Loader.LoadWrites
import Betavita.Loader.Load
import Betavita.Loader.LoadedImage
import Betavita.Loader.LoadedFile
import Betavita.Loader.LoadedImports
import Betavita.Loader.TableBase
import Betavita.Vfs.Scanner
import Betavita.Vfs.ScanLoop
import Betavita.Vfs.Filesystem
import Betavita.Vfs.Tree
import Betavita.Vfs.Kept
import Betavita.Vfs.Run
import Betavita.Vfs.View
import Betavita.Vfs.CreateFile
import Betavita.Vfs.GetFile
import Betavita.Vfs.DotComponents
import Betavita.Vfs.RemoveFile
import Betavita.Vfs.Spellings
import Betavita.Vfs.Malformed
import Betavita.Vfs.Drive
import Betavita.Vfs.Teardown
