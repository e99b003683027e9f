import BentoLinker.Lib.BitCode
import BentoLinker.Lib.BijectiveNumeral
import BentoLinker.Lib.CopyStream
import BentoLinker.Glz.RoundTrip
import BentoLinker.Loader.Refinement
import BentoLinker.Mpu.Protection
import BentoLinker.Lib.TracedMemory
import BentoLinker.Mpu.CallReturn
import BentoLinker.Mpu.FaultUnwinding
import BentoLinker.Mpu.WriteSet
import BentoLinker.Mpu.Dispatch
import BentoLinker.Recipe.Roommates
import BentoLinker.Mpu.CallRegion
import BentoLinker.Runtimes.Roommates
import BentoLinker.Runtimes.Suspended
import BentoLinker.Runtimes.JumpTargets
import BentoLinker.Runtimes.Aborted
import BentoLinker.Loader.Iteration
import BentoLinker.Loader.Termination
import BentoLinker.Loader.Reporting
import BentoLinker.Linker.WellLinked
import BentoLinker.Mpu.Numbering
import BentoLinker.Glue.HeapRuns
import BentoLinker.Recipe.Difference
import BentoLinker.Recipe.Consumption
import BentoLinker.Runtimes.Handles
import BentoLinker.Mpu.Entry
import BentoLinker.Lib.Settings
import BentoLinker.Recipe.Precedence
import BentoLinker.Glz.Positions
import BentoLinker.Glz.TwoPass
import BentoLinker.Glz.Container
import BentoLinker.Loader.BlockDevice
import BentoLinker.Loader.DeviceImage
import BentoLinker.Lib.PercentFormat
import BentoLinker.Loader.MultiRegion
import BentoLinker.Linker.Compatibility
import BentoLinker.Glz.TableIndex
import BentoLinker.Loader.BufferedRead
import BentoLinker.Glue.Realloc
import BentoLinker.Lib.StackFrames
import BentoLinker.Runtimes.DataStack
import BentoLinker.Runtimes.AwsmMemory
import BentoLinker.Runtimes.AwsmTable
import BentoLinker.Loader.FileRuns
import BentoLinker.Linker.ArgRoundTrip
import BentoLinker.Linker.FnText
import BentoLinker.Linker.FnRoundTrip
import BentoLinker.Glue.Sbrk
import BentoLinker.Lib.GroupedNumeral
import BentoLinker.Glz.Leb128
import BentoLinker.Glue.RustResults
import BentoLinker.Glue.Cbprintf
import BentoLinker.Glue.CbprintfSafety
import BentoLinker.Glue.CbprintfOutput
import BentoLinker.Lib.Rearrangement
import BentoLinker.Glz.OptimalCode
import BentoLinker.Lib.PythonRepr
import BentoLinker.Recipe.Arguments
import BentoLinker.Recipe.Namespaces
import BentoLinker.Recipe.ParseDict
import BentoLinker.Glz.CommandRoundTrip
import BentoLinker.Glz.Truncation
import BentoLinker.Glz.Listing
import BentoLinker.Runtimes.Jumptables
import BentoLinker.Mpu.Wrappers
import BentoLinker.Glz.Encoders
