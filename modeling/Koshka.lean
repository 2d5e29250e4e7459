import Koshka.Data.Blocks
import Koshka.Data.Objects
import Koshka.Data.FirstCome
import Koshka.Data.Command
import Koshka.Data.History
import Koshka.Data.Amortized
import Koshka.Data.Alike
import Koshka.Data.Ledger
import Koshka.Data.Heap
import Koshka.Data.Interleave
import Koshka.Data.File
import Koshka.Data.Stream
import Koshka.Memory
import Koshka.Bitmanip
import Koshka.Bitmanip.Promotion
import Koshka.Pool
import Koshka.Pool.Store
import Koshka.Pool.Bounds
import Koshka.Pool.Contents
import Koshka.Pool.Growth
import Koshka.Pool.Shared
import Koshka.Pool.Several
import Koshka.Pool.Leaks
import Koshka.Regalloc
import Koshka.Regalloc.Mapping
import Koshka.Regalloc.Supply
import Koshka.Regalloc.Answers
import Koshka.Boolset
import Koshka.Boolset.History
import Koshka.Boolset.Range
import Koshka.Boolset.Mixed
import Koshka.Os.Vmem
import Koshka.Os.Table
import Koshka.Os.Release
import Koshka.Os.Mapping
import Koshka.Os.Nro
import Koshka.Elf
import Koshka.Elf.Load
import Koshka.Data.Spread
import Koshka.Data.Cyclic
import Koshka.Data.Linked
import Koshka.Data.Related
import Koshka.ArmAsl
import Koshka.Arm.Masks
import Koshka.Arm.Encoding
import Koshka.Arm.Execute
import Koshka.Arm.Effect
import Koshka.Arm.Operands
import Koshka.Arm.Sums
import Koshka.Imlgen.Iml
import Koshka.Imlgen.ArmEncoding
import Koshka.Imlgen.Decode
import Koshka.Imlgen.Dispatch
import Koshka.Imlgen.Routing
import Koshka.Imlgen.Generate
import Koshka.Imlgen.Plan
import Koshka.Imlgen.Frame
import Koshka.Imlgen.Arena
import Koshka.Imlgen.Layout
import Koshka.Imlgen.Refinement
import Koshka.Imlgen.Resolve
import Koshka.Imlgen.Capacity
import Koshka.Imlgen.Termination
import Koshka.Imlgen.Calls
import Koshka.Imlgen.Accesses
import Koshka.Imlgen.Decoded
import Koshka.Imlgen.Evaluation
import Koshka.Imlgen.Classes
import Koshka.Imlgen.Walk
import Koshka.Imlgen.Translation
import Koshka.Imlgen.Rooted
import Koshka.Imlgen.WellFormed
import Koshka.Imlgen.Meaning
import Koshka.Imlgen.Unimplemented
import Koshka.Imlgen.Records
import Koshka.Imlgen.Sources
import Koshka.Imlgen.Reserved
import Koshka.Imlgen.Failures
import Koshka.Imlgen.Outcome
import Koshka.Imlgen.Execution
import Koshka.Imlgen.Running
import Koshka.Imlgen.Stack
import Koshka.Imlgen.Shortage
import Koshka.Imlgen.Whole
import Koshka.Imlgen.Space
import Koshka.Imlgen.Ownership
import Koshka.Main
import Koshka.Stdio
