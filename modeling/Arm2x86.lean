import Arm2x86.Base.Bytes
import Arm2x86.Base.Heap
import Arm2x86.Base.Links
import Arm2x86.Base.Lru
import Arm2x86.Base.Memory
import Arm2x86.Base.Pool
import Arm2x86.Base.Diagrams
import Arm2x86.Tcache.Model
import Arm2x86.Tcache.PatchFrame
import Arm2x86.Tcache.Representation
import Arm2x86.Tcache.Lookup
import Arm2x86.Tcache.Insert
import Arm2x86.Tcache.Rehash
import Arm2x86.Tcache.Invariant
import Arm2x86.Tcache.Refinement
import Arm2x86.Tcache.Capacity
import Arm2x86.Tcache.Newest
import Arm2x86.Pcache.Format
import Arm2x86.Pcache.Model
import Arm2x86.Pcache.Lookup
import Arm2x86.Pcache.RoundTrip
import Arm2x86.Pcache.Healing
import Arm2x86.Pcache.Accounting
import Arm2x86.A64.Integer
import Arm2x86.A64.Branch
import Arm2x86.A64.LoadStore
import Arm2x86.A64.DataProcessing
import Arm2x86.X86.Emit
import Arm2x86.X86.Isa
import Arm2x86.X86.RoundTrip
import Arm2x86.X86.Machine
import Arm2x86.Translate.RegAlloc
import Arm2x86.Translate.Exclusive
import Arm2x86.Translate.Decode
import Arm2x86.Translate.Integer
import Arm2x86.Translate.Memory
import Arm2x86.Translate.Vector
import Arm2x86.Translate.Block
import Arm2x86.Translate.Jumps
import Arm2x86.Translate.Relocation
import Arm2x86.Translate.StraightLine
import Arm2x86.Translate.RegisterCoherence
import Arm2x86.Translate.Writes
import Arm2x86.Translate.WritesVector
import Arm2x86.Translate.BaseRegister
import Arm2x86.Translate.BasePreservation
import Arm2x86.Translate.DecodeMasks
import Arm2x86.Translate.DecodeBranch
import Arm2x86.Translate.DecodeLoadStore
import Arm2x86.Translate.DecodeDataProcessing
import Arm2x86.Translate.DecodeSystem
import Arm2x86.Easy.Parallel
import Arm2x86.Easy.Model
import Arm2x86.Easy.Batch
import Arm2x86.Easy.Ownership
import Arm2x86.Easy.Lifetime
import Arm2x86.Easy.MemoryPool
import Arm2x86.Easy.PoolBlocks
import Arm2x86.Easy.PoolLimits
import Arm2x86.Easy.Aot
import Arm2x86.Easy.Transparency
import Arm2x86.Elf.Model
import Arm2x86.Elf.Image
import Arm2x86.Link.Unlinking
import Arm2x86.Link.Liveness
import Arm2x86.Dbt.Model
import Arm2x86.Dbt.Locking
import Arm2x86.Dbt.Coherence
import Arm2x86.Translate.OperationAgreement
import Arm2x86.Translate.HomeAccess
import Arm2x86.Translate.GuestAccess
import Arm2x86.Translate.HomeFrame
import Arm2x86.Translate.AccessFootprint
import Arm2x86.A64.Access
import Arm2x86.X86.Runs
import Arm2x86.X86.Status
import Arm2x86.X86.Execution
import Arm2x86.X86.Passes
import Arm2x86.Base.Sparse
import Arm2x86.Base.Ring
import Arm2x86.Base.Stepping
import Arm2x86.Observe.Trace
import Arm2x86.Observe.Profiler
import Arm2x86.Jumptable.Model
import Arm2x86.Jumptable.Coherence
import Arm2x86.Pageprot.Records
import Arm2x86.Pageprot.Tracking
import Arm2x86.Syscall.Table
import Arm2x86.Syscall.Model
import Arm2x86.Syscall.Forwarding
import Arm2x86.Translate.Independence
import Arm2x86.Translate.UpperHalves
import Arm2x86.Translate.ZeroExtension
import Arm2x86.Base.Leb128
import Arm2x86.Reloc.Model
import Arm2x86.Reloc.Numbers
import Arm2x86.Reloc.Packed
import Arm2x86.Reloc.PackedFormat
import Arm2x86.Reloc.RelrFormat
import Arm2x86.Reloc.RelrExact
import Arm2x86.Reloc.RelrNecessity
import Arm2x86.X86.TwoOperand
import Arm2x86.X86.TwoOperandExact
import Arm2x86.X86.MemoryOperands
import Arm2x86.X86.Patching
import Arm2x86.Translate.HomeTransfer
import Arm2x86.Translate.SlotRuns
import Arm2x86.Translate.ConditionalSelect
import Arm2x86.Translate.Division
import Arm2x86.Translate.ConditionalBranch
import Arm2x86.X86.Transforms
import Arm2x86.Translate.ValueRuns
import Arm2x86.Translate.Bitfields
import Arm2x86.Translate.Constants
import Arm2x86.Translate.MoveWide
import Arm2x86.Translate.PcRelative
import Arm2x86.Translate.Requests
import Arm2x86.Translate.Combinations
import Arm2x86.Translate.OperandStability
import Arm2x86.X86.Validity
import Arm2x86.X86.Contention
import Arm2x86.Translate.StackRuns
import Arm2x86.Translate.Atomics
import Arm2x86.Translate.SystemCall
import Arm2x86.Base.Crc
import Arm2x86.Pcache.Corruption
import Arm2x86.Base.Shedding
import Arm2x86.Pcache.Eviction
import Arm2x86.Pcache.Admission
import Arm2x86.Easy.Address
import Arm2x86.Arm32.Model
import Arm2x86.Arm32.Conditions
import Arm2x86.Arm32.Multiple
import Arm2x86.Thumb.Model
import Arm2x86.Thumb.Segmentation
import Arm2x86.Thumb.ItBlocks
import Arm2x86.X86.Loops
import Arm2x86.X86.Stack
import Arm2x86.Sve.Loops
import Arm2x86.X86.Vectors
import Arm2x86.Translate.VectorPermutes
import Arm2x86.Translate.VectorDivision
import Arm2x86.Translate.Reads
import Arm2x86.Translate.SystemRegisters
import Arm2x86.Peephole.Bounds
import Arm2x86.Hotblock.Fusion
import Arm2x86.X86.Rounds
import Arm2x86.Hotblock.Unrolling
import Arm2x86.Hotblock.Propagation
import Arm2x86.X86.Flags
import Arm2x86.Hotblock.Elimination
import Arm2x86.Base.Strings
import Arm2x86.Jumptable.Atomicity
import Arm2x86.Namespaces.Isolation
import Arm2x86.Base.History
import Arm2x86.Hotblock.Hits
import Arm2x86.Jni.Capture
import Arm2x86.Jni.CaptureRuns
import Arm2x86.Jni.Descriptors
import Arm2x86.Jni.Reflection
import Arm2x86.Jni.ReflectionRuns
import Arm2x86.X86.LowRegisters
import Arm2x86.Peephole.Meaning
import Arm2x86.Peephole.Replacements
import Arm2x86.Elf.Symbols
import Arm2x86.Base.Walks
import Arm2x86.Elf.Lookup
import Arm2x86.Reloc.Tables
import Arm2x86.Reloc.TableRuns
import Arm2x86.Base.Remainder
import Arm2x86.Syscall.Crc32
import Arm2x86.Tcache.JumpList
import Arm2x86.Base.Selection
import Arm2x86.Syscall.InlineCache
import Arm2x86.Observe.TopBlocks
import Arm2x86.Base.Buckets
import Arm2x86.Elf.HashTable
import Arm2x86.Syscall.Chaining
import Arm2x86.Translate.OutputBound
import Arm2x86.Arm32.OutputBound
import Arm2x86.Dbt.Placement
import Arm2x86.Translate.HomePrograms
import Arm2x86.Tcache.CodeCache
import Arm2x86.Syscall.Profile
import Arm2x86.Easy.AotFile
import Arm2x86.Dbt.Execution
import Arm2x86.Elf.Addons
import Arm2x86.Dbt.Threads
import Arm2x86.Syscall.Signals

