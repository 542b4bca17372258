import Ps3emu.Spu.Dma
import Ps3emu.Spu.SelectMask
import Ps3emu.Spu.Link
import Ps3emu.Spu.Insert
import Ps3emu.Spu.Multiply
import Ps3emu.Spu.MultiWord
import Ps3emu.Spu.Shift
import Ps3emu.Spu.Compare
import Ps3emu.Spu.Branch
import Ps3emu.Spu.Image
import Ps3emu.Library.Overlay
import Ps3emu.Spu.Suspend
import Ps3emu.Spu.Loop
import Ps3emu.Spu.GroupDispatch
import Ps3emu.Spu.GroupState
import Ps3emu.Spu.SPUGroupManager
import Ps3emu.Library.Greedy
import Ps3emu.Spu.Mailbox
import Ps3emu.Sync.ConcurrentBoundedQueue
import Ps3emu.Sync.EventFlag
import Ps3emu.Sync.EventPort
import Ps3emu.Sync.EventQueue
import Ps3emu.Sync.Semaphore
import Ps3emu.Sync.Mutex
import Ps3emu.Library.BinaryHeap
import Ps3emu.Sync.ConcurrentQueue
import Ps3emu.Sync.Cond
import Ps3emu.Library.Monitor
import Ps3emu.Rewriter.ControlFlow
import Ps3emu.Rewriter.Compile
import Ps3emu.Rewriter.Emission
import Ps3emu.Rewriter.Parts
import Ps3emu.Ppu.Rewrite
import Ps3emu.Spu.AtomicStatus
import Ps3emu.Spu.Events
import Ps3emu.Ppu.Overflow
import Ps3emu.Ppu.Once
import Ps3emu.Ppu.Ps3call
import Ps3emu.Ppu.Record
import Ps3emu.Library.Products
import Ps3emu.Ppu.Multiply
import Ps3emu.Library.Limbs
import Ps3emu.Ppu.Carry
import Ps3emu.Ppu.Shift
import Ps3emu.Ppu.Rotate
import Ps3emu.Ppu.Branch
import Ps3emu.Ppu.Interpreter
import Ps3emu.Rewriter.Optimize
import Ps3emu.Rewriter.Hazard
import Ps3emu.Rewriter.Merge
import Ps3emu.Rewriter.Execution
import Ps3emu.Library.Parallel
import Ps3emu.Library.Writes
import Ps3emu.Rewriter.Statements
import Ps3emu.Rewriter.Closure
import Ps3emu.Rewriter.Discover
import Ps3emu.Rewriter.GraphTools
import Ps3emu.Rewriter.BasicBlocks
import Ps3emu.Rewriter.CodeMap
import Ps3emu.Library.Reachability
import Ps3emu.Memory.Heap
import Ps3emu.Memory.Protection
import Ps3emu.Utils.FindGap
import Ps3emu.Utils.IDMap
import Ps3emu.Rsx.Watch
import Ps3emu.Rsx.OffsetTable
import Ps3emu.Rsx.OffsetStream
import Ps3emu.Rsx.BlockTexture
import Ps3emu.Rsx.TextureLevels
import Ps3emu.Rsx.TransferImage
import Ps3emu.Rsx.Cache
import Ps3emu.Spu.Window
import Ps3emu.Spu.BulkRead
import Ps3emu.Memory.Flat
import Ps3emu.Library.Transition
import Ps3emu.Library.Simulation
import Ps3emu.Shaders.AST
import Ps3emu.Shaders.Evaluation
import Ps3emu.Shaders.Execution
import Ps3emu.Shaders.Branches
import Ps3emu.Library.Cursor
import Ps3emu.Shaders.FragmentInstr
import Ps3emu.Shaders.IfStubs
import Ps3emu.Shaders.IfRegions
import Ps3emu.Shaders.FragmentProgram
import Ps3emu.Shaders.Rewriter
import Ps3emu.Shaders.FragmentStatement
import Ps3emu.Shaders.FragmentGenerator
import Ps3emu.Shaders.VertexInstr
import Ps3emu.Shaders.VertexStatement
import Ps3emu.Shaders.VertexEvaluation
import Ps3emu.Shaders.Decoders
import Ps3emu.Shaders.Guards
import Ps3emu.Shaders.FragmentConditions
import Ps3emu.Shaders.VertexSlots
import Ps3emu.Shaders.VertexDestinations
import Ps3emu.Rsx.ShaderContext
import Ps3emu.Library.Memo
import Ps3emu.Rsx.FragmentConstants
import Ps3emu.Rsx.ShaderCaches
import Ps3emu.Rsx.Draw
import Ps3emu.Rsx.Fifo
import Ps3emu.Library.Ranges
import Ps3emu.Rsx.DrawBatch
import Ps3emu.Rsx.CacheCoherence
import Ps3emu.Rsx.Copy2d
import Ps3emu.Rsx.Reports
import Ps3emu.Library.Interleave
import Ps3emu.Rsx.Swizzle
import Ps3emu.Utils.EndianReverse
import Ps3emu.Library.Bytes
import Ps3emu.Memory.LoadReserve
import Ps3emu.Memory.Tables
import Ps3emu.Library.Arrangement
import Ps3emu.Memory.Modules
import Ps3emu.Ppu.ConditionRegister
import Ps3emu.Ppu.SpecialRegisters
import Ps3emu.Ppu.ByteReverse
import Ps3emu.Ppu.LoadStore
import Ps3emu.Memory.Relocation
import Ps3emu.Memory.HostRanges
import Ps3emu.Ppu.VectorUnaligned
import Ps3emu.Ppu.VectorInteger
import Ps3emu.Rewriter.IndirectLocations
import Ps3emu.Rewriter.JumpTable
import Ps3emu.Rewriter.Cutoff
import Ps3emu.Rewriter.EmbeddedElfs
import Ps3emu.Rewriter.SplitBlocks
import Ps3emu.Utils.IDWords
import Ps3emu.Ppu.Splice
import Ps3emu.Utils.BitFields
import Ps3emu.Utils.GuestPaths
import Ps3emu.Utils.AudioAttributes
import Ps3emu.Utils.DebugExpr
import Ps3emu.Rsx.RingBuffer
import Ps3emu.Rewriter.Dispatch
import Ps3emu.Ppu.Blocks
