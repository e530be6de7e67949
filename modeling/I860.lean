import I860.Alu
import I860.Board.Access
import I860.Board.Address
import I860.Board.Bus
import I860.Board.ByteOrder
import I860.Board.Doorbell
import I860.Board.Mailbox
import I860.Board.Message
import I860.Board.OpenMemory
import I860.Board.Probe
import I860.Board.Ram
import I860.Config.Basic
import I860.Config.Json
import I860.Config.Reader
import I860.Control.Dirbase
import I860.Control.Epsr
import I860.Control.File
import I860.Control.Fsr
import I860.Control.Psr
import I860.Cpu.Control
import I860.Cpu.Dump
import I860.Cpu.Fetch
import I860.Cpu.Memory
import I860.Cpu.Report
import I860.Cpu.Reset
import I860.Cpu.SelfTest
import I860.Cpu.State
import I860.Cpu.Step
import I860.Cpu.TrapEntry
import I860.Decimal.Fixed
import I860.Decimal.Scientific
import I860.Decimal.Shortest
import I860.DualMode
import I860.Error
import I860.Execute.Branch
import I860.Execute.Control
import I860.Execute.DualOperation
import I860.Execute.Float
import I860.Execute.Instruction
import I860.Execute.Integer
import I860.Execute.LoadStore
import I860.Execute.Pixel
import I860.Float.Directed
import I860.Float.Exact
import I860.Float.Format
import I860.Float.Nearest
import I860.Float.Order
import I860.Float.RoundingMode
import I860.Float.Unit
import I860.Graphics
import I860.Host.Arguments
import I860.Host.Run
import I860.Host.Tool
import I860.InstructionCache
import I860.Isa.Instruction
import I860.Isa.Listing
import I860.Isa.Op
import I860.Isa.Route
import I860.Main
import I860.Paging.Entry
import I860.Paging.Mmu
import I860.Paging.Tlb
import I860.Paging.Walk
import I860.Pipe
import I860.Proofs.AccessedBits
import I860.Proofs.DelaySlot
import I860.Proofs.Effects
import I860.Proofs.Exec
import I860.Proofs.HandlerMode
import I860.Proofs.Moves
import I860.Proofs.PageTables
import I860.Proofs.PlainMemory
import I860.Proofs.PreciseFaults
import I860.Proofs.Privilege
import I860.Proofs.Steps
import I860.Proofs.TrapReturn
import I860.Registers.File
import I860.Registers.Floating
import I860.Registers.Integer
import I860.Sparse
import I860.Telemetry
import I860.Text.Hex
import I860.Trap
import I860.Word
import I860.Proofs.Lookaside
import I860.Proofs.Course
import I860.Proofs.Coherence
import I860.Proofs.PipeIssue
import I860.Proofs.PipeQueues
import I860.Proofs.Lookups
import I860.Proofs.CachedFetch
import I860.Proofs.FaultAddress
import I860.Proofs.Unseen
import I860.Proofs.Interrupts
import I860.Proofs.Bypass
import I860.Proofs.DualSlot
import I860.Proofs.Surroundings
import I860.Proofs.Deeds
import I860.Proofs.Postings
import I860.Proofs.RunLoop
import I860.Proofs.ResetResidue
import I860.Proofs.Footprints
import I860.Proofs.Twins
import I860.Proofs.CacheGeometry
import I860.Proofs.ControlWrites
import I860.Proofs.Pages
import I860.Proofs.DataAccess
import I860.Proofs.BranchCommit
import I860.Proofs.Frames
import I860.Proofs.CompletedRuns
import I860.Proofs.Isolation
import I860.Proofs.UserMemory
import I860.Proofs.Walks
import I860.Proofs.MaskedStores
import I860.Proofs.GraphicsUnit
import I860.Proofs.MergeRegister
import I860.Proofs.PixelStores
import I860.Proofs.DepthBuffer
import I860.Proofs.BankAccess
import I860.Proofs.SizedAccess
import I860.Proofs.DualOperations
import I860.Proofs.LaneGroups
import I860.Proofs.FloatMemory
import I860.Proofs.IntegerFlags
import I860.Proofs.FloatValues
import I860.Proofs.NearestRounding
import I860.Proofs.FloatArithmetic
import I860.Proofs.NumberGrids
import I860.Proofs.DirectedRounding
import I860.Proofs.Narrowing
import I860.Proofs.ErrorFree
import I860.Proofs.DirectedArithmetic
import I860.Proofs.ListingText
import I860.Proofs.ListingOperands
import I860.Proofs.ListedExecution
import I860.Proofs.BufferHistories
import I860.Proofs.NestingDepth
import I860.Proofs.PendingCompare
import I860.Proofs.Neighbours
