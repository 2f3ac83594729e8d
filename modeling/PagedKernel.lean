import PagedKernel.Address
import PagedKernel.AddressSpace.Contents
import PagedKernel.AddressSpace.Cursor
import PagedKernel.AddressSpace.Listing
import PagedKernel.AddressSpace.PageTable
import PagedKernel.AddressSpace.Permission
import PagedKernel.Audit
import PagedKernel.CommandLine
import PagedKernel.Failure
import PagedKernel.Frames
import PagedKernel.Halt
import PagedKernel.Hexadecimal
import PagedKernel.Kernel.Basic
import PagedKernel.Kernel.Clock
import PagedKernel.Kernel.Handler
import PagedKernel.Kernel.Run
import PagedKernel.Layout
import PagedKernel.Machine.Assembler
import PagedKernel.Machine.Cpu
import PagedKernel.Machine.Entry
import PagedKernel.Machine.Instruction
import PagedKernel.Machine.Memory
import PagedKernel.Machine.Registers
import PagedKernel.Machine.Serial
import PagedKernel.Machine.Timer
import PagedKernel.Machine.Walk
import PagedKernel.Main
import PagedKernel.MemoryMap
import PagedKernel.Notice
import PagedKernel.Process.Basic
import PagedKernel.Process.Fork
import PagedKernel.Process.Load
import PagedKernel.Process.Program
import PagedKernel.Process.Schedule
import PagedKernel.Process.SystemCall
import PagedKernel.Programs
import PagedKernel.Proofs.Alignment
import PagedKernel.Proofs.Allocation
import PagedKernel.Proofs.Coincide
import PagedKernel.Proofs.Frames
import PagedKernel.Proofs.Handles
import PagedKernel.Proofs.Kernel.Boot
import PagedKernel.Proofs.Kernel.Calls
import PagedKernel.Proofs.Kernel.Duplication
import PagedKernel.Proofs.Kernel.Fetches
import PagedKernel.Proofs.Kernel.ForkExit
import PagedKernel.Proofs.Kernel.ForkLimits
import PagedKernel.Proofs.Kernel.Handler
import PagedKernel.Proofs.Kernel.Isolation
import PagedKernel.Proofs.Kernel.Loading
import PagedKernel.Proofs.Kernel.MemoryMap
import PagedKernel.Proofs.Kernel.NullPage
import PagedKernel.Proofs.Kernel.Pausing
import PagedKernel.Proofs.Kernel.Preemption
import PagedKernel.Proofs.Kernel.Reachable
import PagedKernel.Proofs.Kernel.RoundRobin
import PagedKernel.Proofs.Kernel.Run
import PagedKernel.Proofs.Kernel.Safety
import PagedKernel.Proofs.Kernel.StaleContents
import PagedKernel.Proofs.Kernel.Table
import PagedKernel.Proofs.Kernel.Text
import PagedKernel.Proofs.Kernel.Timekeeping
import PagedKernel.Proofs.Kernel.Twins
import PagedKernel.Proofs.Machine.Assembly
import PagedKernel.Proofs.Machine.Entries
import PagedKernel.Proofs.Machine.Instructions
import PagedKernel.Proofs.Machine.Serial
import PagedKernel.Proofs.Machine.Slots
import PagedKernel.Proofs.Outcome
import PagedKernel.Proofs.Process.Access
import PagedKernel.Proofs.Process.Audit
import PagedKernel.Proofs.Process.Build
import PagedKernel.Proofs.Process.Fork
import PagedKernel.Proofs.Process.Image
import PagedKernel.Proofs.Process.Isolation
import PagedKernel.Proofs.Process.KernelCopy
import PagedKernel.Proofs.Process.Load
import PagedKernel.Proofs.Process.Making
import PagedKernel.Proofs.Process.Maps
import PagedKernel.Proofs.Process.Mirroring
import PagedKernel.Proofs.Process.Ownership
import PagedKernel.Proofs.Process.PageAlloc
import PagedKernel.Proofs.Process.PageRequests
import PagedKernel.Proofs.Process.Picture
import PagedKernel.Proofs.Process.SharedSpace
import PagedKernel.Proofs.Process.Sharing
import PagedKernel.Proofs.Process.Spaces
import PagedKernel.Proofs.Process.Table
import PagedKernel.Proofs.Process.Twins
import PagedKernel.Proofs.Process.Userland
import PagedKernel.Proofs.Process.UserlandTwins
import PagedKernel.Proofs.Programs.Faults
import PagedKernel.Proofs.Programs.Outline
import PagedKernel.Proofs.Programs.Processes
import PagedKernel.Proofs.Programs.Sessions
import PagedKernel.Proofs.Programs.Steps
import PagedKernel.Proofs.Spaces.Accounts
import PagedKernel.Proofs.Spaces.Atomicity
import PagedKernel.Proofs.Spaces.Chunks
import PagedKernel.Proofs.Spaces.Confinement
import PagedKernel.Proofs.Spaces.Consistency
import PagedKernel.Proofs.Spaces.Construction
import PagedKernel.Proofs.Spaces.Copying
import PagedKernel.Proofs.Spaces.Cursors
import PagedKernel.Proofs.Spaces.Destruction
import PagedKernel.Proofs.Spaces.Edits
import PagedKernel.Proofs.Spaces.Enumeration
import PagedKernel.Proofs.Spaces.Execution
import PagedKernel.Proofs.Spaces.FiniteMaps
import PagedKernel.Proofs.Spaces.Kept
import PagedKernel.Proofs.Spaces.Listing
import PagedKernel.Proofs.Spaces.Lockstep
import PagedKernel.Proofs.Spaces.Mapping
import PagedKernel.Proofs.Spaces.Planting
import PagedKernel.Proofs.Spaces.Precision
import PagedKernel.Proofs.Spaces.References
import PagedKernel.Proofs.Spaces.Separation
import PagedKernel.Proofs.Spaces.Shape
import PagedKernel.Proofs.Spaces.Teardown
import PagedKernel.Proofs.Spaces.Ticking
import PagedKernel.Proofs.Spaces.Trim
import PagedKernel.Proofs.Spaces.Twins
import PagedKernel.Proofs.Spaces.Untouched
import PagedKernel.Proofs.Spaces.Views
import PagedKernel.Proofs.Spaces.Walks
import PagedKernel.Proofs.Spaces.Ways
import PagedKernel.Proofs.SpinLock
import PagedKernel.Session
import PagedKernel.SpinLock
