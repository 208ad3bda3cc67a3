import Nemu.Lib.ByteSeq
import Nemu.Lib.Outcome
import Nemu.Lib.DetSystem
import Nemu.Lib.MultiLimb
import Nemu.Lib.Frame
import Nemu.Lib.LinkedList
import Nemu.Lib.DoublyLinked
import Nemu.Lib.Priority
import Nemu.Lib.BlockCache
import Nemu.Lib.Strided
import Nemu.Lib.DownStack
import Nemu.Lib.Region
import Nemu.Lib.Recursion
import Nemu.Lib.DoWhile
import Nemu.Lib.NewtonRoot
import Nemu.Common
import Nemu.Memory.FlatMem
import Nemu.Memory.Dram
import Nemu.Memory.DramRefinement
import Nemu.Cpu.State
import Nemu.Cpu.Decode
import Nemu.Cpu.Exec.Flags
import Nemu.Cpu.Exec.Arith
import Nemu.Cpu.Exec.Logic
import Nemu.Cpu.Exec.DataMov
import Nemu.Cpu.Exec.Control
import Nemu.Cpu.Exec.Table
import Nemu.Cpu.CmpJump
import Nemu.Cpu.LimbChain
import Nemu.Cpu.CarryChain
import Nemu.Cpu.BorrowChain
import Nemu.Cpu.Encoding
import Nemu.Cpu.DecodeLength
import Nemu.Cpu.ExecFrame
import Nemu.Cpu.ExecLength
import Nemu.Cpu.CallRet
import Nemu.Cpu.EffAddr
import Nemu.Cpu.Operand
import Nemu.Cpu.ExecRun
import Nemu.Cpu.MovFrame
import Nemu.Cpu.ShiftFlags
import Nemu.Cpu.Shrd
import Nemu.Cpu.LogicFlags
import Nemu.Cpu.IncDec
import Nemu.Cpu.Product
import Nemu.Cpu.Quotient
import Nemu.Cpu.StackRead
import Nemu.Cpu.PushPop
import Nemu.Cpu.RepString
import Nemu.Cpu.RepScan
import Nemu.Device.I8259
import Nemu.Device.I8259Priority
import Nemu.Device.Ide
import Nemu.Device.PortIo
import Nemu.Device.DmaCoherence
import Nemu.Monitor.Expr.Token
import Nemu.Monitor.Expr.Eval
import Nemu.Monitor.Expr.Parens
import Nemu.Monitor.Expr.Lexing
import Nemu.Monitor.Expr.Grammar
import Nemu.Monitor.Expr.Reading
import Nemu.Monitor.Expr.Termination
import Nemu.Monitor.Expr.Regroup
import Nemu.Monitor.Expr.Strings
import Nemu.Monitor.Expr.Arithmetic
import Nemu.Monitor.Expr.Handled
import Nemu.Monitor.Expr.Understood
import Nemu.Monitor.Expr.Logical
import Nemu.Monitor.Expr.Prefix
import Nemu.Monitor.Expr.Classify
import Nemu.Monitor.Expr.Leftover
import Nemu.Monitor.Expr.Lookup
import Nemu.Monitor.Expr.HexValue
import Nemu.Monitor.Watchpoint
import Nemu.Monitor.WatchpointRefinement
import Nemu.Monitor.CpuExec
import Nemu.Monitor.WatchValues
import Nemu.Monitor.EndState
import Nemu.Monitor.ElfTables
import Nemu.Monitor.ElfSymbols
import Nemu.Lib.PrefixTable
import Nemu.Pal.Inventory
import Nemu.Pal.InventoryBag
import Nemu.Lib.Interlaced
import Nemu.Pal.Map
import Nemu.Pal.MapFile
import Nemu.Pal.MapView
import Nemu.Pal.Walking
import Nemu.Pal.WalkingSafety
import Nemu.Monitor.SetWatchpoint
import Nemu.Monitor.Session
import Nemu.Kernel.SectorBuf
import Nemu.Kernel.SectorCache
import Nemu.Kernel.Interleaving
import Nemu.Kernel.WritebackSafety
import Nemu.Kernel.DiskDriver
import Nemu.Kernel.DiskTransfer
import Nemu.Kernel.BufferedIde
import Nemu.Kernel.BufferedIdeRefinement
import Nemu.Kernel.Mem
import Nemu.Kernel.Paging
import Nemu.Kernel.PageTables
import Nemu.Kernel.Ramdisk
import Nemu.Kernel.Loader
import Nemu.Kernel.LoadSegments
import Nemu.Kernel.IrqHandle
import Nemu.Device.Mmio
import Nemu.Lib.DirtyCopy
import Nemu.Device.Vga
import Nemu.LibCommon.Float
import Nemu.LibCommon.FloatMulDiv
import Nemu.LibCommon.FloatConvert
import Nemu.LibCommon.FloatNewton
import Nemu.LibCommon.FloatSqrt
import Nemu.LibCommon.FloatPow
import Nemu.Lib.Paint
import Nemu.Game.LinkList
import Nemu.Game.LinkListRules
import Nemu.Game.Typing
import Nemu.Game.Letters
import Nemu.Game.Board
import Nemu.Game.Screen
import Nemu.Game.MainLoop
import Nemu.Game.MainLoopSafety
import Nemu.Lib.FixedWidth
import Nemu.Lib.BitField
import Nemu.Lib.Lz77
import Nemu.Pal.Yj1
import Nemu.Pal.Yj1Format
import Nemu.Pal.Mkf
import Nemu.Pal.MkfArchive
import Nemu.Pal.Rle
import Nemu.Pal.RleOverlay
import Nemu.Pal.Video
import Nemu.Pal.Rng
import Nemu.Pal.RngFrames
import Nemu.Pal.Fade
