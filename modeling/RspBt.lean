import RspBt.Bt.AgreeAlu
import RspBt.Bt.AgreeMem
import RspBt.Bt.Closure
import RspBt.Bt.Compiles
import RspBt.Bt.ContextIds
import RspBt.Bt.Contexts
import RspBt.Bt.Emit
import RspBt.Bt.Fixed
import RspBt.Bt.Frame
import RspBt.Bt.IdWidth
import RspBt.Bt.Insn
import RspBt.Bt.Memo
import RspBt.Bt.MemoInv
import RspBt.Bt.Overlay
import RspBt.Bt.Refine
import RspBt.Bt.Sim
import RspBt.Bt.Step
import RspBt.Bt.Swaps
import RspBt.Bt.Tasks
import RspBt.Bt.Tracking
import RspBt.Bt.Walk
import RspBt.Bt.WalkInv
import RspBt.Lib.Bytes
import RspBt.Lib.IntExp
import RspBt.Lib.Lanes
import RspBt.Lib.Loop
import RspBt.Lib.Nearest
import RspBt.Lib.OrdSet
import RspBt.Lib.Spans
import RspBt.R4300.Activation
import RspBt.R4300.Call
import RspBt.R4300.CallGraph
import RspBt.R4300.Cfg
import RspBt.R4300.CfgClosed
import RspBt.R4300.CfgCut
import RspBt.R4300.CfgEdges
import RspBt.R4300.CfgSpec
import RspBt.R4300.CfgTotal
import RspBt.R4300.CfgWalk
import RspBt.R4300.ClosedWorld
import RspBt.R4300.Confined
import RspBt.R4300.Correct
import RspBt.R4300.Discover
import RspBt.R4300.EmitBody
import RspBt.R4300.EmitOne
import RspBt.R4300.Finishes
import RspBt.R4300.FpFile
import RspBt.R4300.Handoff
import RspBt.R4300.Incremental
import RspBt.R4300.Interp
import RspBt.R4300.Kept
import RspBt.R4300.Linked
import RspBt.R4300.MulDiv
import RspBt.R4300.Narrow
import RspBt.R4300.Partition
import RspBt.R4300.Predicate
import RspBt.R4300.Program
import RspBt.R4300.Same
import RspBt.R4300.Spin
import RspBt.R4300.TableBounds
import RspBt.R4300.TableFail
import RspBt.R4300.TableIdiom
import RspBt.R4300.TableScan
import RspBt.Rsp.Cop2
import RspBt.Rsp.Dma
import RspBt.Rsp.DmaRows
import RspBt.Rsp.DmaSpans
import RspBt.Rsp.Effect
import RspBt.Rsp.Exact
import RspBt.Rsp.Fixed
import RspBt.Rsp.Flags
import RspBt.Rsp.Guard
import RspBt.Rsp.Imem
import RspBt.Rsp.Invariant
import RspBt.Rsp.Macs
import RspBt.Rsp.Run
import RspBt.Rsp.Signals
import RspBt.Rsp.State
import RspBt.Rsp.VecBytes
import RspBt.Rsp.VecLanes
import RspBt.Rsp.VecMem
