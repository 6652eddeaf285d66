import Bpfsnoop.Ebpf.Insn
import Bpfsnoop.Ebpf.Machine
import Bpfsnoop.Btf.Types
import Bpfsnoop.CC.Syntax
import Bpfsnoop.Ebpf.Forward
import Bpfsnoop.CC.Compiler
import Bpfsnoop.CC.MemoryRead
import Bpfsnoop.CC.Operators
import Bpfsnoop.CC.Access
import Bpfsnoop.CC.Eval
import Bpfsnoop.CC.Filter
import Bpfsnoop.CC.Semantics
import Bpfsnoop.CC.OperatorTheorems
import Bpfsnoop.CC.ReadSemantics
import Bpfsnoop.CC.ReadTheorems
import Bpfsnoop.CC.LiveRegisters
import Bpfsnoop.CC.EvalSemantics
import Bpfsnoop.CC.EvalTheorems
import Bpfsnoop.CC.FilterTheorems
import Bpfsnoop.CC.ShortCircuit
import Bpfsnoop.CC.NullExit
import Bpfsnoop.CC.EvalExpr
import Bpfsnoop.CC.Static
import Bpfsnoop.CC.StaticTheorems
import Bpfsnoop.CC.Panics
import Bpfsnoop.CC.PanicTheorems
import Bpfsnoop.Ebpf.Jumps
import Bpfsnoop.CC.ControlFlow
import Bpfsnoop.CC.Settlement
import Bpfsnoop.CC.Ownership
import Bpfsnoop.CC.OwnershipTheorems
import Bpfsnoop.CC.OperatorValues
import Bpfsnoop.CC.ArithmeticValues
import Bpfsnoop.CC.NarrowValues
import Bpfsnoop.CC.CondValues
import Bpfsnoop.CC.PointerValues
import Bpfsnoop.Lib.BitFields
import Bpfsnoop.CC.ChainEnds
import Bpfsnoop.CC.MemberComparison
import Bpfsnoop.CC.CastValues
import Bpfsnoop.CC.ReadWidths
import Bpfsnoop.Ebpf.Cells
import Bpfsnoop.CC.ReadModes
import Bpfsnoop.CC.ModeAgreement
import Bpfsnoop.CC.AccessPaths
import Bpfsnoop.CC.AccessPathTheorems
import Bpfsnoop.CC.AccessPathFaults
import Bpfsnoop.CC.ExitLabel
import Bpfsnoop.CC.Variables
import Bpfsnoop.Trace.Sessions
import Bpfsnoop.Trace.SessionTheorems
import Bpfsnoop.Trace.Durations
import Bpfsnoop.Trace.FrameWalk
import Bpfsnoop.Trace.FrameWalkTheorems
import Bpfsnoop.Lib.ElementMap
import Bpfsnoop.Trace.SessionMap
import Bpfsnoop.Trace.SessionMapTheorems
import Bpfsnoop.Lib.Cache
import Bpfsnoop.Lib.Text
import Bpfsnoop.Trace.Addr2Line
import Bpfsnoop.Trace.Addr2LineTheorems
import Bpfsnoop.Lib.Slices
import Bpfsnoop.Lib.Tiles
import Bpfsnoop.Trace.FuncArgs
import Bpfsnoop.Trace.Records
import Bpfsnoop.Trace.RecordTheorems
import Bpfsnoop.Trace.ArgSlots
import Bpfsnoop.Trace.OutputArg
import Bpfsnoop.Ebpf.Keeps
import Bpfsnoop.CC.Reserved
import Bpfsnoop.Trace.EventLoop
import Bpfsnoop.Trace.CallCosts
import Bpfsnoop.Trace.EventLoopTheorems
import Bpfsnoop.Trace.ExitLabels
import Bpfsnoop.Trace.ArgWrites
import Bpfsnoop.Trace.OutputSlots
import Bpfsnoop.Trace.ArgAttrs
import Bpfsnoop.Trace.AttrTheorems
import Bpfsnoop.Trace.ParamMatch
import Bpfsnoop.Progs.Tracings
import Bpfsnoop.Progs.ProgFlags
import Bpfsnoop.Progs.Stubs
import Bpfsnoop.Progs.StubTheorems
import Bpfsnoop.Trace.Pipeline
import Bpfsnoop.Lib.Layout
import Bpfsnoop.Trace.WireFormat
import Bpfsnoop.Trace.LbrSnapshots
import Bpfsnoop.Trace.Readiness
import Bpfsnoop.Progs.ArgFilters
import Bpfsnoop.Progs.FilteredRuns
import Bpfsnoop.Progs.GraphProto
import Bpfsnoop.Progs.CallTargets
import Bpfsnoop.Lib.Positions
import Bpfsnoop.Lib.Bisect
import Bpfsnoop.Lib.SharedSlices
import Bpfsnoop.Ksyms.Kallsyms
import Bpfsnoop.Ksyms.KallsymsTheorems
import Bpfsnoop.Ksyms.SymbolLookup
import Bpfsnoop.Progs.ProgLines
import Bpfsnoop.Trace.LbrStack
import Bpfsnoop.Trace.FlameGraph
import Bpfsnoop.Trace.FoldedStacks
import Bpfsnoop.Trace.Histogram
import Bpfsnoop.Progs.FlagPrefixes
import Bpfsnoop.Btfx.Repr
import Bpfsnoop.Btfx.ReprReads
import Bpfsnoop.Btfx.ReprScalars
import Bpfsnoop.Btfx.ReprStructs
import Bpfsnoop.Trace.Packets
import Bpfsnoop.Progs.Requests
import Bpfsnoop.Progs.Selection
import Bpfsnoop.Progs.SelectedTracings
import Bpfsnoop.Progs.SelectionPaths
import Bpfsnoop.Lib.Compaction
import Bpfsnoop.Trace.Bars
import Bpfsnoop.Trace.TDigest
import Bpfsnoop.Lib.Visits
import Bpfsnoop.Ksyms.KernelBtfs
import Bpfsnoop.Progs.PacketFilters
import Bpfsnoop.Lib.Walks
import Bpfsnoop.Progs.FuncGraphs
import Bpfsnoop.Progs.FuncGraphTheorems
import Bpfsnoop.Trace.FuncRecord
import Bpfsnoop.Trace.FuncRoundTrip
import Bpfsnoop.Lib.Writes
import Bpfsnoop.Progs.KernelFuncs
import Bpfsnoop.Progs.KernelFuncTheorems
import Bpfsnoop.Progs.GraphFuncs
import Bpfsnoop.Progs.GraphFuncTheorems
import Bpfsnoop.Progs.Tracepoints
import Bpfsnoop.Progs.TracepointTheorems
import Bpfsnoop.Progs.TracingPlan
import Bpfsnoop.Progs.EventRouting
