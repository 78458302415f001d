import Veriforge.Kleene
import Veriforge.Value.Basic
import Veriforge.Value.Ops
import Veriforge.Value.Bits
import Veriforge.Value.Order
import Veriforge.Value.Truncate
import Veriforge.Sim.Expr
import Veriforge.Sim.Context
import Veriforge.Sim.Width
import Veriforge.Sim.TrueDiv
import Veriforge.Sim.Eval
import Veriforge.Sim.Reach
import Veriforge.Sim.Legal
import Veriforge.Sim.EvalWidth
import Veriforge.Sim.Total
import Veriforge.Sim.Sizing
import Veriforge.Sim.Narrow
import Veriforge.Sim.Reference
import Veriforge.Sim.Monotone
import Veriforge.Vm.Machine
import Veriforge.Vm.CompileExpr
import Veriforge.Vm.Run
import Veriforge.Vm.Propagation
import Veriforge.Vm.SinglePass
import Veriforge.Vm.Compilable
import Veriforge.Vm.ExprCode
import Veriforge.Vm.ExprCorrect
import Veriforge.Sim.SignedDivmod
import Veriforge.Sim.ContextSign
import Veriforge.Sim.Signedness
import Veriforge.Project.Cache
import Veriforge.Emit.Generate
import Veriforge.Emit.Bits
import Veriforge.Emit.Operand
import Veriforge.Sim.Ascending
import Veriforge.Emit.Cast
import Veriforge.Emit.Select
import Veriforge.Emit.Respell
import Veriforge.Emit.CaseItems
import Veriforge.Text
import Veriforge.Words
import Veriforge.Preprocessor.Process
import Veriforge.Preprocessor.Blocks
import Veriforge.Preprocessor.Select
import Veriforge.Preprocessor.LineNumbers
import Veriforge.Dict
import Veriforge.Vcd.Writer
import Veriforge.Vcd.Parser
import Veriforge.Vcd.Reads
import Veriforge.Vcd.Scopes
import Veriforge.Vcd.Changes
import Veriforge.Vcd.RoundTrip
import Veriforge.Sched.Design
import Veriforge.Sched.Continuous
import Veriforge.Sched.Candidates
import Veriforge.Sched.Kernel
import Veriforge.Sched.Region
import Veriforge.Sched.Tracking
import Veriforge.Sched.Settle
import Veriforge.Sched.Commit
import Veriforge.Sched.VmKernel
import Veriforge.Sched.VmTracking
import Veriforge.Sched.CommitOrder
import Veriforge.Sched.Settled
import Veriforge.Sched.Agreement
import Veriforge.Handshake
import Veriforge.AxiLite.Master
import Veriforge.AxiLite.Call
import Veriforge.AxiLite.Responder
import Veriforge.AxiLite.Accesses
import Veriforge.Except
import Veriforge.Exec.ForLoop
import Veriforge.Axi4.Responder
import Veriforge.Axi4.Answers
import Veriforge.Axi4.Requests
import Veriforge.Axi4.Memory
import Veriforge.Pipeline
import Veriforge.Stream.Frame
import Veriforge.Stream.Coordinator
import Veriforge.Stream.Axis
import Veriforge.Stream.ReadyValid
import Veriforge.Stream.Delivery
import Veriforge.Positions
import Veriforge.Refactor.TextEdit
import Veriforge.Refactor.Splice
import Veriforge.Refactor.Lines
import Veriforge.Refactor.Apply
import Veriforge.Refactor.AllOrNothing
import Veriforge.Compiled.Cache
import Veriforge.Compiled.DeltaLoop
import Veriforge.Compiled.Select
import Veriforge.Compiled.DeltaEngines
import Veriforge.Refactor.Modules
import Veriforge.Refactor.PushDown
import Veriforge.Graph.Kahn
import Veriforge.Graph.UnionFind
import Veriforge.Refactor.Collapse
import Veriforge.Refactor.Wiring
import Veriforge.Refactor.CollapseWiring
import Veriforge.Sim.ScopeWidth
import Veriforge.Const.Agree
import Veriforge.Const.Elaborate
import Veriforge.Const.Evaluators
import Veriforge.Scan
import Veriforge.Comment.Pattern
import Veriforge.Comment.Extract
import Veriforge.Sim.Readmem
import Veriforge.Precedence
import Veriforge.Parse.BinaryChain
import Veriforge.Parse.ConstExpr
import Veriforge.Parse.ConstReading
import Veriforge.Sim.FromVerilog
import Veriforge.Digits
import Veriforge.Vcd.Denotation
import Veriforge.Vcd.Compare
import Veriforge.Display.Calls
import Veriforge.Preprocessor.Capture
import Veriforge.Chunks
import Veriforge.Value.BitList
import Veriforge.Lower.Targets
import Veriforge.Lower.Widths
import Veriforge.Lower.Streaming
import Veriforge.Ports.Arrays
import Veriforge.Runs
import Veriforge.Stream.Generator
import Veriforge.Stream.Stability
import Veriforge.Stream.Beats
import Veriforge.AxiLite.Strict
import Veriforge.MemBus.Endpoints
import Veriforge.MemBus.Memory
import Veriforge.Trace.Changes
import Veriforge.Trace.Capture
import Veriforge.Trace.Trigger
import Veriforge.Trace.Window
import Veriforge.Trace.Dump
import Veriforge.Trace.Replay
import Veriforge.Sched.ClockEvents
import Veriforge.Sched.Periodic
import Veriforge.Refactor.InstancePath
import Veriforge.Refactor.Simultaneous
import Veriforge.Dsl.Control
import Veriforge.Dsl.Nesting
import Veriforge.Compiled.SelectRule
import Veriforge.Dsl.Constants
import Veriforge.Dsl.Lossless
import Veriforge.Shadow
import Veriforge.Compiled.SnapshotRule
import Veriforge.Analysis.Exact
import Veriforge.Const.Power
import Veriforge.Sim.WholeMemory
import Veriforge.Analysis.Latch
import Veriforge.Vm.StackDepth
import Veriforge.Ring
import Veriforge.Exec.Clocked
import Veriforge.Dsl.Unsigned
import Veriforge.Dsl.Module
import Veriforge.Dsl.Fifo
import Veriforge.Convolution
import Veriforge.Dsl.Fir
import Veriforge.Analysis.WidthInference
import Veriforge.Const.ParamEnv
import Veriforge.Compiled.WideArith
