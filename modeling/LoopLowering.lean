import LoopLowering.Data.Decode
import LoopLowering.Run.Program
import LoopLowering.Lowering
import LoopLowering.Output.Sink
import LoopLowering.Text
import LoopLowering.Visit
import LoopLowering.Proofs.Scopes
import LoopLowering.Proofs.Capture
import LoopLowering.Proofs.ReadBack
import LoopLowering.Proofs.Decoding
import LoopLowering.Proofs.PassCounts
import LoopLowering.Proofs.Returns
import LoopLowering.Proofs.Locality
import LoopLowering.Proofs.WrittenValue
import LoopLowering.Proofs.TextLines
import LoopLowering.Proofs.Breaks
import LoopLowering.Proofs.Foreach
import LoopLowering.Proofs.LogNesting
import LoopLowering.Proofs.BlockWords
import LoopLowering.Proofs.NameOrder
import LoopLowering.Proofs.Streams
import LoopLowering.Proofs.Arithmetic
import LoopLowering.Proofs.Progression
import LoopLowering.Proofs.Assignment
import LoopLowering.Proofs.Effects
import LoopLowering.Proofs.Counters
import LoopLowering.Proofs.HeapSessions
import LoopLowering.Proofs.Indentation
import LoopLowering.Proofs.Stretches
import LoopLowering.Proofs.Literals
import LoopLowering.Proofs.Comparison
import LoopLowering.Proofs.ScopeHistory
