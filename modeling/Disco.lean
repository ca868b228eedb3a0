import Disco.Linker.Regions
import Disco.Object.RoundTrip
import Disco.IR.Semantics
import Disco.IR.ConditionalAnalysis
import Disco.IR.ControlFlow
import Disco.Library.Colouring
import Disco.Backend.CostModel
import Disco.Backend.LinearScan
import Disco.Backend.Interference
import Disco.Backend.Recolouring
import Disco.Backend.Allocated
import Disco.Assembler.Parse
import Disco.Assembler.Encode
import Disco.Assembler.Passes
import Disco.Assembler.Relaxation
import Disco.Assembler.Layout
import Disco.Assembler.Assembled
import Disco.Gsu.Graphics
import Disco.Gsu.Machine
import Disco.Gsu.Pipeline
import Disco.Gsu.Cache
import Disco.Gsu.LongBranch
import Disco.Assembler.Relinked
import Disco.Assembler.Transparent
import Disco.Gsu.Block
import Disco.Gsu.Instructions
import Disco.Gsu.Startup
import Disco.Gsu.Straight
import Disco.Assembler.Statement
import Disco.Assembler.Executed
import Disco.Assembler.Mnemonics
import Disco.Assembler.DataProcessing
import Disco.IR.Scopes
import Disco.IR.Soundness
import Disco.IR.Available
import Disco.IR.Equations
import Disco.IR.Thinning
import Disco.IR.Facts
import Disco.IR.Rewrite
import Disco.IR.SimplifyFacts
import Disco.Library.DominatorTree
import Disco.IR.FlowAnalysis
import Disco.Backend.EagerScan
import Disco.Frontend.Expression
import Disco.Frontend.Analyzer
import Disco.Frontend.Lowering
import Disco.Frontend.Typing
import Disco.Frontend.Folded
import Disco.Frontend.Agreement
import Disco.Frontend.Declarations
import Disco.Frontend.Binding
import Disco.Frontend.Structs
import Disco.Frontend.Parser
import Disco.Gsu.Accumulator
import Disco.Backend.Addressing
import Disco.Backend.Resolved
import Disco.Frontend.Reparsed
import Disco.Frontend.Rendering
import Disco.Project.Published
import Disco.Project.ManifestDecoded
import Disco.Library.Computation
import Disco.Optimizer.Tree
import Disco.Optimizer.Execution
import Disco.Optimizer.HardwareLoops
import Disco.Optimizer.Analyzed
import Disco.Optimizer.Silent
import Disco.Optimizer.Recognized
import Disco.Optimizer.Counted
import Disco.Optimizer.Preserved
import Disco.IR.DivModFusion
import Disco.IR.ValueNumbering
import Disco.IR.ConditionalSoundness
import Disco.IR.NaturalLoops
import Disco.IR.BlockLayout
import Disco.IR.EdgeSplit
import Disco.Backend.FramePlan
import Disco.Backend.EdgeCopies
import Disco.Backend.CopyPrediction
