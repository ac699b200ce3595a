import PixelConv.Affine
import PixelConv.BitField
import PixelConv.Bytes
import PixelConv.Chain
import PixelConv.Compiler
import PixelConv.Conversion
import PixelConv.CpuSet
import PixelConv.Dither
import PixelConv.Elem
import PixelConv.Error
import PixelConv.Fault
import PixelConv.Fraction
import PixelConv.Fraction.Float
import PixelConv.Info
import PixelConv.Kernel.Block
import PixelConv.Kernel.Catalogue
import PixelConv.Kernel.Register
import PixelConv.Kernel.Setup
import PixelConv.Kernel.Table
import PixelConv.Layout
import PixelConv.Op
import PixelConv.Op.Eval
import PixelConv.Op.Text
import PixelConv.Program
import PixelConv.Program.Analysis
import PixelConv.Proofs.Acceptance
import PixelConv.Proofs.AffineMask
import PixelConv.Proofs.AffineRules
import PixelConv.Proofs.Agreement
import PixelConv.Proofs.Analysis
import PixelConv.Proofs.Approximation
import PixelConv.Proofs.Bands
import PixelConv.Proofs.Blocks
import PixelConv.Proofs.Building
import PixelConv.Proofs.Certainty
import PixelConv.Proofs.Chains
import PixelConv.Proofs.ClampRemoval
import PixelConv.Proofs.Coherence
import PixelConv.Proofs.Compilation
import PixelConv.Proofs.Composition
import PixelConv.Proofs.ContentBounds
import PixelConv.Proofs.Contents
import PixelConv.Proofs.Convergents
import PixelConv.Proofs.Demand
import PixelConv.Proofs.Dependence
import PixelConv.Proofs.DerivedBounds
import PixelConv.Proofs.Descent
import PixelConv.Proofs.Elements
import PixelConv.Proofs.Evaluation
import PixelConv.Proofs.ExactArithmetic
import PixelConv.Proofs.ExactRuns
import PixelConv.Proofs.FastPath
import PixelConv.Proofs.FieldPresence
import PixelConv.Proofs.Fields
import PixelConv.Proofs.Fractions
import PixelConv.Proofs.Framing
import PixelConv.Proofs.Fusion
import PixelConv.Proofs.Gathering
import PixelConv.Proofs.Histories
import PixelConv.Proofs.Intervals
import PixelConv.Proofs.Isolation
import PixelConv.Proofs.KernelChoice
import PixelConv.Proofs.Knowledge
import PixelConv.Proofs.Lanes
import PixelConv.Proofs.LinkOutcomes
import PixelConv.Proofs.Linking
import PixelConv.Proofs.Lockstep
import PixelConv.Proofs.MaskUpkeep
import PixelConv.Proofs.Matrices
import PixelConv.Proofs.MixedRuns
import PixelConv.Proofs.Narrowing
import PixelConv.Proofs.NormalForm
import PixelConv.Proofs.NumberRules
import PixelConv.Proofs.OrderedTiles
import PixelConv.Proofs.Overflow
import PixelConv.Proofs.PackedBounds
import PixelConv.Proofs.Padding
import PixelConv.Proofs.Preservation
import PixelConv.Proofs.Ranking
import PixelConv.Proofs.Refusals
import PixelConv.Proofs.RegisterBounds
import PixelConv.Proofs.Registers
import PixelConv.Proofs.Repacking
import PixelConv.Proofs.Replacement
import PixelConv.Proofs.Representable
import PixelConv.Proofs.Rewrites
import PixelConv.Proofs.Rows
import PixelConv.Proofs.Safety
import PixelConv.Proofs.Selection
import PixelConv.Proofs.ShuffleSolutions
import PixelConv.Proofs.Simplification
import PixelConv.Proofs.SinglePixel
import PixelConv.Proofs.Step
import PixelConv.Proofs.Structure
import PixelConv.Proofs.Support
import PixelConv.Proofs.Tiling
import PixelConv.Proofs.TraceContents
import PixelConv.Proofs.Traces
import PixelConv.Proofs.Validity
import PixelConv.Proofs.WholeNumbers
import PixelConv.Proofs.WideArithmetic
import PixelConv.Proofs.Words
import PixelConv.Proofs.Zeros
import PixelConv.Quad
import PixelConv.Shuffle
import PixelConv.Simplify
import PixelConv.Simplify.Affine
import PixelConv.Simplify.Bounded
import PixelConv.Simplify.Clear
import PixelConv.Simplify.Scale
import PixelConv.Simplify.Site
import PixelConv.Simplify.Swizzle
import PixelConv.Simplify.Transfer
import PixelConv.Swizzle
import PixelConv.Text
import PixelConv.View
