import MxStar.Main
import MxStar.Proofs.SuccessfulCompilations
import MxStar.Proofs.CallingConvention
import MxStar.Proofs.ColoringOutcomes
import MxStar.Proofs.ExactLiveness
import MxStar.Proofs.SpilledPrograms
import MxStar.Proofs.TwoOperandRuns
import MxStar.Proofs.ReachableBlocks
import MxStar.Proofs.InlinedSizes
import MxStar.Proofs.CallComponents
import MxStar.Proofs.CachedGlobals
import MxStar.Proofs.StaticNumbers
import MxStar.Proofs.KeptOperands
import MxStar.Proofs.NewArrays
import MxStar.Proofs.TreeRoundTrip
import MxStar.Proofs.IntegerTexts
