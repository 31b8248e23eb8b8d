import Lsl.Main
import Lsl.Proofs.ExpressionCode
import Lsl.Proofs.FrozenGlobals
import Lsl.Proofs.ReturnPaths
import Lsl.Proofs.ReaderProgress
import Lsl.Proofs.FrameLayout
import Lsl.Proofs.LabelNumbers
import Lsl.Proofs.CacheTransparency
import Lsl.Proofs.JumpScopes
import Lsl.Proofs.TypeDerivations
import Lsl.Proofs.ChunkRuns
import Lsl.Proofs.MemoryBudgets
import Lsl.Proofs.HiddenFunctions
import Lsl.Proofs.IntegerSequences
import Lsl.Proofs.ClassMembers
import Lsl.Proofs.ListedJumps
import Lsl.Proofs.SourceText
