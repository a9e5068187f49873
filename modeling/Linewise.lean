import Linewise.Main
import Linewise.Proofs.Switches
import Linewise.Proofs.InlineBodies
import Linewise.Proofs.Knowledge
import Linewise.Proofs.Positions
import Linewise.Proofs.MapTargets
import Linewise.Proofs.CaseValues
import Linewise.Proofs.BranchChains
import Linewise.Proofs.Counts
import Linewise.Proofs.InlineStructs
import Linewise.Proofs.FunctionLiterals
import Linewise.Proofs.NumberVerbs
import Linewise.Proofs.StreamedPrints
import Linewise.Proofs.UnpairedEntries
import Linewise.Proofs.HeaderClauses
import Linewise.Proofs.Splitting
import Linewise.Proofs.RepeatedIncludes
import Linewise.Proofs.WordRuns
import Linewise.Proofs.FreshNames
import Linewise.Proofs.Matching
