import ParamTree.Main
import ParamTree.Proofs.Run
import ParamTree.Proofs.Tree
import ParamTree.Proofs.Traversal
import ParamTree.Proofs.Building
import ParamTree.Proofs.Admission
import ParamTree.Proofs.Flags
import ParamTree.Proofs.Tokens
import ParamTree.Proofs.Growth
import ParamTree.Proofs.Precedence
import ParamTree.Proofs.Conformance
import ParamTree.Proofs.Fitting
import ParamTree.Proofs.Idempotence
import ParamTree.Proofs.Overlay
import ParamTree.Proofs.Failures
import ParamTree.Proofs.Selection
import ParamTree.Proofs.Reading
import ParamTree.Proofs.ClosedWorld
import ParamTree.Proofs.Naming
import ParamTree.Proofs.Composition
import ParamTree.Proofs.KeyOrder
import ParamTree.Proofs.Transparency
import ParamTree.Proofs.UnionGrowth
import ParamTree.Proofs.Addition
import ParamTree.Proofs.Respelling
import ParamTree.Proofs.ReadBack
import ParamTree.Proofs.Exactness
import ParamTree.Proofs.Members
import ParamTree.Proofs.Nullability
import ParamTree.Proofs.Presence
import ParamTree.Proofs.Directories
import ParamTree.Proofs.Forgotten
import ParamTree.Proofs.AsToken
import ParamTree.Proofs.Wrapping
import ParamTree.Proofs.Conversion
import ParamTree.Proofs.Enumerations
import ParamTree.Proofs.KeyTexts
import ParamTree.Proofs.Commands
import ParamTree.Proofs.HelpPages
import ParamTree.Proofs.Alignment
import ParamTree.Proofs.MarkdownRows
import ParamTree.Proofs.WholeNumbers
