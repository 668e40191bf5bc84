import Pagewright.Main
import Pagewright.Proofs.NamedChildren
import Pagewright.Proofs.ElementText
import Pagewright.Proofs.ClearOutput
import Pagewright.Proofs.Cleaning
import Pagewright.Proofs.PageIsolation
import Pagewright.Proofs.MethodOffsets
import Pagewright.Proofs.PagePositions
import Pagewright.Proofs.Extents
import Pagewright.Proofs.HeadLinks
import Pagewright.Proofs.Flattening
import Pagewright.Proofs.DeclaredBodies
import Pagewright.Proofs.Declarators
import Pagewright.Proofs.ParameterNames
import Pagewright.Proofs.ReaderCalls
import Pagewright.Proofs.LiteralInsides
import Pagewright.Proofs.BlankedComments
import Pagewright.Proofs.Relocation
import Pagewright.Proofs.NormalPaths
import Pagewright.Proofs.PropertyMaps
import Pagewright.Proofs.ScriptStrings
import Pagewright.Proofs.LineBreaks
import Pagewright.Proofs.Searching
import Pagewright.Proofs.HoistedNames
