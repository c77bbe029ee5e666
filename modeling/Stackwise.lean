import Stackwise.Main
import Stackwise.Tree.Render
import Stackwise.Proofs.Preservation
import Stackwise.Proofs.AcceptedAssembly
import Stackwise.Proofs.ShortCircuit
import Stackwise.Proofs.Reading
import Stackwise.Proofs.Honesty
import Stackwise.Proofs.Boundaries
import Stackwise.Proofs.ExprGrammar
import Stackwise.Proofs.Writing
import Stackwise.Proofs.Regularity
import Stackwise.Proofs.LayoutIndependence
import Stackwise.Proofs.Spelling
import Stackwise.Proofs.Resolution
import Stackwise.Proofs.Sessions
import Stackwise.Proofs.CommandRuns
import Stackwise.Proofs.Concatenation
import Stackwise.Proofs.StackEffect
import Stackwise.Proofs.IntegerOutput
import Stackwise.Proofs.WrittenTexts
import Stackwise.Proofs.TreeReading
import Stackwise.Proofs.Listings
import Stackwise.Proofs.WriterRuns
import Stackwise.Proofs.Packing
import Stackwise.Proofs.Visits
