import TermNet.Code.Generator
import TermNet.Code.Semantics
import TermNet.Net.Match
import TermNet.Net.Printer
import TermNet.Json.Value
import TermNet.Main
import TermNet.Pattern.Reading
import TermNet.Text.Quoted
import TermNet.Proofs.Soundness
import TermNet.Proofs.Completeness
import TermNet.Proofs.Sharing
import TermNet.Proofs.Filtering
import TermNet.Proofs.Uniqueness
import TermNet.Proofs.Structure
import TermNet.Proofs.Guards
import TermNet.Proofs.Scheduling
import TermNet.Proofs.Invariance
import TermNet.Proofs.Emission
import TermNet.Proofs.ClosedModules
import TermNet.Proofs.Constructing
import TermNet.Proofs.SymbolWildcards
import TermNet.Proofs.Omission
import TermNet.Proofs.Reordering
import TermNet.Proofs.Instances
import TermNet.Proofs.CommutativeMatching
import TermNet.Proofs.CompleteMatchings
import TermNet.Proofs.Splitting
import TermNet.Proofs.Rearrangement
import TermNet.Proofs.Substituting
import TermNet.Proofs.Printing
import TermNet.Proofs.Semilattice
import TermNet.Proofs.EmittedSuites
import TermNet.Proofs.RenderedSuites
import TermNet.Proofs.VerifiedSuites
import TermNet.Proofs.FiniteSets
