import PayloadContracts.CommandLine.FileTree
import PayloadContracts.Main
import PayloadContracts.Proofs.Equality
import PayloadContracts.Proofs.References
import PayloadContracts.Proofs.Scopes
import PayloadContracts.Proofs.Acceptance
import PayloadContracts.Proofs.Loosening
import PayloadContracts.Proofs.Congruence
import PayloadContracts.Proofs.Marks
import PayloadContracts.Proofs.Parts
import PayloadContracts.Proofs.Samples
import PayloadContracts.Proofs.Depth
import PayloadContracts.Proofs.Comparisons
import PayloadContracts.Proofs.Covering
import PayloadContracts.Proofs.Segments
import PayloadContracts.Proofs.Types
import PayloadContracts.Proofs.Elements
import PayloadContracts.Proofs.Texts
import PayloadContracts.Proofs.Markup
import PayloadContracts.Proofs.Chain
import PayloadContracts.Proofs.Selections
import PayloadContracts.Proofs.Cases
import PayloadContracts.Proofs.Inquiry
import PayloadContracts.Proofs.Recursion
import PayloadContracts.Proofs.TokenCalls
import PayloadContracts.Proofs.Termination
import PayloadContracts.Proofs.Containment
import PayloadContracts.Proofs.Untyped
import PayloadContracts.Proofs.Typed
import PayloadContracts.Proofs.Closures
import PayloadContracts.Proofs.Reflexivity
import PayloadContracts.Proofs.Limits
import PayloadContracts.Proofs.Descent
import PayloadContracts.Proofs.Children
import PayloadContracts.Proofs.Apart
import PayloadContracts.Proofs.Plain
import PayloadContracts.Proofs.NodeSamples
import PayloadContracts.Proofs.NodeCases
import PayloadContracts.Proofs.DeepComparisons
import PayloadContracts.Proofs.CaseComparisons
import PayloadContracts.Proofs.LooserSettings
import PayloadContracts.Proofs.CaseCounts
import PayloadContracts.Proofs.CaseCoverage
import PayloadContracts.Proofs.FiniteSamples
import PayloadContracts.Proofs.NamedPlaces
import PayloadContracts.Proofs.NullableChildren
import PayloadContracts.Proofs.DeclaredNames
import PayloadContracts.Proofs.Evolution
import PayloadContracts.Proofs.Enumeration
import PayloadContracts.Proofs.Trimming
import PayloadContracts.Proofs.Exposed
import PayloadContracts.Proofs.TextComparisons
import PayloadContracts.Proofs.Sameness
import PayloadContracts.Proofs.Aliases
import PayloadContracts.Proofs.FailurePlaces
import PayloadContracts.Proofs.TokenGrammar
import PayloadContracts.Proofs.StrictKeys
import PayloadContracts.Proofs.Counterparts
import PayloadContracts.Proofs.BareMarks
import PayloadContracts.Proofs.Numerals
import PayloadContracts.Proofs.Rendering
