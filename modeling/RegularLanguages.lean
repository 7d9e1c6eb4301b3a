import RegularLanguages.Automaton.Equivalence
import RegularLanguages.Automaton.Lemmas
import RegularLanguages.Automaton.Memo
import RegularLanguages.Automaton.Words
import RegularLanguages.Diagram.Text
import RegularLanguages.Limits.Text
import RegularLanguages.Regex.Compiler
import RegularLanguages.Regex.Words
import RegularLanguages.Proofs.Lists
import RegularLanguages.Proofs.StateSet
import RegularLanguages.Proofs.Alphabet
import RegularLanguages.Proofs.Automaton.Reachability
import RegularLanguages.Proofs.Automaton.Reading
import RegularLanguages.Proofs.Automaton.PairSearch
import RegularLanguages.Proofs.Automaton.Verdict
import RegularLanguages.Proofs.Automaton.Path
import RegularLanguages.Proofs.Automaton.Copy
import RegularLanguages.Proofs.Automaton.Operators
import RegularLanguages.Proofs.Automaton.Power
import RegularLanguages.Proofs.Regex.Language
import RegularLanguages.Proofs.Grammar.Derivation
import RegularLanguages.Proofs.Grammar.Nullable
import RegularLanguages.Proofs.Grammar.SelfDerivation
import RegularLanguages.Proofs.Grammar.Resolution
import RegularLanguages.Proofs.Grammar.Row
import RegularLanguages.Proofs.Grammar.Pass
import RegularLanguages.Proofs.Grammar.Saturation
import RegularLanguages.Proofs.Grammar.Parse
import RegularLanguages.Proofs.Regex.Rules
import RegularLanguages.Proofs.Regex.Grammar
import RegularLanguages.Proofs.Regex.Layer
import RegularLanguages.Proofs.Regex.Reading
import RegularLanguages.Proofs.Automaton.Lift
import RegularLanguages.Proofs.Diagram.WellFormed
import RegularLanguages.Proofs.Automaton.Construction
import RegularLanguages.Proofs.Automaton.Memo
import RegularLanguages.Proofs.Automaton.Walk
import RegularLanguages.Proofs.Grammar.Termination
import RegularLanguages.Proofs.Regex.Follow
import RegularLanguages.Proofs.Regex.Unambiguous
import RegularLanguages.Proofs.Regex.Ambiguity
import RegularLanguages.Proofs.Regex.Parsing
import RegularLanguages.Proofs.Regex.States
import RegularLanguages.Proofs.Automaton.Size
import RegularLanguages.Proofs.Regex.EmptyWord
import RegularLanguages.Proofs.Regex.Matcher
import RegularLanguages.Proofs.Regex.Term
import RegularLanguages.Proofs.Automaton.Renumbering
import RegularLanguages.Proofs.Regex.LargerAlphabet
import RegularLanguages.Proofs.Diagram.Validity
import RegularLanguages.Proofs.Diagram.Graph
import RegularLanguages.Proofs.Grammar.Rewriting
import RegularLanguages.Proofs.Grammar.Building
import RegularLanguages.Proofs.Automaton.Alignment
import RegularLanguages.Proofs.Json.Scanning
import RegularLanguages.Proofs.Json.RoundTrip
import RegularLanguages.Proofs.Diagram.RoundTrip
import RegularLanguages.Proofs.Automaton.Lookup
import RegularLanguages.Proofs.Automaton.PairLookup
import RegularLanguages.Proofs.Grammar.Lookup
import RegularLanguages.Proofs.Lookup
import RegularLanguages.Proofs.Automaton.Chain
import RegularLanguages.Proofs.Regex.Criterion
import RegularLanguages.Proofs.Automaton.Frontier
import RegularLanguages.Proofs.Automaton.Emptiness
import RegularLanguages.Proofs.Automaton.Words
import RegularLanguages.Proofs.Automaton.Lifting
import RegularLanguages.Proofs.Automaton.QueueSearch
import RegularLanguages.Proofs.Grammar.EmptyDerivation
import RegularLanguages.Proofs.Regex.Words
import RegularLanguages.Proofs.Regex.Spelling
import RegularLanguages.Proofs.Automaton.Coherence
import RegularLanguages.Proofs.Automaton.SearchOrder
import RegularLanguages.Proofs.Grammar.Choices
import RegularLanguages.StateSet.BitRow
import RegularLanguages.StateSet.Program
import RegularLanguages.Proofs.StateSet.BitRow
import RegularLanguages.Proofs.StateSet.Program
import RegularLanguages.Proofs.Automaton.Closure
