import HeadPercolation.Config.Packaged.Files
import HeadPercolation.Config.Packaged.Settings
import HeadPercolation.Pattern.Display
import HeadPercolation.Pattern.Search
import HeadPercolation.Semantic.Narration
import HeadPercolation.Tree.Lookup
import HeadPercolation.Tree.Outline
import HeadPercolation.Tree.Record
import HeadPercolation.Proofs.Pattern.Matching
import HeadPercolation.Proofs.Results
import HeadPercolation.Proofs.Table
import HeadPercolation.Proofs.Bracketed.RoundTrip
import HeadPercolation.Proofs.Config.History
import HeadPercolation.Proofs.Finder.Choice
import HeadPercolation.Proofs.Finder.Arcs
import HeadPercolation.Proofs.Finder.Percolation
import HeadPercolation.Proofs.Finder.Dependencies
import HeadPercolation.Proofs.Pattern.Captured
import HeadPercolation.Proofs.Semantic.Patterns
import HeadPercolation.Proofs.Semantic.Coordination
import HeadPercolation.Proofs.Semantic.Override
import HeadPercolation.Proofs.Semantic.Rules
import HeadPercolation.Proofs.Semantic.Totality
import HeadPercolation.Proofs.Config.RuleTables
import HeadPercolation.Proofs.Finder.Failures
import HeadPercolation.Proofs.Pattern.Macros
import HeadPercolation.Proofs.Pattern.RoundTrip
import HeadPercolation.Proofs.Semantic.Configured
import HeadPercolation.Proofs.Semantic.Copula
import HeadPercolation.Proofs.Config.Expansion
import HeadPercolation.Proofs.Config.Faults
import HeadPercolation.Proofs.Semantic.Conjuncts
import HeadPercolation.Proofs.Category.Tags
import HeadPercolation.Proofs.Pattern.Greedy
import HeadPercolation.Proofs.Pattern.Collecting
import HeadPercolation.Proofs.Semantic.Passive
import HeadPercolation.Proofs.Semantic.Complement
import HeadPercolation.Proofs.Semantic.Skipping
import HeadPercolation.Proofs.Semantic.FixedPatterns
import HeadPercolation.Proofs.Semantic.Questions
import HeadPercolation.Proofs.Semantic.Binarized
import HeadPercolation.Proofs.Finder.HeadMap
import HeadPercolation.Proofs.Finder.HeadPath
import HeadPercolation.Proofs.Finder.Mirror
import HeadPercolation.Proofs.Finder.Avoided
import HeadPercolation.Proofs.Finder.Categories
import HeadPercolation.Proofs.Semantic.Parents
import HeadPercolation.Proofs.Pattern.Bracketing
import HeadPercolation.Proofs.Pattern.Failures
import HeadPercolation.Proofs.Pattern.Containment
import HeadPercolation.Proofs.Pattern.Literals
import HeadPercolation.Proofs.Pattern.Labels
import HeadPercolation.Proofs.Pattern.Naming
import HeadPercolation.Proofs.Pattern.Repeats
import HeadPercolation.Proofs.Config.Outcomes
import HeadPercolation.Proofs.Config.Rounds
import HeadPercolation.Proofs.Config.RuleLines
import HeadPercolation.Proofs.Config.Reporting
import HeadPercolation.Proofs.Config.Packaged
