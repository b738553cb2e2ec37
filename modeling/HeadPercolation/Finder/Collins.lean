import HeadPercolation.Config.Tables
import HeadPercolation.Finder.Basic

namespace HeadPercolation.HeadFinder

-- The finder of the configured head rules, some of which may be replaced.
def collins (tables : Config.Tables) (replacements : Table (List Directive.Written)) :
    Except HeadError HeadFinder :=
  let rules := (tables.headRules.map (·.map Directive.written)).update replacements
  ofRules rules tables.punctuationTags.words none

end HeadPercolation.HeadFinder
