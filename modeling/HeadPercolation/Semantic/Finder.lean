import HeadPercolation.Finder.Collins

namespace HeadPercolation

-- Chooses content words over function words as heads. What it knows is copied when it is made.
structure SemanticFinder where
  -- The head rules that decide where nothing else does.
  base : HeadFinder
  -- Are copular verbs heads like other verbs?
  copulaIsHead : Bool
  punctuationTags : WordSet
  verbalTags : WordSet
  unambiguousAuxiliaryTags : WordSet
  auxiliaries : WordSet
  passiveAuxiliaries : WordSet
  -- Empty if copulas are heads.
  copularVerbs : WordSet

namespace SemanticFinder

-- A finder from a configuration, which says what to do with copulas unless the caller does.
def ofTables (tables : Config.Tables) (copulaIsHead : Option Bool) :
    Except HeadError SemanticFinder := do
  let base ← HeadFinder.collins tables (tables.semanticHeadRules.map (·.map Directive.written))
  let copulaIsHead := copulaIsHead.getD tables.copulaIsHead
  return {
    base, copulaIsHead
    punctuationTags := tables.punctuationTags
    verbalTags := tables.verbalTags
    unambiguousAuxiliaryTags := tables.unambiguousAuxiliaryTags
    auxiliaries := tables.auxiliaries
    passiveAuxiliaries := tables.passiveAuxiliaries
    copularVerbs := if copulaIsHead then .empty else tables.copularVerbs }

end SemanticFinder

end HeadPercolation
