import HeadPercolation.HeadRule.Directive
import HeadPercolation.Table
import HeadPercolation.WordSet

namespace HeadPercolation.Config

-- The lists of tags and of verb forms.
inductive WordList where
  -- Tags of punctuation, which heads a node only if there is nothing else.
  | punctuationTags
  -- Tags that an auxiliary or a copula can have.
  | verbalTags
  -- Tags that only auxiliaries have.
  | unambiguousAuxiliaryTags
  | auxiliaries
  -- Forms of `be` and `get`, before a passive or progressive.
  | passiveAuxiliaries
  -- Verbs that link a subject and a complement.
  | copularVerbs
deriving DecidableEq

def WordList.isVocabulary : WordList → Bool
  | punctuationTags | verbalTags | unambiguousAuxiliaryTags => false
  | auxiliaries | passiveAuxiliaries | copularVerbs => true

-- All that is read from a configuration.
structure Tables where
  punctuationTags : WordSet
  verbalTags : WordSet
  unambiguousAuxiliaryTags : WordSet
  auxiliaries : WordSet
  passiveAuxiliaries : WordSet
  copularVerbs : WordSet
  headRules : Table (List Directive)
  -- Entries that replace those of the table above when heads are to be semantic.
  semanticHeadRules : Table (List Directive)
  copulaIsHead : Bool
deriving DecidableEq

namespace Tables

def empty : Tables where
  punctuationTags := .empty
  verbalTags := .empty
  unambiguousAuxiliaryTags := .empty
  auxiliaries := .empty
  passiveAuxiliaries := .empty
  copularVerbs := .empty
  headRules := .empty
  semanticHeadRules := .empty
  copulaIsHead := false

def wordSet (t : Tables) : WordList → WordSet
  | .punctuationTags => t.punctuationTags
  | .verbalTags => t.verbalTags
  | .unambiguousAuxiliaryTags => t.unambiguousAuxiliaryTags
  | .auxiliaries => t.auxiliaries
  | .passiveAuxiliaries => t.passiveAuxiliaries
  | .copularVerbs => t.copularVerbs

def addWords (t : Tables) (list : WordList) (words : List String) : Tables :=
  match list with
  | .punctuationTags => { t with punctuationTags := t.punctuationTags.insertAll words }
  | .verbalTags => { t with verbalTags := t.verbalTags.insertAll words }
  | .unambiguousAuxiliaryTags =>
    { t with unambiguousAuxiliaryTags := t.unambiguousAuxiliaryTags.insertAll words }
  | .auxiliaries => { t with auxiliaries := t.auxiliaries.insertAll words }
  | .passiveAuxiliaries => { t with passiveAuxiliaries := t.passiveAuxiliaries.insertAll words }
  | .copularVerbs => { t with copularVerbs := t.copularVerbs.insertAll words }

end Tables

end HeadPercolation.Config
