import HeadPercolation.Config.Settings

namespace HeadPercolation.Config.Packaged

-- Tags that head a node only if there is nothing else.
def punctuationTags : WordSet where
  words := ["''", ",", "-LRB-", "-RRB-", ".", ":", "``"]
  sorted := by decide +kernel

-- The tags of the Penn Treebank, and AUX and AUXG of other parsers.
def verbalTags : WordSet where
  words := ["AUX", "AUXG", "MD", "TO", "VB", "VBD", "VBG", "VBN", "VBP", "VBZ"]
  sorted := by decide +kernel

-- Tags of auxiliaries whatever their words, as of `too` and `my` in text from the web.
def unambiguousAuxiliaryTags : WordSet where
  words := ["AUX", "AUXG", "MD", "TO"]
  sorted := by decide +kernel

-- Clitics and common misspellings are among the forms, as `wo` and `ca` of `won't` and `can't`.
def auxiliaries : WordSet where
  words := ["'d", "'ll", "'ve", "as", "ca", "can", "could", "d", "did", "do", "does", "get",
    "gets", "getting", "got", "gotten", "had", "has", "hav", "have", "having", "hvae", "ll",
    "may", "might", "must", "na", "of", "sha", "shall", "should", "to", "v", "ve", "will", "wo",
    "would"]
  sorted := by decide +kernel

def passiveAuxiliaries : WordSet where
  words := ["'m", "'re", "'s", "ai", "am", "ar", "are", "art", "be", "been", "being", "get",
    "gets", "getting", "got", "is", "m", "r", "s", "was", "were"]
  sorted := by decide +kernel

def copularVerbs : WordSet where
  words := ["'m", "'re", "'s", "ai", "am", "appear", "appeared", "appears", "are", "be", "became",
    "become", "becomes", "been", "being", "is", "m", "r", "remain", "remained", "remains",
    "resemble", "resembled", "resembles", "s", "seem", "seemed", "seems", "stay", "stayed",
    "stays", "was", "wase", "were"]
  sorted := by decide +kernel

-- The rules of NP and of the categories that are like it.
def nounPhraseRules : List Directive := [
  .rightListed ["NN", "NNP", "NNPS", "NNS", "NML", "NX", "POS", "JJR"],
  .left ["NP", "PRP"],
  .rightListed ["$", "ADJP", "JJP", "PRN", "FW"],
  .right ["CD"],
  .rightListed ["JJ", "JJS", "RB", "QP", "DT", "WDT", "RBR", "ADVP"]]

def rootRules : List Directive :=
  [.left ["S", "SQ", "SINV", "SBAR", "FRAG"]]

-- The modified Collins rules.
def headRules : Table (List Directive) where
  entries := [
    ("ADJP", [
      .left ["$"],
      .rightListed ["NNS", "NN", "JJ", "QP", "VBN", "VBG"],
      .left ["ADJP"],
      .rightListed ["JJP", "JJR", "JJS", "DT", "RB", "RBR", "CD", "IN", "VBD"],
      .left ["ADVP", "NP"]]),
    ("JJP", [
      .left ["NNS", "NN", "$", "QP", "JJ", "VBN", "VBG", "ADJP", "JJP", "JJR", "NP", "JJS", "DT",
        "FW", "RBR", "RBS", "SBAR", "RB"]]),
    ("ADVP", [
      .left ["ADVP", "IN"],
      .rightListed ["RB", "RBR", "RBS", "JJ", "JJR", "JJS"],
      .rightListed ["RP", "DT", "NN", "CD", "NP", "VBN", "NNP", "CC", "FW", "NNS", "ADJP", "NML"]]),
    ("CONJP", [.right ["CC", "RB", "IN"]]),
    ("FRAG", [.right []]),
    ("INTJ", [.left []]),
    ("LST", [.right ["LS", ":"]]),
    ("NAC", [
      .left ["NN", "NNS", "NML", "NNP", "NNPS", "NP", "NAC", "EX", "$", "CD", "QP", "PRP", "VBG",
        "JJ", "JJS", "JJR", "ADJP", "JJP", "FW"]]),
    ("PP", [.right ["IN", "TO", "VBG", "VBN", "RP", "FW", "JJ", "SYM"], .left ["PP"]]),
    ("PRN", [
      .left ["VP", "NP", "PP", "SQ", "S", "SINV", "SBAR", "ADJP", "JJP", "ADVP", "INTJ", "WHNP",
        "NAC", "VBP", "JJ", "NN", "NNP"]]),
    ("PRT", [.right ["RP"]]),
    ("QP", [
      .left ["$", "IN", "NNS", "NN", "JJ", "CD", "PDT", "DT", "RB", "NCD", "QP", "JJR", "JJS"]]),
    ("RRC", [.left ["RRC"], .right ["VP", "ADJP", "JJP", "NP", "PP", "ADVP"]]),
    ("S", [.left ["TO", "VP", "S", "FRAG", "SBAR", "ADJP", "JJP", "UCP", "NP"]]),
    ("SBAR", [
      .left ["WHNP", "WHPP", "WHADVP", "WHADJP", "IN", "DT", "S", "SQ", "SINV", "SBAR", "FRAG"]]),
    ("SBARQ", [.left ["SQ", "S", "SINV", "SBARQ", "FRAG", "SBAR"]]),
    ("SINV", [
      .left ["VBZ", "VBD", "VBP", "VB", "MD", "VBN", "VP", "S", "SINV", "ADJP", "JJP", "NP"]]),
    ("SQ", [.left ["VBZ", "VBD", "VBP", "VB", "MD", "AUX", "AUXG", "VP", "SQ"]]),
    ("UCP", [.right []]),
    ("VP", [
      .left ["TO", "VBD", "VBN", "MD", "VBZ", "VB", "VBG", "VBP", "VP", "AUX", "AUXG", "ADJP",
        "JJP", "NN", "NNS", "JJ", "NP", "NNP"]]),
    ("WHADJP", [.left ["WRB", "WHADVP", "RB", "JJ", "ADJP", "JJP", "JJR"]]),
    ("WHADVP", [.right ["WRB", "WHADVP"]]),
    ("WHNP", [.left ["WDT", "WP", "WP$", "WHADJP", "WHPP", "WHNP"]]),
    ("WHPP", [.right ["IN", "TO", "FW"]]),
    ("X", [.right ["S", "VP", "ADJP", "JJP", "NP", "SBAR", "PP", "X"]]),
    ("NP", nounPhraseRules),
    ("NX", nounPhraseRules),
    ("NML", nounPhraseRules),
    ("POSSP", [.right ["POS"]]),
    ("ROOT", rootRules),
    ("TOP", rootRules),
    ("TYPO", [
      .left ["NN", "NP", "NML", "NNP", "NNPS", "TO", "VBD", "VBN", "MD", "VBZ", "VB", "VBG", "VBP",
        "VP", "ADJP", "JJP", "FRAG"]]),
    ("ADV", [
      .right ["RB", "RBR", "RBS", "FW", "ADVP", "TO", "CD", "JJR", "JJ", "IN", "NP", "NML", "JJS",
        "NN"]]),
    ("EDITED", [.left []]),
    ("VB", [
      .left ["TO", "VBD", "VBN", "MD", "VBZ", "VB", "VBG", "VBP", "VP", "AUX", "AUXG", "ADJP",
        "JJP", "NN", "NNS", "JJ", "NP", "NNP"]]),
    ("META", [.left []]),
    ("XS", [.right ["IN"]])]
  nodup := by decide +kernel

-- A possessive marker does not head a noun phrase if there is anything else.
def semanticNounPhraseRules : List Directive := [
  .rightListed ["NN", "NNP", "NNPS", "NNS", "NX", "NML", "JJR", "WP"],
  .left ["NP", "PRP"],
  .rightListed ["$", "ADJP", "FW"],
  .right ["CD"],
  .rightListed ["JJ", "JJS", "QP", "DT", "WDT", "NML", "PRN", "RB", "RBR", "ADVP"],
  .left ["POS"]]

-- What replaces them where heads are to be semantic.
def semanticHeadRules : Table (List Directive) where
  entries := [
    ("NP", semanticNounPhraseRules),
    ("NX", semanticNounPhraseRules),
    ("NML", semanticNounPhraseRules),
    ("WHNP", [
      .rightListed ["NN", "NNP", "NNPS", "NNS", "NX", "NML", "JJR", "WP"],
      .left ["WHNP", "NP"],
      .rightListed ["$", "ADJP", "PRN", "FW"],
      .right ["CD"],
      .rightListed ["JJ", "JJS", "RB", "QP"],
      .left ["WHPP", "WHADJP", "WP$", "WDT"]]),
    ("WHADJP", [.left ["ADJP", "JJ", "JJR", "WP"], .right ["RB"], .right []]),
    ("WHADVP", [.rightListed ["WRB", "WHADVP", "RB", "JJ"]]),
    ("QP", [
      .right ["$", "NNS", "NN", "CD", "JJ", "PDT", "DT", "IN", "RB", "NCD", "QP", "JJR", "JJS"]]),
    ("S", [.left ["VP", "S", "FRAG", "SBAR", "ADJP", "UCP", "TO"], .right ["NP"]]),
    ("SBAR", [
      .left ["S", "SQ", "SINV", "SBAR", "FRAG", "VP", "WHNP", "WHPP", "WHADVP", "WHADJP", "IN",
        "DT"]]),
    ("SQ", [.left ["VP", "SQ", "ADJP", "VB", "VBZ", "VBD", "VBP", "MD", "AUX", "AUXG"]]),
    ("UCP", [.left []]),
    ("CONJP", [.right ["CC", "VB", "JJ", "RB", "IN"]]),
    ("FRAG", [
      .left ["IN"],
      .right ["RB"],
      .left ["NP"],
      .left ["ADJP", "ADVP", "FRAG", "S", "SBAR", "VP"]]),
    ("PRN", [
      .left ["VP", "SQ", "S", "SINV", "SBAR", "NP", "ADJP", "PP", "ADVP", "INTJ", "WHNP", "NAC",
        "VBP", "JJ", "NN", "NNP"]]),
    ("XS", [.right ["IN"]]),
    ("EMBED", [.right ["INTJ"]])]
  nodup := by decide +kernel

def tables : Tables where
  punctuationTags
  verbalTags
  unambiguousAuxiliaryTags
  auxiliaries
  passiveAuxiliaries
  copularVerbs
  headRules
  semanticHeadRules
  copulaIsHead := false

-- The configuration that a finder has if nothing else is read.
def settings : Settings :=
  ⟨tables, true, false⟩

end HeadPercolation.Config.Packaged
