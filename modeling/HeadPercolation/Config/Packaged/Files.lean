import HeadPercolation.Config.File

namespace HeadPercolation.Config.Packaged

-- The lines of the packaged configuration, which includes the two files below.
def mainLines : List String := [
  "",
  "[settings]",
  "",
  "# If true, copular verbs (be, seem, become...) are heads of their",
  "# clauses like any other verb. If false, the predicative complement",
  "# of the copula is chosen instead: in 'Bill is big', 'big' is the head.",
  "treat_copula_as_head = false",
  "",
  "# Set to true to log head finding decisions at DEBUG level",
  "debug = false",
  "",
  "$include HeadRules.conf",
  "$include Vocabulary.conf"]

-- The tags of punctuation and the tables of head rules for the categories of a treebank.
def headRuleLines : List String := [
  "# Each line has the form",
  "#",
  "#   CATEGORY  direction cat1 cat2 ... | direction cat3 cat4 ... | ...",
  "#",
  "# The directives are tried in order; the last one is a last resort that",
  "# always yields a head. Directions:",
  "#",
  "#   left / right           For each listed category in turn, scan the",
  "#                          children from the left (right) edge for it",
  "#   leftdis / rightdis     Scan the children from the left (right) edge,",
  "#                          taking the first one that has any listed category",
  "#   leftexcept / rightexcept",
  "#                          Take the first child from the left (right) edge",
  "#                          that has none of the listed categories",
  "#",
  "# A line of the form CATEGORY = OTHER copies the rules of OTHER.",
  "#",
  "",
  "[punctuation_tags]",
  "",
  "'' `` -LRB- -RRB- . : ,",
  "",
  "[head_rules]",
  "",
  "# Modified Collins head rules",
  "",
  "ADJP    left $ | rightdis NNS NN JJ QP VBN VBG | left ADJP | \\",
  "        rightdis JJP JJR JJS DT RB RBR CD IN VBD | left ADVP NP",
  "JJP     left NNS NN $ QP JJ VBN VBG ADJP JJP JJR NP JJS DT FW RBR RBS SBAR RB",
  "ADVP    left ADVP IN | rightdis RB RBR RBS JJ JJR JJS | \\",
  "        rightdis RP DT NN CD NP VBN NNP CC FW NNS ADJP NML",
  "CONJP   right CC RB IN",
  "FRAG    right",
  "INTJ    left",
  "LST     right LS :",
  "NAC     left NN NNS NML NNP NNPS NP NAC EX $ CD QP PRP VBG JJ JJS JJR ADJP JJP FW",
  "PP      right IN TO VBG VBN RP FW JJ SYM | left PP",
  "PRN     left VP NP PP SQ S SINV SBAR ADJP JJP ADVP INTJ WHNP NAC VBP JJ NN NNP",
  "PRT     right RP",
  "QP      left $ IN NNS NN JJ CD PDT DT RB NCD QP JJR JJS",
  "RRC     left RRC | right VP ADJP JJP NP PP ADVP",
  "S       left TO VP S FRAG SBAR ADJP JJP UCP NP",
  "SBAR    left WHNP WHPP WHADVP WHADJP IN DT S SQ SINV SBAR FRAG",
  "SBARQ   left SQ S SINV SBARQ FRAG SBAR",
  "SINV    left VBZ VBD VBP VB MD VBN VP S SINV ADJP JJP NP",
  "SQ      left VBZ VBD VBP VB MD AUX AUXG VP SQ",
  "UCP     right",
  "VP      left TO VBD VBN MD VBZ VB VBG VBP VP AUX AUXG ADJP JJP NN NNS JJ NP NNP",
  "WHADJP  left WRB WHADVP RB JJ ADJP JJP JJR",
  "WHADVP  right WRB WHADVP",
  "WHNP    left WDT WP WP$ WHADJP WHPP WHNP",
  "WHPP    right IN TO FW",
  "X       right S VP ADJP JJP NP SBAR PP X",
  "NP      rightdis NN NNP NNPS NNS NML NX POS JJR | left NP PRP | \\",
  "        rightdis $ ADJP JJP PRN FW | right CD | \\",
  "        rightdis JJ JJS RB QP DT WDT RBR ADVP",
  "NX      = NP",
  "NML     = NP",
  "POSSP   right POS",
  "ROOT    left S SQ SINV SBAR FRAG",
  "TOP     = ROOT",
  "TYPO    left NN NP NML NNP NNPS TO VBD VBN MD VBZ VB VBG VBP VP ADJP JJP FRAG",
  "ADV     right RB RBR RBS FW ADVP TO CD JJR JJ IN NP NML JJS NN",
  "EDITED  left",
  "VB      left TO VBD VBN MD VBZ VB VBG VBP VP AUX AUXG ADJP JJP NN NNS JJ NP NNP",
  "META    left",
  "XS      right IN",
  "",
  "[semantic_head_rules]",
  "",
  "# Replacements for the rules above that better fit semantic notions of heads",
  "",
  "# NP: a possessive marker (POS) should not be the head",
  "NP      rightdis NN NNP NNPS NNS NX NML JJR WP | left NP PRP | \\",
  "        rightdis $ ADJP FW | right CD | \\",
  "        rightdis JJ JJS QP DT WDT NML PRN RB RBR ADVP | left POS",
  "NX      = NP",
  "NML     = NP",
  "",
  "# WHNP is headed like NP, but a WHNP daughter wins over an NP daughter",
  "WHNP    rightdis NN NNP NNPS NNS NX NML JJR WP | left WHNP NP | \\",
  "        rightdis $ ADJP PRN FW | right CD | rightdis JJ JJS RB QP | \\",
  "        left WHPP WHADJP WP$ WDT",
  "",
  "WHADJP  left ADJP JJ JJR WP | right RB | right",
  "",
  "# JJ allows 'how long' constructions with a flat NP structure",
  "WHADVP  rightdis WRB WHADVP RB JJ",
  "",
  "# 'three billion' is headed by 'billion', so go from right to left",
  "QP      right $ NNS NN CD JJ PDT DT IN RB NCD QP JJR JJS",
  "",
  "# Clauses prefer the main verb as the head",
  "S       left VP S FRAG SBAR ADJP UCP TO | right NP",
  "# VP is not expected in SBAR but occurs in buggy trees and does no harm",
  "SBAR    left S SQ SINV SBAR FRAG VP WHNP WHPP WHADVP WHADJP IN DT",
  "SQ      left VP SQ ADJP VB VBZ VBD VBP MD AUX AUXG",
  "",
  "# UCP takes the first element as its head",
  "UCP     left",
  "",
  "# 'not to mention' is headed by 'mention'",
  "CONJP   right CC VB JJ RB IN",
  "",
  "# ADJP and ADVP come before S because of odd parses of reduced sentences",
  "FRAG    left IN | right RB | left NP | left ADJP ADVP FRAG S SBAR VP",
  "",
  "# PRN: sentence first",
  "PRN     left VP SQ S SINV SBAR NP ADJP PP ADVP INTJ WHNP NAC VBP JJ NN NNP",
  "",
  "# XS is an extra layer inside QP trees introduced by QP transformations",
  "XS      right IN",
  "",
  "# CoNLL data",
  "EMBED   right INTJ"]

-- The tags and the forms of auxiliary and copular verbs.
def vocabularyLines : List String := [
  "# Word forms are matched case-insensitively. The lists include common",
  "# misspellings and clitic forms from informal text: 'wo' and 'ca' are",
  "# from \"won't\" and \"can't\", 'na' is from \"gonna\", 've' is from \"Weve\",",
  "# 'of' is a non-standard spelling of \"have\" and 's' a missing apostrophe.",
  "#",
  "",
  "[verbal_tags]",
  "",
  "# Includes the Charniak AUX tags so that BLLIP trees are handled",
  "TO MD VB VBD VBP VBZ VBG VBN AUX AUXG",
  "",
  "[unambiguous_auxiliary_tags]",
  "",
  "# These tags always denote auxiliaries, even for words such as",
  "# 'too' or 'my' that appear in web text",
  "TO MD AUX AUXG",
  "",
  "[auxiliaries]",
  "",
  "will wo shall sha may might should would can could ca must",
  "has have had having get gets getting got gotten",
  "do does did to",
  "'ve ve v 'd d 'll ll na of hav hvae as",
  "",
  "[passive_auxiliaries]",
  "",
  "be being been am are r is ai was were 'm m 're 's s art ar",
  "get getting gets got",
  "",
  "[copular_verbs]",
  "",
  "be being been am are r is ai was were 'm m 're 's s wase",
  "seem seems seemed appear appears appeared",
  "stay stays stayed remain remains remained",
  "resemble resembles resembled become becomes became"]

def files : FileSet := .ofList [
  ("Main.conf", .ofLines mainLines),
  ("HeadRules.conf", .ofLines headRuleLines),
  ("Vocabulary.conf", .ofLines vocabularyLines)]

end HeadPercolation.Config.Packaged
