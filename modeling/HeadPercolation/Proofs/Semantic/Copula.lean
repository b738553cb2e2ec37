import HeadPercolation.Proofs.Pattern.Macros
import HeadPercolation.Proofs.Semantic.Totality

namespace HeadPercolation

open Pattern

namespace HeadFinder

variable {hf : HeadFinder} {special : Tree → Option Parent → Except HeadError (Option Path)}

theorem locateFirst_special (children : List Tree) (ds : List Directive) :
    { hf with special }.locateFirst children ds = hf.locateFirst children ds := by
  induction ds with
  | nil => rfl
  | cons d ds ih =>
      cases ds with
      | nil => rfl
      | cons e es =>
          rw [locateFirst, ih]
          · rfl
          · exact List.cons_ne_nil e es

theorem tableHead_special (t : Tree) : { hf with special }.tableHead t = hf.tableHead t := by
  unfold tableHead
  simp only [locateFirst_special]
  rfl

-- Of what is chosen before the table, only the choice at the node itself counts.
theorem head_special {t : Tree} {parent : Option Parent}
    (h : special t parent = hf.special t parent) :
    { hf with special }.head t parent = hf.head t parent := by
  have hchosen : { hf with special }.chosenHead t parent = hf.chosenHead t parent := by
    simp only [chosenHead, h, tableHead_special]
  unfold head
  split
  · rfl
  · rfl
  · simp only [hchosen]

end HeadFinder

-- Both questions with a copula have one among their children.
theorem exists_copula_of_question {term : Term} (h : term ∈ questionTerms) {context : Context}
    {t : Tree} (hholds : term.Holds context t) :
    ∃ kid ∈ t.children, (Item.named "copula").Holds context kid := by
  have hcontents : ∃ anchored contents, term =
      .containing (.tagged "SBARQ") .children (.sequence anchored) contents ∧
        .item (.named "copula") ∈ contents := by
    simp only [questionTerms, List.mem_cons, List.not_mem_nil, or_false] at h
    rcases h with rfl | rfl <;> exact ⟨_, _, rfl, by simp⟩
  obtain ⟨anchored, contents, rfl, hcopula⟩ := hcontents
  rw [Term.Holds] at hholds
  obtain ⟨-, nodes, rfl, front, rest, hnodes, -, hfront⟩ := hholds
  obtain ⟨kid, hkid, hholds⟩ := exists_holds_of_mem_languageOf hfront hcopula rfl
  rw [Term.Holds] at hholds
  exact ⟨kid, hnodes ▸ List.mem_append_left rest hkid, hholds⟩

section PatternHead

variable {context context' : Context} {t : Tree} {patterns : List String}

theorem patternHead_eq_none
    (h : ∀ pattern ∈ patterns, matchCaptures context pattern (.root t) = .ok none) :
    patternHead context t patterns = .ok none := by
  induction patterns with
  | nil => rfl
  | cons pattern patterns ih =>
      obtain ⟨hpattern, hpatterns⟩ := List.forall_mem_cons.mp h
      rw [patternHead, hpattern]
      exact ih hpatterns

theorem patternHead_congr
    (h : ∀ pattern ∈ patterns,
      matchCaptures context pattern (.root t) = matchCaptures context' pattern (.root t)) :
    patternHead context t patterns = patternHead context' t patterns := by
  induction patterns with
  | nil => rfl
  | cons pattern patterns ih =>
      obtain ⟨hpattern, hpatterns⟩ := List.forall_mem_cons.mp h
      rw [patternHead, patternHead, hpattern, ih hpatterns]

-- No conjunction phrase asks for a macro.
theorem patternHead_conjunctionPatterns (context context' : Context) (t : Tree) :
    patternHead context t conjunctionPatterns = patternHead context' t conjunctionPatterns := by
  apply patternHead_congr
  intro pattern hpattern
  obtain ⟨term, hterm, hcompile⟩ := exists_of_map_compile compile_conjunctionPatterns hpattern
  have hmacros : ∀ term ∈ conjunctionTerms, macrosOf [term] = [] := by decide
  apply matchCaptures_congr hcompile
  rw [hmacros term hterm]
  exact fun name hname => absurd hname List.not_mem_nil

end PatternHead

namespace SemanticFinder

variable {f g : SemanticFinder} {t : Tree} {parent : Option Parent}

-- Without a copula among the children no question matches.
theorem patternHead_questionPatterns (h : ∀ kid ∈ t.children, f.isCopula kid = false) :
    patternHead f.context t questionPatterns = .ok none := by
  apply patternHead_eq_none
  intro pattern hpattern
  obtain ⟨term, hterm, hcompile⟩ := exists_of_map_compile compile_questionPatterns hpattern
  have hsupports := f.context_supports (List.mem_append_right conjunctionTerms hterm)
  have hdecides := runSet_decides (fun c hc => Term.run_decides (hsupports.of_mem hc)) [.root t] []
  obtain ⟨captures, -, hholds⟩ | ⟨hnone, -⟩ := hdecides.cases
  · obtain ⟨n, hn, hholds⟩ := hholds term List.mem_cons_self
    obtain rfl : n = .root t := List.mem_singleton.mp hn
    obtain ⟨kid, hkid, m, hm, hsays⟩ := exists_copula_of_question hterm hholds
    cases hm
    exact absurd hsays (by simp [Macro.answer, Answer.Says, h kid hkid])
  · exact matchCaptures_of_runSet hcompile hnone

-- The main verb phrase beside an auxiliary, if the children hold one.
def auxiliaryHead (f : SemanticFinder) (t : Tree) : Except HeadError (Option Nat) :=
  if f.hasAnyAuxiliary t.children then f.besideAuxiliary t.children else .ok none

-- The rule for copulas is tried where the one for auxiliaries names no head.
theorem verbalHead_eq (f : SemanticFinder) (t : Tree) (parent : Option Parent) :
    f.verbalHead t parent = do
      match ← f.auxiliaryHead t with
      | some i => return some i
      | none => if f.linksComplement t parent then f.complement t else return none := by
  unfold verbalHead auxiliaryHead
  cases f.hasAnyAuxiliary t.children <;> rfl

theorem verbalHead_of_not_linksComplement
    (h : f.auxiliaryHead t = .ok none → f.linksComplement t parent = false) :
    f.verbalHead t parent = f.auxiliaryHead t := by
  rw [verbalHead_eq]
  cases hhead : f.auxiliaryHead t with
  | error e => rfl
  | ok beside =>
      cases beside with
      | some i => rfl
      | none =>
          rw [bind_of_eq_ok rfl, h hhead]
          rfl

-- A preterminal with a copular form.
def IsCopular (f : SemanticFinder) (t : Tree) : Prop :=
  t.isPreterminal = true ∧ f.copularVerbs.contains (Text.lowered (t.word?.getD "")) = true

theorem hasCopula_iff {children : List Tree} :
    f.hasCopula children = true ↔
      ∃ kid ∈ children, f.IsCopular kid ∧ f.verbalTags.contains kid.label = true := by
  simp only [hasCopula, isVerbOf, IsCopular, List.any_eq_true, Bool.and_eq_true, Bool.false_and,
    Bool.false_or]
  constructor
  · rintro ⟨kid, hkid, hpreterminal, htag, hword⟩
    exact ⟨kid, hkid, ⟨hpreterminal, hword⟩, htag⟩
  · rintro ⟨kid, hkid, ⟨hpreterminal, hword⟩, htag⟩
    exact ⟨kid, hkid, hpreterminal, htag, hword⟩

-- The nodes at which the head can depend on whether copulas are heads.
inductive CopulaMatters (f : SemanticFinder) (t : Tree) (parent : Option Parent) : Prop
  -- A question with a copula among its children.
  | question (hcategory : t.basicCategory = "SBARQ")
      (hcopula : ∃ kid ∈ t.children,
        f.IsCopular kid ∧ Text.startsWith "VB" kid.basicCategory = true)
  -- A verb phrase or clause with a copula, if there is no other reason to leave the copula aside.
  | clause (hcategory : t.basicCategory ∈ ["VP", "SQ", "SINV"])
      (hcopula : ∃ kid ∈ t.children, f.IsCopular kid ∧ f.verbalTags.contains kid.label = true)
      (hexistential : isExistential t parent = false) (hquestion : isWhQuestion t parent = false)
      (hauxiliary : f.auxiliaryHead t = .ok none)

theorem not_isCopular_of_empty (h : f.copularVerbs = .empty) (kid : Tree) : ¬f.IsCopular kid := by
  simp [IsCopular, h, WordSet.contains, WordSet.empty]

theorem not_copulaMatters_of_empty (h : f.copularVerbs = .empty) : ¬f.CopulaMatters t parent := by
  rintro (⟨-, kid, -, hkid, -⟩ | ⟨-, ⟨kid, -, hkid, -⟩, -, -, -⟩)
  · exact not_isCopular_of_empty h kid hkid
  · exact not_isCopular_of_empty h kid hkid

theorem questionHead_of_not_copulaMatters (h : ¬f.CopulaMatters t parent)
    (hcategory : t.basicCategory = "SBARQ") :
    patternHead f.context t questionPatterns = .ok none := by
  apply patternHead_questionPatterns
  intro kid hkid
  by_contra hcopula
  simp only [isCopula, Bool.not_eq_false, Bool.and_eq_true] at hcopula
  obtain ⟨⟨hpreterminal, hverb⟩, hword⟩ := hcopula
  exact h (.question hcategory ⟨kid, hkid, ⟨hpreterminal, hword⟩, hverb⟩)

theorem verbalHead_of_not_copulaMatters (h : ¬f.CopulaMatters t parent)
    (hcategory : t.basicCategory ∈ ["VP", "SQ", "SINV"]) :
    f.verbalHead t parent = f.auxiliaryHead t := by
  apply verbalHead_of_not_linksComplement
  intro hauxiliary
  by_contra hlinks
  simp only [linksComplement, Bool.not_eq_false, Bool.and_eq_true, Bool.not_eq_true'] at hlinks
  obtain ⟨⟨hcopula, hexistential⟩, hquestion⟩ := hlinks
  exact h (.clause hcategory (hasCopula_iff.mp hcopula) hexistential hquestion hauxiliary)

-- What is chosen before the table depends on copulas in questions, verb phrases and clauses only.
theorem special_congr
    (hquestion : t.basicCategory = "SBARQ" →
      (if f.copulaIsHead then .ok none else patternHead f.context t questionPatterns) =
        if g.copulaIsHead then .ok none else patternHead g.context t questionPatterns)
    (hverbal : t.basicCategory ∈ ["VP", "SQ", "SINV"] →
      f.verbalHead t parent = g.verbalHead t parent) :
    f.special t parent = g.special t parent := by
  unfold special
  split
  · exact patternHead_conjunctionPatterns f.context g.context t
  · rename_i hcategory
    exact hquestion hcategory
  · rename_i hcategory
    rw [hverbal (by simp [hcategory])]
  · rename_i hcategory
    rw [hverbal (by simp [hcategory])]
  · rename_i hcategory
    rw [hverbal (by simp [hcategory])]
  · rfl

theorem head_congr (hadjusted : f.adjusted = g.adjusted)
    (h : f.special t parent = g.special t parent) :
    f.toHeadFinder.head t parent = g.toHeadFinder.head t parent := by
  rw [toHeadFinder, hadjusted]
  exact @HeadFinder.head_special g.toHeadFinder f.special t parent h

-- A finder with another setting for copulas.
def setCopulas (f : SemanticFinder) (copulaIsHead : Bool) (copularVerbs : WordSet) :
    SemanticFinder :=
  { f with copulaIsHead, copularVerbs }

section SetCopulas

variable (f : SemanticFinder) (copulaIsHead : Bool) (copularVerbs : WordSet)

theorem conjunctBefore_setCopulas (interjections : Bool) (children : List Tree) (seen : Bool)
    (count : Nat) :
    (f.setCopulas copulaIsHead copularVerbs).conjunctBefore interjections children seen count =
      f.conjunctBefore interjections children seen count := by
  induction count generalizing seen with
  | zero => rfl
  | succ count ih =>
      rw [conjunctBefore, conjunctBefore]
      simp only [ih]
      rfl

theorem firstConjunct_setCopulas (interjections : Bool) (children : List Tree) (index : Nat) :
    (f.setCopulas copulaIsHead copularVerbs).firstConjunct interjections children index =
      f.firstConjunct interjections children index :=
  firstConjunct_congr
    (conjunctBefore_setCopulas f copulaIsHead copularVerbs interjections children false) index

theorem adjusted_setCopulas : (f.setCopulas copulaIsHead copularVerbs).adjusted = f.adjusted := by
  have hadjust : (f.setCopulas copulaIsHead copularVerbs).adjust = f.adjust := by
    funext index children
    unfold adjust coordinated?
    simp only [funext (firstConjunct_setCopulas f copulaIsHead copularVerbs _ children)]
    rfl
  rw [adjusted, adjusted, hadjust]
  rfl

theorem showsPassive_setCopulas (auxiliary participle : Bool) (children : List Tree) :
    (f.setCopulas copulaIsHead copularVerbs).showsPassive auxiliary participle children =
      f.showsPassive auxiliary participle children := by
  induction children generalizing auxiliary participle with
  | nil => rfl
  | cons kid kids ih =>
      rw [showsPassive, showsPassive]
      simp only [ih]
      rfl

theorem auxiliaryHead_setCopulas (t : Tree) :
    (f.setCopulas copulaIsHead copularVerbs).auxiliaryHead t = f.auxiliaryHead t := by
  unfold auxiliaryHead besideAuxiliary hasAnyAuxiliary hasPassive
  rw [adjusted_setCopulas, showsPassive_setCopulas]
  rfl

end SetCopulas

-- A finder for which copulas are heads agrees with one for which they are not where that does not
-- matter to the other.
theorem head_setCopulas (hflag : f.copulaIsHead = true) (hverbs : f.copularVerbs = .empty)
    {copularVerbs : WordSet} (h : ¬(f.setCopulas false copularVerbs).CopulaMatters t parent) :
    f.toHeadFinder.head t parent =
      (f.setCopulas false copularVerbs).toHeadFinder.head t parent := by
  apply head_congr (adjusted_setCopulas f false copularVerbs).symm
  apply special_congr
  · intro hcategory
    rw [questionHead_of_not_copulaMatters h hcategory, hflag]
    rfl
  · intro hcategory
    rw [verbalHead_of_not_copulaMatters h hcategory, auxiliaryHead_setCopulas,
      verbalHead_of_not_copulaMatters (not_copulaMatters_of_empty hverbs) hcategory]

section Tables

variable {tables : Config.Tables} {a : SemanticFinder}

theorem ofTables_setCopulas {setting : Option Bool} (h : ofTables tables setting = .ok f)
    (copularVerbs : WordSet) :
    ofTables { tables with copularVerbs } (some false) = .ok (f.setCopulas false copularVerbs) := by
  obtain ⟨base, hbase, hf⟩ := bind_eq_ok.mp h
  cases hf
  exact bind_of_eq_ok hbase

-- Two finders that differ in their setting for copulas alone agree where that does not matter.
theorem head_eq_of_not_copulaMatters {b : SemanticFinder}
    (ha : ofTables tables (some true) = .ok a) (hb : ofTables tables (some false) = .ok b)
    (h : ¬b.CopulaMatters t parent) :
    a.toHeadFinder.head t parent = b.toHeadFinder.head t parent := by
  have hwords := ofTables_words ha
  have hflag : a.copulaIsHead = true := congrArg copulaIsHead hwords
  have hverbs : a.copularVerbs = .empty := congrArg copularVerbs hwords
  have hset := ofTables_setCopulas ha tables.copularVerbs
  obtain rfl : b = a.setCopulas false tables.copularVerbs := by
    cases hb.symm.trans hset
    rfl
  exact head_setCopulas hflag hverbs h

-- With copulas as heads, the head of a node is the one without, unless it can depend on them. It
-- is always the one of a finder that knows no copular forms.
theorem head_eq_or_copulaMatters (ha : ofTables tables (some true) = .ok a) :
    ∃ b c, ofTables tables (some false) = .ok b ∧
      ofTables { tables with copularVerbs := .empty } (some false) = .ok c ∧
        ∀ t parent,
          (a.toHeadFinder.head t parent = b.toHeadFinder.head t parent ∨
            b.CopulaMatters t parent) ∧
          a.toHeadFinder.head t parent = c.toHeadFinder.head t parent := by
  have hwords := ofTables_words ha
  have hflag : a.copulaIsHead = true := congrArg copulaIsHead hwords
  have hverbs : a.copularVerbs = .empty := congrArg copularVerbs hwords
  refine ⟨_, _, ofTables_setCopulas ha tables.copularVerbs, ofTables_setCopulas ha .empty, ?_⟩
  intro t parent
  refine ⟨?_, head_setCopulas hflag hverbs (not_copulaMatters_of_empty rfl)⟩
  by_cases h : (a.setCopulas false tables.copularVerbs).CopulaMatters t parent
  · exact Or.inr h
  · exact Or.inl (head_setCopulas hflag hverbs h)

theorem packaged_head_eq_or_copulaMatters :
    ∃ a, ofTables Config.Packaged.tables (some true) = .ok a ∧
      ∃ b c, ofTables Config.Packaged.tables (some false) = .ok b ∧
        ofTables { Config.Packaged.tables with copularVerbs := .empty } (some false) = .ok c ∧
          ∀ t parent,
            (a.toHeadFinder.head t parent = b.toHeadFinder.head t parent ∨
              b.CopulaMatters t parent) ∧
            a.toHeadFinder.head t parent = c.toHeadFinder.head t parent := by
  obtain ⟨a, ha⟩ := exists_ofTables_eq_ok (some true) packaged_semanticRules_ne_nil
  exact ⟨a, ha, head_eq_or_copulaMatters ha⟩

end Tables

end SemanticFinder

end HeadPercolation
