import HeadPercolation.Proofs.Category
import HeadPercolation.Proofs.Semantic.Copula

namespace HeadPercolation

variable {t : Tree} {parent : Parent}

-- For an SQ the question is known by the label of the clause, not by its category.
theorem isWhQuestion_iff (hcategory : t.basicCategory = "SQ") :
    isWhQuestion t (some parent) = true ↔
      parent.tree.label = "SBARQ" ∧
        parent.tree.children.any (Text.startsWith "WH" ·.label) = true := by
  have hlabel : Text.startsWith "SQ" t.label = true := by
    rw [← hcategory]
    exact startsWith_basicCategory t.label
  simp only [isWhQuestion, hlabel, Bool.true_and, Bool.and_eq_true, beq_iff_eq]

namespace SemanticFinder

variable {tables : Config.Tables} {a b : SemanticFinder}

-- The copula does not matter to the SQ of a question under the plain label SBARQ.
theorem CopulaMatters.label_ne (h : b.CopulaMatters t (some parent))
    (hcategory : t.basicCategory = "SQ")
    (hphrase : parent.tree.children.any (Text.startsWith "WH" ·.label) = true) :
    parent.tree.label ≠ "SBARQ" := by
  intro hlabel
  cases h with
  | question hcategory' =>
      rw [hcategory] at hcategory'
      exact absurd hcategory' (by decide)
  | clause _ _ _ hquestion _ =>
      rw [(isWhQuestion_iff hcategory).mpr ⟨hlabel, hphrase⟩] at hquestion
      cases hquestion

-- With copulas as heads and without, the head of the SQ of a question is the same, unless the
-- label of the clause has annotations and the copula matters for want of any other reason.
theorem head_question_eq_or_annotated
    (ha : ofTables tables (some true) = .ok a) (hb : ofTables tables (some false) = .ok b)
    (hcategory : t.basicCategory = "SQ") (hclause : parent.tree.basicCategory = "SBARQ")
    (hphrase : parent.tree.children.any (Text.startsWith "WH" ·.label) = true) :
    a.toHeadFinder.head t (some parent) = b.toHeadFinder.head t (some parent) ∨
      (parent.tree.label ≠ parent.tree.basicCategory ∧ b.CopulaMatters t (some parent)) := by
  by_cases hmatters : b.CopulaMatters t (some parent)
  · have hlabel := hmatters.label_ne hcategory hphrase
    rw [← hclause] at hlabel
    exact Or.inr ⟨hlabel, hmatters⟩
  · exact Or.inl (head_eq_of_not_copulaMatters ha hb hmatters)

-- In `why is the man a doctor` the copula is the head of the SQ, whether copulas are heads or not.
theorem head_question_eq_or_annotated_plain :
    let word (tag text : String) : Tree := .node tag [.leaf text]
    let t : Tree := .node "SQ" [word "VBZ" "is", .node "NP" [word "DT" "the", word "NN" "man"],
      .node "NP" [word "DT" "a", word "NN" "doctor"]]
    let parent : Parent := ⟨.node "SBARQ" [.node "WHADVP" [word "WRB" "why"], t], some 1⟩
    ∃ a b, ofTables Config.Packaged.tables (some true) = .ok a ∧
      ofTables Config.Packaged.tables (some false) = .ok b ∧ t.basicCategory = "SQ" ∧
        parent.tree.basicCategory = "SBARQ" ∧
          parent.tree.children.any (Text.startsWith "WH" ·.label) = true ∧
            a.toHeadFinder.head t (some parent) = b.toHeadFinder.head t (some parent) := by
  intro word t parent
  obtain ⟨a, ha⟩ := exists_ofTables_eq_ok (some true) packaged_semanticRules_ne_nil
  obtain ⟨b, hb⟩ := exists_ofTables_eq_ok (some false) packaged_semanticRules_ne_nil
  have hcategory : t.basicCategory = "SQ" := by decide +kernel
  have hclause : parent.tree.basicCategory = "SBARQ" := by decide +kernel
  have hphrase : parent.tree.children.any (Text.startsWith "WH" ·.label) = true := by
    decide +kernel
  refine ⟨a, b, ha, hb, hcategory, hclause, hphrase, ?_⟩
  rcases head_question_eq_or_annotated ha hb hcategory hclause hphrase with hsame | ⟨hlabel, -⟩
  · exact hsame
  · exact absurd hclause.symm hlabel

-- Under SBARQ-1 the question is not seen, and the second noun phrase takes the place of the copula.
theorem head_question_annotated :
    let word (tag text : String) : Tree := .node tag [.leaf text]
    let t : Tree := .node "SQ" [word "VBZ" "is", .node "NP" [word "DT" "the", word "NN" "man"],
      .node "NP" [word "DT" "a", word "NN" "doctor"]]
    let parent : Parent := ⟨.node "SBARQ-1" [.node "WHADVP" [word "WRB" "why"], t], some 1⟩
    ∃ a b, ofTables Config.Packaged.tables (some true) = .ok a ∧
      ofTables Config.Packaged.tables (some false) = .ok b ∧ t.basicCategory = "SQ" ∧
        parent.tree.basicCategory = "SBARQ" ∧
          parent.tree.children.any (Text.startsWith "WH" ·.label) = true ∧
            a.toHeadFinder.head t (some parent) = .ok [0] ∧
              b.toHeadFinder.head t (some parent) = .ok [2] := by
  intro word t parent
  have hcopulas : (ofTables Config.Packaged.tables (some true) >>=
      (·.toHeadFinder.head t (some parent))).toOption = some [0] := by
    decide +kernel
  have hcomplements : (ofTables Config.Packaged.tables (some false) >>=
      (·.toHeadFinder.head t (some parent))).toOption = some [2] := by
    decide +kernel
  obtain ⟨a, ha, hheada⟩ := bind_eq_ok.mp (toOption_eq_some.mp hcopulas)
  obtain ⟨b, hb, hheadb⟩ := bind_eq_ok.mp (toOption_eq_some.mp hcomplements)
  exact ⟨a, b, ha, hb, by decide +kernel, by decide +kernel, by decide +kernel, hheada, hheadb⟩

end SemanticFinder

end HeadPercolation
