import HeadPercolation.Proofs.Semantic.Override

namespace HeadPercolation

-- A child that a copula can link to the subject: no temporal or adverbial phrase and, in an SQ,
-- not the first NP, which is the subject.
structure IsComplement (t : Tree) (place : Nat) (kid : Tree) : Prop where
  child : t.children[place]? = some kid
  notTemporal : Text.contains "-TMP" kid.label = false
  notAdverbial : Text.contains "-ADV" kid.label = false
  notSubject : t.basicCategory = "SQ" → Text.startsWith "NP" kid.label = true →
    ∃ before < place, ∃ subject, t.children[before]? = some subject ∧
      Text.startsWith "NP" subject.label = true

theorem hasNounPhraseBefore_iff {children : List Tree} {index : Nat} :
    hasNounPhraseBefore children index = true ↔
      ∃ before < index, ∃ subject, children[before]? = some subject ∧
        Text.startsWith "NP" subject.label = true := by
  rw [hasNounPhraseBefore, List.any_eq_true]
  constructor
  · rintro ⟨subject, hmem, hlabel⟩
    obtain ⟨before, hbefore⟩ := List.mem_iff_getElem?.mp hmem
    rw [List.getElem?_take] at hbefore
    split at hbefore
    · rename_i hlt
      exact ⟨before, hlt, subject, hbefore, hlabel⟩
    · cases hbefore
  · rintro ⟨before, hlt, subject, hbefore, hlabel⟩
    refine ⟨subject, List.mem_of_getElem? (i := before) ?_, hlabel⟩
    rwa [List.getElem?_take_of_lt hlt]

namespace SemanticFinder

variable {f : SemanticFinder} {t : Tree} {parent : Option Parent} {place : Nat}

-- The search and the coordination fix both stay among the candidates, and the candidates keep
-- their places among all children.
theorem complement_isComplement (h : f.complement t = .ok (some place)) :
    ∃ kid, IsComplement t place kid := by
  obtain ⟨j, kid, -, hkid, hsubject⟩ := complement_eq_ok_some h
  obtain ⟨hmem, hcandidate⟩ := List.mem_filter.mp (List.mem_of_getElem? hkid)
  have hlabels : Text.contains "-TMP" kid.label = false ∧
      Text.contains "-ADV" kid.label = false := by
    simpa [isCircumstance] using hcandidate
  exact ⟨kid, {
    child := List.mk_mem_zipIdx_iff_getElem?.mp hmem
    notTemporal := hlabels.1
    notAdverbial := hlabels.2
    notSubject := fun hcategory hlabel =>
      hasNounPhraseBefore_iff.mp (hsubject hcategory hlabel) }⟩

-- Without an auxiliary a head is named beside a copula only, and it is a complement, wherever the
-- coordination fix has moved it.
theorem verbalHead_isComplement (hauxiliary : f.hasAuxiliary t.children = false)
    (hpassive : f.hasPassive t.children = false)
    (h : f.verbalHead t parent = .ok (some place)) :
    f.linksComplement t parent = true ∧ ∃ kid, IsComplement t place kid := by
  rcases verbalHead_eq_ok_some h with ⟨hany, -⟩ | ⟨hlinks, hcomplement⟩
  · rw [hasAnyAuxiliary, hauxiliary, hpassive] at hany
    cases hany
  · exact ⟨hlinks, complement_isComplement hcomplement⟩

-- In `is he today a doctor and a lawyer` the head is moved from the lawyer to the doctor. The
-- temporal phrase before them is not counted among the candidates, but is among the children.
theorem verbalHead_isComplement_conjoined :
    let word (tag text : String) : Tree := .node tag [.leaf text]
    let t : Tree := .node "SQ" [word "VBZ" "is", .node "NP" [word "PRP" "he"],
      .node "NP-TMP" [word "NN" "today"], .node "NP" [word "DT" "a", word "NN" "doctor"],
      word "CC" "and", .node "NP" [word "DT" "a", word "NN" "lawyer"]]
    ∃ f, ofTables Config.Packaged.tables none = .ok f ∧ f.hasAuxiliary t.children = false ∧
      f.hasPassive t.children = false ∧ f.verbalHead t none = .ok (some 3) ∧
        f.linksComplement t none = true ∧ ∃ kid, IsComplement t 3 kid := by
  intro word t
  have hrun : ((ofTables Config.Packaged.tables none).map fun f =>
      (f.hasAuxiliary t.children, f.hasPassive t.children,
        (f.verbalHead t none).toOption)).toOption = some (false, false, some (some 3)) := by
    decide +kernel
  obtain ⟨f, hf, hanswers⟩ := map_eq_ok.mp (toOption_eq_some.mp hrun)
  simp only [Prod.mk.injEq] at hanswers
  obtain ⟨hauxiliary, hpassive, hhead⟩ := hanswers
  rw [toOption_eq_some] at hhead
  exact ⟨f, hf, hauxiliary, hpassive, hhead,
    verbalHead_isComplement hauxiliary hpassive hhead⟩

end SemanticFinder

end HeadPercolation
