import HeadPercolation.Proofs.Finder.Rules
import HeadPercolation.Semantic.Finder

namespace HeadPercolation

-- The head rules with some of them replaced by those that make heads semantic.
def Config.Tables.semanticRules (tables : Config.Tables) : Table (List Directive) :=
  tables.headRules.update tables.semanticHeadRules

theorem Config.Tables.get?_written (tables : Config.Tables) (category : String) :
    ((tables.headRules.map (·.map Directive.written)).update
      (tables.semanticHeadRules.map (·.map Directive.written))).get? category =
        (tables.semanticRules.get? category).map (·.map Directive.written) := by
  rw [semanticRules, Table.get?_update, Table.get?_update, Table.get?_map, Table.get?_map,
    Option.map_or]

namespace SemanticFinder

variable {tables : Config.Tables} {copulaIsHead : Option Bool} {f : SemanticFinder}

theorem ofTables_base (h : ofTables tables copulaIsHead = .ok f) :
    HeadFinder.collins tables (tables.semanticHeadRules.map (·.map Directive.written)) =
      .ok f.base := by
  obtain ⟨base, hbase, hf⟩ := bind_eq_ok.mp h
  cases hf
  exact hbase

-- The words and tags are the configured ones, but for the copular verbs if copulas are heads.
theorem ofTables_words (h : ofTables tables copulaIsHead = .ok f) :
    f = { f with
      copulaIsHead := copulaIsHead.getD tables.copulaIsHead
      punctuationTags := tables.punctuationTags
      verbalTags := tables.verbalTags
      unambiguousAuxiliaryTags := tables.unambiguousAuxiliaryTags
      auxiliaries := tables.auxiliaries
      passiveAuxiliaries := tables.passiveAuxiliaries
      copularVerbs :=
        if copulaIsHead.getD tables.copulaIsHead then .empty else tables.copularVerbs } := by
  obtain ⟨base, -, hf⟩ := bind_eq_ok.mp h
  cases hf
  rfl

theorem exists_ofTables_eq_ok (copulaIsHead : Option Bool)
    (h : ∀ category ds, tables.semanticRules.get? category = some ds → ds ≠ []) :
    ∃ f, ofTables tables copulaIsHead = .ok f := by
  have hrules : ∀ category ws,
      ((tables.headRules.map (·.map Directive.written)).update
        (tables.semanticHeadRules.map (·.map Directive.written))).get? category = some ws →
          ∃ ds, ws = ds.map Directive.written ∧ ds ≠ [] := by
    intro category ws hws
    rw [tables.get?_written, Option.map_eq_some_iff] at hws
    obtain ⟨ds, hds, rfl⟩ := hws
    exact ⟨ds, rfl, h category ds hds⟩
  obtain ⟨base, hbase⟩ : ∃ base, HeadFinder.collins tables
      (tables.semanticHeadRules.map (·.map Directive.written)) = .ok base :=
    HeadFinder.exists_ofRules_eq_ok hrules (by simp)
  exact ⟨_, bind_of_eq_ok hbase⟩

-- Under the table there is nothing but the directives and the categories to avoid.
theorem ofTables_shape (h : ofTables tables copulaIsHead = .ok f) :
    f.base = { rules := f.base.rules, avoid := tables.punctuationTags.words } := by
  obtain ⟨hshape, -, hdefault⟩ := HeadFinder.ofRules_eq_ok (ofTables_base h)
  have hnone : f.base.defaultRule = none := Option.map_eq_none_iff.mp hdefault.symm
  rw [hnone] at hshape
  exact hshape

-- The directives of a finder are the configured ones, at least one for each category it knows.
theorem ofTables_get? (h : ofTables tables copulaIsHead = .ok f) (category : String) :
    f.base.rules.get? category = tables.semanticRules.get? category ∧
      ∀ ds, f.base.rules.get? category = some ds → ds ≠ [] := by
  rcases HeadFinder.ofRules_get? (ofTables_base h) category with
    ⟨hwritten, hnone⟩ | ⟨ds, hwritten, hsome, hne⟩
  · rw [tables.get?_written, Option.map_eq_none_iff] at hwritten
    rw [hnone, hwritten]
    exact ⟨rfl, by simp⟩
  · rw [tables.get?_written, Option.map_eq_some_iff] at hwritten
    obtain ⟨ds', hds', heq⟩ := hwritten
    have hsame := (List.map_injective_iff.mpr Directive.written_injective) heq
    rw [hsome, hds', hsame]
    refine ⟨rfl, fun es hes => ?_⟩
    rw [← Option.some.inj hes]
    exact hne

end SemanticFinder

end HeadPercolation
