import HeadPercolation.Proofs.Config.RuleTables
import HeadPercolation.Proofs.Finder.Failures
import HeadPercolation.Proofs.Semantic.Totality

namespace HeadPercolation

open Config (Tables Settings Change)

variable {tables : Tables}

theorem Config.Tables.HasUsableRules.semanticRules (h : tables.HasUsableRules) :
    Config.AllUsable tables.semanticRules.get? := by
  intro category ds hds
  rw [Tables.semanticRules, Table.get?_update] at hds
  rcases Option.or_eq_some_iff.mp hds with hsemantic | ⟨-, hhead⟩
  · exact h.semanticHeadRules category ds hsemantic
  · exact h.headRules category ds hhead

-- A finder of usable rules is accepted, and no error blames the rules later.
theorem HeadFinder.exists_collins_eq_ok (h : tables.HasUsableRules) :
    ∃ hf, HeadFinder.collins tables .empty = .ok hf ∧ hf.HasSoundRules := by
  have hrules : ∀ category ws,
      ((tables.headRules.map (·.map Directive.written)).update .empty).get? category = some ws →
        ∃ ds, ws = ds.map Directive.written ∧ ds ≠ [] := by
    intro category ws hws
    rw [Table.get?_update, Table.get?_map] at hws
    obtain ⟨ds, hds, rfl⟩ := Option.map_eq_some_iff.mp hws
    exact ⟨ds, rfl, (h.headRules category ds hds).1⟩
  obtain ⟨hf, hok⟩ : ∃ hf, HeadFinder.collins tables .empty = .ok hf :=
    exists_ofRules_eq_ok hrules (by simp)
  obtain ⟨hshape, -, -⟩ := ofRules_eq_ok hok
  refine ⟨hf, hok, hasSoundRules_of_head fun t parent => head_sparesRules ?_ ?_ ?_ ?_ t parent⟩
  · rw [hshape]
  · intro category ds hds
    rcases ofRules_get? hok category with ⟨-, hnone⟩ | ⟨ds', -, hsome, hne⟩
    · cases hnone.symm.trans hds
    · cases hsome.symm.trans hds
      exact hne
  · intro t parent
    rw [hshape]
    exact failsOnlyWith_ok none
  · intro children i hi
    rw [hshape]
    exact hi

theorem SemanticFinder.exists_ofTables_hasSoundRules (h : tables.HasUsableRules)
    (copulaIsHead : Option Bool) :
    ∃ f, ofTables tables copulaIsHead = .ok f ∧ f.toHeadFinder.HasSoundRules := by
  have hrules : ∀ category ds, tables.semanticRules.get? category = some ds → ds ≠ [] :=
    fun category ds hds => (h.semanticRules category ds hds).1
  obtain ⟨f, hok⟩ := exists_ofTables_eq_ok copulaIsHead hrules
  have hmarked : f.toHeadFinder.marked = fun _ => none := by
    change f.base.marked = _
    rw [ofTables_shape hok]
  have hspecial (t : Tree) (parent : Option Parent) :
      SparesRules (f.toHeadFinder.special t parent) := by
    rcases f.special_eq_ok t parent with hnone | ⟨i, -, hsome⟩
    · exact fun e he => by cases hnone.symm.trans he
    · exact fun e he => by cases hsome.symm.trans he
  exact ⟨f, hok, HeadFinder.hasSoundRules_of_head <| HeadFinder.head_sparesRules hmarked
    (fun category => (ofTables_get? hok category).2) hspecial f.adjust_keepsInside⟩

namespace Config.Settings

-- Whatever has been read and added, and however often that was given up, both tables are usable.
-- Finders can be made from them, and never find fault with their rules.
theorem changeAll_usable (loaded debug : Bool) (changes : List Change)
    (copulaIsHead : Option Bool) :
    let tables := (changeAll ⟨.empty, loaded, debug⟩ changes).tables
    tables.HasUsableRules ∧
      (∃ hf, HeadFinder.collins tables .empty = .ok hf ∧ hf.HasSoundRules) ∧
        ∃ f, SemanticFinder.ofTables tables copulaIsHead = .ok f ∧
          f.toHeadFinder.HasSoundRules := by
  intro tables
  have husable : tables.HasUsableRules := changeAll_hasUsableRules empty_hasUsableRules changes
  exact ⟨husable, HeadFinder.exists_collins_eq_ok husable,
    SemanticFinder.exists_ofTables_hasSoundRules husable copulaIsHead⟩

end Config.Settings

end HeadPercolation
