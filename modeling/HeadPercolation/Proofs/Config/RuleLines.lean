import HeadPercolation.Proofs.Config.RuleTables
import HeadPercolation.Proofs.Text.Words

namespace HeadPercolation.Config

-- A token of a rule line. Only that before the first directive can have a bar in it.
def IsRuleToken (token : String) : Prop :=
  Text.IsToken token ∧ '=' ∉ token.toList

def IsBarless (token : String) : Prop :=
  '|' ∉ token.toList

def directiveTokens (d : Directive) : List String :=
  d.direction.name :: d.categories

namespace RuleLine

-- A category and directives that a line can give.
structure IsWritable (category : String) (ds : List Directive) : Prop where
  category : IsRuleToken category
  directives : ds ≠ []
  categories : ∀ d ∈ ds, ∀ other ∈ d.categories, IsRuleToken other ∧ IsBarless other

-- Directives with bars between them.
def directivesTokens (ds : List Directive) : List String :=
  ["|"].intercalate (ds.map directiveTokens)

def tokens (category : String) (ds : List Directive) : List String :=
  category :: directivesTokens ds

-- The line with single spaces.
def written (category : String) (ds : List Directive) : String :=
  " ".intercalate (tokens category ds)

variable {category : String} {d d' : Directive} {ds : List Directive} {text : List Char}

theorem isRuleToken_name (direction : Direction) :
    IsRuleToken direction.name ∧ IsBarless direction.name := by
  have hchars : direction.name ≠ "" ∧ direction.name.toList.all (!Text.isBlank ·) = true ∧
      '=' ∉ direction.name.toList ∧ '|' ∉ direction.name.toList := by
    obtain ⟨edge, selection⟩ := direction
    cases edge <;> cases selection <;> decide
  obtain ⟨hne, hblank, hequals, hbar⟩ := hchars
  exact ⟨⟨.of_all hne hblank, hequals⟩, hbar⟩

theorem isRuleToken_bar : IsRuleToken "|" :=
  ⟨.of_all (by decide) (by decide), by decide⟩

theorem forall_directiveTokens (hd : ∀ other ∈ d.categories, IsRuleToken other ∧ IsBarless other) :
    ∀ token ∈ directiveTokens d, IsRuleToken token ∧ IsBarless token :=
  List.forall_mem_cons.mpr ⟨isRuleToken_name d.direction, hd⟩

theorem directivesTokens_cons_cons :
    directivesTokens (d :: d' :: ds) = directiveTokens d ++ "|" :: directivesTokens (d' :: ds) := by
  rw [directivesTokens, List.map_cons, List.map_cons, List.intercalate_cons_cons,
    List.append_assoc]
  rfl

theorem directivesTokens_singleton : directivesTokens [d] = directiveTokens d := by
  simp [directivesTokens]

theorem directivesTokens_ne_nil : directivesTokens (d :: ds) ≠ [] := by
  cases ds with
  | nil => simp [directivesTokens_singleton, directiveTokens]
  | cons d' ds => simp [directivesTokens_cons_cons]

theorem forall_directivesTokens
    (hds : ∀ d ∈ ds, ∀ other ∈ d.categories, IsRuleToken other ∧ IsBarless other) :
    ∀ token ∈ directivesTokens ds, IsRuleToken token := by
  induction ds with
  | nil => simp [directivesTokens]
  | cons d ds ih =>
      obtain ⟨hd, hds⟩ := List.forall_mem_cons.mp hds
      have hfirst token (h : token ∈ directiveTokens d) := (forall_directiveTokens hd token h).1
      cases ds with
      | nil => exact directivesTokens_singleton ▸ hfirst
      | cons d' ds =>
          rw [directivesTokens_cons_cons, List.forall_mem_append]
          exact ⟨hfirst, List.forall_mem_cons.mpr ⟨isRuleToken_bar, ih hds⟩⟩

-- A directive is read again from its tokens.
theorem parseDirective_spaced (hd : ∀ other ∈ d.categories, IsRuleToken other ∧ IsBarless other)
    (h : Text.Spaced (directiveTokens d) text) : parseDirective category text = .ok d := by
  have hwords := h.words fun token hmem => (forall_directiveTokens hd token hmem).1.1
  have hstrings : (Text.words text).map String.ofList = directiveTokens d := by
    rw [hwords, List.map_map]
    exact List.map_id'' (fun _ => String.ofList_toList) _
  rw [parseDirective, hstrings, directiveTokens]
  dsimp only
  rw [Direction.ofName?_name]

-- There is no bar in the text of a directive.
theorem bar_notMem_spaced (hd : ∀ other ∈ d.categories, IsRuleToken other ∧ IsBarless other)
    (h : Text.Spaced (directiveTokens d) text) : '|' ∉ text := by
  intro hbar
  rcases h.of_mem hbar with hblank | ⟨token, htoken, hmem⟩
  · cases hblank
  · exact (forall_directiveTokens hd token htoken).2 hmem

theorem mapM_parseDirective_spaced (hne : ds ≠ [])
    (hds : ∀ d ∈ ds, ∀ other ∈ d.categories, IsRuleToken other ∧ IsBarless other)
    (h : Text.Spaced (directivesTokens ds) text) :
    (text.splitOn '|').mapM (parseDirective category) = .ok ds := by
  induction ds generalizing text with
  | nil => exact absurd rfl hne
  | cons d ds ih =>
      obtain ⟨hd, hds⟩ := List.forall_mem_cons.mp hds
      cases ds with
      | nil =>
          rw [directivesTokens_singleton] at h
          rw [List.splitOn_eq_singleton (bar_notMem_spaced hd h), List.mapM_cons,
            bind_of_eq_ok (parseDirective_spaced hd h)]
          rfl
      | cons d' ds =>
          rw [directivesTokens_cons_cons] at h
          obtain ⟨left, right, rfl, hleft, hright⟩ :=
            h.exists_of_append (List.cons_ne_nil _ _) directivesTokens_ne_nil
          have hsplit : (left ++ "|".toList ++ right).splitOn '|' = left :: right.splitOn '|' := by
            rw [List.append_assoc]
            exact List.splitOn_append_cons_self_of_not_mem (bar_notMem_spaced hd hleft) right
          rw [hsplit, List.mapM_cons, bind_of_eq_ok (parseDirective_spaced hd hleft),
            bind_of_eq_ok (ih (List.cons_ne_nil d' ds) hds hright)]
          rfl

-- A rule is read from each line of its tokens.
theorem parse_spaced {line : String} (h : IsWritable category ds)
    (hline : Text.Spaced (tokens category ds) line.toList) :
    parse line = .ok (.rules category ds) := by
  obtain ⟨hcategory, hne, hds⟩ := h
  have hdirectives := forall_directivesTokens hds
  have hall := List.forall_mem_cons.mpr ⟨hcategory, hdirectives⟩
  have hequals : '=' ∉ line.toList := by
    intro hmem
    rcases hline.of_mem hmem with hblank | ⟨token, htoken, hin⟩
    · cases hblank
    · exact (hall token htoken).2 hin
  obtain ⟨d, others, rfl⟩ := List.exists_cons_of_ne_nil hne
  obtain ⟨rest, hword, hrest⟩ :=
    hline.firstWord directivesTokens_ne_nil fun token hmem => (hall token hmem).1
  have hpresent : rest.isEmpty = false := by
    simpa using hrest.ne_nil fun token hmem => (hdirectives token hmem).1
  rw [parse, Text.cutAt_eq_none_iff.mpr hequals]
  dsimp only
  rw [hword]
  dsimp only
  rw [hpresent, String.ofList_toList, mapM_parseDirective_spaced hne hds hrest]
  rfl

-- The categories of a directive are words of its text.
theorem parseDirective_eq_ok (h : parseDirective category text = .ok d) :
    ∀ other ∈ d.categories, other.toList ∈ Text.words text := by
  unfold parseDirective at h
  split at h
  · cases h
  · rename_i name categories hwords
    split at h
    · cases h
    · cases h
      intro other hother
      have hmem : other ∈ (Text.words text).map String.ofList := by simp [hwords, hother]
      obtain ⟨word, hword, rfl⟩ := List.mem_map.mp hmem
      rwa [String.toList_ofList]

-- A category and its directives can be given by a line if they are read from one.
theorem isWritable_of_parse {line : String} (h : parse line = .ok (.rules category ds)) :
    IsWritable category ds := by
  have hne := parse_rules_ne_nil h
  unfold parse at h
  split at h
  · dsimp only at h
    split at h <;> cases h
  · rename_i hcut
    have hequals := Text.cutAt_eq_none_iff.mp hcut
    split at h
    · cases h
    · rename_i word rest hword
      dsimp only at h
      split at h
      · cases h
      · obtain ⟨ds', hparts, h⟩ := bind_eq_ok.mp h
        cases h
        obtain ⟨hword, hchars, hrest⟩ := Text.of_firstWord hword
        refine ⟨⟨⟨?_, ?_⟩, ?_⟩, hne, fun d hd other hother => ?_⟩
        · simpa using hword
        · rw [String.toList_ofList]
          exact fun c hc => (hchars c hc).1
        · rw [String.toList_ofList]
          exact fun hmem => hequals (hchars '=' hmem).2
        · obtain ⟨part, hpart, hparsed⟩ := exists_of_mapM_eq_ok hparts hd
          obtain ⟨hother, hchars⟩ := Text.of_mem_words (parseDirective_eq_ok hparsed other hother)
          have hpieces := Text.of_mem_splitOnP hpart
          refine ⟨⟨⟨?_, fun c hc => (hchars c hc).1⟩, fun hmem => ?_⟩, fun hmem => ?_⟩
          · simpa using hother
          · exact hequals (hrest '=' (hpieces '=' (hchars '=' hmem).2).2)
          · have hbar := (hpieces '|' (hchars '|' hmem).2).1
            simp at hbar

-- A rule is read from each line of its tokens, whatever white space there is between them. What is
-- read from a line that is no alias is such a rule, and it is read again from the line written for
-- it.
theorem parse_rules_roundTrip (category : String) (ds : List Directive) :
    (IsWritable category ds → ∀ line : String,
      Text.Spaced (tokens category ds) line.toList → parse line = .ok (.rules category ds)) ∧
    ∀ line : String, parse line = .ok (.rules category ds) →
      IsWritable category ds ∧ parse (written category ds) = .ok (.rules category ds) := by
  refine ⟨fun h line hline => parse_spaced h hline, fun line hline => ?_⟩
  have h := isWritable_of_parse hline
  exact ⟨h, parse_spaced h (Text.spaced_intercalate (List.cons_ne_nil _ _))⟩

theorem parse_rules_roundTrip_barred :
    let ds : List Directive := [.left ["VP"], .rightUnlisted []]
    IsWritable "A|B" ds ∧
      Text.Spaced (tokens "A|B" ds) "A|B left\tVP  | rightexcept ".toList ∧
      parse "A|B left\tVP  | rightexcept " = .ok (.rules "A|B" ds) ∧
      parse " A|B left VP|rightexcept" = .ok (.rules "A|B" ds) ∧
      parse (written "A|B" ds) = .ok (.rules "A|B" ds) := by
  intro ds
  have htoken : IsRuleToken "VP" ∧ IsBarless "VP" := by
    refine ⟨⟨.of_all (by decide) (by decide), by decide⟩, ?_⟩
    unfold IsBarless
    decide
  have hwritable : IsWritable "A|B" ds :=
    ⟨⟨.of_all (by decide) (by decide), by decide⟩, by simp [ds], by simpa [ds] using htoken⟩
  have hspaced : Text.Spaced (tokens "A|B" ds) "A|B left\tVP  | rightexcept ".toList := by
    have hnone : Text.AreBlank [] := List.forall_mem_nil _
    have hone : Text.AreBlank [' '] := List.forall_mem_singleton.mpr rfl
    exact .next hnone rfl (.next hnone rfl (.next hnone rfl (.next hone rfl (.last hnone hone))))
  have hglued : parse " A|B left VP|rightexcept" = .ok (.rules "A|B" ds) := by rfl
  obtain ⟨hread, hagain⟩ := parse_rules_roundTrip "A|B" ds
  exact ⟨hwritable, hspaced, hread hwritable _ hspaced, hglued, (hagain _ hglued).2⟩

end RuleLine

end HeadPercolation.Config
