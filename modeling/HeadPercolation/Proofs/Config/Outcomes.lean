import HeadPercolation.Proofs.Config.Circles

namespace HeadPercolation

namespace Text

theorem firstWord_eq_none_iff {text : List Char} : firstWord text = none ↔ trimLeft text = [] := by
  unfold firstWord
  split <;> simp_all

-- What is left of a text without the white space around it is not blank.
theorem trimLeft_trim_ne_nil {text : List Char} (h : trim text ≠ []) :
    trimLeft (trim text) ≠ [] := by
  intro hblank
  rcases List.eq_nil_or_concat (trim text) with hnil | ⟨cs, c, hlast⟩
  · exact h hnil
  · rw [List.concat_eq_append] at hlast
    have hsolid : isBlank c = false := (exists_of_trimRight_eq hlast).1
    have hc : isBlank c = true :=
      List.dropWhile_eq_nil_iff.mp hblank c (by rw [hlast]; simp)
    rw [hsolid] at hc
    cases hc

end Text

namespace Config

-- A line is refused since something is wrong with it.
def LineError.IsFault (e : LineError) : Prop :=
  ∃ fault, e = .fault fault

section Lines

variable {line : String}

theorem RuleLine.parseDirective_failsOnlyWith (category : String) (part : List Char) :
    FailsOnlyWith LineError.IsFault (parseDirective category part) := by
  unfold parseDirective
  split
  · exact failsOnlyWith_error ⟨_, rfl⟩
  · split
    · exact failsOnlyWith_error ⟨_, rfl⟩
    · exact failsOnlyWith_ok _

theorem RuleLine.parse_failsOnlyWith (h : Text.trimLeft line.toList ≠ []) :
    FailsOnlyWith LineError.IsFault (parse line) := by
  unfold parse
  split
  · dsimp only
    split
    · exact failsOnlyWith_ok _
    · exact failsOnlyWith_error ⟨_, rfl⟩
  · split
    · rename_i hnone
      exact absurd (Text.firstWord_eq_none_iff.mp hnone) h
    · dsimp only
      split
      · exact failsOnlyWith_error ⟨_, rfl⟩
      · refine (failsOnlyWith_mapM (parseDirective_failsOnlyWith _) _).bind fun ds => ?_
        exact failsOnlyWith_ok _

theorem RuleLine.entry_failsOnlyWith (known : String → Option (List Directive))
    (parsed : RuleLine) : FailsOnlyWith LineError.IsFault (parsed.entry known) := by
  cases parsed with
  | rules category directives => exact failsOnlyWith_ok _
  | copy category other =>
      simp only [entry]
      split
      · exact failsOnlyWith_error ⟨_, rfl⟩
      · exact failsOnlyWith_ok _

theorem addRuleLine_failsOnlyWith (h : Text.trimLeft line.toList ≠ [])
    (table : Table (List Directive)) (known : String → Option (List Directive)) :
    FailsOnlyWith LineError.IsFault (addRuleLine table known line) :=
  (RuleLine.parse_failsOnlyWith h).bind fun parsed =>
    (RuleLine.entry_failsOnlyWith known parsed).bind fun _ => failsOnlyWith_ok _

namespace Settings

theorem assign_failsOnlyWith (s : Settings) (line : String) :
    FailsOnlyWith LineError.IsFault (s.assign line) := by
  unfold assign
  split
  · exact failsOnlyWith_error ⟨_, rfl⟩
  · dsimp only
    split
    · split
      · exact failsOnlyWith_ok _
      · exact failsOnlyWith_ok _
      · exact failsOnlyWith_error ⟨_, rfl⟩
    · split
      · exact failsOnlyWith_ok _
      · exact failsOnlyWith_ok _
      · exact failsOnlyWith_error ⟨_, rfl⟩
    · exact failsOnlyWith_error ⟨_, rfl⟩

theorem handle_failsOnlyWith (h : Text.trimLeft line.toList ≠ []) (s : Settings)
    (current : Section) : FailsOnlyWith LineError.IsFault (s.handle line current) := by
  cases current with
  | settings => exact s.assign_failsOnlyWith line
  | words list => exact failsOnlyWith_ok _
  | headRules => exact (addRuleLine_failsOnlyWith h _ _).bind fun _ => failsOnlyWith_ok _
  | semanticHeadRules => exact (addRuleLine_failsOnlyWith h _ _).bind fun _ => failsOnlyWith_ok _

-- Nothing else stops the reader at a line, since it does not take a blank line for a head rule.
theorem takeLine_failsOnlyWith (s : Settings) (current : Option Section) (text : String) :
    FailsOnlyWith LineError.IsFault (s.takeLine current text) := by
  unfold takeLine
  cases hcontent : contentOf text with
  | nil => exact failsOnlyWith_ok _
  | cons c cs =>
      dsimp only
      split
      · split
        · exact failsOnlyWith_ok _
        · exact failsOnlyWith_error ⟨_, rfl⟩
      · split
        · exact failsOnlyWith_error ⟨_, rfl⟩
        · have hsolid : Text.trimLeft (contentOf text) ≠ [] :=
            Text.trimLeft_trim_ne_nil (by rw [← contentOf, hcontent]; exact List.cons_ne_nil c cs)
          rw [hcontent, ← String.toList_ofList (l := c :: cs)] at hsolid
          exact (s.handle_failsOnlyWith hsolid _).map _

end Settings

end Lines

variable {files : FileSet} {name : String}

namespace Reading

-- The reading ends for the reason, or at a line without the name of a file before that, after no
-- more than these lines, unless there is too little depth for it.
def StopsWithin (r : Reading) (failure : Failure) (lines : List (Position × String)) : Prop :=
  r.IsTooDeep ∨ (r.failure = some .includeWithoutName ∨ r.failure = some failure) ∧
    r.lines.map Line.placed <+: lines

-- The reading stops at a line without the name of a file, within the lines, or else it has all of
-- them and comes to its end.
def Follows (r : Reading) (lines : List (Position × String)) : Prop :=
  r.StopsWithin .includeWithoutName lines ∨ r.failure = none ∧ r.lines.map Line.placed = lines

variable {r : Reading} {failure : Failure} {lines lines' : List (Position × String)}

theorem StopsWithin.exists_failure (h : r.StopsWithin failure lines) :
    ∃ failure, r.failure = some failure := by
  rcases h with hdeep | ⟨hnameless | hfailure, -⟩
  · exact ⟨_, hdeep⟩
  · exact ⟨_, hnameless⟩
  · exact ⟨_, hfailure⟩

theorem StopsWithin.of_nameless (h : r.StopsWithin .includeWithoutName lines) :
    r.StopsWithin failure lines :=
  h.imp_right (And.imp_left fun hnameless => Or.inl (or_self_iff.mp hnameless))

theorem StopsWithin.append (h : r.StopsWithin failure lines) (more : List (Position × String)) :
    r.StopsWithin failure (lines ++ more) :=
  h.imp_right fun ⟨hfailure, hlines⟩ => ⟨hfailure, hlines.trans (List.prefix_append lines more)⟩

theorem StopsWithin.prepend {first : List Line} (h : r.StopsWithin failure lines')
    (hfirst : first.map Line.placed = lines) :
    { r with lines := first ++ r.lines }.StopsWithin failure (lines ++ lines') := by
  refine h.imp_right fun ⟨hfailure, hlines⟩ => ⟨hfailure, ?_⟩
  rw [List.map_append, hfirst]
  exact (List.prefix_append_right_inj lines).mpr hlines

theorem StopsWithin.within (h : r.StopsWithin failure lines) (position : Position) :
    (r.within position).StopsWithin failure lines :=
  h.imp_right fun ⟨hfailure, hlines⟩ => ⟨hfailure, (map_placed_within position r).symm ▸ hlines⟩

theorem Follows.within (h : r.Follows lines) (position : Position) :
    (r.within position).Follows lines :=
  h.imp (·.within position) fun ⟨hfailure, hlines⟩ =>
    ⟨hfailure, (map_placed_within position r).trans hlines⟩

end Reading

section Entries

variable {splice : Position → String → Reading} {last : Nat} {entry : Entry}
  {before after entries : List Entry} {lines lines' : List (Position × String)}

theorem readEntries_follows_cons (h : (entry.read splice name).Follows lines)
    (h' : (readEntries splice name last entries).Follows lines') :
    (readEntries splice name last (entry :: entries)).Follows (lines ++ lines') := by
  rcases h with hstops | ⟨hnone, hlines⟩
  · obtain ⟨failure, hfailure⟩ := hstops.exists_failure
    rw [readEntries_cons_of_failure hfailure]
    exact Or.inl (hstops.append lines')
  · rw [readEntries_cons hnone]
    refine h'.imp (·.prepend hlines) fun ⟨hfailure, hlines'⟩ => ⟨hfailure, ?_⟩
    rw [List.map_append, hlines, hlines']

theorem readEntries_stopsWithin_append {failure : Failure}
    (h : (readEntries splice name last before).Follows lines)
    (h' : (entry.read splice name).StopsWithin failure lines') :
    (readEntries splice name last (before ++ entry :: after)).StopsWithin failure
      (lines ++ lines') := by
  rcases h with hstops | ⟨hnone, hlines⟩
  · obtain ⟨earlier, hfailure⟩ := hstops.exists_failure
    rw [readEntries_append_of_failure hfailure]
    exact hstops.of_nameless.append lines'
  · obtain ⟨stopped, hfailure⟩ := h'.exists_failure
    rw [readEntries_append hnone, readEntries_cons_of_failure hfailure]
    exact h'.prepend hlines

end Entries

-- What has an expansion is followed, even if some of its lines name no file.
theorem Expands.follows {entries : List Entry} {lines : List (Position × String)}
    (h : Expands files name entries lines) (depth last : Nat) :
    (readEntries (readIncluded files depth) name last entries).Follows lines := by
  induction h generalizing depth last with
  | nil => exact Or.inr ⟨rfl, rfl⟩
  | @line name number text entries lines htext _ ih =>
      have hread : (Entry.line number text).read (readIncluded files depth) name =
          .ofLine ⟨name, number⟩ text := by
        rw [Entry.read, if_neg (isInclude_iff.not.mpr (not_exists.mpr htext))]
      have hline : ((Entry.line number text).read (readIncluded files depth) name).Follows
          [(⟨name, number⟩, String.ofList text)] := by
        rw [hread]
        exact Or.inr ⟨rfl, rfl⟩
      exact readEntries_follows_cons hline (ih depth last)
  | @unfinished name number text entries lines _ ih =>
      have hline : ((Entry.unfinished number text).read (readIncluded files depth) name).Follows
          [(⟨name, number⟩, String.ofList text)] := Or.inr ⟨rfl, rfl⟩
      exact readEntries_follows_cons hline (ih depth last)
  | @included name target number text file inner entries innerLines lines htext hfile hinner _ _
      ihinner ih =>
      refine readEntries_follows_cons ?_ (ih depth last)
      by_cases hne : target = ""
      · rw [read_of_nameless (hne ▸ htext)]
        exact Or.inl (Or.inr ⟨Or.inl rfl, List.nil_prefix⟩)
      · rw [read_of_isIncludeOf htext hne]
        cases depth with
        | zero => exact Or.inl (Or.inl rfl)
        | succ depth =>
            rw [readIncluded, readDown_entries hfile hinner]
            exact (ihinner depth _).within _

theorem Stops.stopsWithin {number : Nat} {text : List Char} {failure : Failure}
    (h : Stops files name number text failure) (depth : Nat) :
    ((Entry.line number text).read (readIncluded files depth) name).StopsWithin failure [] := by
  cases h with
  | nameless htext =>
      rw [read_of_nameless htext]
      exact Or.inr ⟨Or.inl rfl, List.nil_prefix⟩
  | unopened htext hne hfile hfailure =>
      rw [read_of_isIncludeOf htext hne, readIncluded]
      cases depth with
      | zero => exact Or.inl rfl
      | succ depth =>
          rw [readDown, hfile, ← hfailure]
          exact Or.inr ⟨Or.inr rfl, List.nil_prefix⟩

-- A reader that meets a line at which it cannot go on does not get past it.
theorem Meets.stopsWithin {lines : List (Position × String)} {last : String} {number : Nat}
    {text : List Char} {failure : Failure}
    (h : Meets files name lines last (.line number text))
    (hstops : Stops files last number text failure) (depth : Nat) (includer : Option Position) :
    (readDown files depth includer name).StopsWithin failure lines := by
  generalize hentry : Entry.line number text = entry at h
  induction h generalizing depth includer with
  | @here name file before after entry lines hfile hentries hbefore =>
      cases depth with
      | zero => exact Or.inl rfl
      | succ depth =>
          subst hentry
          rw [readDown_entries hfile hentries, ← List.append_nil lines]
          exact readEntries_stopsWithin_append (hbefore.follows depth _) (hstops.stopsWithin depth)
  | inside hfile hentries hbefore hinclude hne _ ih =>
      cases depth with
      | zero => exact Or.inl rfl
      | succ depth =>
          rw [readDown_entries hfile hentries]
          refine readEntries_stopsWithin_append (hbefore.follows depth _) ?_
          rw [read_of_isIncludeOf hinclude hne]
          exact (ih hstops depth _ hentry).within _

-- A reader of the file comes to a line that includes a file without its name, after lines that the
-- settings have taken up.
def MeetsNameless (files : FileSet) (name : String) (s : Settings) : Prop :=
  ∃ lines last number text s' current, Meets files name lines last (.line number text) ∧
    IsIncludeOf text "" ∧ s.takeAll none lines = .ok (s', current)

-- No file can have the name, or a reader of the file comes to a line that includes a file by a name
-- that no file can have, after lines that the settings have taken up.
def MeetsMalformed (files : FileSet) (name : String) (s : Settings) : Prop :=
  files.opened name = .error .malformed ∨
    ∃ lines last number text target s' current, Meets files name lines last (.line number text) ∧
      IsIncludeOf text target ∧ target ≠ "" ∧
        files.opened (nameBeside last target) = .error .malformed ∧
          s.takeAll none lines = .ok (s', current)

-- As no file includes itself, there is enough depth for all of them.
theorem not_isTooDeep_of_acyclic (hfiles : AreText files)
    (hacyclic : ∀ other, Reaches files name other → ¬IncludesItself files other) :
    ¬(read files name).IsTooDeep := by
  intro hdeep
  obtain ⟨first, again, hreaches, hcircle, hsame⟩ := circles_of_isTooDeep hfiles hdeep (by omega)
  exact hacyclic first (hreaches.lift id fun _ _ => Opens.includes)
    ⟨again, hcircle.lift id fun _ _ => Opens.includes, hsame⟩

-- What stops the reader ends the reading of a configuration, once all lines before it are taken up.
theorem takeReading_of_stopsWithin {s : Settings} {failure : Failure}
    {lines : List (Position × String)} {taken : Settings × Option Section}
    (hdepth : ¬(read files name).IsTooDeep) (hstops : (read files name).StopsWithin failure lines)
    (hall : { s with tables := .empty }.takeAll none lines = .ok taken) :
    (s.takeReading (read files name)).2 =
      (read files name).failure.map (Settings.failed (read files name).stop) := by
  obtain ⟨-, rest, hlines⟩ := hstops.resolve_left hdepth
  rw [← hlines, Settings.takeAll_append] at hall
  obtain ⟨⟨next, opened⟩, hnext, -⟩ := bind_eq_ok.mp hall
  rcases s.takeReading_cases (read files name) with ⟨-, -, -, hends⟩ |
    ⟨before, line, after, t, opened', error, hsplit, hbefore, herror, -⟩
  · exact hends
  · rw [hsplit, List.map_append, List.map_cons] at hnext
    obtain ⟨taken, htaken⟩ := Settings.exists_takeLine_of_takeAll hnext hbefore
    cases herror.symm.trans htaken

theorem takeReading_of_meetsNameless {s : Settings} (hdepth : ¬(read files name).IsTooDeep)
    (h : MeetsNameless files name { s with tables := .empty }) :
    (s.takeReading (read files name)).2 = some .includeWithoutName := by
  obtain ⟨lines, last, number, text, s', current, hmeets, htext, hall⟩ := h
  have hstops := hmeets.stopsWithin (.nameless htext) (3 * files.count + 1) none
  have hfailure : (read files name).failure = some .includeWithoutName :=
    or_self_iff.mp (hstops.resolve_left hdepth).1
  rw [takeReading_of_stopsWithin hdepth hstops hall, hfailure]
  rfl

section Failures

variable {s : Settings} {taken : Settings × Option Section}

theorem meetsNameless_of_failure (hfiles : AreText files)
    (hall : s.takeAll none ((read files name).lines.map Line.placed) = .ok taken)
    (h : (read files name).failure = some .includeWithoutName) : MeetsNameless files name s := by
  rcases readDown_meets_failure hfiles h (by simp) with ⟨error, -, hunopened⟩ |
    ⟨last, number, text, hmeets, hstops⟩
  · cases error <;> cases hunopened
  · cases hstops with
    | nameless htext => exact ⟨_, last, number, text, taken.1, taken.2, hmeets, htext, hall⟩
    | @unopened target error _ _ _ _ hunopened => cases error <;> cases hunopened

theorem meetsMalformed_of_failure (hfiles : AreText files)
    (hall : s.takeAll none ((read files name).lines.map Line.placed) = .ok taken)
    (h : (read files name).failure = some .malformedName) : MeetsMalformed files name s := by
  rcases readDown_meets_failure hfiles h (by simp) with ⟨error, hfile, hunopened⟩ |
    ⟨last, number, text, hmeets, hstops⟩
  · obtain rfl := OpenError.eq_malformed_of_failure hunopened
    exact Or.inl hfile
  · cases hstops with
    | @unopened target error _ htext hne hfile hunopened =>
        obtain rfl := OpenError.eq_malformed_of_failure hunopened
        exact Or.inr ⟨_, last, number, text, target, taken.1, taken.2, hmeets, htext, hne, hfile,
          hall⟩

end Failures

theorem takeReading_of_meetsMalformed (hfiles : AreText files) {s : Settings}
    (hdepth : ¬(read files name).IsTooDeep)
    (hnameless : ¬MeetsNameless files name { s with tables := .empty })
    (h : MeetsMalformed files name { s with tables := .empty }) :
    (s.takeReading (read files name)).2 = some .malformedName := by
  rcases h with hfile | ⟨lines, last, number, text, target, s', current, hmeets, htext, hne, hfile,
    hall⟩
  · rw [read, readDown, hfile]
    rfl
  · have hstops := hmeets.stopsWithin (.unopened htext hne hfile rfl) (3 * files.count + 1) none
    obtain ⟨hfailure, rest, hlines⟩ := hstops.resolve_left hdepth
    have hends := takeReading_of_stopsWithin hdepth hstops hall
    rcases hfailure with hfailure | hfailure
    · rw [← hlines, Settings.takeAll_append] at hall
      obtain ⟨taken, htaken, -⟩ := bind_eq_ok.mp hall
      exact absurd (meetsNameless_of_failure hfiles htaken hfailure) hnameless
    · rw [hends, read, hfailure]
      rfl

-- A configuration is read to its end, or there is a fault in it, or it comes to a line that
-- includes a file without its name, or to a name that no file can have. Nothing else ends the
-- reading.
theorem read_fault_or_misnamed (hfiles : AreText files)
    (hacyclic : ∀ other, Reaches files name other → ¬IncludesItself files other) (s : Settings) :
    (MeetsNameless files name { s with tables := .empty } ∧
      (s.read files name true).2 = some .includeWithoutName) ∨
    (¬MeetsNameless files name { s with tables := .empty } ∧
      MeetsMalformed files name { s with tables := .empty } ∧
        (s.read files name true).2 = some .malformedName) ∨
    (¬MeetsNameless files name { s with tables := .empty } ∧
      ¬MeetsMalformed files name { s with tables := .empty } ∧
        ((s.read files name true).2 = none ∨
          ∃ e : Located Fault, (s.read files name true).2 = some (.fault e))) := by
  have hdepth := not_isTooDeep_of_acyclic hfiles hacyclic
  rw [s.read_eq_takeReading files name]
  by_cases hnameless : MeetsNameless files name { s with tables := .empty }
  · exact Or.inl ⟨hnameless, takeReading_of_meetsNameless hdepth hnameless⟩
  by_cases hmalformed : MeetsMalformed files name { s with tables := .empty }
  · exact Or.inr (Or.inl ⟨hnameless, hmalformed,
      takeReading_of_meetsMalformed hfiles hdepth hnameless hmalformed⟩)
  refine Or.inr (Or.inr ⟨hnameless, hmalformed, ?_⟩)
  rcases s.takeReading_cases (read files name) with ⟨s', current, hall, hends⟩ |
    ⟨before, line, after, s', current, error, -, -, herror, hrefused⟩
  · rcases readDown_failure_cases hfiles (3 * files.count + 1) none name with
      hnone | ⟨fault, hmissing⟩ | hfailure | hfailure | hdeep
    · left
      rw [hends, read, hnone]
      rfl
    · right
      rw [hends, read, hmissing]
      exact ⟨_, rfl⟩
    · exact absurd (meetsNameless_of_failure hfiles hall hfailure) hnameless
    · exact absurd (meetsMalformed_of_failure hfiles hall hfailure) hmalformed
    · exact absurd hdeep hdepth
  · right
    obtain ⟨fault, rfl⟩ := s'.takeLine_failsOnlyWith current line.text error herror
    rw [hrefused]
    exact ⟨_, rfl⟩

-- A line of two stored ones in an included file is at fault.
theorem read_fault_or_misnamed_beside :
    let files : FileSet := .ofList [
      ("conf/main", .ofLines ["[settings]", "$Include inner", "treat_copula_as_head = true"]),
      ("conf/inner", .ofLines ["debug = true", "debug = \\", "  maybe"])]
    let r := (Settings.initial.read files "conf/main" true).2
    AreText files ∧ (∀ other, Reaches files "conf/main" other → ¬IncludesItself files other) ∧
      r ≠ some .includeWithoutName ∧ r ≠ some .malformedName ∧
        (r = none ∨ ∃ e : Located Fault, r = some (.fault e)) := by
  intro files r
  have hfiles : AreText files := FileSet.areText_ofList (by simp)
  have hother : nameBeside "conf/main" "inner" = "conf/inner" := by decide +kernel
  have hreadable : IsReadable files "conf/main" :=
    isReadable_of_targets FileSet.isLiteral_ofList "inner" hother (by decide)
      ⟨rfl, isText_ofLines _, by decide +kernel⟩ ⟨rfl, isText_ofLines _, by decide +kernel⟩
  have hacyclic := hreadable.acyclic
  have hnameless : r ≠ some .includeWithoutName := by decide +kernel
  have hmalformed : r ≠ some .malformedName := by decide +kernel
  rcases read_fault_or_misnamed hfiles hacyclic Settings.initial with
    ⟨-, hends⟩ | ⟨-, -, hends⟩ | ⟨-, -, hends⟩
  · exact absurd hends hnameless
  · exact absurd hends hmalformed
  · exact ⟨hfiles, hacyclic, hnameless, hmalformed, hends⟩

-- A null character in a name is no fault of the configuration either.
example : (Settings.initial.read (.ofList [("main", .ofLines ["$include a\x00b"])]) "main" true).2 =
    some .malformedName := by
  decide +kernel

-- White space is no name, and so the line is not a fault of the configuration.
theorem read_includeWithoutName :
    let files : FileSet := .ofList [("main", .ofLines ["$include "])]
    AreText files ∧ (∀ other, Reaches files "main" other → ¬IncludesItself files other) ∧
      (Settings.initial.read files "main" true).2 = some .includeWithoutName := by
  intro files
  have hfiles : AreText files := FileSet.areText_ofList (by simp)
  refine ⟨hfiles, fun other _ ⟨last, hincludes, _⟩ => ?_, by decide +kernel⟩
  obtain ⟨next, ⟨number, text, target, ⟨file, entries, hfile, hdivides, hentry⟩, htext, hne, -⟩, -⟩ :=
    Relation.TransGen.head'_iff.mp hincludes
  obtain ⟨i, -, rfl⟩ := FileSet.exists_locate hfile
  obtain rfl : i = ⟨0, Nat.one_pos⟩ := Fin.ext (Nat.lt_one_iff.mp i.isLt)
  have hentries : entriesFrom 0 [] (files.contents ⟨0, Nat.one_pos⟩) =
      [.line 1 "$include \n".toList] := by rfl
  rw [hdivides.eq_entriesFrom, hentries, List.mem_singleton] at hentry
  cases hentry
  have hnameless : IsIncludeOf "$include \n".toList "" :=
    ⟨"$include".toList, "\n".toList, rfl, by decide, by decide⟩
  exact hne (htext.unique hnameless)

end Config

end HeadPercolation
