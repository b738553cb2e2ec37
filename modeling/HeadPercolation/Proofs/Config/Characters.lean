import HeadPercolation.Proofs.Config.Faults

namespace HeadPercolation.Config

-- To evaluate a configuration within a proof, it is best given by the characters of its lines: what
-- follows computes with these alone, where the reader takes strings apart and puts them together.

-- The entries of a file, where the text of continued lines before it is `held`. The lines are given
-- without their newlines.
def entriesOf (number : Nat) (held : List Char) : List (List Char) → List Entry
  | [] => if held.isEmpty then [] else [.unfinished number held]
  | text :: rest =>
    let text := text ++ ['\n']
    if isContinued text then
      entriesOf (number + 1) (held ++ continuedText text) rest
    else
      let text := if held.isEmpty then text else held ++ Text.trimLeft text
      .line (number + 1) text :: entriesOf (number + 1) [] rest

theorem entriesFrom_ofLines (number : Nat) (held : List Char) (texts : List (List Char)) :
    entriesFrom number held (.ofLines (texts.map String.ofList)) = entriesOf number held texts := by
  induction texts generalizing number held with
  | nil => rfl
  | cons text texts ih =>
      have hline : (String.ofList text ++ "\n").toList = text ++ ['\n'] := by
        rw [String.toList_append, String.toList_ofList]
        rfl
      simp only [File.ofLines, List.map_cons, entriesFrom, entriesOf, hline] at ih ⊢
      rw [ih, ih]

-- The texts that an entry of the file `name` yields, if those are known that an included file does.
def Entry.texts? (included : String → Option (List (List Char))) (name : String) :
    Entry → Option (List (List Char))
  | line _ text =>
    if isInclude text then
      (includedName? text).bind fun target => included (nameBeside name target)
    else
      some [text]
  | unfinished _ text => some [text]
  | undecodable _ => none

-- The texts that a file yields with all that it includes, down to a depth.
def expansionDown (sources : String → Option (List (List Char))) :
    Nat → String → Option (List (List Char))
  | 0, _ => none
  | depth + 1, name => do
    let texts ← sources name
    let parts ← (entriesOf 0 [] texts).mapM (Entry.texts? (expansionDown sources depth) name)
    return parts.flatten

-- The reading comes to its end with these texts.
def Reading.Yields (r : Reading) (texts : List (List Char)) : Prop :=
  r.failure = none ∧ r.lines.map Line.text = texts.map String.ofList

section Reading

variable {files : FileSet} {sources included : String → Option (List (List Char))}
  {splice : Position → String → Reading} {name : String} {texts : List (List Char)}

theorem Entry.read_yields
    (hsplice : ∀ position target texts, included target = some texts →
      (splice position target).Yields texts)
    {entry : Entry} (h : entry.texts? included name = some texts) :
    (entry.read splice name).Yields texts := by
  cases entry with
  | undecodable number => cases h
  | unfinished number text =>
      cases h
      exact ⟨rfl, rfl⟩
  | line number text =>
      simp only [texts?] at h
      rw [read]
      split at h
      · rename_i hinclude
        obtain ⟨target, htarget, hincluded⟩ := Option.bind_eq_some_iff.mp h
        obtain ⟨hfailure, hlines⟩ := hsplice ⟨name, number⟩ _ _ hincluded
        rw [if_pos hinclude, htarget]
        exact ⟨hfailure, List.map_map.trans hlines⟩
      · rename_i hplain
        cases h
        rw [if_neg hplain]
        exact ⟨rfl, rfl⟩

theorem readEntries_yields
    (hsplice : ∀ position target texts, included target = some texts →
      (splice position target).Yields texts)
    {entries : List Entry} {parts : List (List (List Char))}
    (h : entries.mapM (Entry.texts? included name) = some parts) (last : Nat) :
    (readEntries splice name last entries).Yields parts.flatten := by
  induction entries generalizing parts with
  | nil =>
      cases h
      exact ⟨rfl, rfl⟩
  | cons entry entries ih =>
      rw [List.mapM_cons] at h
      obtain ⟨first, hfirst, h⟩ := Option.bind_eq_some_iff.mp h
      obtain ⟨rest, hrest, h⟩ := Option.bind_eq_some_iff.mp h
      cases h
      obtain ⟨hentry, htexts⟩ := Entry.read_yields hsplice hfirst
      obtain ⟨hentries, hmore⟩ := ih hrest
      rw [readEntries_cons hentry]
      exact ⟨hentries, by simp only [List.map_append, htexts, hmore, List.flatten_cons]⟩

theorem readDown_yields
    (hsources : ∀ name texts, sources name = some texts →
      files.opened name = .ok (.ofLines (texts.map String.ofList)))
    {depth : Nat} (h : expansionDown sources depth name = some texts)
    (includer : Option Position) : (readDown files depth includer name).Yields texts := by
  induction depth generalizing includer name texts with
  | zero => cases h
  | succ depth ih =>
      obtain ⟨source, hsource, h⟩ := Option.bind_eq_some_iff.mp h
      obtain ⟨parts, hparts, h⟩ := Option.bind_eq_some_iff.mp h
      cases h
      rw [readDown_succ (hsources name source hsource), entriesFrom_ofLines]
      exact readEntries_yields (fun position target texts htexts => ih htexts (some position))
        hparts _

end Reading

-- A line of a table of head rules.
def RuleLine.parseText (text : List Char) : Except LineError RuleLine :=
  match Text.cutAt '=' text with
  | some (before, after) =>
    let other := Text.trim after
    if (Text.words before).length = 1 && !other.isEmpty then
      .ok (.copy (String.ofList (Text.trim before)) (String.ofList other))
    else
      .error (.fault .malformedAlias)
  | none =>
    match Text.firstWord text with
    | none => .error .blankRule
    | some (word, rest) => do
      let category := String.ofList word
      if rest.isEmpty then
        throw (.fault (.noDirection category))
      let directives ← (rest.splitOn '|').mapM (parseDirective category)
      return .rules category directives

theorem RuleLine.parse_ofList (text : List Char) : parse (String.ofList text) = parseText text := by
  rw [parse, String.toList_ofList]
  rfl

namespace Settings

variable {s s' : Settings} {current : Option Section}

-- Takes up a line of a section, without its comment and the white space around it.
def handleText (s : Settings) (text : List Char) : Section → Except LineError Settings
  | .settings => s.assign (String.ofList text)
  | .words list =>
    let words := Text.words text
    let words := if list.isVocabulary then words.map Text.lower else words
    .ok { s with tables := s.tables.addWords list (words.map String.ofList) }
  | .headRules => do
    let (category, ds) ← (← RuleLine.parseText text).entry s.tables.headRules.get?
    return { s with tables.headRules := s.tables.headRules.insert category ds }
  | .semanticHeadRules => do
    let (category, ds) ← (← RuleLine.parseText text).entry s.semanticRules?
    return { s with tables.semanticHeadRules := s.tables.semanticHeadRules.insert category ds }

theorem handle_ofList (s : Settings) (text : List Char) (opened : Section) :
    s.handle (String.ofList text) opened = s.handleText text opened := by
  cases opened with
  | settings => rfl
  | words list =>
      have hlowered : ((Text.words text).map String.ofList).map Text.lowered =
          ((Text.words text).map Text.lower).map String.ofList := by
        simp [Text.lowered, Function.comp_def]
      simp only [handle, handleText, addWords, Text.wordsOf, String.toList_ofList, hlowered]
      split <;> rfl
  | headRules =>
      simp only [handle, handleText, addRuleLine, RuleLine.parse_ofList, bind_assoc]
      rfl
  | semanticHeadRules =>
      simp only [handle, handleText, addRuleLine, RuleLine.parse_ofList, bind_assoc]
      rfl

-- Takes up a line within the current section, which it may change.
def takeText (s : Settings) (current : Option Section) (text : List Char) :
    Except LineError (Settings × Option Section) :=
  match Text.trim (text.takeWhile (· != '#')) with
  | [] => .ok (s, current)
  | content =>
    match sectionName? content with
    | some name =>
      match Section.ofName? name with
      | some opened => .ok (s, some opened)
      | none => .error (.fault (.unknownSection name))
    | none =>
      match current with
      | none => .error (.fault (.noSection (String.ofList content)))
      | some current => (s.handleText content current).map fun s => (s, some current)

theorem takeLine_ofList (s : Settings) (current : Option Section) (text : List Char) :
    s.takeLine current (String.ofList text) = s.takeText current text := by
  rw [takeLine, contentOf, String.toList_ofList]
  simp only [handle_ofList]
  rfl

-- Takes up lines as long as none is refused.
def takeTexts (s : Settings) (current : Option Section) (texts : List (List Char)) :
    Except LineError (Settings × Option Section) :=
  texts.foldlM (fun (s, current) text => s.takeText current text) (s, current)

theorem takeAll_of_texts {lines : List (Position × String)} {texts : List (List Char)}
    (h : lines.map Prod.snd = texts.map String.ofList) :
    s.takeAll current lines = s.takeTexts current texts := by
  rw [takeAll_eq_foldlM, h, List.foldlM_map]
  simp only [takeLine_ofList]
  rfl

-- A configuration is read to its end if its texts are taken up.
theorem reread_of_yields {files : FileSet} {name : String} {texts : List (List Char)}
    (hread : (Config.read files name).Yields texts)
    (htexts : { s with tables := .empty }.takeTexts none texts = .ok (s', current)) :
    s.reread files name = ({ s' with loaded := true }, none) := by
  obtain ⟨hfailure, hlines⟩ := hread
  have hall : { s with tables := .empty }.takeAll none
      ((Config.read files name).lines.map Line.placed) = .ok (s', current) := by
    rw [← htexts]
    exact takeAll_of_texts (List.map_map.trans hlines)
  unfold reread
  rcases takeLines_cases { s with tables := .empty } none (Config.read files name).lines with
    ⟨taken, last, htaken, hok⟩ |
    ⟨before, line, after, taken, last, error, hsplit, hbefore, herror, -⟩
  · cases htaken.symm.trans hall
    simp only [hok, hfailure]
  · rw [hsplit, List.map_append, List.map_cons] at hall
    obtain ⟨accepted, haccepted⟩ := exists_takeLine_of_takeAll hall hbefore
    cases herror.symm.trans haccepted

end Settings

end HeadPercolation.Config
