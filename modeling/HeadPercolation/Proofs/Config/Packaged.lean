import HeadPercolation.Config.Packaged.Files
import HeadPercolation.Config.Packaged.Settings
import HeadPercolation.Proofs.Config.Characters
import HeadPercolation.Proofs.Config.History

namespace HeadPercolation.Config.Packaged

section Texts

variable {p : List (List Char) → Prop}

theorem exists_texts_nil (h : p []) : ∃ texts, [] = texts.map String.ofList ∧ p texts :=
  ⟨[], rfl, h⟩

theorem exists_texts_cons {line : String} {lines : List String} {text : List Char}
    (hline : line = String.ofList text)
    (h : ∃ texts, lines = texts.map String.ofList ∧ p (text :: texts)) :
    ∃ texts, line :: lines = texts.map String.ofList ∧ p texts := by
  obtain ⟨texts, rfl, hp⟩ := h
  exact ⟨text :: texts, by rw [List.map_cons, hline], hp⟩

end Texts

-- The lines of the three files, by their names.
def sources (main rules words : List (List Char)) : String → Option (List (List Char))
  | "Main.conf" => some main
  | "HeadRules.conf" => some rules
  | "Vocabulary.conf" => some words
  | _ => none

-- All lines of the three files are taken up, and what they leave is the packaged configuration.
theorem exists_texts :
    ∃ main, mainLines = main.map String.ofList ∧
      ∃ rules, headRuleLines = rules.map String.ofList ∧
        ∃ words, vocabularyLines = words.map String.ofList ∧
          (do
            let texts ← expansionDown (sources main rules words) 10 "Main.conf"
            let (s, _) ← (Settings.initial.takeTexts none texts).toOption
            return { s with loaded := true }) = some settings := by
  dsimp only [mainLines, headRuleLines, vocabularyLines]
  repeat refine exists_texts_cons rfl ?_
  refine exists_texts_nil ?_
  repeat refine exists_texts_cons rfl ?_
  refine exists_texts_nil ?_
  repeat refine exists_texts_cons rfl ?_
  refine exists_texts_nil ?_
  decide +kernel

theorem initial_reread_files : Settings.initial.reread files "Main.conf" = (settings, none) := by
  obtain ⟨main, hmain, rules, hrules, words, hwords, htaken⟩ := exists_texts
  obtain ⟨texts, hexpansion, htaken⟩ := Option.bind_eq_some_iff.mp htaken
  obtain ⟨⟨s, current⟩, htexts, hsettings⟩ := Option.bind_eq_some_iff.mp htaken
  have hsources (name : String) (texts : List (List Char))
      (h : sources main rules words name = some texts) :
      files.opened name = .ok (.ofLines (texts.map String.ofList)) := by
    unfold sources at h
    split at h <;> cases h
    · rw [← hmain]
      rfl
    · rw [← hrules]
      rfl
    · rw [← hwords]
      rfl
  have hread : (Config.read files "Main.conf").Yields texts :=
    readDown_yields hsources hexpansion none
  have hreread := Settings.reread_of_yields (s := .initial) hread (toOption_eq_some.mp htexts)
  exact hreread.trans (congrArg (·, none) (Option.some.inj hsettings))

-- To read the packaged files is to configure what a finder has if nothing else is read, whatever
-- was read before.
theorem read_files (s : Settings) :
    s.read files "Main.conf" true = ({ settings with debug := s.debug }, none) := by
  rw [Settings.read, Bool.not_true, Bool.and_false, if_neg Bool.false_ne_true, s.reread_eq,
    initial_reread_files]
  simp [Settings.replaced, settings]

end HeadPercolation.Config.Packaged
