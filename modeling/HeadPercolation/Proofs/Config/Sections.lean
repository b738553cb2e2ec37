import HeadPercolation.Proofs.Config.Faults
import Mathlib.Data.List.Induction

namespace HeadPercolation.Config.Settings

-- The name of the section that a line opens.
def headingOf? (text : String) : Option String :=
  sectionName? (contentOf text)

-- The name of the section that is opened last in the lines.
def lastHeading? (lines : List (Position × String)) : Option String :=
  (lines.filterMap fun line => headingOf? line.2).getLast?

variable {s s' : Settings} {current next : Option Section} {text : String}
  {lines : List (Position × String)}

-- A line that is taken up opens a section, or else it is blank or one of the current section.
theorem takeLine_cases (h : s.takeLine current text = .ok (s', next)) :
    (∃ name opened, headingOf? text = some name ∧ Section.ofName? name = some opened ∧ s' = s ∧
      next = some opened) ∨
    (headingOf? text = none ∧ next = current ∧
      (contentOf text = [] ∧ s' = s ∨
        ∃ opened, current = some opened ∧
          s.handle (String.ofList (contentOf text)) opened = .ok s')) := by
  unfold takeLine at h
  split at h
  · rename_i hblank
    cases h
    exact Or.inr ⟨by rw [headingOf?, hblank]; rfl, rfl, Or.inl ⟨hblank, rfl⟩⟩
  · split at h
    · rename_i name hname
      split at h
      · rename_i opened hopened
        cases h
        exact Or.inl ⟨name, opened, hname, hopened, rfl, rfl⟩
      · cases h
    · rename_i hname
      dsimp only at h
      split at h
      · cases h
      · rename_i opened
        obtain ⟨taken, htaken, heq⟩ := map_eq_ok.mp h
        cases heq
        exact Or.inr ⟨hname, rfl, Or.inr ⟨opened, rfl, htaken⟩⟩

theorem lastHeading?_snoc (lines : List (Position × String)) (line : Position × String) :
    lastHeading? (lines ++ [line]) = (headingOf? line.2).or (lastHeading? lines) := by
  rw [lastHeading?, List.filterMap_append, List.getLast?_append, lastHeading?]
  cases h : headingOf? line.2 <;> simp [h]

-- After some lines, the current section is the one that was opened last.
theorem takeAll_current (h : s.takeAll current lines = .ok (s', next)) :
    next = (lastHeading? lines).elim current Section.ofName? := by
  induction lines using List.reverseRec generalizing s' next with
  | nil =>
      cases h
      rfl
  | append_singleton lines line ih =>
      rw [takeAll_append] at h
      obtain ⟨⟨t, opened⟩, hlines, h⟩ := bind_eq_ok.mp h
      obtain ⟨⟨t', opened'⟩, hline, h⟩ := bind_eq_ok.mp h
      cases h
      rw [lastHeading?_snoc]
      rcases takeLine_cases hline with ⟨name, opened, hheading, hname, -, rfl⟩ | ⟨hheading, rfl, -⟩
      · rw [hheading]
        exact hname.symm
      · rw [hheading]
        exact ih hlines

end HeadPercolation.Config.Settings
