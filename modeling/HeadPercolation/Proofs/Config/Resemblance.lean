import HeadPercolation.Proofs.Config.Expansion

namespace HeadPercolation.Config

variable {files : FileSet} {name : String}

-- The same is read, in whatever places, and both readings come to the end or neither does.
def Reading.Resembles (r r' : Reading) : Prop :=
  r.lines.map Line.text = r'.lines.map Line.text ∧ (r.failure = none ↔ r'.failure = none)

theorem Reading.map_text_within (position : Position) (r : Reading) :
    (r.within position).lines.map Line.text = r.lines.map Line.text :=
  List.map_map

theorem Reading.Resembles.within {r r' : Reading} (h : r.Resembles r')
    (position position' : Position) : (r.within position).Resembles (r'.within position') :=
  ⟨(map_text_within position r).trans (h.1.trans (map_text_within position' r').symm), h.2⟩

section Entries

variable {splice : Position → String → Reading} {other : String}

theorem Entry.read_resembles
    (h : ∀ position position' target, (splice position (nameBeside name target)).Resembles
      (splice position' (nameBeside other target))) (entry : Entry) :
    (entry.read splice name).Resembles (entry.read splice other) := by
  cases entry with
  | undecodable number => exact ⟨rfl, by simp [read, Reading.failed]⟩
  | unfinished number text => exact ⟨rfl, Iff.rfl⟩
  | line number text =>
      unfold read
      dsimp only
      split
      · split
        · exact (h _ _ _).within _ _
        · exact ⟨rfl, by simp [Reading.failed]⟩
      · exact ⟨rfl, Iff.rfl⟩

theorem readEntries_resembles
    (h : ∀ position position' target, (splice position (nameBeside name target)).Resembles
      (splice position' (nameBeside other target))) (last : Nat) (entries : List Entry) :
    (readEntries splice name last entries).Resembles (readEntries splice other last entries) := by
  induction entries with
  | nil => exact ⟨rfl, Iff.rfl⟩
  | cons entry entries ih =>
      have hentry := Entry.read_resembles h entry
      cases hread : (entry.read splice name).failure with
      | none =>
          rw [readEntries_cons hread, readEntries_cons (hentry.2.mp hread)]
          exact ⟨by simp only [List.map_append, hentry.1, ih.1], ih.2⟩
      | some failure =>
          obtain ⟨failure', hread'⟩ := Option.ne_none_iff_exists'.mp
            (hentry.2.not.mp (by rw [hread]; simp))
          rw [readEntries_cons_of_failure hread, readEntries_cons_of_failure hread']
          exact hentry

end Entries

-- By whatever name a file is opened, and from wherever, the same is read.
theorem readDown_resembles (hcoherent : files.IsCoherent) (depth : Nat)
    (includer includer' : Option Position) {name other : String}
    (h : files.locate name = files.locate other) :
    (readDown files depth includer name).Resembles (readDown files depth includer' other) := by
  induction depth generalizing includer includer' name other with
  | zero => exact ⟨rfl, by simp [readDown, Reading.failed]⟩
  | succ depth ih =>
      cases hname : files.locate name with
      | error error =>
          rw [readDown, readDown, FileSet.opened, FileSet.opened, ← h, hname]
          exact ⟨rfl, by simp [Except.map, Reading.failed]⟩
      | ok i =>
          have hother : files.locate other = .ok i := h.symm.trans hname
          rw [readDown_succ (FileSet.opened_of_locate hname),
            readDown_succ (FileSet.opened_of_locate hother)]
          exact readEntries_resembles
            (fun _ _ target => ih _ _ (hcoherent name other i hname hother target)) _ _

end HeadPercolation.Config
