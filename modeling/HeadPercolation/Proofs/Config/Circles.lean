import HeadPercolation.Proofs.Config.Depth
import Mathlib.Data.List.Chain
import Mathlib.Data.List.FinRange
import Mathlib.Data.List.Perm.Subperm

namespace HeadPercolation.Config

-- A reader of the file `name` gets past the entries: each file that they include is named and
-- there, and the reader of that file gets past all of its entries.
inductive Passes (files : FileSet) : String → List Entry → Prop where
  | nil {name : String} : Passes files name []
  | line {name : String} {number : Nat} {text : List Char} {entries : List Entry}
      (htext : ∀ target, ¬IsIncludeOf text target) (hrest : Passes files name entries) :
      Passes files name (.line number text :: entries)
  | unfinished {name : String} {number : Nat} {text : List Char} {entries : List Entry}
      (hrest : Passes files name entries) : Passes files name (.unfinished number text :: entries)
  | included {name target : String} {number : Nat} {text : List Char} {file : File}
      {inner entries : List Entry} (htext : IsIncludeOf text target) (hne : target ≠ "")
      (hfile : files.opened (nameBeside name target) = .ok file) (hinner : Divides 0 file inner)
      (hpasses : Passes files (nameBeside name target) inner)
      (hrest : Passes files name entries) : Passes files name (.line number text :: entries)

-- A reader of the file `name` comes to a line that includes the other file, and so it opens that.
inductive Opens (files : FileSet) (name : String) : String → Prop where
  | intro {target : String} {file : File} {before after : List Entry} {number : Nat}
      {text : List Char} (hfile : files.opened name = .ok file)
      (hentries : Divides 0 file (before ++ .line number text :: after))
      (hbefore : Passes files name before) (htext : IsIncludeOf text target) (hne : target ≠ "") :
      Opens files name (nameBeside name target)

-- A file is opened while it is read itself, so that its reader stands in another of its readers.
-- The name by which it is opened can be another one the second time.
def Circles (files : FileSet) (name : String) : Prop :=
  ∃ first again, Relation.ReflTransGen (Opens files) name first ∧
    Relation.TransGen (Opens files) first again ∧ files.locate again = files.locate first

variable {files : FileSet} {name other : String}

theorem Opens.includes (h : Opens files name other) : Includes files name other := by
  obtain ⟨hfile, hentries, -, htext, hne⟩ := h
  exact ⟨_, _, _, ⟨_, _, hfile, hentries, List.mem_append_right _ List.mem_cons_self⟩, htext, hne,
    rfl⟩

theorem Opens.exists_locate (h : Opens files name other) : ∃ i, files.locate name = .ok i := by
  obtain ⟨hfile, -⟩ := h
  obtain ⟨i, hi, -⟩ := FileSet.exists_locate hfile
  exact ⟨i, hi⟩

section Coherent

variable {again : String} {i : Fin files.count}

-- What is passed in a file is passed under each of its names.
theorem Passes.of_locate (hcoherent : files.IsCoherent) {entries : List Entry}
    (h : Passes files name entries) (hname : files.locate name = .ok i)
    (hagain : files.locate again = .ok i) : Passes files again entries := by
  induction h generalizing again i with
  | nil => exact .nil
  | line htext _ ih => exact .line htext (ih hname hagain)
  | unfinished _ ih => exact .unfinished (ih hname hagain)
  | @included name target number text file inner entries htext hne hfile hinner _ _ ihinner ih =>
      have htarget := hcoherent name again i hname hagain target
      obtain ⟨j, hj, -⟩ := FileSet.exists_locate hfile
      rw [FileSet.opened, htarget] at hfile
      exact .included htext hne hfile hinner (ihinner hj (htarget ▸ hj)) (ih hname hagain)

theorem Opens.exists_of_locate (hcoherent : files.IsCoherent) (h : Opens files name other)
    (hagain : files.locate again = files.locate name) :
    ∃ target, Opens files again target ∧ files.locate target = files.locate other := by
  obtain ⟨i, hname⟩ := h.exists_locate
  obtain ⟨hfile, hentries, hbefore, htext, hne⟩ := h
  rw [FileSet.opened, ← hagain] at hfile
  rw [hname] at hagain
  exact ⟨_, .intro hfile hentries (hbefore.of_locate hcoherent hname hagain) htext hne,
    hcoherent _ _ _ hagain hname _⟩

-- In a circle each file opens one that is in the circle too. If it is the first one itself, the
-- next one is opened again when the circle is closed.
theorem Circles.exists_opens (hcoherent : files.IsCoherent) (h : Circles files name) :
    ∃ other, Opens files name other ∧ Circles files other := by
  obtain ⟨first, again, hreaches, hcircle, hagain⟩ := h
  rcases hreaches.cases_head with rfl | ⟨other, hopens, hrest⟩
  · obtain ⟨other, hopens, hrest⟩ := Relation.TransGen.head'_iff.mp hcircle
    obtain ⟨target, hnext, htarget⟩ := hopens.exists_of_locate hcoherent hagain
    exact ⟨other, hopens, other, target, .refl, .tail' hrest hnext, htarget⟩
  · exact ⟨other, hopens, first, again, hrest, hcircle, hagain⟩

end Coherent

-- Nothing stands in the way of the reading but the depth.
def Reading.IsUnhindered (r : Reading) : Prop :=
  r.failure = none ∨ r.IsTooDeep

theorem readEntries_isUnhindered {splice : Position → String → Reading} {last : Nat}
    {entry : Entry} {entries : List Entry} (h : (entry.read splice name).IsUnhindered)
    (h' : (readEntries splice name last entries).IsUnhindered) :
    (readEntries splice name last (entry :: entries)).IsUnhindered := by
  rcases h with hnone | hdeep
  · rw [readEntries_cons hnone]
    exact h'
  · rw [readEntries_cons_of_failure hdeep]
    exact Or.inr hdeep

theorem Passes.isUnhindered {entries : List Entry} (h : Passes files name entries)
    (depth last : Nat) :
    (readEntries (readIncluded files depth) name last entries).IsUnhindered := by
  induction h generalizing depth last with
  | nil => exact Or.inl rfl
  | line htext _ ih =>
      refine readEntries_isUnhindered ?_ (ih depth last)
      rw [Entry.read, if_neg (isInclude_iff.not.mpr (not_exists.mpr htext))]
      exact Or.inl rfl
  | unfinished _ ih => exact readEntries_isUnhindered (Or.inl rfl) (ih depth last)
  | included htext hne hfile hinner _ _ ihinner ih =>
      refine readEntries_isUnhindered ?_ (ih depth last)
      rw [read_of_isIncludeOf htext hne]
      cases depth with
      | zero => exact Or.inr rfl
      | succ depth =>
          rw [readIncluded, readDown_entries hfile hinner]
          exact ihinner depth _

theorem Circles.isTooDeep (hcoherent : files.IsCoherent) (h : Circles files name) (depth : Nat)
    (includer : Option Position) : (readDown files depth includer name).IsTooDeep := by
  induction depth generalizing name includer with
  | zero => rfl
  | succ depth ih =>
      obtain ⟨other, hopens, hother⟩ := h.exists_opens hcoherent
      obtain ⟨hfile, hentries, hbefore, htext, hne⟩ := hopens
      rcases hbefore.isUnhindered depth _ with hnone | hdeep
      · refine (readDown_of_entry_failure hfile hentries hnone ?_ includer).1
        rw [read_of_isIncludeOf htext hne]
        exact ih hother _
      · rw [readDown_of_before_failure hfile hentries hdeep]
        exact hdeep

theorem passes_of_readEntries {depth : Nat}
    (hpasses : ∀ includer name, (readDown files depth includer name).failure = none →
      ∃ file entries, files.opened name = .ok file ∧ Divides 0 file entries ∧
        Passes files name entries)
    {last : Nat} {entries : List Entry}
    (h : (readEntries (readIncluded files depth) name last entries).failure = none) :
    Passes files name entries := by
  induction entries with
  | nil => exact .nil
  | cons entry entries ih =>
      obtain ⟨hentry, hentries⟩ := List.forall_mem_cons.mp (readEntries_failure_eq_none_iff.mp h)
      have hrest := ih (readEntries_failure_eq_none_iff.mpr hentries)
      cases entry with
      | undecodable number => cases hentry
      | unfinished number text => exact .unfinished hrest
      | line number text =>
          rcases Entry.read_line_cases (readIncluded files depth) name number text with
            ⟨hplain, -⟩ | ⟨-, hread⟩ | ⟨target, htarget, hne, hread⟩
          · exact .line hplain hrest
          · rw [hread] at hentry
            cases hentry
          · rw [hread] at hentry
            obtain ⟨file, inner, hfile, hinner, hinside⟩ := hpasses _ _ hentry
            exact .included htarget hne hfile hinner hinside hrest

-- What is read to its end has been passed.
theorem passes_of_readDown (hfiles : AreText files) (depth : Nat) (includer : Option Position)
    (name : String) (h : (readDown files depth includer name).failure = none) :
    ∃ file entries, files.opened name = .ok file ∧ Divides 0 file entries ∧
      Passes files name entries := by
  induction depth generalizing includer name with
  | zero => cases h
  | succ depth ih =>
      cases hfile : files.opened name with
      | error error =>
          rw [readDown, hfile] at h
          cases h
      | ok file =>
          have hdivides := hfiles.divides hfile
          rw [readDown_entries hfile hdivides] at h
          exact ⟨file, _, rfl, hdivides, passes_of_readEntries ih h⟩

-- If readers stand in each other too deeply, the next one does so with one level less.
theorem exists_opens_of_isTooDeep (hfiles : AreText files) {depth : Nat}
    {includer : Option Position} (h : (readDown files (depth + 1) includer name).IsTooDeep) :
    ∃ other position, Opens files name other ∧
      (readDown files depth (some position) other).IsTooDeep := by
  cases fails_of_readDown hfiles h with
  | @unopened error _ _ hfailure => cases error <;> cases hfailure
  | included hfile hentries hbefore htext hne hinner =>
      have hpasses := passes_of_readEntries (passes_of_readDown hfiles depth) hbefore
      exact ⟨_, _, .intro hfile hentries hpasses htext hne, hinner⟩

-- Then as many files as there are levels are open, each of them opened by the one before.
theorem exists_isChain_of_isTooDeep (hfiles : AreText files) {depth : Nat}
    {includer : Option Position} (h : (readDown files depth includer name).IsTooDeep) :
    ∃ chain : List String, chain.length = depth ∧ (∀ first ∈ chain.head?, first = name) ∧
      chain.IsChain (Opens files) ∧ ∀ v ∈ chain, ∃ i, files.locate v = .ok i := by
  induction depth generalizing name includer with
  | zero => exact ⟨[], rfl, by simp, .nil, by simp⟩
  | succ depth ih =>
      obtain ⟨other, position, hopens, hdeep⟩ := exists_opens_of_isTooDeep hfiles h
      obtain ⟨chain, hlength, hfirst, hchain, hpresent⟩ := ih hdeep
      refine ⟨name :: chain, by rw [List.length_cons, hlength], by simp, ?_,
        List.forall_mem_cons.mpr ⟨hopens.exists_locate, hpresent⟩⟩
      exact List.isChain_cons.mpr ⟨fun first hmem => hfirst first hmem ▸ hopens, hchain⟩

theorem circles_of_isChain {chain : List String} (hfirst : ∀ first ∈ chain.head?, first = name)
    (hchain : chain.IsChain (Opens files)) (htwice : ¬(chain.map files.locate).Nodup) :
    Circles files name := by
  have hpairs : chain.Pairwise (Relation.TransGen (Opens files)) :=
    List.isChain_iff_pairwise.mp (hchain.imp fun _ _ => .single)
  rw [List.Nodup, List.pairwise_map, List.pairwise_iff_forall_sublist] at htwice
  push Not at htwice
  obtain ⟨first, again, htwo, hsame⟩ := htwice
  have hcircle : Relation.TransGen (Opens files) first again := by
    simpa using hpairs.sublist htwo
  refine ⟨first, again, ?_, hcircle, hsame.symm⟩
  cases chain with
  | nil => cases htwo
  | cons head chain =>
      obtain rfl : head = name := hfirst head rfl
      rcases List.mem_cons.mp (htwo.subset List.mem_cons_self) with rfl | hmem
      · exact .refl
      · exact ((List.pairwise_cons.mp hpairs).1 first hmem).to_reflTransGen

-- There are not as many files as that, so that one of them was opened twice.
theorem circles_of_isTooDeep (hfiles : AreText files) {depth : Nat} {includer : Option Position}
    (h : (readDown files depth includer name).IsTooDeep) (hdepth : files.count < depth) :
    Circles files name := by
  obtain ⟨chain, hlength, hfirst, hchain, hpresent⟩ := exists_isChain_of_isTooDeep hfiles h
  refine circles_of_isChain hfirst hchain fun hnodup => ?_
  have hsubset : chain.map files.locate ⊆ (List.finRange files.count).map .ok := by
    intro place hplace
    obtain ⟨v, hv, rfl⟩ := List.mem_map.mp hplace
    obtain ⟨i, hi⟩ := hpresent v hv
    rw [hi]
    exact List.mem_map_of_mem (List.mem_finRange i)
  have hle := (List.subperm_of_subset hnodup hsubset).length_le
  rw [List.length_map, List.length_map, List.length_finRange] at hle
  omega

-- Without a circle there is no need of more depth than there are files.
theorem readDown_eq_read (hfiles : AreText files) (hnone : ¬Circles files name) {depth : Nat}
    (hdepth : files.count < depth) : readDown files depth none name = read files name := by
  have hsame {shallow : Nat} (hshallow : files.count < shallow) {deep : Nat}
      (hle : shallow ≤ deep) : readDown files deep none name = readDown files shallow none name :=
    (readDown_goesOn hle none name).resolve_right fun ⟨hdeep, _⟩ =>
      hnone (circles_of_isTooDeep hfiles hdeep hshallow)
  rcases Nat.le_total depth (3 * files.count + 1) with hle | hle
  · exact (hsame hdepth hle).symm
  · exact hsame (by omega) hle

end HeadPercolation.Config
