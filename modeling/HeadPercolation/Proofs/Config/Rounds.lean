import HeadPercolation.Proofs.Config.Acceptance
import HeadPercolation.Proofs.Config.Circles
import HeadPercolation.Proofs.Config.Resemblance
import Mathlib.Data.Finset.Card
import Mathlib.Data.List.Iterate

namespace HeadPercolation.Config

section Iterate

variable {α β : Type} {next : α → α} {a : α}

theorem flatMap_iterate_add (next : α → α) (yielded : α → List β) (a : α) (m n : Nat) :
    (List.iterate next a (m + n)).flatMap yielded =
      (List.iterate next a m).flatMap yielded ++
        (List.iterate next (next^[m] a) n).flatMap yielded := by
  rw [List.iterate_add, List.flatMap_append]

-- What comes back to its start goes round.
theorem flatMap_iterate_mul {m : Nat} (h : next^[m] a = a) (yielded : α → List β) (count : Nat) :
    (List.iterate next a (count * m)).flatMap yielded =
      (List.replicate count ((List.iterate next a m).flatMap yielded)).flatten := by
  induction count with
  | zero => simp
  | succ count ih =>
      rw [Nat.succ_mul, Nat.add_comm, flatMap_iterate_add, h, ih, List.replicate_succ,
        List.flatten_cons]

-- Among few values one comes twice, and soon.
theorem exists_iterate_eq {n : Nat} {key : α → Fin n} (hkey : Function.Injective key)
    (next : α → α) (a : α) : ∃ i j, i < j ∧ j ≤ n ∧ next^[j] a = next^[i] a := by
  have hcard : (Finset.univ : Finset (Fin n)).card < (Finset.range (n + 1)).card := by
    rw [Finset.card_univ, Fintype.card_fin, Finset.card_range]
    exact Nat.lt_succ_self n
  obtain ⟨i, hi, j, hj, hne, hsame⟩ := Finset.exists_ne_map_eq_of_card_lt_of_maps_to
    (f := fun i => key (next^[i] a)) hcard fun i _ => Finset.mem_univ _
  rw [Finset.mem_range, Nat.lt_succ_iff] at hi hj
  rcases Nat.lt_or_gt_of_ne hne with hlt | hlt
  · exact ⟨i, j, hlt, hj, hkey hsame.symm⟩
  · exact ⟨j, i, hlt, hi, hkey hsame⟩

end Iterate

variable {files : FileSet} {name : String}

-- The texts that are read, down to a depth.
def textsDown (files : FileSet) (depth : Nat) (name : String) : List String :=
  (readDown files depth none name).lines.map Line.text

-- In a circle each file comes to one that is in the circle too, and in no depth does its reader get
-- past that.
theorem Circles.exists_next (hfiles : AreText files) (hcoherent : files.IsCoherent)
    (h : Circles files name) :
    ∃ other texts, Circles files other ∧ ∀ depth,
      textsDown files (depth + 1) name <+: texts ++ textsDown files depth other ∧
        (files.count < depth →
          textsDown files (depth + 1) name = texts ++ textsDown files depth other) := by
  have hdeep : (readDown files (files.count + 2) none name).IsTooDeep :=
    h.isTooDeep hcoherent _ none
  cases fails_of_readDown hfiles hdeep with
  | @unopened error _ _ hfailure => cases error <;> cases hfailure
  | @included file before after number text target _ hfile hentries hbefore htext hne hinner =>
      have hother : Circles files (nameBeside name target) :=
        circles_of_isTooDeep hfiles hinner (Nat.lt_succ_self _)
      let reader (depth : Nat) := readEntries (readIncluded files depth) name file.length before
      let passed := (reader (files.count + 1)).lines.map Line.text
      have hpast {depth : Nat} (hsame : reader depth = reader (files.count + 1)) :
          textsDown files (depth + 1) name =
            passed ++ textsDown files depth (nameBeside name target) := by
        have hread := read_of_isIncludeOf htext hne (readIncluded files depth) name number
        have hnone : (reader depth).failure = none := hsame ▸ hbefore
        obtain ⟨-, hlines⟩ := readDown_of_entry_failure hfile hentries hnone
          (by rw [hread]; exact hother.isTooDeep hcoherent depth _) none
        rw [textsDown, hlines, hread, List.map_append, Reading.map_text_within, readIncluded,
          (readDown_resembles hcoherent depth _ none rfl).1]
        exact congrArg (fun r : Reading => r.lines.map Line.text ++ _) hsame
      refine ⟨nameBeside name target, passed, hother, fun depth => ?_⟩
      rcases Nat.le_total depth (files.count + 1) with hle | hle
      · have hgoes : (reader depth).GoesOn (reader (files.count + 1)) :=
          readEntries_goesOn (fun position target => readDown_goesOn hle _ target) _ _ _
        rcases hgoes with hsame | ⟨hshallow, hlines⟩
        · exact ⟨(hpast hsame.symm) ▸ List.prefix_rfl, fun _ => hpast hsame.symm⟩
        · refine ⟨?_, fun hdepth => ?_⟩
          · rw [textsDown, readDown_of_before_failure hfile hentries hshallow]
            exact (hlines.map _).trans (List.prefix_append _ _)
          · obtain rfl : depth = files.count + 1 := by omega
            exact hpast rfl
      · have hgoes : (reader (files.count + 1)).GoesOn (reader depth) :=
          readEntries_goesOn (fun position target => readDown_goesOn hle _ target) _ _ _
        rcases hgoes with hsame | ⟨hdeep, -⟩
        · exact ⟨(hpast hsame) ▸ List.prefix_rfl, fun _ => hpast hsame⟩
        · cases hbefore.symm.trans hdeep

-- A file from which a reader comes to a circle, if it opens it by one of its names.
structure Circling (files : FileSet) where
  index : Fin files.count
  circles : ∃ name, files.locate name = .ok index ∧ Circles files name

theorem Circling.index_injective : Function.Injective fun a : Circling files => a.index := by
  rintro ⟨i, hi⟩ ⟨j, hj⟩ rfl
  rfl

noncomputable def Circling.someName (a : Circling files) : String :=
  a.circles.choose

theorem Circling.locate_someName (a : Circling files) : files.locate a.someName = .ok a.index :=
  a.circles.choose_spec.1

theorem Circling.someName_circles (a : Circling files) : Circles files a.someName :=
  a.circles.choose_spec.2

theorem Circles.exists_locate (hcoherent : files.IsCoherent) (h : Circles files name) :
    ∃ i, files.locate name = .ok i := by
  obtain ⟨other, hopens, -⟩ := h.exists_opens hcoherent
  exact hopens.exists_locate

-- How readers go on from each of these files: the texts that are read before the next of them is
-- opened, all of them where there is depth enough.
structure IsWalk (files : FileSet) (next : Circling files → Circling files)
    (yielded : Circling files → List String) : Prop where
  prefix_yielded : ∀ a depth,
    textsDown files (depth + 1) a.someName <+: yielded a ++ textsDown files depth (next a).someName
  eq_yielded : ∀ a depth, files.count < depth →
    textsDown files (depth + 1) a.someName = yielded a ++ textsDown files depth (next a).someName

theorem exists_isWalk (hfiles : AreText files) (hcoherent : files.IsCoherent) :
    ∃ next yielded, IsWalk files next yielded := by
  have hnext (a : Circling files) : ∃ (b : Circling files) (texts : List String), ∀ depth,
      textsDown files (depth + 1) a.someName <+: texts ++ textsDown files depth b.someName ∧
        (files.count < depth →
          textsDown files (depth + 1) a.someName = texts ++ textsDown files depth b.someName) := by
    obtain ⟨other, texts, hother, htexts⟩ := a.someName_circles.exists_next hfiles hcoherent
    obtain ⟨i, hi⟩ := hother.exists_locate hcoherent
    let b : Circling files := ⟨i, other, hi, hother⟩
    have hsame (depth : Nat) : textsDown files depth other = textsDown files depth b.someName :=
      (readDown_resembles hcoherent depth none none (hi.trans b.locate_someName.symm)).1
    refine ⟨b, texts, fun depth => ?_⟩
    rw [← hsame]
    exact htexts depth
  choose next yielded hyielded using hnext
  exact ⟨next, yielded, fun a depth => (hyielded a depth).1, fun a depth => (hyielded a depth).2⟩

section Walk

variable {next : Circling files → Circling files} {yielded : Circling files → List String}

theorem IsWalk.textsDown_prefix (h : IsWalk files next yielded) (depth : Nat)
    (a : Circling files) :
    textsDown files depth a.someName <+: (List.iterate next a depth).flatMap yielded := by
  induction depth generalizing a with
  | zero => exact List.nil_prefix
  | succ depth ih =>
      rw [List.iterate, List.flatMap_cons]
      exact (h.prefix_yielded a depth).trans ((List.prefix_append_right_inj _).mpr (ih (next a)))

theorem IsWalk.prefix_textsDown (h : IsWalk files next yielded) {count depth : Nat}
    (hdepth : files.count + count < depth) (a : Circling files) :
    (List.iterate next a count).flatMap yielded <+: textsDown files depth a.someName := by
  induction count generalizing a depth with
  | zero => exact List.nil_prefix
  | succ count ih =>
      obtain ⟨depth, rfl⟩ : ∃ d, depth = d + 1 := ⟨depth - 1, by omega⟩
      rw [List.iterate, List.flatMap_cons, h.eq_yielded a depth (by omega)]
      exact (List.prefix_append_right_inj _).mpr (ih (by omega) (next a))

end Walk

-- In a circle the same texts are read in each round, after some others before the first one. Where
-- there is depth enough for it, the first two rounds are read.
theorem Circles.exists_rounds (hfiles : AreText files) (hcoherent : files.IsCoherent)
    (h : Circles files name) :
    ∃ before round : List String,
      (∀ depth, ∃ count, textsDown files depth name <+:
        before ++ (List.replicate count round).flatten) ∧
      ∀ depth, 3 * files.count < depth →
        before ++ (List.replicate 2 round).flatten <+: textsDown files depth name := by
  obtain ⟨next, yielded, hwalk⟩ := exists_isWalk hfiles hcoherent
  obtain ⟨start, hstart⟩ := h.exists_locate hcoherent
  let start : Circling files := ⟨start, name, hstart, h⟩
  have hname (depth : Nat) : textsDown files depth name = textsDown files depth start.someName :=
    (readDown_resembles hcoherent depth none none (hstart.trans start.locate_someName.symm)).1
  obtain ⟨i, j, hlt, hle, hsame⟩ := exists_iterate_eq Circling.index_injective next start
  obtain ⟨period, rfl⟩ : ∃ period, j = period + i := ⟨j - i, by omega⟩
  rw [Function.iterate_add_apply] at hsame
  let before := (List.iterate next start i).flatMap yielded
  let round := (List.iterate next (next^[i] start) period).flatMap yielded
  have hrounds (count : Nat) : (List.iterate next start (i + count * period)).flatMap yielded =
      before ++ (List.replicate count round).flatten := by
    rw [flatMap_iterate_add, flatMap_iterate_mul hsame]
  refine ⟨before, round, fun depth => ⟨depth, ?_⟩, fun depth hdepth => ?_⟩
  · have hle : depth ≤ i + depth * period := by
      have hmul : depth ≤ depth * period := Nat.le_mul_of_pos_right depth (by omega)
      omega
    obtain ⟨more, hmore⟩ := Nat.exists_eq_add_of_le hle
    rw [hname, ← hrounds, hmore, flatMap_iterate_add]
    exact (hwalk.textsDown_prefix depth start).trans (List.prefix_append _ _)
  · rw [hname, ← hrounds]
    exact hwalk.prefix_textsDown (by omega) start

theorem Settings.takeAll_congr {lines lines' : List (Position × String)}
    (h : lines.map Prod.snd = lines'.map Prod.snd) (s : Settings) (current : Option Section) :
    s.takeAll current lines = s.takeAll current lines' := by
  rw [takeAll_eq_foldlM, takeAll_eq_foldlM, h]

-- If a configuration is not refused in a circle as it is read, no line of it is refused in any
-- depth.
theorem Circles.takeReading_isTooDeep (hfiles : AreText files) (hcoherent : files.IsCoherent)
    (h : Circles files name) {s : Settings}
    (hread : (s.takeReading (read files name)).2 = some .includesTooDeep) (depth : Nat) :
    (s.takeReading (readDown files depth none name)).2 = some .includesTooDeep := by
  obtain ⟨before, round, hbeyond, hrounds⟩ := h.exists_rounds hfiles hcoherent
  let unplaced (texts : List String) : List (Position × String) :=
    texts.map fun text => (⟨"", 0⟩, text)
  have htexts (lines : List Line) : (lines.map Line.placed).map Prod.snd = lines.map Line.text := by
    rw [List.map_map]
    rfl
  have hunplaced (texts : List String) : (unplaced texts).map Prod.snd = texts := by
    rw [List.map_map]
    exact List.map_id texts
  have hlines (count : Nat) : ∃ r, { s with tables := .empty }.takeAll none
      (unplaced before ++ (List.replicate count (unplaced round)).flatten) = .ok r := by
    rcases s.takeReading_cases (read files name) with ⟨t, current, hall, -⟩ |
      ⟨-, line, -, t, -, error, -, -, -, hrefused⟩
    · obtain ⟨rest, hrest⟩ := hrounds (3 * files.count + 1) (Nat.lt_succ_self _)
      have hsplit : ((read files name).lines.map Line.placed).map Prod.snd =
          (unplaced before ++ (unplaced round ++ (unplaced round ++ unplaced rest))).map Prod.snd := by
        simp only [htexts, List.map_append, hunplaced]
        rw [read, ← textsDown, ← hrest]
        simp
      rw [Settings.takeAll_congr hsplit, Settings.takeAll_append] at hall
      obtain ⟨⟨t₀, opened₀⟩, hbefore, hall⟩ := bind_eq_ok.mp hall
      obtain ⟨⟨t₁, opened₁⟩, hfirst, hall⟩ :=
        bind_eq_ok.mp (Settings.takeAll_append.symm.trans hall)
      obtain ⟨⟨t₂, opened₂⟩, hsecond, -⟩ :=
        bind_eq_ok.mp (Settings.takeAll_append.symm.trans hall)
      rw [Settings.takeAll_append, bind_of_eq_ok hbefore]
      exact Settings.exists_takeAll_replicate hfirst hsecond count
    · rw [hrefused] at hread
      cases error <;> cases hread
  rcases s.takeReading_cases (readDown files depth none name) with ⟨-, -, -, hends⟩ |
    ⟨passed, line, after, t, opened, error, hsplit, hpassed, herror, -⟩
  · have hdeep : (readDown files depth none name).failure = some .includesTooDeep :=
      h.isTooDeep hcoherent depth none
    rw [hends, hdeep]
    rfl
  · obtain ⟨count, rest, hrest⟩ := hbeyond depth
    obtain ⟨r, hr⟩ := hlines count
    have hsame : (unplaced before ++ (List.replicate count (unplaced round)).flatten).map Prod.snd =
        (passed.map Line.placed ++
          line.placed :: (after.map Line.placed ++ unplaced rest)).map Prod.snd := by
      rw [textsDown, hsplit] at hrest
      simp only [List.map_append, List.map_flatten, List.map_replicate, hunplaced, ← hrest,
        List.map_cons, htexts, List.append_assoc, List.cons_append]
      rfl
    rw [Settings.takeAll_congr hsame] at hr
    obtain ⟨taken, htaken⟩ := Settings.exists_takeLine_of_takeAll hr hpassed
    cases herror.symm.trans htaken

-- Reading ends, and more depth makes no difference to it, or else a file is opened while it is read
-- itself. Where all names of a file lead to the same files, no depth is enough then: only a line
-- that is refused ends the reading of a configuration, and that line is met in each depth in which
-- a configuration is read.
theorem readDown_ends_or_circles (hfiles : AreText files) (name : String) (s : Settings) :
    (¬Circles files name ∧
      (∀ depth, files.count < depth → readDown files depth none name = read files name) ∧
      ((read files name).failure = none ∨
        (∃ fault, (read files name).failure = some (.missing fault)) ∨
          (read files name).failure = some .includeWithoutName ∨
            (read files name).failure = some .malformedName) ∧
      ∀ force, (s.read files name force).2 ≠ some .includesTooDeep) ∨
    (Circles files name ∧ (files.IsCoherent →
      (∀ depth, (readDown files depth none name).failure = some .includesTooDeep) ∧
      ((∀ depth, (s.takeReading (readDown files depth none name)).2 = some .includesTooDeep) ∨
        (s.read files name true).2 ≠ some .includesTooDeep ∧ ∀ depth, 3 * files.count < depth →
          s.takeReading (readDown files depth none name) = s.read files name true))) := by
  have hread := s.read_eq_takeReading files name
  by_cases hcircles : Circles files name
  · refine Or.inr ⟨hcircles, fun hcoherent =>
      ⟨fun depth => hcircles.isTooDeep hcoherent depth none, ?_⟩⟩
    rw [hread]
    by_cases hdeep : (s.takeReading (read files name)).2 = some .includesTooDeep
    · exact Or.inl (hcircles.takeReading_isTooDeep hfiles hcoherent hdeep)
    · exact Or.inr ⟨hdeep, fun depth hdepth =>
        (s.takeReading_goesOn (readDown_goesOn hdepth none name)).resolve_left hdeep⟩
  · left
    have hends : ¬(read files name).IsTooDeep := fun hdeep =>
      hcircles (circles_of_isTooDeep hfiles hdeep (by omega))
    refine ⟨hcircles, fun depth => readDown_eq_read hfiles hcircles, ?_, ?_⟩
    · rcases readDown_failure_cases hfiles (3 * files.count + 1) none name with
        hnone | hmissing | hnameless | hmalformed | hdeep
      · exact Or.inl hnone
      · exact Or.inr (Or.inl hmissing)
      · exact Or.inr (Or.inr (Or.inl hnameless))
      · exact Or.inr (Or.inr (Or.inr hmalformed))
      · exact absurd hdeep hends
    · intro force h
      rw [Settings.read] at h
      split at h
      · cases h
      · exact hends (Settings.isTooDeep_of_takeReading h)

-- Between its two lines the first file includes another one, and then the circle closes, by another
-- name of the first file.
theorem readDown_ends_or_circles_later :
    let files : FileSet := .ofDirectory [
      ("a", .ofLines ["$include c", "[settings]", "$include b"]),
      ("b", .ofLines ["debug = true", "$INCLUDE ./a"]), ("c", .ofLines ["[verbal_tags]", "VB"])]
    AreText files ∧ files.IsCoherent ∧ Circles files "a" ∧
      (∀ depth, (readDown files depth none "a").failure = some .includesTooDeep) ∧
      ∀ depth,
        (Settings.initial.takeReading (readDown files depth none "a")).2 = some .includesTooDeep := by
  intro files
  have hfiles : AreText files := FileSet.areText_ofDirectory (by simp)
  have hcoherent : files.IsCoherent := FileSet.isCoherent_ofDirectory (by simp)
  have hread : (Settings.initial.read files "a" true).2 = some .includesTooDeep := by
    decide +kernel
  rcases readDown_ends_or_circles hfiles "a" Settings.initial with
    ⟨-, -, -, hends⟩ | ⟨hcircles, hcircling⟩
  · exact absurd hread (hends true)
  · obtain ⟨hdeep, hall | ⟨hrefused, -⟩⟩ := hcircling hcoherent
    · exact ⟨hfiles, hcoherent, hcircles, hdeep, hall⟩
    · exact absurd hread hrefused

-- A file that includes itself. Each time it is opened it yields its lines again, and there is no
-- end in any depth.
theorem readDown_self_endless :
    let files : FileSet := .ofList [("main", .ofLines ["[verbal_tags]", "VB", "$include main"])]
    AreText files ∧ (Settings.initial.read files "main" true).2 = some .includesTooDeep ∧
      ∀ depth, (readDown files depth none "main").failure = some .includesTooDeep ∧
        (readDown files depth none "main").lines.length = 2 * depth := by
  intro files
  have hfiles : AreText files := FileSet.areText_ofList (by simp)
  refine ⟨hfiles, by decide +kernel, fun depth => ?_⟩
  have hfile : files.opened "main" = .ok (.ofLines ["[verbal_tags]", "VB", "$include main"]) := rfl
  have hentries : entriesFrom 0 [] (.ofLines ["[verbal_tags]", "VB", "$include main"]) =
      [.line 1 "[verbal_tags]\n".toList, .line 2 "VB\n".toList] ++
        .line 3 "$include main\n".toList :: [] := by rfl
  have hinclude : IsIncludeOf "$include main\n".toList "main" :=
    ⟨"$include".toList, "main\n".toList, rfl, by decide, by decide⟩
  generalize (none : Option Position) = includer
  induction depth generalizing includer with
  | zero => exact ⟨rfl, rfl⟩
  | succ depth ih =>
      obtain ⟨hfailure, hlength⟩ := ih (some ⟨"main", 3⟩)
      have hdivides := hfiles.divides hfile
      rw [hentries] at hdivides
      have hread := read_of_isIncludeOf hinclude (by decide) (readIncluded files depth) "main" 3
      obtain ⟨hdeep, hlines⟩ :=
        readDown_of_entry_failure hfile hdivides rfl (by rw [hread]; exact hfailure) includer
      refine ⟨hdeep, ?_⟩
      have hinner : ((readIncluded files depth ⟨"main", 3⟩ (nameBeside "main" "main")).within
          ⟨"main", 3⟩).lines.length = 2 * depth := (List.length_map _).trans hlength
      rw [hlines, hread, List.length_append, hinner, Nat.mul_succ, Nat.add_comm]
      rfl

end HeadPercolation.Config
