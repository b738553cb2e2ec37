import HeadPercolation.Proofs.Bracketed.RoundTrip
import HeadPercolation.Proofs.Pattern.Quoting
import HeadPercolation.Proofs.Tree.Leaves

namespace HeadPercolation.Pattern

-- A word between white space.
structure IsSolid (w : List Char) : Prop where
  ne_nil : w ≠ []
  not_blank : ∀ c ∈ w, Text.isBlank c = false

instance (w : List Char) : Decidable (IsSolid w) :=
  decidable_of_iff (w ≠ [] ∧ w.all (!Text.isBlank ·) = true)
    ⟨fun h => ⟨h.1, by simpa using h.2⟩, fun h => ⟨h.ne_nil, by simpa using h.not_blank⟩⟩

def HoldsSign (w : List Char) : Prop :=
  ∃ c ∈ w, c ∈ signs

instance (w : List Char) : Decidable (HoldsSign w) :=
  decidable_of_iff (w.any signs.contains = true) (by simp [HoldsSign])

theorem holdsSign_cons {c : Char} {w : List Char} :
    HoldsSign (c :: w) ↔ c ∈ signs ∨ HoldsSign w := by
  simp [HoldsSign]

variable {w : List Char} {ws : List (List Char)}

section Fragments

-- The cut loses nothing but white space.
theorem flatten_fragments (cs : List Char) :
    (fragments cs).flatten = cs.filter fun c => !Text.isBlank c := by
  induction cs with
  | nil => rfl
  | cons c cs ih =>
      rw [fragments]
      split
      · rename_i hblank
        rw [ih, List.filter_cons_of_neg (by simp [hblank])]
      · rename_i hblank
        rw [List.filter_cons_of_pos (by simpa using hblank), ← ih]
        split
        · rfl
        · rename_i halone
          obtain ⟨d, ds, rfl, -, hblank', -⟩ := exists_of_not_alone halone
          obtain ⟨run, rest, hfragments⟩ := fragments_cons hblank' ds
          rw [hfragments]
          rfl

theorem IsSolid.flatten_fragments (h : IsSolid w) : (fragments w).flatten = w := by
  rw [Pattern.flatten_fragments, List.filter_eq_self]
  simpa using h.not_blank

theorem IsSolid.length_fragments_pos (h : IsSolid w) : 0 < (fragments w).length := by
  rw [List.length_pos_iff]
  intro hnil
  have hflatten := h.flatten_fragments
  rw [hnil] at hflatten
  exact h.ne_nil hflatten.symm

theorem IsSolid.fragments_eq_singleton (h : IsSolid w) (hlength : (fragments w).length = 1) :
    fragments w = [w] := by
  obtain ⟨f, hf⟩ := List.length_eq_one_iff.mp hlength
  have hflatten := h.flatten_fragments
  rw [hf, List.flatten_singleton] at hflatten
  rw [hf, hflatten]

-- A word is cut before and behind each of its signs.
theorem length_fragments_cons_cons {c d : Char} (hc : Text.isBlank c = false)
    (hd : Text.isBlank d = false) (ds : List Char) :
    (fragments (c :: d :: ds)).length =
      (fragments (d :: ds)).length + if c ∈ signs ∨ d ∈ signs then 1 else 0 := by
  by_cases hsign : c ∈ signs ∨ d ∈ signs
  · rw [fragments, if_neg (by simp [hc]), if_pos (by simpa [hd] using hsign), if_pos hsign,
      List.length_cons]
  · obtain ⟨run, rest, hrest⟩ := fragments_cons hd ds
    rw [fragments_cons_of_not_alone hc (by simpa [hd] using hsign) hrest, hrest, if_neg hsign]
    rfl

-- A word stays in one piece if it has no sign or is one.
theorem IsSolid.length_fragments_eq_one_iff (h : IsSolid w) :
    (fragments w).length = 1 ↔ ¬HoldsSign w ∨ w.length = 1 := by
  obtain ⟨hne, hblank⟩ := h
  induction w with
  | nil => exact absurd rfl hne
  | cons c cs ih =>
      obtain ⟨hc, hcs⟩ := List.forall_mem_cons.mp hblank
      cases cs with
      | nil => simp [fragments, hc]
      | cons d ds =>
          have hnext : IsSolid (d :: ds) := ⟨List.cons_ne_nil d ds, hcs⟩
          have hpos := hnext.length_fragments_pos
          have hone := ih hnext.ne_nil hnext.not_blank
          rw [length_fragments_cons_cons hc (hcs d List.mem_cons_self),
            or_iff_left (by simp : (c :: d :: ds).length ≠ 1)]
          by_cases hsign : c ∈ signs ∨ d ∈ signs
          · have hholds : HoldsSign (c :: d :: ds) := by
              rw [holdsSign_cons, holdsSign_cons, ← or_assoc]
              exact Or.inl hsign
            rw [if_pos hsign, iff_false_right (not_not.mpr hholds)]
            omega
          · obtain ⟨hcsign, hdsign⟩ := not_or.mp hsign
            rw [if_neg hsign, Nat.add_zero, hone, holdsSign_cons (c := c), or_iff_right hcsign]
            -- A single character that is no sign holds none.
            refine or_iff_left_of_imp fun hlength => ?_
            rw [List.length_eq_zero_iff.mp (Nat.succ.inj hlength), holdsSign_cons]
            simp [hdsign, HoldsSign]

end Fragments

section Joining

-- No fragment goes on from one word to the next.
theorem fragments_intercalate (ws : List (List Char)) :
    fragments ([' '].intercalate ws) = (ws.map fragments).flatten := by
  induction ws with
  | nil => rfl
  | cons w ws ih =>
      cases ws with
      | nil => simp
      | cons next ws =>
          rw [List.intercalate_cons_cons, List.append_assoc, List.singleton_append,
            fragments_append_blank rfl, ih]
          rfl

theorem intercalate_concat_append {α : Type} (parts : List (List α)) (xs ys sep : List α) :
    sep.intercalate (parts ++ [xs]) ++ ys = sep.intercalate (parts ++ [xs ++ ys]) := by
  induction parts with
  | nil => simp
  | cons part parts ih =>
      cases parts with
      | nil => simp [List.intercalate_cons_cons]
      | cons next parts =>
          simp only [List.cons_append, List.intercalate_cons_cons, List.append_assoc] at ih ⊢
          rw [ih]

theorem length_fold_intercalate (hne : ws ≠ []) :
    (Text.fold ([' '].intercalate ws)).length + 1 = (Text.fold ws.flatten).length + ws.length := by
  induction ws with
  | nil => exact absurd rfl hne
  | cons w ws ih =>
      cases ws with
      | nil => simp
      | cons next ws =>
          have hrest := ih (List.cons_ne_nil next ws)
          have hspace : (Text.foldChar ' ').length = 1 := rfl
          simp only [Text.fold, List.intercalate_cons_cons, List.flatten_cons, List.flatMap_append,
            List.flatMap_singleton, List.length_append, List.length_cons, hspace] at hrest ⊢
          omega

theorem flatten_flatten_fragments (hws : ∀ w ∈ ws, IsSolid w) :
    (ws.map fragments).flatten.flatten = ws.flatten := by
  induction ws with
  | nil => rfl
  | cons w ws ih =>
      obtain ⟨hw, hws⟩ := List.forall_mem_cons.mp hws
      rw [List.map_cons, List.flatten_cons, List.flatten_append, hw.flatten_fragments, ih hws,
        List.flatten_cons]

theorem length_flatten_fragments_eq_iff (hws : ∀ w ∈ ws, IsSolid w) :
    ws.length ≤ (ws.map fragments).flatten.length ∧
      ((ws.map fragments).flatten.length = ws.length ↔
        ∀ w ∈ ws, (fragments w).length = 1) := by
  induction ws with
  | nil => simp
  | cons w ws ih =>
      obtain ⟨hw, hws⟩ := List.forall_mem_cons.mp hws
      obtain ⟨hle, heq⟩ := ih hws
      have hpos := hw.length_fragments_pos
      rw [List.map_cons, List.flatten_cons, List.length_append, List.length_cons,
        List.forall_mem_cons, ← heq]
      omega

-- What has been cut is put together again, but for case, just if no word was cut. Otherwise there
-- are more spaces than before.
theorem fold_intercalate_fragments_iff (hws : ∀ w ∈ ws, IsSolid w) :
    Text.fold ([' '].intercalate (fragments ([' '].intercalate ws))) =
      Text.fold ([' '].intercalate ws) ↔ ∀ w ∈ ws, (fragments w).length = 1 := by
  rw [fragments_intercalate]
  constructor
  · intro h
    obtain ⟨hle, heq⟩ := length_flatten_fragments_eq_iff hws
    by_cases hnil : ws = []
    · simp [hnil]
    · have hpos := List.length_pos_iff.mpr hnil
      have hfragments : (ws.map fragments).flatten ≠ [] := List.length_pos_iff.mp (by omega)
      have hcut := length_fold_intercalate hfragments
      have hwhole := length_fold_intercalate hnil
      rw [flatten_flatten_fragments hws] at hcut
      have hlengths := congrArg List.length h
      exact heq.mp (by omega)
  · intro hone
    have hsame : ws.map fragments = ws.map fun w => [w] :=
      List.map_congr_left fun w hw => (hws w hw).fragments_eq_singleton (hone w hw)
    rw [hsame, ← List.flatMap_def, List.flatMap_singleton']

end Joining

section Words

variable {start cs last : List Char} {atom : String → Atom}

theorem IsSolid.append (h : IsSolid w) {w' : List Char} (h' : IsSolid w') : IsSolid (w ++ w') where
  ne_nil := List.append_ne_nil_of_left_ne_nil h.ne_nil w'
  not_blank := List.forall_mem_append.mpr ⟨h.not_blank, h'.not_blank⟩

theorem holdsSign_append {w' : List Char} : HoldsSign (w ++ w') ↔ HoldsSign w ∨ HoldsSign w' := by
  simp [HoldsSign, or_and_right, exists_or]

theorem isSolid_quote : IsSolid ['"'] := by
  decide

theorem not_holdsSign_quote : ¬HoldsSign ['"'] := by
  decide

theorem Opens.isSolid (h : Opens start atom) : IsSolid start := by
  cases h <;> decide

theorem Opens.not_holdsSign (h : Opens start atom) : ¬HoldsSign start := by
  cases h <;> decide

-- The words that stay as they are between quotes: a sign may only stand by itself, and the quotes
-- count as a part of the words next to them.
structure IsKept (ws : List (List Char)) : Prop where
  head : ∀ w, ws.head? = some w → ¬HoldsSign w
  last : ∀ w, ws.getLast? = some w → ¬HoldsSign w
  each : ∀ w ∈ ws, ¬HoldsSign w ∨ w.length = 1

theorem isKept_singleton_iff : IsKept [w] ↔ ¬HoldsSign w := by
  constructor
  · exact fun h => h.head w rfl
  · intro h
    exact ⟨by simpa using h, by simpa using h, by simpa using Or.inl h⟩

theorem isKept_cons_concat_iff :
    IsKept (w :: (ws ++ [last])) ↔
      ¬HoldsSign w ∧ ¬HoldsSign last ∧ ∀ v ∈ ws, ¬HoldsSign v ∨ v.length = 1 := by
  have hgetLast : (w :: (ws ++ [last])).getLast? = some last := by
    rw [← List.cons_append, List.getLast?_concat]
  constructor
  · rintro ⟨hhead, hlast, heach⟩
    exact ⟨hhead w rfl, hlast last hgetLast, fun v hv => heach v (by simp [hv])⟩
  · rintro ⟨hhead, hlast, heach⟩
    refine ⟨by simpa using hhead, by simpa [hgetLast] using hlast, ?_⟩
    rw [List.forall_mem_cons, List.forall_mem_append, List.forall_mem_singleton]
    exact ⟨Or.inl hhead, heach, Or.inl hlast⟩

-- A quote makes a word longer than a sign.
theorem length_fragments_append_eq_one_iff {w' : List Char} (h : IsSolid w) (h' : IsSolid w') :
    (fragments (w ++ w')).length = 1 ↔ ¬HoldsSign w ∧ ¬HoldsSign w' := by
  have hpos := List.length_pos_iff.mpr h.ne_nil
  have hpos' := List.length_pos_iff.mpr h'.ne_nil
  rw [(h.append h').length_fragments_eq_one_iff, holdsSign_append, not_or, List.length_append]
  exact or_iff_left (by omega)

-- The quotes belong to the first and the last word.
theorem exists_quoted_words (h : Opens start atom) (hne : ws ≠ []) (hws : ∀ w ∈ ws, IsSolid w) :
    ∃ vs, start ++ [' '].intercalate ws ++ ['"'] = [' '].intercalate vs ∧
      (∀ v ∈ vs, IsSolid v) ∧ ((∀ v ∈ vs, (fragments v).length = 1) ↔ IsKept ws) := by
  obtain ⟨w, rest, rfl⟩ := List.exists_cons_of_ne_nil hne
  obtain ⟨hw, hrest⟩ := List.forall_mem_cons.mp hws
  rcases List.eq_nil_or_concat rest with rfl | ⟨middle, last, rfl⟩
  · refine ⟨[start ++ w ++ ['"']], by simp, ?_, ?_⟩
    · simpa using (h.isSolid.append hw).append isSolid_quote
    · rw [List.forall_mem_singleton,
        length_fragments_append_eq_one_iff (h.isSolid.append hw) isSolid_quote, holdsSign_append,
        isKept_singleton_iff]
      simp [h.not_holdsSign, not_holdsSign_quote]
  · rw [List.concat_eq_append] at hrest ⊢
    rw [List.forall_mem_append, List.forall_mem_singleton] at hrest
    obtain ⟨hmiddle, hlast⟩ := hrest
    refine ⟨(start ++ w) :: (middle ++ [last ++ ['"']]), ?_, ?_, ?_⟩
    · rw [append_intercalate_cons, ← List.cons_append, intercalate_concat_append, List.cons_append]
    · rw [List.forall_mem_cons, List.forall_mem_append, List.forall_mem_singleton]
      exact ⟨h.isSolid.append hw, hmiddle, hlast.append isSolid_quote⟩
    · rw [List.forall_mem_cons, List.forall_mem_append, List.forall_mem_singleton,
        length_fragments_append_eq_one_iff h.isSolid hw,
        length_fragments_append_eq_one_iff hlast isSolid_quote, isKept_cons_concat_iff,
        and_iff_right h.not_holdsSign, and_iff_left not_holdsSign_quote]
      refine and_congr_right fun _ => and_comm.trans (and_congr_right fun _ => ?_)
      exact forall₂_congr fun v hv => (hmiddle v hv).length_fragments_eq_one_iff

-- A literal stands for its text just if no word is cut between the quotes.
theorem exists_literal (h : Opens start atom) (hne : ws ≠ []) (hws : ∀ w ∈ ws, IsSolid w)
    (hquote : '"' ∉ [' '].intercalate ws) :
    ∃ literal,
      compile (String.ofList (start ++ [' '].intercalate ws ++ ['"'])) =
        .ok [.item (.atom (atom literal))] ∧
      (Text.sameButForCase literal (String.ofList ([' '].intercalate ws)) = true ↔ IsKept ws) := by
  obtain ⟨literal, hcompile, hliteral⟩ := compile_quoted h hquote
  obtain ⟨vs, htext, hsolid, hkept⟩ := exists_quoted_words h hne hws
  refine ⟨literal, hcompile, ?_⟩
  have hfold := fold_intercalate_fragments_iff hsolid
  rw [← htext, ← hliteral, hkept] at hfold
  rw [← hfold, Text.sameButForCase, beq_iff_eq, String.toList_ofList]
  simp only [Text.fold, List.flatMap_append, List.append_cancel_left_eq,
    List.append_cancel_right_eq]

end Words

section Trees

variable {source : String} {t : Tree}

theorem isSolid_of_isRun (h : Bracketed.IsRun w) : IsSolid w where
  ne_nil := h.1
  not_blank c hc := by
    have hdelimiter := h.2 c hc
    simp only [Bracketed.isDelimiter, Bool.or_eq_false_iff] at hdelimiter
    exact hdelimiter.2

theorem toList_text (t : Tree) :
    t.text.toList = [' '].intercalate (t.leaves.map (·.tree.label.toList)) := by
  rw [Tree.text, String.toList_intercalate, List.map_map]
  rfl

theorem mem_intercalate {α : Type} {x : α} {sep part : List α} {parts : List (List α)}
    (hpart : part ∈ parts) (hx : x ∈ part) : x ∈ sep.intercalate parts := by
  induction parts with
  | nil => cases hpart
  | cons first parts ih =>
      cases parts with
      | nil =>
          rw [List.mem_singleton.mp hpart] at hx
          rwa [List.intercalate_singleton]
      | cons next parts =>
          rw [List.intercalate_cons_cons, List.mem_append, List.mem_append]
          rcases List.mem_cons.mp hpart with rfl | hpart
          · exact Or.inl (Or.inl hx)
          · exact Or.inr (ih hpart)

theorem quoted_eq (start : List Char) (text : String) :
    String.ofList (start ++ text.toList ++ ['"']) = String.ofList start ++ text ++ "\"" :=
  String.toList_inj.mp (by simp)

theorem exists_captured {pattern : String} {atom : Atom} {n : Node} {p : Prop}
    (hcompile : compile pattern = .ok [.item (.atom atom)]) (h : atom.holds n.tree = true ↔ p)
    (context : Context) :
    ∃ captured, matchCaptures context pattern n = .ok captured ∧ (captured.isSome ↔ p) := by
  refine ⟨_, matchCaptures_atom hcompile context n, ?_⟩
  rw [← h]
  cases atom.holds n.tree <;> simp

-- A text that was read is found by its literal just if all its words are kept, and a word just if
-- it holds no sign.
theorem literals_of_mem_readTrees (ht : t ∈ (Bracketed.readTrees source).trees)
    (hquote : '"' ∉ t.text.toList) :
    (∃ literal, compile ("\"" ++ t.text ++ "\"") = .ok [.item (.atom (.words literal))] ∧
        ∀ context, ∃ captured,
          matchCaptures context ("\"" ++ t.text ++ "\"") (.root t) = .ok captured ∧
            (captured.isSome ↔ IsKept (t.leaves.map (·.tree.label.toList)))) ∧
      ∀ n ∈ t.leaves, ∃ literal,
        compile ("@\"" ++ n.tree.label ++ "\"") = .ok [.item (.atom (.leaf literal))] ∧
          ∀ context, ∃ captured,
            matchCaptures context ("@\"" ++ n.tree.label ++ "\"") n = .ok captured ∧
              (captured.isSome ↔ ¬HoldsSign n.tree.label.toList) := by
  have hlegible := (Bracketed.legible_of_mem_readTrees ht).1
  have hsolid : ∀ w ∈ t.leaves.map (·.tree.label.toList), IsSolid w := by
    rw [List.forall_mem_map]
    exact fun n hn => isSolid_of_isRun (hlegible.isRun_of_mem_leaves hn).2
  constructor
  · have hne : t.leaves.map (·.tree.label.toList) ≠ [] := by simpa using hlegible.leaves_ne_nil
    obtain ⟨literal, hcompile, hkept⟩ := exists_literal .words hne hsolid (toList_text t ▸ hquote)
    rw [← toList_text, quoted_eq] at hcompile
    rw [← toList_text, String.ofList_toList] at hkept
    exact ⟨literal, hcompile, exists_captured hcompile hkept⟩
  · intro n hn
    have hword : '"' ∉ [' '].intercalate [n.tree.label.toList] := by
      rw [List.intercalate_singleton]
      intro hmem
      rw [toList_text] at hquote
      exact hquote (mem_intercalate (List.mem_map_of_mem hn) hmem)
    obtain ⟨hleaf, hrun⟩ := hlegible.isRun_of_mem_leaves hn
    obtain ⟨literal, hcompile, hkept⟩ := exists_literal .leaf (List.cons_ne_nil _ _)
      (List.forall_mem_singleton.mpr (isSolid_of_isRun hrun)) hword
    rw [List.intercalate_singleton, quoted_eq] at hcompile
    rw [List.intercalate_singleton, String.ofList_toList, isKept_singleton_iff] at hkept
    refine ⟨literal, hcompile, exists_captured hcompile ?_⟩
    rw [Atom.holds, hleaf, Bool.true_and, hkept]

-- The period is a word of its own, between two others.
theorem literals_of_mem_readTrees_kept :
    let t : Tree := .node "S" [.node "NN" [.leaf "yes"], .node "." [.leaf "."],
      .node "NN" [.leaf "no"]]
    t ∈ (Bracketed.readTrees "(S (NN yes) (. .) (NN no))").trees ∧ '"' ∉ t.text.toList ∧
      IsKept (t.leaves.map (·.tree.label.toList)) ∧
      ∃ literal, compile ("\"" ++ t.text ++ "\"") = .ok [.item (.atom (.words literal))] ∧
        ∀ context, ∃ captured,
          matchCaptures context ("\"" ++ t.text ++ "\"") (.root t) = .ok captured ∧
            (captured.isSome ↔ IsKept (t.leaves.map (·.tree.label.toList))) := by
  intro t
  have ht : t ∈ (Bracketed.readTrees "(S (NN yes) (. .) (NN no))").trees :=
    List.mem_singleton_self t
  have hquote : '"' ∉ t.text.toList := by decide +kernel
  have hkept : IsKept (t.leaves.map (·.tree.label.toList)) := by
    change IsKept (['y', 'e', 's'] :: ([['.']] ++ [['n', 'o']]))
    exact isKept_cons_concat_iff.mpr ⟨by decide, by decide, by decide⟩
  exact ⟨ht, hquote, hkept, (literals_of_mem_readTrees ht hquote).1⟩

-- The periods of an abbreviation are cut off.
theorem literal_of_abbreviation :
    ∃ t ∈ (Bracketed.readTrees "(NNP U.S.)").trees, '"' ∉ t.text.toList ∧
      compile ("\"" ++ t.text ++ "\"") = .ok [.item (.atom (.words "U . S . "))] ∧
      ∀ context, matchCaptures context ("\"" ++ t.text ++ "\"") (.root t) = .ok none := by
  have hcompile : compile "\"U.S.\"" = .ok [.item (.atom (.words "U . S . "))] := by decide +kernel
  let t : Tree := .node "NNP" [.leaf "U.S."]
  have hholds : (Atom.words "U . S . ").holds t = false := by decide +kernel
  refine ⟨t, List.mem_singleton_self t, by decide +kernel, hcompile, fun context => ?_⟩
  have hmatch : matchCaptures context ("\"" ++ t.text ++ "\"") (.root t) = _ :=
    matchCaptures_atom hcompile context (.root t)
  rw [hmatch, Node.root, hholds]
  rfl

end Trees

end HeadPercolation.Pattern
