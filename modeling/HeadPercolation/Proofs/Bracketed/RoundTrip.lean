import HeadPercolation.Proofs.Bracketed.Reading
import HeadPercolation.Proofs.Tree.Leaves

namespace HeadPercolation.Bracketed

-- A tree that can be read back: all its words and labels are runs, and no constituent is empty.
inductive Legible : Tree → Prop
  | leaf {word : String} (hword : IsRun word.toList) : Legible (.leaf word)
  | node {label : String} {ts : List Tree} (hlabel : IsRun label.toList) (hne : ts ≠ [])
      (hts : ∀ t ∈ ts, Legible t) : Legible (.node label ts)

def IsGap (gap : String) : Prop :=
  ∀ c ∈ gap.toList, Text.isBlank c = true

instance (gap : String) : Decidable (IsGap gap) :=
  decidable_of_iff (gap.toList.all Text.isBlank = true) List.all_eq_true

-- Trees in bracketed form one after the other, with any white space or none around them.
inductive Spaced : List Tree → String → Prop
  | nil {gap : String} (hgap : IsGap gap) : Spaced [] gap
  | cons {gap rest : String} {t : Tree} {ts : List Tree} (hgap : IsGap gap)
      (hrest : Spaced ts rest) : Spaced (t :: ts) (gap ++ t.bracketed ++ rest)

section Written

variable {t : Tree} {ts : List Tree} {cs : List Char}

theorem tokensFrom_gap {gap : List Char} (hgap : ∀ c ∈ gap, Text.isBlank c = true)
    (position : Nat) (cs : List Char) :
    tokensFrom position [] (gap ++ cs) = tokensFrom (position + gap.length) [] cs := by
  induction gap generalizing position with
  | nil => rfl
  | cons c gap ih =>
      have hrest := ih (fun d hd => hgap d (List.mem_cons_of_mem c hd)) (position + 1)
      rw [List.cons_append, tokensFrom_skip (hgap c List.mem_cons_self), hrest, List.length_cons,
        Nat.add_assoc, Nat.add_comm 1]

-- Before each part of a constituent stands a blank.
theorem beginsDelimited_writeEach (hcs : BeginsDelimited cs) (ts : List Tree) :
    BeginsDelimited (writeEach ts ++ cs) := by
  cases ts with
  | nil => exact hcs
  | cons t ts => exact beginsDelimited_cons rfl _

-- A tree that can be written so that its tokens are found again, wherever it stands.
def IsFound (t : Tree) : Prop :=
  ∀ (position : Nat) (cs : List Char), (t.isLeaf = true → BeginsDelimited cs) →
    ∃ toks stop, Spells t toks ∧
      tokensFrom position [] (write t ++ cs) = toks ++ tokensFrom stop [] cs

theorem tokensFrom_writeEach (hts : ∀ t ∈ ts, IsFound t) (position : Nat)
    (hcs : BeginsDelimited cs) :
    ∃ (parts : List (Tree × List Token)) (stop : Nat),
      parts.map Prod.fst = ts ∧ (∀ part ∈ parts, Spells part.1 part.2) ∧
        tokensFrom position [] (writeEach ts ++ cs) =
          parts.flatMap Prod.snd ++ tokensFrom stop [] cs := by
  induction ts generalizing position with
  | nil => exact ⟨[], position, rfl, by simp, rfl⟩
  | cons t ts ih =>
      have hnext : BeginsDelimited (writeEach ts ++ cs) := beginsDelimited_writeEach hcs ts
      obtain ⟨toks, middle, hspells, htoks⟩ :=
        hts t List.mem_cons_self (position + 1) (writeEach ts ++ cs) fun _ => hnext
      obtain ⟨parts, stop, rfl, hparts, hrest⟩ :=
        ih (fun t ht => hts t (List.mem_cons_of_mem _ ht)) middle
      refine ⟨(t, toks) :: parts, stop, rfl, ?_, ?_⟩
      · simpa using ⟨hspells, fun a b h => hparts (a, b) h⟩
      · have hwrite : writeEach (t :: parts.map Prod.fst) ++ cs =
            ' ' :: (write t ++ (writeEach (parts.map Prod.fst) ++ cs)) := by
          simp [writeEach]
        rw [hwrite, tokensFrom_skip rfl, htoks, hrest]
        simp

-- The label is followed by the blank before the first part, so it is found as it was written.
theorem isFound_node {label : String} (hlabel : IsRun label.toList) (hne : ts ≠ [])
    (hts : ∀ t ∈ ts, IsFound t) : IsFound (.node label ts) := by
  intro position cs _
  have hend : BeginsDelimited (')' :: cs) := beginsDelimited_cons rfl cs
  have hbehind : BeginsDelimited (writeEach ts ++ ')' :: cs) := beginsDelimited_writeEach hend ts
  obtain ⟨parts, stop, rfl, hparts, htoks⟩ :=
    tokensFrom_writeEach hts (position + 1 + label.toList.length) hend
  have hname : some label ≠ some "" := by
    intro h
    rw [Option.some.inj h] at hlabel
    exact hlabel.1 rfl
  refine ⟨_, stop + 1, .constituent (some label) parts stop hname (by simpa using hne) hparts
    (by simp), ?_⟩
  have hwrite : write (.node label (parts.map Prod.fst)) ++ cs =
      '(' :: (label.toList ++ (writeEach (parts.map Prod.fst) ++ ')' :: cs)) := by
    simp [write]
  rw [hwrite, tokensFrom_opening, tokensFrom_word hlabel hbehind, htoks, tokensFrom_closing]
  simp

theorem Legible.isFound (h : Legible t) : IsFound t := by
  induction h with
  | @leaf word hword =>
      intro position cs hcs
      refine ⟨[.word word], position + word.toList.length, .word word, ?_⟩
      rw [write, tokensFrom_word hword (hcs rfl), String.ofList_toList]
      rfl
  | node hlabel hne _ ih => exact isFound_node hlabel hne ih

-- White space around trees does not matter, since each of them ends with its parenthesis.
theorem Spaced.spellsTrees {text : String} (h : Spaced ts text)
    (hts : ∀ t ∈ ts, Legible t ∧ t.isLeaf = false) (position : Nat) :
    SpellsTrees ts (tokensFrom position [] text.toList) := by
  induction h generalizing position with
  | nil hgap =>
      have hskip := tokensFrom_gap hgap position []
      rw [List.append_nil] at hskip
      rw [hskip]
      exact .nil
  | @cons gap rest t ts hgap _ ih =>
      obtain ⟨hlegible, ht⟩ := hts t List.mem_cons_self
      obtain ⟨toks, stop, hspells, htoks⟩ :=
        hlegible.isFound (position + gap.toList.length) rest.toList (by simp [ht])
      have htext : (gap ++ t.bracketed ++ rest).toList =
          gap.toList ++ (write t ++ rest.toList) := by
        simp [Tree.bracketed]
      rw [htext, tokensFrom_gap hgap, htoks]
      exact (hspells.spellsTrees ht).append (ih (fun t h => hts t (List.mem_cons_of_mem _ h)) stop)

end Written

section Read

variable {t : Tree} {ts : List Tree} {toks : List Token}

theorem Spells.legible (h : Spells t toks)
    (hwords : ∀ text, .word text ∈ toks → IsRun text.toList) : Legible t := by
  induction h with
  | word text => exact .leaf (hwords text (by simp))
  | constituent label parts position hlabel hne hparts hfirst ih =>
      refine .node ?_ (by simpa using hne) fun t ht => ?_
      · cases label with
        | none =>
            change IsRun "ROOT".toList
            decide
        | some label => exact hwords label (by simp)
      · obtain ⟨part, hpart, rfl⟩ := List.mem_map.mp ht
        refine ih part hpart fun text htext => hwords text ?_
        have hmem : Token.word text ∈ parts.flatMap Prod.snd :=
          List.mem_flatMap.mpr ⟨part, hpart, htext⟩
        simp [hmem]

theorem SpellsTrees.legible (h : SpellsTrees ts toks)
    (hwords : ∀ text, .word text ∈ toks → IsRun text.toList) :
    ∀ t ∈ ts, Legible t ∧ t.isLeaf = false := by
  obtain ⟨parts, rfl, rfl, hparts⟩ := h
  intro t ht
  obtain ⟨part, hpart, rfl⟩ := List.mem_map.mp ht
  obtain ⟨hspells, hleaf⟩ := hparts part hpart
  refine ⟨hspells.legible fun text htext => hwords text ?_, hleaf⟩
  exact List.mem_flatMap.mpr ⟨part, hpart, htext⟩

-- What is read is legible, also before an error.
theorem legible_of_mem_readTrees {text : String} (ht : t ∈ (readTrees text).trees) :
    Legible t ∧ t.isLeaf = false := by
  have hwords : ∀ word, .word word ∈ tokens text → IsRun word.toList :=
    fun _ => (splits_iff.mpr rfl : Splits 0 text.toList (tokens text)).isRun
  have houtcome : Outcome (tokens text) (readTrees text) :=
    outcome_readFrom (word_notMem_tokens text)
  generalize readTrees text = reading at houtcome ht
  cases houtcome with
  | complete h => exact h.legible hwords t ht
  | stopped h =>
      obtain ⟨stack, rest, htoks, ⟨closed, opened, rfl, hclosed, -⟩, -⟩ := h
      exact hclosed.legible (fun word hword => hwords word (by simp [htoks, hword])) t ht

end Read

namespace Legible

variable {t : Tree}

theorem of_get? {s : Tree} {path : Path} (h : Legible t) (hget : t.get? path = some s) :
    Legible s := by
  induction path generalizing t with
  | nil =>
      cases hget
      exact h
  | cons i path ih =>
      obtain ⟨c, hc, hs⟩ := Tree.get?_cons_eq_some.mp hget
      cases h with
      | leaf => simp [Tree.children] at hc
      | node _ _ hts => exact ih (hts c (List.mem_of_getElem? hc)) hs

theorem isRun_of_mem_leaves (h : Legible t) {n : Node} (hn : n ∈ t.leaves) :
    n.tree.isLeaf = true ∧ IsRun n.tree.label.toList := by
  obtain ⟨hn, hleaf⟩ := List.mem_filter.mp hn
  obtain ⟨way, -, hget⟩ := Tree.mem_nodesAt.mp hn
  have hword := h.of_get? hget
  refine ⟨hleaf, ?_⟩
  generalize n.tree = s at hleaf hword
  cases hword with
  | leaf hrun => exact hrun
  | node => cases hleaf

-- There are words under each node.
theorem leaves_ne_nil (h : Legible t) : t.leaves ≠ [] := by
  have hleaves (path : Path) : (⟨path, t⟩ : Node).leaves ≠ [] := by
    induction h generalizing path with
    | leaf =>
        rw [Node.leaves_of_isLeaf rfl]
        exact List.cons_ne_nil _ _
    | @node label ts _ hne _ ih =>
        obtain ⟨first, rest, rfl⟩ := List.exists_cons_of_ne_nil hne
        rw [Node.leaves_of_not_isLeaf rfl]
        intro hnil
        have hchild : (⟨path ++ [0], first⟩ : Node) ∈
            (⟨path, .node label (first :: rest)⟩ : Node).children := by
          simp [Node.children, Tree.children]
        exact ih first List.mem_cons_self _ (List.flatMap_eq_nil_iff.mp hnil _ hchild)
  exact hleaves []

end Legible

-- Trees that were read before are read again from their bracketed forms, and so are all others
-- with words and labels that are runs.
theorem readTrees_of_spaced {ts : List Tree} {text : String} (hspaced : Spaced ts text)
    (hts : (∃ source, (readTrees source).trees = ts) ∨
      ∀ t ∈ ts, Legible t ∧ t.isLeaf = false) : readTrees text = ⟨ts, none⟩ := by
  have hlegible : ∀ t ∈ ts, Legible t ∧ t.isLeaf = false := by
    rcases hts with ⟨source, rfl⟩ | hts
    · exact fun t ht => legible_of_mem_readTrees ht
    · exact hts
  exact (Outcome.complete (hspaced.spellsTrees hlegible 0)).readFrom_eq

-- Two of the three trees of a text are complete. They are read again from a text that has them
-- with other white space.
theorem readTrees_of_spaced_unterminated :
    let ts : List Tree := [.node "ROOT" [.node "NP" [.leaf "it"]], .node "X" [.leaf "a", .leaf "b"]]
    let text := "\n(ROOT (NP it))(X a b)\t"
    Spaced ts text ∧ (readTrees "( (NP it) ) (X a b)(S (NP").trees = ts ∧
      readTrees text = ⟨ts, none⟩ := by
  intro ts text
  have hfirst : IsGap "\n" := by decide
  have hnone : IsGap "" := by decide
  have hlast : IsGap "\t" := by decide
  have hspaced : Spaced ts text := .cons hfirst (.cons hnone (.nil hlast))
  have hsource : (readTrees "( (NP it) ) (X a b)(S (NP").trees = ts := by rfl
  exact ⟨hspaced, hsource, readTrees_of_spaced hspaced (Or.inl ⟨_, hsource⟩)⟩

end HeadPercolation.Bracketed
