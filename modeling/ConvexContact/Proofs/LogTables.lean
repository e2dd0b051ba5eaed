import Mathlib
import ConvexContact.Proofs.LogItems

/-!
# The layout of log tables

**Pairs.**  Values and exclusions with the same keys are paired by their keys, in ascending order
(`Table.SameKeys.mem_pairs_iff`).

**Widths.**  A text that is cut off has the greatest length, if that leaves room for the dots, and a
row fills its columns (`Table.length_truncate_le`, `Table.length_line`).

**Result.**  `Table.write_arranges`: the table of values and exclusions with the same keys consists
of lines of one length, with a line of dashes above and below the rows of arranged items.  A key
that is not shown whole, and a table that is too wide, are in `Table.write_carries_tag`.
-/

namespace ConvexContact
namespace Table

variable {α : Type}

section Pairs

/-- Two dictionaries with the same keys. -/
structure SameKeys {β γ : Type} (xs : List (String × β)) (ys : List (String × γ)) : Prop where
  nodup_left : (xs.map Prod.fst).Nodup
  nodup_right : (ys.map Prod.fst).Nodup
  mem_iff : ∀ key, key ∈ xs.map Prod.fst ↔ key ∈ ys.map Prod.fst

variable {β γ : Type} {xs : List (String × β)} {ys : List (String × γ)}

theorem sorted_perm
    (xs : List (String × β)) :
    (sorted xs).Perm xs :=
  List.mergeSort_perm _ _

/-- The keys of a sorted dictionary ascend. -/
theorem pairwise_sorted
    (hnodup : (xs.map Prod.fst).Nodup) :
    ((sorted xs).map Prod.fst).Pairwise (· < ·) := by
  have hle : ((sorted xs).map Prod.fst).Pairwise (· ≤ ·) := by
    rw [List.pairwise_map]
    refine (List.pairwise_mergeSort ?_ ?_ xs).imp fun h => of_decide_eq_true h
    · intro a b c hab hbc
      exact decide_eq_true (String.le_trans (of_decide_eq_true hab) (of_decide_eq_true hbc))
    · intro a b
      simpa using String.le_total a.1 b.1
  have hne : ((sorted xs).map Prod.fst).Nodup :=
    ((sorted_perm xs).map Prod.fst).nodup_iff.2 hnodup
  exact (hle.and hne).imp fun h => lt_of_le_of_ne h.1 h.2

/-- Dictionaries with the same keys have them at the same positions when sorted. -/
theorem SameKeys.map_sorted
    (h : SameKeys xs ys) :
    (sorted xs).map Prod.fst = (sorted ys).map Prod.fst := by
  have hperm : ((sorted xs).map Prod.fst).Perm ((sorted ys).map Prod.fst) :=
    ((sorted_perm xs).map _).trans
      (((List.perm_ext_iff_of_nodup h.nodup_left h.nodup_right).2 h.mem_iff).trans
        ((sorted_perm ys).map _).symm)
  exact hperm.eq_of_pairwise (fun a b _ _ hab hba => absurd (hab.trans hba) (lt_irrefl a))
    (pairwise_sorted h.nodup_left) (pairwise_sorted h.nodup_right)

/-- Lists of pairs with the same keys at the same positions are paired by their keys. -/
theorem mem_zipWith_iff
    {δ : Type} {f : String × β → String × γ → δ} {d : δ}
    (hkeys : xs.map Prod.fst = ys.map Prod.fst)
    (hnodup : (xs.map Prod.fst).Nodup) :
    d ∈ List.zipWith f xs ys ↔
      ∃ key x y, (key, x) ∈ xs ∧ (key, y) ∈ ys ∧ d = f (key, x) (key, y) := by
  induction xs generalizing ys with
  | nil =>
      simp
  | cons a xs ih =>
      cases ys with
      | nil =>
          cases hkeys
      | cons b ys =>
          obtain ⟨key, x⟩ := a
          obtain ⟨key', y⟩ := b
          obtain ⟨rfl, htail⟩ : key = key' ∧ xs.map Prod.fst = ys.map Prod.fst := by
            simpa using hkeys
          obtain ⟨hnew, hnodup⟩ := List.nodup_cons.1 hnodup
          have hfresh : ∀ x, (key, x) ∉ xs := fun x hx => hnew (List.mem_map.2 ⟨_, hx, rfl⟩)
          have hfresh' : ∀ y, (key, y) ∉ ys := by
            intro y hy
            apply hnew
            change key ∈ xs.map Prod.fst
            rw [htail]
            exact List.mem_map.2 ⟨_, hy, rfl⟩
          rw [List.zipWith_cons_cons, List.mem_cons, ih htail hnodup]
          constructor
          · rintro (rfl | ⟨key', x', y', hx, hy, rfl⟩)
            · exact ⟨key, x, y, List.mem_cons_self, List.mem_cons_self, rfl⟩
            · exact ⟨key', x', y', List.mem_cons_of_mem _ hx, List.mem_cons_of_mem _ hy, rfl⟩
          · rintro ⟨key', x', y', hx, hy, rfl⟩
            rcases List.mem_cons.1 hx with hx' | hx'
            · obtain ⟨rfl, rfl⟩ := Prod.mk.inj hx'
              rcases List.mem_cons.1 hy with hy' | hy'
              · obtain ⟨-, rfl⟩ := Prod.mk.inj hy'
                exact .inl rfl
              · exact absurd hy' (hfresh' _)
            · rcases List.mem_cons.1 hy with hy' | hy'
              · obtain ⟨rfl, -⟩ := Prod.mk.inj hy'
                exact absurd hx' (hfresh _)
              · exact .inr ⟨key', x', y', hx', hy', rfl⟩

variable {values : List (String × LogValue α)} {exclusions : List (String × Exclusion)}

/-- Values and exclusions with the same keys are paired by their keys, in ascending order. -/
theorem SameKeys.mem_pairs_iff
    (h : SameKeys values exclusions) (e : Entry α) :
    e ∈ pairs values exclusions ↔
      (e.key, e.value) ∈ values ∧ (e.key, e.exclusion) ∈ exclusions := by
  have hnodup : ((sorted values).map Prod.fst).Nodup :=
    (pairwise_sorted h.nodup_left).imp fun hlt => hlt.ne
  unfold pairs
  rw [mem_zipWith_iff h.map_sorted hnodup]
  constructor
  · rintro ⟨key, value, exclusion, hvalue, hexclusion, rfl⟩
    exact ⟨(sorted_perm _).mem_iff.1 hvalue, (sorted_perm _).mem_iff.1 hexclusion⟩
  · rintro ⟨hvalue, hexclusion⟩
    exact ⟨e.key, e.value, e.exclusion, (sorted_perm _).mem_iff.2 hvalue,
      (sorted_perm _).mem_iff.2 hexclusion, rfl⟩

/-- A dictionary in ascending order is sorted. -/
theorem sorted_eq_self
    (h : xs.Pairwise fun a b => a.1 ≤ b.1) :
    sorted xs = xs :=
  List.mergeSort_of_pairwise (h.imp decide_eq_true)

/-- What is paired has keys of the left list, in their order. -/
theorem map_key_zipWith_sublist
    (xs : List (String × LogValue α)) (ys : List (String × Exclusion)) :
    ((List.zipWith (fun v x => (⟨v.1, v.2, x.2⟩ : Entry α)) xs ys).map Entry.key).Sublist
      (xs.map Prod.fst) := by
  induction xs generalizing ys with
  | nil =>
      exact List.Sublist.refl _
  | cons x xs ih =>
      cases ys with
      | nil =>
          exact List.nil_sublist _
      | cons y ys =>
          exact (ih ys).cons_cons _

/-- Paired entries have ascending keys, whatever is paired. -/
theorem ascending_pairs
    (hnodup : (values.map Prod.fst).Nodup)
    (exclusions : List (String × Exclusion)) :
    Ascending (pairs values exclusions) :=
  List.pairwise_map.1 ((pairwise_sorted hnodup).sublist (map_key_zipWith_sublist _ _))

/-- The entries that a table of values and exclusions shows. -/
def shownOf (values : List (String × LogValue α)) (exclusions : List (String × Exclusion)) :
    List (Entry α) :=
  visible (pairs values exclusions)

/-- What is shown has ascending keys. -/
theorem ascending_shownOf
    (hnodup : (values.map Prod.fst).Nodup)
    (exclusions : List (String × Exclusion)) :
    Ascending (shownOf values exclusions) :=
  (ascending_pairs hnodup exclusions).sublist List.filter_sublist

/-- What is shown has its own value and its own exclusion. -/
theorem SameKeys.mem_shownOf_iff
    (h : SameKeys values exclusions)
    (e : Entry α) :
    e ∈ shownOf values exclusions ↔ (e.key, e.value) ∈ values ∧
      (e.key, e.exclusion) ∈ exclusions ∧ e.exclusion.hides = false := by
  rw [shownOf, visible, List.mem_filter, h.mem_pairs_iff, Bool.not_eq_true', and_assoc]

end Pairs

section Widths

/-- The greatest length is the least bound of all lengths. -/
theorem widest_le_iff
    {texts : List String} {n : ℕ} :
    widest texts ≤ n ↔ ∀ s ∈ texts, s.length ≤ n := by
  have hfold : ∀ start, texts.foldl (fun n s => max n s.length) start ≤ n ↔
      start ≤ n ∧ ∀ s ∈ texts, s.length ≤ n := by
    induction texts with
    | nil =>
        simp
    | cons s texts ih =>
        intro start
        rw [List.foldl_cons, ih, max_le_iff, List.forall_mem_cons, and_assoc]
  exact (hfold 0).trans (and_iff_right (Nat.zero_le n))

theorem length_le_widest
    {texts : List String} {s : String}
    (h : s ∈ texts) :
    s.length ≤ widest texts :=
  widest_le_iff.1 le_rfl s h

@[simp] theorem length_padRight
    (width : ℕ) (s : String) :
    (padRight width s).length = max width s.length := by
  rw [padRight, String.length_append, String.length_ofList, List.length_replicate]
  omega

/-- Rows fill their columns. -/
theorem length_line
    {keyWidth valueWidth : ℕ} {r : Row}
    (hkey : r.key.length ≤ keyWidth)
    (hvalue : r.value.length ≤ valueWidth) :
    (line keyWidth valueWidth r).length = keyWidth + valueWidth + 7 := by
  have hbars : "| ".length = 2 ∧ " | ".length = 3 ∧ " |".length = 2 := by decide
  unfold line
  simp only [String.length_append, length_padRight, max_eq_left hkey, max_eq_left hvalue, hbars]
  omega

/-- A text that is cut off has the greatest length, if there is room for the dots. -/
theorem length_truncate_le
    {maxLength : ℤ}
    (h : 3 ≤ maxLength)
    (s : String) :
    ((truncate maxLength s).length : ℤ) ≤ maxLength := by
  have hdots : "...".length = 3 := by decide
  unfold truncate
  split_ifs with hshort
  · exact hshort
  · dsimp only
    rw [if_neg (by omega), String.length_append, String.length_ofList, List.length_take, hdots,
      String.length_toList]
    omega

/-- A text that is cut off consists of its characters and of dots. -/
theorem mem_toList_truncate
    {maxLength : ℤ} {s : String} {c : Char}
    (h : c ∈ (truncate maxLength s).toList) :
    c ∈ s.toList ∨ c = '.' := by
  have hdots : "...".toList = ['.', '.', '.'] := by decide
  unfold truncate at h
  split_ifs at h
  · exact .inl h
  · rw [String.toList_append, String.toList_ofList, hdots, List.mem_append] at h
    rcases h with h | h
    · exact .inl (List.mem_of_mem_take h)
    · exact .inr (by simpa using h)

end Widths

section Layout

variable [Shown α] {maxLength : ℤ} {shown : List (Entry α)} {is : List (Item α)} {i : Item α}

/-- The text of a table with the rows of items. -/
def textOf (maxLength : ℤ) (is : List (Item α)) : String :=
  String.intercalate "\n" (lines (is.map (Item.row maxLength))) ++ "\n"

/-- A figure that is to be shown is refused. -/
theorem render_eq_error
    {entries : List (Entry α)} {e : Entry α}
    (he : e ∈ visible entries)
    (hfigure : e.value = .figure)
    (maxLength : ℤ) :
    render maxLength entries = .error .figureNotWritable := by
  unfold render rows
  rw [rowsFrom_eq_error he hfigure]
  rfl

/-- There is no text if no entry is to be shown. -/
theorem render_eq_none
    {entries : List (Entry α)}
    (h : visible entries = [])
    (maxLength : ℤ) :
    render maxLength entries = .ok none := by
  unfold render rows
  rw [rowsFrom_eq_ok (by simp [h]), h]
  rfl

/-- The text for entries, if any of them are to be shown and none of these is a figure. -/
theorem render_eq
    {entries : List (Entry α)}
    (hfigures : ∀ e ∈ visible entries, e.value ≠ .figure)
    (hne : visible entries ≠ [])
    (maxLength : ℤ) :
    render maxLength entries = .ok (some (textOf maxLength (items (visible entries)))) := by
  have hrows : ((items (visible entries)).map (Item.row maxLength)).isEmpty = false := by
    rw [List.isEmpty_eq_false_iff]
    exact List.map_eq_nil_iff.not.2 (items_ne_nil hne)
  unfold render rows
  rw [rowsFrom_eq_ok hfigures]
  change Except.ok (if ((items (visible entries)).map (Item.row maxLength)).isEmpty then none
    else some (textOf maxLength (items (visible entries)))) = _
  rw [hrows]
  rfl

theorem key_row
    (maxLength : ℤ) (i : Item α) :
    (i.row maxLength).key = truncate maxLength i.label := by
  cases i <;> rfl

/-- The text of a value is that of an entry, or empty. -/
theorem value_row
    (maxLength : ℤ) (i : Item α) :
    (i.row maxLength).value = "" ∨ ∃ e, i.entry? = some e ∧
      (i.row maxLength).value = truncate maxLength (e.value.cell?.getD "") := by
  cases i with
  | heading tag => exact .inl rfl
  | member tag e => exact .inr ⟨e, rfl, rfl⟩
  | single carried e => exact .inr ⟨e, rfl, rfl⟩

/-- No line break is in the key of an entry, or in the text of its value. -/
def Entry.Plain (e : Entry α) : Prop :=
  '\n' ∉ e.key.toList ∧ ∀ cell ∈ e.value.cell?, '\n' ∉ cell.toList

namespace Arranged

/-- No line break is in the labels of items for entries without line breaks. -/
theorem newline_not_mem_label
    (h : Arranged shown is)
    (hplain : ∀ e ∈ shown, e.Plain)
    (hi : i ∈ is) :
    '\n' ∉ i.label.toList := by
  have hblanks : "   ".toList = [' ', ' ', ' '] := by decide
  have hindent : ∀ cs : List Char, '\n' ∉ cs → '\n' ∉ ("   " ++ String.ofList cs).toList := by
    intro cs hcs
    rw [String.toList_append, hblanks, String.toList_ofList]
    simpa using hcs
  have hlabelled := h.labelled hi
  cases i with
  | heading tag =>
      obtain ⟨e, he, htag⟩ := List.mem_filterMap.1
        ((h.mem_headings_iff tag).1 (List.mem_filterMap.2 ⟨_, hi, rfl⟩))
      rw [hlabelled, String.toList_ofList]
      exact fun hmem => (hplain e he).1 ((prefix_of_tag? htag).subset hmem)
  | member tag e =>
      have he := (hplain e (h.mem_shown hi rfl)).1
      obtain ⟨name, hkey, hname⟩ := hlabelled
      rw [hkey, List.mem_append, not_or] at he
      rw [hname]
      exact hindent name he.2
  | single carried e =>
      have he := (hplain e (h.mem_shown hi rfl)).1
      obtain ⟨-, hkey⟩ | ⟨tag, -, -, -, hkey⟩ := hlabelled
      · rwa [hkey]
      · rw [hkey]
        exact hindent _ fun hmem => he (List.mem_of_mem_drop hmem)

/-- No line break is in the texts of items for entries without line breaks. -/
theorem plain_row
    (h : Arranged shown is)
    (hplain : ∀ e ∈ shown, e.Plain)
    (hi : i ∈ is) :
    '\n' ∉ (i.row maxLength).key.toList ∧ '\n' ∉ (i.row maxLength).value.toList := by
  constructor
  · rw [key_row]
    intro hmem
    exact (mem_toList_truncate hmem).elim (h.newline_not_mem_label hplain hi) (by decide)
  · rcases value_row maxLength i with hvalue | ⟨e, he, hvalue⟩
    · rw [hvalue]
      decide
    · rw [hvalue]
      intro hmem
      rcases mem_toList_truncate hmem with hmem | hdot
      · cases hcell : e.value.cell? with
        | none =>
            rw [hcell] at hmem
            revert hmem
            decide
        | some cell =>
            rw [hcell] at hmem
            exact (hplain e (h.mem_shown hi he)).2 cell hcell hmem
      · revert hdot
        decide

end Arranged

theorem newline_not_mem_line
    {r : Row}
    (hkey : '\n' ∉ r.key.toList)
    (hvalue : '\n' ∉ r.value.toList)
    (keyWidth valueWidth : ℕ) :
    '\n' ∉ (line keyWidth valueWidth r).toList := by
  have hbars : '\n' ∉ "| ".toList ∧ '\n' ∉ " | ".toList ∧ '\n' ∉ " |".toList := by decide
  have hpad : ∀ width s, '\n' ∉ s.toList → '\n' ∉ (padRight width s).toList := by
    intro width s hs
    rw [padRight, String.toList_append, String.toList_ofList, List.mem_append, not_or]
    exact ⟨hs, fun hmem => absurd (List.eq_of_mem_replicate hmem) (by decide)⟩
  unfold line
  simp only [String.toList_append, List.mem_append, not_or]
  exact ⟨⟨⟨⟨hbars.1, hpad _ _ hkey⟩, hbars.2.1⟩, hpad _ _ hvalue⟩, hbars.2.2⟩

/-- Cut off texts bound the columns. -/
theorem widest_rows_le
    (h : 3 ≤ maxLength)
    (is : List (Item α)) :
    (widest ((is.map (Item.row maxLength)).map Row.key) : ℤ) ≤ maxLength ∧
      (widest ((is.map (Item.row maxLength)).map Row.value) : ℤ) ≤ maxLength := by
  have hnat : ((maxLength.toNat : ℕ) : ℤ) = maxLength := Int.toNat_of_nonneg (by omega)
  have hcut : ∀ s, (truncate maxLength s).length ≤ maxLength.toNat := by
    intro s
    have hs := length_truncate_le h s
    omega
  rw [← hnat, Nat.cast_le, Nat.cast_le, hnat, widest_le_iff, widest_le_iff]
  simp only [List.forall_mem_map]
  constructor
  · intro i _
    rw [key_row]
    exact hcut _
  · intro i _
    rcases value_row maxLength i with hvalue | ⟨e, -, hvalue⟩
    · rw [hvalue]
      exact Nat.zero_le _
    · rw [hvalue]
      exact hcut _

/-- A text with the rows of items between two lines of dashes. -/
structure Framed (maxLength : ℤ) (is : List (Item α)) (text : String) (keyWidth valueWidth : ℕ) :
    Prop where
  text_eq :
    let dashes := String.ofList (List.replicate (keyWidth + valueWidth + 7) '-')
    text = String.intercalate "\n"
      (dashes :: is.map (fun i => line keyWidth valueWidth (i.row maxLength)) ++ [dashes]) ++ "\n"
  /-- The rows are as long as the dashes. -/
  length_row : ∀ i ∈ is,
    (line keyWidth valueWidth (i.row maxLength)).length = keyWidth + valueWidth + 7
  /-- Every row is a line. -/
  newline_not_mem : ∀ i ∈ is, '\n' ∉ (line keyWidth valueWidth (i.row maxLength)).toList
  /-- The length is bounded if the greatest length leaves room for the dots. -/
  width_le : 3 ≤ maxLength → (keyWidth + valueWidth + 7 : ℤ) ≤ 2 * maxLength + 7

theorem Arranged.framed
    (h : Arranged shown is)
    (hplain : ∀ e ∈ shown, e.Plain)
    (maxLength : ℤ) :
    ∃ keyWidth valueWidth, Framed maxLength is (textOf maxLength is) keyWidth valueWidth := by
  refine ⟨widest ((is.map (Item.row maxLength)).map Row.key),
    widest ((is.map (Item.row maxLength)).map Row.value), ?_, ?_, ?_, ?_⟩
  · have hrows : ∀ k v, (is.map (Item.row maxLength)).map (line k v) =
        is.map fun i => line k v (i.row maxLength) := fun _ _ => List.map_map
    unfold textOf lines
    dsimp only
    rw [hrows]
  · intro i hi
    exact length_line
      (length_le_widest (List.mem_map_of_mem (List.mem_map_of_mem hi)))
      (length_le_widest (List.mem_map_of_mem (List.mem_map_of_mem hi)))
  · intro i hi
    obtain ⟨hkey, hvalue⟩ := h.plain_row hplain hi
    exact newline_not_mem_line hkey hvalue _ _
  · intro hlength
    have hwidths := widest_rows_le hlength is
    omega

/-- **The layout of a table.**  Values and exclusions with the same keys, not all hidden, are
written as rows of arranged items: in ascending order one row for each entry with its own value that
its own exclusion does not hide, and one heading right above the first entry of each tag. -/
theorem write_arranges
    {values : List (String × LogValue α)} {exclusions : List (String × Exclusion)}
    (hkeys : SameKeys values exclusions)
    (hfigures : ∀ entry ∈ values, entry.2 ≠ .figure)
    (hplain : ∀ entry ∈ values,
      '\n' ∉ entry.1.toList ∧ ∀ cell ∈ entry.2.cell?, '\n' ∉ cell.toList)
    (hshown : ∃ entry ∈ exclusions, entry.2.hides = false)
    (maxLength : ℤ) :
    ∃ (shown : List (Entry α)) (is : List (Item α)) (text : String) (keyWidth valueWidth : ℕ),
      Ascending shown ∧
        (∀ e, e ∈ shown ↔ (e.key, e.value) ∈ values ∧ (e.key, e.exclusion) ∈ exclusions ∧
          e.exclusion.hides = false) ∧
        Arranged shown is ∧
        (∀ i ∈ is, i.Labelled) ∧
        write maxLength values exclusions = .ok (some text) ∧
        Framed maxLength is text keyWidth valueWidth := by
  have hmem := hkeys.mem_shownOf_iff
  have harranged := arranged_items (ascending_shownOf hkeys.nodup_left exclusions)
  have hwritable : ∀ e ∈ shownOf values exclusions, e.value ≠ .figure :=
    fun e he => hfigures _ ((hmem e).1 he).1
  have hlines : ∀ e ∈ shownOf values exclusions, e.Plain :=
    fun e he => hplain _ ((hmem e).1 he).1
  have hne : shownOf values exclusions ≠ [] := by
    obtain ⟨⟨key, exclusion⟩, hexclusion, hhides⟩ := hshown
    obtain ⟨⟨_, value⟩, hvalue, rfl⟩ :=
      List.mem_map.1 ((hkeys.mem_iff key).2 (List.mem_map.2 ⟨_, hexclusion, rfl⟩))
    exact List.ne_nil_of_mem ((hmem ⟨_, value, exclusion⟩).2 ⟨hvalue, hexclusion, hhides⟩)
  obtain ⟨keyWidth, valueWidth, hframed⟩ := harranged.framed hlines maxLength
  exact ⟨_, _, _, keyWidth, valueWidth, ascending_shownOf hkeys.nodup_left exclusions, hmem,
    harranged, fun i hi => harranged.labelled hi, render_eq hwritable hne maxLength, hframed⟩

/-- A value with a tag is shown below its heading. -/
theorem write_arranges_gap :
    ∃ (shown : List (Entry Machine)) (is : List (Item Machine)) (text : String)
        (keyWidth valueWidth : ℕ),
      Ascending shown ∧
        (∀ e, e ∈ shown ↔
          (e.key, e.value) ∈ [("newton/cost", .whole 3), ("gap", .text "closed")] ∧
            (e.key, e.exclusion) ∈ [("gap", .names ["tensorboard"]), ("newton/cost", .nothing)] ∧
            e.exclusion.hides = false) ∧
        Arranged shown is ∧
        (∀ i ∈ is, i.Labelled) ∧
        write 36 [("newton/cost", (.whole 3 : LogValue Machine)), ("gap", .text "closed")]
          [("gap", .names ["tensorboard"]), ("newton/cost", .nothing)] = .ok (some text) ∧
        Framed 36 is text keyWidth valueWidth := by
  refine write_arranges ⟨by decide, by decide, ?_⟩ ?_ ?_ ?_ 36
  · intro key
    simp [or_comm]
  · simp
  · simp only [List.forall_mem_cons, LogValue.cell?, LogValue.word, Option.mem_some_iff,
      forall_eq', Document.shown]
    decide
  · exact ⟨_, List.mem_cons_self, by decide⟩

/-- A key that begins with a slash has no tag; it is indented and cut off if the tag of the key
before occurs in it.  With less room than the dots take, a text that is cut off grows. -/
theorem write_carries_tag :
    (tag? "/-/y".toList = none ∧
      ∃ text, write 36 [("-/x", (.whole 1 : LogValue Machine)), ("/-/y", .whole 2)]
          [("-/x", .nothing), ("/-/y", .nothing)] = .ok (some text) ∧
        text = "-------------\n| -/    |   |\n|    x  | 1 |\n|    /y | 2 |\n-------------\n" ∧
        ¬ "/-/y".toList <:+: text.toList) ∧
      write 2 [("gap", (.whole 1 : LogValue Machine))] [("gap", .nothing)] =
        .ok (some "-------------\n| ga... | 1 |\n-------------\n") ∧
      2 * 2 + 7 < "-------------".length := by
  refine ⟨⟨by decide, _, ?_, rfl, ?_⟩, ?_, by decide⟩
  · rw [write, pairs, sorted_eq_self (by decide), sorted_eq_self (by decide)]
    decide +kernel
  · rw [← Exclusion.occursIn_iff]
    decide +kernel
  · rw [write, pairs, sorted_eq_self (by decide), sorted_eq_self (by decide)]
    decide +kernel

end Layout

end Table
end ConvexContact
