import Mathlib
import ConvexContact.Proofs.LogTags
import ConvexContact.Proofs.Outcomes

/-!
# Items of log tables

**Items.**  A row of a table is a heading, an entry below the heading of its tag, or an entry
without a tag (`Table.Item`).  The rows of a list of entries are those of its items
(`Table.rowsFrom_eq_ok`), unless a figure is among the entries to be shown
(`Table.rowsFrom_eq_error`).

**Arrangement.**  If the keys ascend, every entry to be shown has one row, every tag has one
heading, and the entries of a tag stand right below its heading (`Table.arranged_items`).  The
proof adds one entry at a time: an entry whose tag has a heading stands behind one with the same
tag, since the keys of a tag are contiguous.

**Labels.**  An entry with a tag is indented and shown without the tag.  An entry without one is
shown whole, unless the tag of the last heading occurs in its key (`Table.Arranged.labelled`).
-/

namespace ConvexContact
namespace Table

variable {α : Type}

/-- The tag of an entry. -/
def Entry.tag? (e : Entry α) : Option (List Char) :=
  Table.tag? e.key.toList

/-- What a row of a table stands for. -/
inductive Item (α : Type)
  /-- A tag that is shown alone. -/
  | heading (tag : List Char)
  /-- An entry below the heading of its tag. -/
  | member (tag : List Char) (e : Entry α)
  /-- An entry without a tag; the tag of the last heading above may occur in its key. -/
  | single (carried : Option (List Char)) (e : Entry α)

namespace Item

def heading? : Item α → Option (List Char)
  | heading tag => some tag
  | _ => none

def entry? : Item α → Option (Entry α)
  | heading _ => none
  | member _ e => some e
  | single _ e => some e

/-- The text in the column of the keys, before it is cut off. -/
def label : Item α → String
  | heading tag => String.ofList tag
  | member tag e => "   " ++ String.ofList (e.key.toList.drop tag.length)
  | single carried e => shownKey carried e.key.toList

/-- The row of an item. -/
def row [Shown α] (maxLength : ℤ) : Item α → Row
  | heading tag => ⟨truncate maxLength (heading tag : Item α).label, ""⟩
  | member tag e =>
      ⟨truncate maxLength (member tag e).label, truncate maxLength (e.value.cell?.getD "")⟩
  | single carried e =>
      ⟨truncate maxLength (single carried e).label, truncate maxLength (e.value.cell?.getD "")⟩

end Item

/-- The items for entries that are all shown, given the tag of the entry before and the tags that
have a heading. -/
def itemsFrom (current : Option (List Char)) (tags : List (List Char)) :
    List (Entry α) → List (Item α)
  | [] => []
  | e :: rest =>
      match e.tag? with
      | none => .single current e :: itemsFrom current tags rest
      | some tag =>
          if tags.contains tag then .member tag e :: itemsFrom (some tag) tags rest
          else .heading tag :: .member tag e :: itemsFrom (some tag) (tag :: tags) rest

/-- The items for entries that are all shown. -/
def items (shown : List (Entry α)) : List (Item α) :=
  itemsFrom none [] shown

/-- The entries that are not excluded from tables. -/
def visible (entries : List (Entry α)) : List (Entry α) :=
  entries.filter fun e => !e.exclusion.hides

section Rows

variable [Shown α]

/-- Only figures cannot be written. -/
theorem cell?_eq_none_iff
    {value : LogValue α} :
    value.cell? = none ↔ value = .figure := by
  cases value with
  | tensor t =>
      rw [LogValue.cell?.eq_def]
      dsimp only
      split <;> simp
  | _ => simp [LogValue.cell?]

/-- The rows of entries are those of their items, if there is no figure to be shown. -/
theorem rowsFrom_eq_ok
    {entries : List (Entry α)}
    (h : ∀ e ∈ visible entries, e.value ≠ .figure)
    (maxLength : ℤ) (current : Option (List Char)) (tags : List (List Char)) :
    rowsFrom maxLength current tags entries =
      .ok ((itemsFrom current tags (visible entries)).map (Item.row maxLength)) := by
  induction entries generalizing current tags with
  | nil =>
      rfl
  | cons e rest ih =>
      by_cases hhides : e.exclusion.hides
      · have hvisible : visible (e :: rest) = visible rest :=
          List.filter_cons_of_neg (by simp [hhides])
        rw [hvisible] at h ⊢
        rw [rowsFrom, if_pos hhides, ih h]
      · have hvisible : visible (e :: rest) = e :: visible rest :=
          List.filter_cons_of_pos (by simpa using hhides)
        rw [hvisible] at h ⊢
        obtain ⟨cell, hcell⟩ := Option.ne_none_iff_exists'.1
          (cell?_eq_none_iff.not.2 (h e List.mem_cons_self))
        have hrest := fun current tags =>
          ih (fun e he => h e (List.mem_cons_of_mem _ he)) current tags
        rw [rowsFrom, if_neg hhides, hcell]
        dsimp only
        rw [itemsFrom, Entry.tag?]
        cases htag : Table.tag? e.key.toList with
        | none =>
            dsimp only
            rw [hrest, Outcome.ok_bind, List.map_cons, Item.row, hcell]
            rfl
        | some tag =>
            have hlabel : shownKey (some tag) e.key.toList = (Item.member tag e).label := by
              have hoccurs : Exclusion.occursIn tag e.key.toList = true :=
                Exclusion.occursIn_iff.2 (prefix_of_tag? htag).isInfix
              unfold shownKey
              exact if_pos hoccurs
            dsimp only
            rw [hlabel]
            by_cases hseen : tags.contains tag
            · rw [if_pos hseen, if_pos hseen, hrest, Outcome.ok_bind, List.map_cons, Item.row,
                hcell]
              rfl
            · rw [if_neg hseen, if_neg hseen, hrest, Outcome.ok_bind, List.map_cons, List.map_cons,
                Item.row, Item.row, hcell]
              rfl

/-- A figure among the entries to be shown is refused. -/
theorem rowsFrom_eq_error
    {entries : List (Entry α)} {e : Entry α}
    (he : e ∈ visible entries)
    (hfigure : e.value = .figure)
    (maxLength : ℤ) (current : Option (List Char)) (tags : List (List Char)) :
    rowsFrom maxLength current tags entries = .error .figureNotWritable := by
  induction entries generalizing current tags with
  | nil =>
      cases he
  | cons e' rest ih =>
      by_cases hhides : e'.exclusion.hides
      · have hvisible : visible (e' :: rest) = visible rest :=
          List.filter_cons_of_neg (by simp [hhides])
        rw [hvisible] at he
        rw [rowsFrom, if_pos hhides, ih he]
      · have hvisible : visible (e' :: rest) = e' :: visible rest :=
          List.filter_cons_of_pos (by simpa using hhides)
        rw [hvisible] at he
        rw [rowsFrom, if_neg hhides]
        cases hcell : e'.value.cell? with
        | none =>
            rfl
        | some cell =>
            have hrest : e ∈ visible rest := by
              rcases List.mem_cons.1 he with rfl | he
              · rw [hfigure] at hcell
                cases hcell
              · exact he
            dsimp only
            cases tag? e'.key.toList with
            | none =>
                dsimp only
                rw [ih hrest]
                rfl
            | some tag =>
                dsimp only
                rw [ih hrest, ih hrest]
                split_ifs <;> rfl

end Rows

section Arrangement

/-- The tags of entries, in their order. -/
def tagsOf (entries : List (Entry α)) : List (List Char) :=
  entries.filterMap Entry.tag?

/-- The items that one more entry adds. -/
def block (before : List (Entry α)) (e : Entry α) : List (Item α) :=
  match e.tag? with
  | none => [.single (tagsOf before).getLast? e]
  | some tag => if tag ∈ tagsOf before then [.member tag e] else [.heading tag, .member tag e]

theorem itemsFrom_concat
    (current : Option (List Char)) (tags : List (List Char)) (before : List (Entry α))
    (e : Entry α) :
    itemsFrom current tags (before ++ [e]) =
      itemsFrom current tags before ++
        match e.tag? with
        | none => [.single ((tagsOf before).getLast?.or current) e]
        | some tag =>
            if tag ∈ tags ∨ tag ∈ tagsOf before then [.member tag e]
            else [.heading tag, .member tag e] := by
  induction before generalizing current tags with
  | nil =>
      cases htag : e.tag? <;> simp [itemsFrom, tagsOf, htag]
  | cons e' before ih =>
      rw [List.cons_append, itemsFrom, itemsFrom]
      cases htag : e'.tag? with
      | none =>
          have htags : tagsOf (e' :: before) = tagsOf before :=
            List.filterMap_cons_none htag
          dsimp only
          rw [ih, htags]
          rfl
      | some tag' =>
          have htags : tagsOf (e' :: before) = tag' :: tagsOf before :=
            List.filterMap_cons_some htag
          have hlast : (tag' :: tagsOf before).getLast?.or current =
              (tagsOf before).getLast?.or (some tag') := by
            rw [List.getLast?_cons]
            cases (tagsOf before).getLast? <;> rfl
          dsimp only
          rw [htags, hlast]
          by_cases hseen : tags.contains tag'
          · have hmem : ∀ tag, tag ∈ tags ∨ tag ∈ tag' :: tagsOf before ↔
                tag ∈ tags ∨ tag ∈ tagsOf before := by
              intro tag
              rw [List.mem_cons]
              constructor
              · rintro (h | rfl | h)
                · exact .inl h
                · exact .inl (List.contains_iff_mem.1 hseen)
                · exact .inr h
              · exact Or.imp_right .inr
            rw [if_pos hseen, if_pos hseen, ih]
            simp only [hmem]
            rfl
          · have hmem : ∀ tag, tag ∈ tags ∨ tag ∈ tag' :: tagsOf before ↔
                tag ∈ tag' :: tags ∨ tag ∈ tagsOf before := by
              intro tag
              rw [List.mem_cons, List.mem_cons]
              tauto
            rw [if_neg hseen, if_neg hseen, ih]
            simp only [hmem]
            rfl

/-- One more entry adds its block. -/
theorem items_concat
    (before : List (Entry α)) (e : Entry α) :
    items (before ++ [e]) = items before ++ block before e := by
  unfold items block
  rw [itemsFrom_concat]
  simp only [List.not_mem_nil, false_or, Option.or_none]

/-- What an item requires of the items above it. -/
def Item.Placed (above : List (Item α)) : Item α → Prop
  -- A heading stands above all entries with its tag.
  | heading tag => tag ∉ tagsOf (above.filterMap entry?)
  -- Between an entry and the heading of its tag stand only entries with this tag.
  | member tag e =>
      e.tag? = some tag ∧ ∃ top between, above = top ++ heading tag :: between ∧
        ∀ i ∈ between, ∃ e', i = member tag e'
  -- An entry without a tag goes with the last heading above it.
  | single carried e => e.tag? = none ∧ carried = (above.filterMap heading?).getLast?

/-- How items stand for the entries that are shown. -/
structure Arranged (shown : List (Entry α)) (is : List (Item α)) : Prop where
  /-- Every entry has one item, in the order of the entries. -/
  entries_eq : is.filterMap Item.entry? = shown
  /-- No tag has two headings. -/
  nodup_headings : (is.filterMap Item.heading?).Nodup
  /-- The tags of the entries have headings. -/
  mem_headings_iff : ∀ tag, tag ∈ is.filterMap Item.heading? ↔ tag ∈ tagsOf shown
  /-- The last heading is that of the last entry with a tag. -/
  last_heading : (is.filterMap Item.heading?).getLast? = (tagsOf shown).getLast?
  /-- Every item has its place. -/
  placed : ∀ above i, above ++ [i] <+: is → i.Placed above
  /-- A heading stands right above an entry with its tag. -/
  headed : ∀ above tag, above ++ [.heading tag] <+: is →
    ∃ e, above ++ [.heading tag, .member tag e] <+: is

theorem tagsOf_concat_of_none
    {before : List (Entry α)} {e : Entry α}
    (h : e.tag? = none) :
    tagsOf (before ++ [e]) = tagsOf before := by
  rw [tagsOf, List.filterMap_append, List.filterMap_cons_none h]
  exact List.append_nil _

theorem tagsOf_concat_of_some
    {before : List (Entry α)} {e : Entry α} {tag : List Char}
    (h : e.tag? = some tag) :
    tagsOf (before ++ [e]) = tagsOf before ++ [tag] := by
  rw [tagsOf, List.filterMap_append, List.filterMap_cons_some h]
  rfl

theorem concat_prefix_concat_iff
    {β : Type} {xs ys : List β} {x y : β} :
    xs ++ [x] <+: ys ++ [y] ↔ (xs = ys ∧ x = y) ∨ xs ++ [x] <+: ys := by
  rw [List.prefix_concat_iff]
  constructor
  · rintro (h | h)
    · obtain ⟨hinit, hlast⟩ := List.append_inj' h rfl
      exact .inl ⟨hinit, List.singleton_inj.1 hlast⟩
    · exact .inr h
  · rintro (⟨rfl, rfl⟩ | h)
    · exact .inl rfl
    · exact .inr h

/-- Every item of a list has its place if those before the last one have, and the last one has. -/
theorem placed_concat
    {is : List (Item α)} {x : Item α}
    (h : ∀ above i, above ++ [i] <+: is → i.Placed above)
    (hx : x.Placed is) :
    ∀ above i, above ++ [i] <+: is ++ [x] → i.Placed above := by
  intro above i hstart
  rcases concat_prefix_concat_iff.1 hstart with ⟨rfl, rfl⟩ | hstart
  · exact hx
  · exact h above i hstart

namespace Arranged

variable {shown : List (Entry α)} {is : List (Item α)} {e : Entry α} {tag : List Char}

theorem nil : Arranged ([] : List (Entry α)) [] where
  entries_eq := rfl
  nodup_headings := List.nodup_nil
  mem_headings_iff _ := Iff.rfl
  last_heading := rfl
  placed _ _ h := absurd h (by simp)
  headed _ _ h := absurd h (by simp)

/-- Headings keep the entry below them if an item that is no heading is added. -/
theorem headed_concat
    (h : Arranged shown is)
    {x : Item α}
    (hx : x.heading? = none) :
    ∀ above tag, above ++ [.heading tag] <+: is ++ [x] →
      ∃ e, above ++ [.heading tag, .member tag e] <+: is ++ [x] := by
  intro above tag hstart
  rcases concat_prefix_concat_iff.1 hstart with ⟨-, rfl⟩ | hstart
  · cases hx
  · exact (h.headed above tag hstart).imp fun e he => he.trans (List.prefix_append _ _)

/-- An entry without a tag is added. -/
theorem concat_single
    (h : Arranged shown is)
    (he : e.tag? = none) :
    Arranged (shown ++ [e]) (is ++ [.single (tagsOf shown).getLast? e]) := by
  have hheadings : (is ++ [Item.single (tagsOf shown).getLast? e]).filterMap Item.heading? =
      is.filterMap Item.heading? := by
    rw [List.filterMap_append]
    exact List.append_nil _
  refine ⟨?_, ?_, ?_, ?_, placed_concat h.placed ⟨he, h.last_heading.symm⟩, h.headed_concat rfl⟩
  · rw [List.filterMap_append, h.entries_eq]
    rfl
  · rw [hheadings]
    exact h.nodup_headings
  · rw [hheadings, tagsOf_concat_of_none he]
    exact h.mem_headings_iff
  · rw [hheadings, tagsOf_concat_of_none he]
    exact h.last_heading

/-- An entry is added whose tag is that of the item before. -/
theorem concat_member
    {init : List (Item α)} {last : Entry α}
    (h : Arranged shown (init ++ [.member tag last]))
    (he : e.tag? = some tag) :
    Arranged (shown ++ [e]) (init ++ [.member tag last] ++ [.member tag e]) := by
  obtain ⟨hlast, top, between, hsplit, hbetween⟩ := h.placed init _ List.prefix_rfl
  have hheadings :
      (init ++ [Item.member tag last] ++ [Item.member tag e]).filterMap Item.heading? =
        (init ++ [Item.member tag last]).filterMap Item.heading? := by
    rw [List.filterMap_append]
    exact List.append_nil _
  obtain ⟨rest, hrest⟩ : ∃ rest, tagsOf shown = rest ++ [tag] := by
    rw [← h.entries_eq, List.filterMap_append]
    exact ⟨_, tagsOf_concat_of_some hlast⟩
  refine ⟨?_, ?_, ?_, ?_, placed_concat h.placed ⟨he, top, between ++ [.member tag last], ?_, ?_⟩,
    h.headed_concat rfl⟩
  · rw [List.filterMap_append, h.entries_eq]
    rfl
  · rw [hheadings]
    exact h.nodup_headings
  · intro tag'
    rw [hheadings, tagsOf_concat_of_some he, h.mem_headings_iff, hrest]
    simp
  · rw [hheadings, tagsOf_concat_of_some he, h.last_heading, hrest]
    simp
  · rw [hsplit]
    simp
  · intro i hi
    rcases List.mem_append.1 hi with hi | hi
    · exact hbetween i hi
    · exact ⟨last, List.mem_singleton.1 hi⟩

/-- An entry with a new tag is added below its heading. -/
theorem concat_heading
    (h : Arranged shown is)
    (he : e.tag? = some tag)
    (hnew : tag ∉ tagsOf shown) :
    Arranged (shown ++ [e]) (is ++ [.heading tag] ++ [.member tag e]) := by
  have hheadings : (is ++ [Item.heading tag] ++ [Item.member tag e]).filterMap Item.heading? =
      is.filterMap Item.heading? ++ [tag] := by
    rw [List.filterMap_append, List.filterMap_append]
    exact List.append_nil _
  have hplaced : (Item.heading tag : Item α).Placed is := by
    unfold Item.Placed
    rwa [h.entries_eq]
  refine ⟨?_, ?_, ?_, ?_, placed_concat (placed_concat h.placed hplaced) ⟨he, is, [], rfl, ?_⟩, ?_⟩
  · rw [List.filterMap_append, List.filterMap_append, h.entries_eq]
    simp [Item.entry?]
  · rw [hheadings, List.nodup_append]
    refine ⟨h.nodup_headings, List.nodup_singleton tag, ?_⟩
    rintro tag' htag' _ hmem rfl
    rw [List.mem_singleton.1 hmem] at htag'
    exact hnew ((h.mem_headings_iff _).1 htag')
  · intro tag'
    rw [hheadings, tagsOf_concat_of_some he, List.mem_append, List.mem_append, h.mem_headings_iff]
  · rw [hheadings, tagsOf_concat_of_some he, List.getLast?_concat, List.getLast?_concat]
  · intro i hi
    cases hi
  · intro above tag' hstart
    rcases concat_prefix_concat_iff.1 hstart with ⟨-, hitem⟩ | hstart
    · cases hitem
    rcases concat_prefix_concat_iff.1 hstart with ⟨rfl, hitem⟩ | hstart
    · obtain rfl := Item.heading.inj hitem
      exact ⟨e, by simp⟩
    · obtain ⟨e', he'⟩ := h.headed above tag' hstart
      exact ⟨e', (he'.trans (List.prefix_append _ _)).trans (List.prefix_append _ _)⟩

end Arranged

/-- The keys of entries ascend. -/
def Ascending (entries : List (Entry α)) : Prop :=
  entries.Pairwise fun a b => a.key < b.key

/-- In ascending order, an entry with a tag that was there before stands right below one. -/
theorem exists_last_of_mem_tagsOf
    {before : List (Entry α)} {e : Entry α} {tag : List Char}
    (hsorted : Ascending (before ++ [e]))
    (he : e.tag? = some tag)
    (hseen : tag ∈ tagsOf before) :
    ∃ init last, before = init ++ [last] ∧ last.tag? = some tag := by
  obtain ⟨a, ha, htag⟩ := List.mem_filterMap.1 hseen
  obtain ⟨init, last, rfl⟩ := (List.eq_nil_or_concat' before).resolve_left (List.ne_nil_of_mem ha)
  refine ⟨init, last, rfl, ?_⟩
  have hbefore : last.key < e.key :=
    (List.pairwise_append.1 hsorted).2.2 last (by simp) e (List.mem_singleton_self e)
  rcases List.mem_append.1 ha with ha | ha
  · have hafter : a.key < last.key :=
      (List.pairwise_append.1 (List.pairwise_append.1 hsorted).1).2.2 a ha last
        (List.mem_singleton_self last)
    exact tag?_of_between htag he (String.lt_iff_toList_lt.1 hafter)
      (String.lt_iff_toList_lt.1 hbefore)
  · obtain rfl := List.mem_singleton.1 ha
    exact htag

/-- **Ascending entries are arranged.** -/
theorem arranged_items
    {shown : List (Entry α)}
    (hsorted : Ascending shown) :
    Arranged shown (items shown) := by
  induction shown using List.reverseRecOn with
  | nil =>
      exact .nil
  | append_singleton before e ih =>
      have harranged := ih (List.pairwise_append.1 hsorted).1
      rw [items_concat, block]
      cases he : e.tag? with
      | none =>
          exact harranged.concat_single he
      | some tag =>
          dsimp only
          by_cases hseen : tag ∈ tagsOf before
          · obtain ⟨init, last, rfl, hlast⟩ := exists_last_of_mem_tagsOf hsorted he hseen
            obtain ⟨above, habove⟩ :
                ∃ above, items (init ++ [last]) = above ++ [.member tag last] := by
              rw [items_concat, block, hlast]
              dsimp only
              split_ifs
              · exact ⟨_, rfl⟩
              · exact ⟨items init ++ [.heading tag], by simp⟩
            rw [if_pos hseen]
            rw [habove] at harranged ⊢
            exact harranged.concat_member he
          · have hsplit : items before ++ [.heading tag, .member tag e] =
                items before ++ [.heading tag] ++ [.member tag e] :=
              List.append_cons _ _ _
            rw [if_neg hseen, hsplit]
            exact harranged.concat_heading he hseen

/-- Entries that are shown have items. -/
theorem items_ne_nil
    {shown : List (Entry α)}
    (h : shown ≠ []) :
    items shown ≠ [] := by
  obtain ⟨before, e, rfl⟩ := (List.eq_nil_or_concat' shown).resolve_left h
  rw [items_concat]
  apply List.append_ne_nil_of_right_ne_nil
  unfold block
  split
  · exact List.cons_ne_nil _ _
  · split_ifs <;> exact List.cons_ne_nil _ _

end Arrangement

section Labels

/-- How the key of an entry is shown. -/
def Item.Labelled : Item α → Prop
  | heading tag => (heading tag : Item α).label = String.ofList tag
  -- An entry with a tag is indented and shown without it.
  | member tag e => ∃ name, e.key.toList = tag ++ name ∧
      (member tag e).label = "   " ++ String.ofList name
  -- An entry without a tag is shown whole, unless its key begins with a slash and the tag of the
  -- last heading occurs in it: then it is indented, without as many characters as the tag has.
  | single carried e =>
      ((∀ tag ∈ carried, ¬ tag <:+: e.key.toList) ∧ (single carried e).label = e.key) ∨
        ∃ tag ∈ carried, tag <:+: e.key.toList ∧ e.key.toList.head? = some '/' ∧
          (single carried e).label = "   " ++ String.ofList (e.key.toList.drop tag.length)

namespace Arranged

variable {shown : List (Entry α)} {is : List (Item α)} {i : Item α}

theorem placed_of_mem
    (h : Arranged shown is)
    (hi : i ∈ is) :
    ∃ above, above ++ [i] <+: is ∧ i.Placed above := by
  obtain ⟨above, below, rfl⟩ := List.append_of_mem hi
  have hstart : above ++ [i] <+: above ++ i :: below :=
    ⟨below, by rw [List.append_assoc, List.singleton_append]⟩
  exact ⟨above, hstart, h.placed above i hstart⟩

theorem mem_shown
    (h : Arranged shown is)
    (hi : i ∈ is)
    {e : Entry α}
    (he : i.entry? = some e) :
    e ∈ shown := by
  rw [← h.entries_eq]
  exact List.mem_filterMap.2 ⟨i, hi, he⟩

/-- The keys of arranged entries are shown as described. -/
theorem labelled
    (h : Arranged shown is)
    (hi : i ∈ is) :
    i.Labelled := by
  obtain ⟨above, hstart, hplaced⟩ := h.placed_of_mem hi
  cases i with
  | heading tag =>
      rfl
  | member tag e =>
      obtain ⟨name, hname⟩ := prefix_of_tag? hplaced.1
      refine ⟨name, hname.symm, ?_⟩
      rw [Item.label, ← hname, List.drop_left]
  | single carried e =>
      obtain ⟨htag, hcarried⟩ := hplaced
      cases carried with
      | none =>
          exact .inl ⟨fun tag hmem => (Option.not_mem_none tag hmem).elim, String.ofList_toList⟩
      | some tag =>
          unfold Item.Labelled Item.label shownKey
          by_cases hoccurs : Exclusion.occursIn tag e.key.toList = true
          · -- The carried tag is that of another entry, since it has a heading above.
            have hheading : tag ∈ is.filterMap Item.heading? :=
              (((List.prefix_append above [_]).trans hstart).sublist.filterMap _).subset
                (List.mem_of_getLast? hcarried.symm)
            obtain ⟨other, -, hother⟩ := List.mem_filterMap.1 ((h.mem_headings_iff tag).1 hheading)
            exact .inr ⟨tag, rfl, Exclusion.occursIn_iff.1 hoccurs,
              head?_of_occursIn hother htag hoccurs, if_pos hoccurs⟩
          · refine .inl ⟨?_, ?_⟩
            · intro tag' htag' hwithin
              obtain rfl := Option.mem_some_iff.1 htag'
              exact hoccurs (Exclusion.occursIn_iff.2 hwithin)
            · dsimp only
              rw [if_neg hoccurs, String.ofList_toList]

end Arranged

end Labels

end Table
end ConvexContact
