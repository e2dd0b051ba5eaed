import Mathlib
import ConvexContact.Log.Table

/-!
# Tags of keys

**Tags.**  A key has a tag if it has a slash behind its first character; the key is the tag followed
by a name (`Table.tag?_eq_some_iff`, `Table.tag?_eq_none_iff`).

**Order.**  In ascending order of the characters, the keys with a common beginning stand together,
so that a key between two keys of one tag has this tag (`Table.tag?_of_between`).

**Occurrence.**  A tag occurs in a key without a tag only if that key begins with a slash
(`Table.head?_of_occursIn`).
-/

namespace ConvexContact

/-- A list of characters occurs within another one if it is a contiguous part of it. -/
theorem Exclusion.occursIn_iff
    {needle text : List Char} :
    occursIn needle text = true ↔ needle <:+: text := by
  induction text with
  | nil =>
      simp [occursIn]
  | cons c rest ih =>
      rw [occursIn, Bool.or_eq_true, ih, List.isPrefixOf_iff_prefix, List.infix_cons_iff]

namespace Table

section Tags

variable {key tag : List Char}

/-- A key with a tag is the tag followed by the rest of the key. -/
theorem tag?_eq_some_iff :
    tag? key = some tag ↔
      ∃ name rest, name ≠ [] ∧ '/' ∉ name ∧ tag = name ++ ['/'] ∧ key = tag ++ rest := by
  constructor
  · intro h
    unfold tag? at h
    dsimp only at h
    split_ifs at h with hnone
    cases h
    rw [Bool.or_eq_true, List.isEmpty_iff, decide_eq_true_eq, not_or] at hnone
    obtain ⟨hname, hlength⟩ := hnone
    have hsplit := List.takeWhile_append_dropWhile (p := fun c => decide (c ≠ '/')) (l := key)
    cases hrest : key.dropWhile fun c => decide (c ≠ '/') with
    | nil =>
        rw [hrest, List.append_nil] at hsplit
        exact absurd (congrArg List.length hsplit) hlength
    | cons c rest =>
        have hc : c = '/' := by
          have hhead := List.head?_dropWhile_not (fun c => decide (c ≠ '/')) key
          rw [hrest] at hhead
          simpa using hhead
        subst hc
        refine ⟨_, rest, hname, ?_, rfl, ?_⟩
        · intro hmem
          simpa using List.mem_takeWhile_imp hmem
        · rw [List.append_assoc, List.singleton_append, ← hrest, hsplit]
  · rintro ⟨name, rest, hname, hslash, rfl, rfl⟩
    have htake : (name ++ ['/'] ++ rest).takeWhile (fun c => decide (c ≠ '/')) = name := by
      rw [List.append_assoc, List.takeWhile_append_of_pos]
      · simp
      · intro c hc
        have hne : c ≠ '/' := by
          rintro rfl
          exact hslash hc
        simpa using hne
    unfold tag?
    dsimp only
    rw [htake, if_neg]
    simp [hname]

/-- A key has no tag if it has no slash, or begins with one. -/
theorem tag?_eq_none_iff :
    tag? key = none ↔ '/' ∉ key ∨ key.head? = some '/' := by
  constructor
  · intro h
    by_contra hslash
    rw [not_or, not_not] at hslash
    obtain ⟨name, rest, rfl, hname⟩ := List.eq_append_cons_of_mem hslash.1
    have hne : name ≠ [] := by
      rintro rfl
      exact hslash.2 rfl
    have hsome : tag? (name ++ '/' :: rest) = some (name ++ ['/']) :=
      tag?_eq_some_iff.2 ⟨name, rest, hne, hname, rfl, by simp⟩
    rw [hsome] at h
    cases h
  · intro h
    by_contra hsome
    obtain ⟨tag, htag⟩ := Option.ne_none_iff_exists'.1 hsome
    obtain ⟨name, rest, hname, hslash, rfl, rfl⟩ := tag?_eq_some_iff.1 htag
    rcases h with h | h
    · exact h (by simp)
    · obtain ⟨c, name, rfl⟩ := List.exists_cons_of_ne_nil hname
      simp at h
      exact hslash (by simp [h])

theorem prefix_of_tag?
    (h : tag? key = some tag) :
    tag <+: key := by
  obtain ⟨name, rest, -, -, -, rfl⟩ := tag?_eq_some_iff.1 h
  exact List.prefix_append tag rest

/-- All keys that begin with a tag have this tag. -/
theorem tag?_of_isPrefix
    {other : List Char}
    (h : tag? key = some tag)
    (hstart : tag <+: other) :
    tag? other = some tag := by
  obtain ⟨name, -, hname, hslash, htag, -⟩ := tag?_eq_some_iff.1 h
  obtain ⟨rest, rfl⟩ := hstart
  exact tag?_eq_some_iff.2 ⟨name, rest, hname, hslash, htag, rfl⟩

/-- What lies between two lists with a common beginning has the same beginning. -/
theorem prefix_of_between
    {a b c : List Char}
    (ha : tag <+: a)
    (hc : tag <+: c)
    (hab : a < b)
    (hbc : b < c) :
    tag <+: b := by
  induction tag generalizing a b c with
  | nil =>
      exact List.nil_prefix
  | cons x tag ih =>
      obtain ⟨a, rfl⟩ := ha
      obtain ⟨c, rfl⟩ := hc
      cases b with
      | nil =>
          exact absurd hab (List.not_lt_nil _)
      | cons y b =>
          rw [List.cons_append, List.cons_lt_cons_iff] at hab hbc
          obtain ⟨rfl, hab, hbc⟩ : x = y ∧ tag ++ a < b ∧ b < tag ++ c := by
            rcases hab with hab | ⟨rfl, hab⟩
            · rcases hbc with hbc | ⟨rfl, hbc⟩
              · exact absurd (hab.trans hbc) (lt_irrefl x)
              · exact absurd hab (lt_irrefl _)
            · rcases hbc with hbc | ⟨-, hbc⟩
              · exact absurd hbc (lt_irrefl x)
              · exact ⟨rfl, hab, hbc⟩
          exact List.cons_prefix_cons.2
            ⟨rfl, ih (List.prefix_append tag a) (List.prefix_append tag c) hab hbc⟩

/-- A key between two keys of one tag has this tag. -/
theorem tag?_of_between
    {a b c : List Char}
    (ha : tag? a = some tag)
    (hc : tag? c = some tag)
    (hab : a < b)
    (hbc : b < c) :
    tag? b = some tag :=
  tag?_of_isPrefix ha (prefix_of_between (prefix_of_tag? ha) (prefix_of_tag? hc) hab hbc)

/-- A tag occurs in a key that has a tag itself, or that begins with a slash. -/
theorem head?_of_occursIn
    {other : List Char}
    (hother : tag? other = some tag)
    (hkey : tag? key = none)
    (h : Exclusion.occursIn tag key = true) :
    key.head? = some '/' := by
  obtain ⟨name, -, -, -, rfl, -⟩ := tag?_eq_some_iff.1 hother
  rcases tag?_eq_none_iff.1 hkey with hslash | hhead
  · exact absurd ((Exclusion.occursIn_iff.1 h).subset (by simp)) hslash
  · exact hhead

end Tags

end Table
end ConvexContact
