import ConvexContact.Blocks

/-!
# Partial permutations

A partial permutation of the indices `0, …, N - 1` selects some of them and puts them in a new
order: the selected index number `k` is placed at `k`.  Indices that are not selected are absent.

**Representation.**  The size of the domain and the list of selected indices.  That the list has
no repetitions and stays within the domain is part of the type.

**Operations.**  Lookup in both directions, composition, expansion of a permutation of blocks to
the scalars in the blocks, and the passage between lists over the domain (`gather`) and lists over
the selected indices (`scatter`).
-/

namespace ConvexContact

/-- A selection of indices below `domainSize`, in the order of their new places. -/
structure PartialPermutation where
  domainSize : Nat
  inverse : List Nat
  nodup_inverse : inverse.Nodup
  lt_domainSize : ∀ i ∈ inverse, i < domainSize
  deriving DecidableEq

namespace PartialPermutation

/-- Number of selected indices. -/
def permutedSize (p : PartialPermutation) : Nat :=
  p.inverse.length

/-- The first reason to refuse a selection, given the indices seen before. -/
def selectionFault? (size : Nat) (seen : List Int) : List Int → Option Error
  | [] => none
  | i :: rest =>
      if i < 0 ∨ (size : Int) ≤ i then some (.selectedOutOfRange i size)
      else if i ∈ seen then some (.selectedTwice i)
      else selectionFault? size (i :: seen) rest

/-- A selection is refused unless its indices are in the domain and differ from each other. -/
theorem selectionFault?_eq_none_iff (size : Nat) (seen selected : List Int) :
    selectionFault? size seen selected = none ↔
      (∀ i ∈ selected, 0 ≤ i ∧ i < size ∧ i ∉ seen) ∧ selected.Nodup := by
  induction selected generalizing seen with
  | nil => simp [selectionFault?]
  | cons i rest ih =>
      unfold selectionFault?
      split
      · rename_i h
        simp only [reduceCtorEq, false_iff, not_and]
        intro hall
        have := hall i List.mem_cons_self
        omega
      · rename_i h
        split
        · rename_i hseen
          simp only [reduceCtorEq, false_iff, not_and]
          intro hall
          exact absurd hseen (hall i List.mem_cons_self).2.2
        · rename_i hseen
          rw [ih]
          simp only [List.mem_cons, not_or, List.nodup_cons]
          constructor
          · rintro ⟨hall, hnodup⟩
            refine ⟨?_, ?_, hnodup⟩
            · rintro j (rfl | hj)
              · exact ⟨by omega, by omega, hseen⟩
              · exact ⟨(hall j hj).1, (hall j hj).2.1, (hall j hj).2.2.2⟩
            · intro hi
              exact (hall i hi).2.2.1 rfl
          · rintro ⟨hall, hi, hnodup⟩
            refine ⟨?_, hnodup⟩
            intro j hj
            have := hall j (Or.inr hj)
            refine ⟨this.1, this.2.1, ?_, this.2.2⟩
            rintro rfl
            exact hi hj

/-- An accepted selection has no repetitions. -/
theorem nodup_map_toNat {size : Nat} {selected : List Int}
    (h : selectionFault? size [] selected = none) : (selected.map Int.toNat).Nodup := by
  obtain ⟨hall, hnodup⟩ := (selectionFault?_eq_none_iff size [] selected).1 h
  clear h
  induction selected with
  | nil => exact List.nodup_nil
  | cons i rest ih =>
      rw [List.nodup_cons] at hnodup
      rw [List.map_cons, List.nodup_cons]
      refine ⟨?_, ih (fun j hj => hall j (List.mem_cons_of_mem i hj)) hnodup.2⟩
      intro hi
      obtain ⟨j, hj, heq⟩ := List.mem_map.1 hi
      have hi0 := (hall i List.mem_cons_self).1
      have hj0 := (hall j (List.mem_cons_of_mem i hj)).1
      have : j = i := by omega
      exact hnodup.1 (this ▸ hj)

/-- An accepted selection stays within the domain. -/
theorem lt_of_mem_map_toNat {size : Nat} {selected : List Int}
    (h : selectionFault? size [] selected = none) :
    ∀ i ∈ selected.map Int.toNat, i < size := by
  intro i hi
  obtain ⟨j, hj, rfl⟩ := List.mem_map.1 hi
  have := ((selectionFault?_eq_none_iff size [] selected).1 h).1 j hj
  omega

/-- The partial permutation that puts the selected indices in the given order. -/
def ofSelected (size : Int) (selected : List Int) : Except Error PartialPermutation :=
  if size < 0 then .error (.negativeDomain size)
  else
    match h : selectionFault? size.toNat [] selected with
    | some e => .error e
    | none => .ok
        ⟨size.toNat, selected.map Int.toNat, nodup_map_toNat h, lt_of_mem_map_toNat h⟩

/-- The permutation that selects every index and changes no place. -/
def identity (size : Nat) : PartialPermutation where
  domainSize := size
  inverse := List.range size
  nodup_inverse := List.nodup_range
  lt_domainSize := fun _ h => List.mem_range.1 h

/-- The permutation of a domain of the given size that changes no place. -/
def ofSize (size : Int) : Except Error PartialPermutation :=
  if size < 0 then .error (.negativeDomain size) else .ok (identity size.toNat)

/-- The first reason to refuse a list of new places, given the places seen before; `count` is the
number of places that are to be filled. -/
def placesFault? (count : Nat) (seen : List Int) : Nat → List Int → Option Error
  | _, [] => none
  | element, k :: rest =>
      if k < -1 then some (.invalidPermutedIndex k element)
      else if k = -1 then placesFault? count seen (element + 1) rest
      else if (count : Int) ≤ k ∨ k ∈ seen then
        some (.notOntoPermutedIndices count element k)
      else placesFault? count (k :: seen) (element + 1) rest

/-- The partial permutation with the given list of new places, where `-1` stands for an absent
index. -/
def ofPermutation (places : List Int) : Except Error PartialPermutation :=
  let count := places.countP (0 ≤ ·)
  match placesFault? count [] 0 places with
  | some e => .error e
  | none =>
      ofSelected places.length
        ((List.range count).map fun (k : Nat) => (places.idxOf (k : Int) : Int))

/-- The new place of an index, if it is selected. -/
def place? (p : PartialPermutation) (i : Nat) : Option Nat :=
  p.inverse.idxOf? i

/-- The new places of all indices, where `-1` stands for an absent index. -/
def permutation (p : PartialPermutation) : List Int :=
  (List.range p.domainSize).map fun i =>
    match p.place? i with
    | some k => k
    | none => -1

/-- The new place of an index of the domain, if it is selected. -/
def findPermutedIndex (p : PartialPermutation) (i : Int) : Except Error (Option Nat) :=
  if i < 0 ∨ (p.domainSize : Int) ≤ i then .error (.domainIndexOutOfRange i p.domainSize)
  else .ok (p.place? i.toNat)

/-- Whether an index of the domain is selected. -/
def participates (p : PartialPermutation) (i : Int) : Except Error Bool :=
  (p.findPermutedIndex i).map Option.isSome

/-- The new place of a selected index. -/
def permutedIndex (p : PartialPermutation) (i : Int) : Except Error Nat := do
  match ← p.findPermutedIndex i with
  | some k => .ok k
  | none => .error (.notParticipating i)

/-- The index at a new place. -/
def domainIndex (p : PartialPermutation) (k : Int) : Except Error Nat :=
  if k < 0 then .error (.permutedIndexOutOfRange k p.permutedSize)
  else match p.inverse[k.toNat]? with
    | some i => .ok i
    | none => .error (.permutedIndexOutOfRange k p.permutedSize)

/-- The permutation that applies `p` first and then `q`, whose domain has to be the list of places
of `p`. -/
def compose (p q : PartialPermutation) : Except Error PartialPermutation :=
  if q.domainSize ≠ p.permutedSize then
    .error (.compositionMismatch p.permutedSize q.domainSize)
  else ofSelected p.domainSize
    (q.inverse.filterMap fun k => (p.inverse[k]?).map fun (i : Nat) => (i : Int))

/-- The entries of the blocks at the given positions, as positions in the concatenation of all
blocks. -/
def blockEntries (sizes : List Nat) (i : Nat) : List Nat :=
  List.range' (totalSize (sizes.take i)) (sizes.getD i 0)

/-- The permutation of the scalars in blocks that moves every block as a whole. -/
def expand (p : PartialPermutation) (sizes : List Int) : Except Error PartialPermutation :=
  if sizes.length ≠ p.domainSize then
    .error (.blockCountMismatch p.domainSize sizes.length)
  else match sizes.find? (· < 0) with
    | some n => .error (.negativeBlockSize n)
    | none =>
        let counts := sizes.map Int.toNat
        ofSelected (totalSize counts)
          ((p.inverse.flatMap (blockEntries counts)).map fun (i : Nat) => (i : Int))

/-- The entries at the selected indices, in their new order. -/
def gather {β : Type} (p : PartialPermutation) (xs : List β) : List β :=
  p.inverse.filterMap (xs[·]?)

/-- A list over the domain with the entries at the selected indices replaced. -/
def scatter {β : Type} (p : PartialPermutation) (values base : List β) : List β :=
  base.mapIdx fun i x =>
    match p.place? i with
    | some k => values.getD k x
    | none => x

/-- The text of a list of numbers in square brackets. -/
def listText (xs : List Nat) : String :=
  "[" ++ String.intercalate ", " (xs.map toString) ++ "]"

/-- The text that describes a partial permutation. -/
def text (p : PartialPermutation) : String :=
  s!"PartialPermutation(domain_size={p.domainSize}, selected=" ++ listText p.inverse ++ ")"

end PartialPermutation

end ConvexContact
