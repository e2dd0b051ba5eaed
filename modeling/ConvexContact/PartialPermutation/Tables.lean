import ConvexContact.PartialPermutation

/-!
# Tables of partial permutations

A partial permutation in use has two tables: the new place of each index, `-1` if it is absent, and
the index at each new place.

**Making tables.**  A selection is entered index by index; each is checked against the table of
places that is being filled.  A list of new places is turned into a selection first, which has a
position for each place that occurs and nothing at the positions that are not filled.

**Equality.**  Only the tables of places are compared.
-/

namespace ConvexContact

/-- The two tables of a partial permutation. -/
structure IndexTables where
  /-- The new place of each index, `-1` for an absent one. -/
  places : List Int
  /-- The index at each new place. -/
  inverse : List Nat

namespace IndexTables

/-- Enters selected indices from a place on; nothing cannot be entered. -/
def enter (t : IndexTables) : Nat → List (Option Int) → Except Error IndexTables
  | _, [] => .ok t
  | _, none :: _ => .error .wrongType
  | k, some i :: rest =>
      if i < 0 ∨ (t.places.length : Int) ≤ i then .error (.selectedOutOfRange i t.places.length)
      else do
        let place ← entryAt? t.places i
        if 0 ≤ place then .error (.selectedTwice i)
        else enter ⟨t.places.set i.toNat k, t.inverse ++ [i.toNat]⟩ (k + 1) rest

/-- The tables of a selection of indices in the order of their new places. -/
def ofSelected (size : Int) (selected : List (Option Int)) : Except Error IndexTables :=
  if size < 0 then .error (.negativeDomain size)
  else enter ⟨List.replicate size.toNat (-1), []⟩ 0 selected

/-- Puts elements, from a given one on, at their new places; `count` places are to be filled. -/
def fill (count : Nat) : Nat → List (Option Int) → List Int → Except Error (List (Option Int))
  | _, selected, [] => .ok selected
  | element, selected, k :: rest =>
      if k < -1 then .error (.invalidPermutedIndex k element)
      else if k = -1 then fill count (element + 1) selected rest
      else if (count : Int) ≤ k then .error (.notOntoPermutedIndices count element k)
      else do
        let held? ← entryAt? selected k
        if held?.isSome then .error (.notOntoPermutedIndices count element k)
        else fill count (element + 1) (selected.set k.toNat (some element)) rest

/-- The tables for a list of new places, where `-1` stands for an absent index. -/
def ofPermutation (places : List Int) : Except Error IndexTables := do
  let count := places.countP (0 ≤ ·)
  let selected ← fill count 0 (List.replicate count none) places
  ofSelected places.length selected

/-- The tables in which every index keeps its place. -/
def identity (size : Int) : Except Error IndexTables :=
  ofSelected size ((List.range size.toNat).map fun (i : Nat) => some (i : Int))

/-- Number of indices. -/
def domainSize (t : IndexTables) : Nat :=
  t.places.length

/-- Number of new places. -/
def permutedSize (t : IndexTables) : Nat :=
  t.inverse.length

/-- The entry of an index in the table of places. -/
def placeAt (t : IndexTables) (i : Int) : Except Error Int :=
  if i < 0 ∨ (t.domainSize : Int) ≤ i then .error (.domainIndexOutOfRange i t.domainSize)
  else entryAt? t.places i

/-- Whether an index has a new place. -/
def participates (t : IndexTables) (i : Int) : Except Error Bool := do
  let place ← t.placeAt i
  .ok (0 ≤ place)

/-- The new place of an index, if it has one. -/
def findPermutedIndex (t : IndexTables) (i : Int) : Except Error (Option Int) := do
  let place ← t.placeAt i
  .ok (if 0 ≤ place then some place else none)

/-- The new place of an index that has one. -/
def permutedIndex (t : IndexTables) (i : Int) : Except Error Int := do
  match ← t.findPermutedIndex i with
  | some k => .ok k
  | none => .error (.notParticipating i)

/-- The index at a new place. -/
def domainIndex (t : IndexTables) (k : Int) : Except Error Nat :=
  if k < 0 ∨ (t.permutedSize : Int) ≤ k then .error (.permutedIndexOutOfRange k t.permutedSize)
  else entryAt? t.inverse k

/-- The tables for applying one permutation first and then another one. -/
def compose (s t : IndexTables) : Except Error IndexTables :=
  if t.domainSize ≠ s.permutedSize then
    .error (.compositionMismatch s.permutedSize t.domainSize)
  else do
    let selected ← (List.range t.permutedSize).mapM fun (k : Nat) => do
      let j ← t.domainIndex k
      entryAt? s.inverse j
    ofSelected s.domainSize (selected.map fun (i : Nat) => some (i : Int))

/-- The tables for moving the scalars in blocks as the blocks are moved. -/
def expand (t : IndexTables) (sizes : List Int) : Except Error IndexTables :=
  if sizes.length ≠ t.domainSize then
    .error (.blockCountMismatch t.domainSize sizes.length)
  else match sizes.find? (· < 0) with
    | some n => .error (.negativeBlockSize n)
    | none => do
        let bounds := blockBounds 0 (sizes.map Int.toNat)
        let blocks ← t.inverse.mapM fun (i : Nat) => do
          let start ← entryAt? bounds i
          let stop ← entryAt? bounds (i + 1)
          .ok (List.range' start (stop - start))
        ofSelected (bounds.getLastD 0) (blocks.flatten.map fun (i : Nat) => some (i : Int))

/-- Equality of permutations, which compares the places of all indices. -/
def same (s t : IndexTables) : Bool :=
  s.places == t.places

/-- The text that describes the permutation. -/
def text (t : IndexTables) : String :=
  s!"PartialPermutation(domain_size={t.domainSize}, selected=" ++
    PartialPermutation.listText t.inverse ++ ")"

end IndexTables

end ConvexContact
