import ConvexContact.Error

/-!
# Blocks of given sizes

A list of sizes divides an interval of positions into consecutive blocks, the first of which starts
at a given position.  `totalSize` is the length of the interval, `blockStarts` lists the positions
at which the blocks start and `blockBounds` has in addition the end of the last block.
-/

namespace ConvexContact

/-- The sum of a list of sizes. -/
def totalSize (sizes : List Nat) : Nat :=
  sizes.foldr (· + ·) 0

@[simp] theorem totalSize_nil : totalSize [] = 0 :=
  rfl

@[simp] theorem totalSize_cons (n : Nat) (ns : List Nat) :
    totalSize (n :: ns) = n + totalSize ns :=
  rfl

@[simp] theorem totalSize_append (ms ns : List Nat) :
    totalSize (ms ++ ns) = totalSize ms + totalSize ns := by
  induction ms with
  | nil => simp
  | cons m ms ih => simp [ih, Nat.add_assoc]

/-- Positions at which consecutive blocks of the given sizes start. -/
def blockStarts : Nat → List Nat → List Nat
  | _, [] => []
  | start, n :: ns => start :: blockStarts (start + n) ns

@[simp] theorem length_blockStarts (start : Nat) (ns : List Nat) :
    (blockStarts start ns).length = ns.length := by
  induction ns generalizing start with
  | nil => rfl
  | cons n ns ih => simp [blockStarts, ih]

theorem blockStarts_append (start : Nat) (ms ns : List Nat) :
    blockStarts start (ms ++ ns) =
      blockStarts start ms ++ blockStarts (start + totalSize ms) ns := by
  induction ms generalizing start with
  | nil => rfl
  | cons m ms ih => simp [blockStarts, ih, Nat.add_assoc]

/-- Positions at which consecutive blocks start, with the end of the last one. -/
def blockBounds : Nat → List Nat → List Nat
  | start, [] => [start]
  | start, n :: ns => start :: blockBounds (start + n) ns

theorem blockBounds_eq (start : Nat) (ns : List Nat) :
    blockBounds start ns = blockStarts start ns ++ [start + totalSize ns] := by
  induction ns generalizing start with
  | nil => rfl
  | cons n ns ih =>
      rw [blockBounds, ih, totalSize_cons, Nat.add_assoc]
      rfl

theorem getLastD_blockBounds (ns : List Nat) : (blockBounds 0 ns).getLastD 0 = totalSize ns := by
  rw [blockBounds_eq, List.getLastD_concat, Nat.zero_add]

theorem getElem?_blockBounds {ns : List Nat} {k : Nat} (start : Nat) (hk : k ≤ ns.length) :
    (blockBounds start ns)[k]? = some (start + totalSize (ns.take k)) := by
  induction ns generalizing start k with
  | nil =>
      obtain rfl : k = 0 := Nat.le_zero.1 hk
      rfl
  | cons n ns ih =>
      cases k with
      | zero => rfl
      | succ k =>
          rw [blockBounds, List.getElem?_cons_succ, ih (start + n) (Nat.le_of_succ_le_succ hk),
            List.take_succ_cons, totalSize_cons, Nat.add_assoc]

/-- The entry at a position counted from the front, or from the back if it is negative. -/
def entryAt? {β : Type} (xs : List β) (i : Int) : Except Error β :=
  let k := if i < 0 then i + xs.length else i
  if k < 0 then .error .position
  else match xs[k.toNat]? with
    | some x => .ok x
    | none => .error .position

theorem entryAt?_natCast {β : Type} {xs : List β} {k : Nat} {x : β} (h : xs[k]? = some x) :
    entryAt? xs (k : Int) = .ok x := by
  unfold entryAt?
  rw [if_neg (by omega), if_neg (by omega), Int.toNat_natCast, h]

theorem entryAt?_getD {β : Type} {xs : List β} {k : Nat} (hk : k < xs.length) (default : β) :
    entryAt? xs (k : Int) = .ok (xs.getD k default) := by
  apply entryAt?_natCast
  rw [List.getD_eq_getElem?_getD, List.getElem?_eq_getElem hk, Option.getD_some]

theorem entryAt?_blockBounds {ns : List Nat} {k : Nat} (hk : k < ns.length) :
    entryAt? (blockBounds 0 ns) (k : Int) = .ok ((blockStarts 0 ns).getD k 0) := by
  have hk' : k < (blockStarts 0 ns).length := by
    rwa [length_blockStarts]
  apply entryAt?_natCast
  rw [blockBounds_eq, List.getElem?_append_left hk', List.getD_eq_getElem?_getD,
    List.getElem?_eq_getElem hk', Option.getD_some]

theorem entryAt?_map {β γ : Type} (f : β → γ) (xs : List β) (i : Int) :
    entryAt? (xs.map f) i = (entryAt? xs i).map f := by
  simp only [entryAt?, List.length_map, List.getElem?_map]
  generalize (if i < 0 then i + xs.length else i) = k
  by_cases hk : k < 0
  · rw [if_pos hk, if_pos hk]
    rfl
  · rw [if_neg hk, if_neg hk]
    cases xs[k.toNat]? <;> rfl

end ConvexContact
