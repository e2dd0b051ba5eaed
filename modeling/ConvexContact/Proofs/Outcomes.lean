import Mathlib

/-!
# Outcomes of evaluations

An evaluation gives a result or the reason why it was refused.  This module says when a sequence of
evaluations gives a result: all its steps do, each from the result of the one before.
-/

namespace ConvexContact
namespace Outcome

universe u

variable {ε : Type u} {α β : Type u}

/-- A step after a result. -/
@[simp] theorem ok_bind
    (a : α) (f : α → Except ε β) :
    (Except.ok a >>= f) = f a :=
  rfl

/-- A sequence of two evaluations gives a result if both of them do. -/
theorem bind_eq_ok
    {x : Except ε α} {f : α → Except ε β} {b : β} :
    (x >>= f) = .ok b ↔ ∃ a, x = .ok a ∧ f a = .ok b := by
  cases x with
  | error e =>
      constructor
      · intro h
        cases h
      · rintro ⟨a, ha, -⟩
        cases ha
  | ok a =>
      constructor
      · intro h
        exact ⟨a, rfl, h⟩
      · rintro ⟨a', ha, h⟩
        cases ha
        exact h

/-- A changed result comes from a result. -/
theorem map_eq_ok
    {x : Except ε α} {f : α → β} {b : β} :
    x.map f = .ok b ↔ ∃ a, x = .ok a ∧ f a = b := by
  cases x with
  | error e =>
      simp [Except.map]
  | ok a =>
      simp [Except.map]

/-- Changing a result does not change a refusal. -/
theorem map_eq_error
    {x : Except ε α} {f : α → β} {error : ε} :
    x.map f = .error error ↔ x = .error error := by
  cases x <;> simp [Except.map]

/-- Evaluations of all members of a list give a list of results, one for each. -/
theorem mapM_eq_ok
    {f : α → Except ε β} {xs : List α} {ys : List β} :
    xs.mapM f = .ok ys ↔ List.Forall₂ (fun x y => f x = .ok y) xs ys := by
  induction xs generalizing ys with
  | nil =>
      rw [List.mapM_nil, List.forall₂_nil_left_iff]
      constructor
      · intro h
        cases h
        rfl
      · rintro rfl
        rfl
  | cons x xs ih =>
      rw [List.mapM_cons, bind_eq_ok, List.forall₂_cons_left_iff]
      constructor
      · rintro ⟨y, hy, h⟩
        obtain ⟨zs, hzs, h⟩ := bind_eq_ok.1 h
        cases h
        exact ⟨y, zs, hy, ih.1 hzs, rfl⟩
      · rintro ⟨y, zs, hy, hzs, rfl⟩
        exact ⟨y, hy, bind_eq_ok.2 ⟨zs, ih.2 hzs, rfl⟩⟩

/-- If not all members of a list have a property, there is a first one without it. -/
theorem exists_first_of_not_forall
    {ι : Type} {P : ι → Prop} {l : List ι}
    (h : ¬ ∀ i ∈ l, P i) :
    ∃ pre i post, l = pre ++ i :: post ∧ (∀ j ∈ pre, P j) ∧ ¬ P i := by
  induction l with
  | nil =>
      exact absurd (by simp) h
  | cons i l ih =>
      by_cases hi : P i
      · obtain ⟨pre, j, post, rfl, hpre, hj⟩ := ih fun hall => h (List.forall_mem_cons.2 ⟨hi, hall⟩)
        exact ⟨i :: pre, j, post, rfl, List.forall_mem_cons.2 ⟨hi, hpre⟩, hj⟩
      · exact ⟨[], i, l, rfl, by simp, hi⟩

/-- If the members of a list give results that are related to the members of another list, then the
results are listed. -/
theorem exists_mapM_eq_ok
    {ι : Type}
    {f : α → Except ε β} {P : ι → β → Prop} {l : List ι} {xs : List α}
    (h : List.Forall₂ (fun i x => ∃ y, f x = .ok y ∧ P i y) l xs) :
    ∃ ys, xs.mapM f = .ok ys ∧ List.Forall₂ P l ys := by
  induction h with
  | nil =>
      exact ⟨[], rfl, List.Forall₂.nil⟩
  | cons hx _ ih =>
      obtain ⟨y, hy, hP⟩ := hx
      obtain ⟨ys, hys, hall⟩ := ih
      refine ⟨y :: ys, ?_, List.Forall₂.cons hP hall⟩
      rw [List.mapM_cons, hy, ok_bind, hys]
      rfl

theorem exists_bind_iff
    {x : Except ε α} {f : α → Except ε β} :
    (∃ b, (x >>= f) = .ok b) ↔ ∃ a, x = .ok a ∧ ∃ b, f a = .ok b := by
  simp only [bind_eq_ok]
  exact exists_comm.trans (exists_congr fun _ => exists_and_left)

/-- A sequence is refused if its first part is. -/
theorem exists_of_bind
    {x : Except ε α} {f : α → Except ε β}
    (h : ∃ b, (x >>= f) = .ok b) :
    ∃ a, x = .ok a := by
  obtain ⟨a, ha, -⟩ := exists_bind_iff.1 h
  exact ⟨a, ha⟩

/-- If the second part of a sequence is never refused, the first part decides. -/
theorem exists_bind_iff_of_forall
    {x : Except ε α} {f : α → Except ε β}
    (h : ∀ a, ∃ b, f a = .ok b) :
    (∃ b, (x >>= f) = .ok b) ↔ ∃ a, x = .ok a :=
  exists_bind_iff.trans (exists_congr fun a => and_iff_left (h a))

theorem exists_map_iff
    {x : Except ε α} {f : α → β} :
    (∃ b, x.map f = .ok b) ↔ ∃ a, x = .ok a := by
  simp only [map_eq_ok]
  exact exists_comm.trans (exists_congr fun _ => by simp)

/-- A list is evaluated if all its members are. -/
theorem exists_mapM_iff
    {f : α → Except ε β} {xs : List α} :
    (∃ ys, xs.mapM f = .ok ys) ↔ ∀ x ∈ xs, ∃ y, f x = .ok y := by
  induction xs with
  | nil =>
      simp only [List.not_mem_nil, false_implies, implies_true, iff_true]
      exact ⟨[], rfl⟩
  | cons x xs ih =>
      rw [List.mapM_cons, exists_bind_iff, List.forall_mem_cons, ← ih]
      constructor
      · rintro ⟨y, hy, hrest⟩
        exact ⟨⟨y, hy⟩, exists_of_bind hrest⟩
      · rintro ⟨⟨y, hy⟩, ys, hys⟩
        exact ⟨y, hy, exists_bind_iff.2 ⟨ys, hys, _, rfl⟩⟩

/-- If every member has a known result, so has the list. -/
theorem mapM_eq_ok_map
    {f : α → Except ε β} {g : α → β} {xs : List α}
    (h : ∀ x ∈ xs, f x = .ok (g x)) :
    xs.mapM f = .ok (xs.map g) := by
  rw [mapM_eq_ok, List.forall₂_map_right_iff, List.forall₂_same]
  exact h

/-- Checks that all pass. -/
theorem forM_eq_ok
    {ι : Type}
    {f : ι → Except ε PUnit.{u + 1}} {xs : List ι}
    (h : ∀ x ∈ xs, f x = .ok ⟨⟩) :
    xs.forM f = .ok ⟨⟩ := by
  induction xs with
  | nil =>
      rfl
  | cons x xs ih =>
      change (f x >>= fun _ => xs.forM f) = .ok ⟨⟩
      rw [h x List.mem_cons_self, ok_bind]
      exact ih fun y hy => h y (List.mem_cons_of_mem x hy)

/-- Steps that have known results as long as an invariant holds, one after the other. -/
theorem foldlM_eq_ok
    {ι γ : Type}
    {f : α → ι → Except ε α} {g : γ → ι → γ} {r : γ → α} {P : γ → Prop} {xs : List ι} {c : γ}
    (hc : P c)
    (hstep : ∀ c, P c → ∀ i ∈ xs, P (g c i) ∧ f (r c) i = .ok (r (g c i))) :
    xs.foldlM f (r c) = .ok (r (xs.foldl g c)) := by
  induction xs generalizing c with
  | nil =>
      rfl
  | cons i xs ih =>
      obtain ⟨hnext, hi⟩ := hstep c hc i List.mem_cons_self
      rw [List.foldlM_cons, hi, ok_bind]
      exact ih hnext fun c hc j hj => hstep c hc j (List.mem_cons_of_mem i hj)

/-- The result of an evaluation, or a default if it was refused. -/
def getD (x : Except ε α) (default : α) : α :=
  match x with
  | .ok a => a
  | .error _ => default

/-- An evaluation that gives a result gives this one. -/
theorem eq_ok_getD
    {x : Except ε α}
    (default : α)
    (h : ∃ a, x = .ok a) :
    x = .ok (getD x default) := by
  obtain ⟨a, rfl⟩ := h
  rfl

/-- Evaluations of a list with results, as a map. -/
theorem eq_map_of_mapM_eq_ok
    {f : α → Except ε β} {xs : List α} {ys : List β}
    (default : β)
    (h : xs.mapM f = .ok ys) :
    (∀ x ∈ xs, f x = .ok (getD (f x) default)) ∧ ys = xs.map fun x => getD (f x) default := by
  rw [mapM_eq_ok] at h
  induction h with
  | nil =>
      exact ⟨fun _ hx => absurd hx List.not_mem_nil, rfl⟩
  | cons hxy _ ih =>
      obtain ⟨hall, rfl⟩ := ih
      constructor
      · intro x hx
        rcases List.mem_cons.1 hx with rfl | hx
        · exact eq_ok_getD default ⟨_, hxy⟩
        · exact hall x hx
      · rw [List.map_cons, hxy]
        rfl

/-- Two evaluations that are refused for the same reason, or have related results. -/
inductive Related {γ : Type u} (R : α → γ → Prop) : Except ε α → Except ε γ → Prop
  | error
      (e : ε) :
      Related R (.error e) (.error e)
  | ok
      {a : α} {c : γ}
      (h : R a c) :
      Related R (.ok a) (.ok c)

namespace Related

variable {γ δ : Type u} {R : α → γ → Prop} {S : β → δ → Prop}

theorem bind
    {x : Except ε α} {y : Except ε γ} {f : α → Except ε β} {g : γ → Except ε δ}
    (h : Related R x y)
    (hfg : ∀ a c, R a c → Related S (f a) (g c)) :
    Related S (x >>= f) (y >>= g) := by
  cases h with
  | error e =>
      exact .error e
  | ok h =>
      exact hfg _ _ h

theorem exists_ok
    {a : α} {y : Except ε γ}
    (h : Related R (.ok a) y) :
    ∃ c, y = .ok c ∧ R a c := by
  cases h with
  | ok h =>
      exact ⟨_, rfl, h⟩

theorem eq_error
    {e : ε} {y : Except ε γ}
    (h : Related R (.error e) y) :
    y = .error e := by
  cases h
  rfl

/-- Evaluations with equal results are equal. -/
theorem eq
    {x y : Except ε α}
    (h : Related (fun a b => b = a) x y) :
    y = x := by
  cases h with
  | error e =>
      rfl
  | ok h =>
      rw [h]

end Related

/-- Evaluations of related members of two lists give the same outcome if they do so for each. -/
theorem mapM_eq_of_forall₂
    {ι κ : Type u} {R : ι → κ → Prop} {xs : List ι} {ys : List κ}
    {f : ι → Except ε β} {g : κ → Except ε β}
    (h : List.Forall₂ R xs ys)
    (hfg : ∀ x y, R x y → g y = f x) :
    ys.mapM g = xs.mapM f := by
  induction h with
  | nil =>
      rfl
  | cons hxy _ ih =>
      rw [List.mapM_cons, List.mapM_cons, hfg _ _ hxy, ih]

end Outcome

section Related

variable {α β γ : Type}

/-- Related lists have equal images under maps that agree on related members. -/
theorem map_eq_of_forall₂
    {R : α → β → Prop} {xs : List α} {ys : List β} {f : α → γ} {g : β → γ}
    (h : List.Forall₂ R xs ys)
    (hfg : ∀ x y, R x y → g y = f x) :
    ys.map g = xs.map f := by
  induction h with
  | nil =>
      rfl
  | cons hxy _ ih =>
      rw [List.map_cons, List.map_cons, hfg _ _ hxy, ih]

/-- Related lists, zipped with images of the first one. -/
theorem forall₂_zip_map
    {δ : Type}
    {R : α → β → Prop} {xs : List α} {ys : List β}
    (f : α → γ) (g : α → δ)
    (h : List.Forall₂ R xs ys) :
    List.Forall₂ (fun x part => part.1 = f x ∧ R x part.2.1 ∧ part.2.2 = g x) xs
      ((xs.map f).zip (ys.zip (xs.map g))) := by
  induction h with
  | nil =>
      exact List.Forall₂.nil
  | cons hxy _ ih =>
      exact List.Forall₂.cons ⟨rfl, hxy, rfl⟩ ih

end Related

end ConvexContact
