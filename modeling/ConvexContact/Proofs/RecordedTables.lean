import Mathlib
import ConvexContact.Proofs.LogTables
import ConvexContact.Proofs.Recordings

/-!
# Tables of recorded values

**Keys.**  Values and exclusions have the same keys if every key that was called got an exclusion
(`Logger.Follows.sameKeys_iff`).

**Tables.**  Then a table has exactly one row for each key that its own exclusion does not hide, with
its own value (`Logger.dump_shows_recorded`).  Otherwise the dictionaries have different keys, and
pairing them by position shifts the exclusions and loses keys (`Logger.dump_loses_recorded`).
-/

namespace ConvexContact
namespace Logger

variable {α : Type}

section Dumps

/-- Every key that was called got an exclusion. -/
def Complete (past : List (Past α)) : Prop :=
  ∀ p ∈ past, ∀ key, p.call.key? = some key → (exclusionOf past key).isSome

/-- A key has an exclusion if an accepted call gave one. -/
theorem isSome_exclusionOf_iff
    {past : List (Past α)} {key : String} :
    (exclusionOf past key).isSome ↔
      ∃ p ∈ past, p.accepted = true ∧ p.call.key? = some key ∧ p.call.exclusion?.isSome := by
  rw [exclusionOf, List.getLast?_isSome]
  simp only [accepted, ne_eq, List.filterMap_eq_nil_iff, List.forall_mem_map, List.mem_filter,
    Bool.and_eq_true, beq_iff_eq, not_forall, Option.isSome_iff_ne_none]
  constructor
  · rintro ⟨p, ⟨hp, haccepted, hkey⟩, hexclusion⟩
    exact ⟨p, hp, haccepted, hkey, hexclusion⟩
  · rintro ⟨p, hp, haccepted, hkey, hexclusion⟩
    exact ⟨p, ⟨hp, haccepted, hkey⟩, hexclusion⟩

/-- The two dictionaries have the same keys if and only if every key that was called got an
exclusion. -/
theorem Follows.sameKeys_iff
    {past : List (Past α)} {l : Logger α}
    (h : Follows past l) :
    Table.SameKeys l.values l.exclusions ↔ Complete past := by
  have hvalue : ∀ key, key ∈ l.values.map Prod.fst ↔ ∃ p ∈ past, p.call.key? = some key :=
    fun key => mem_keys_iff.trans (h.isSome_value_iff key)
  have hexclusion : ∀ key, key ∈ l.exclusions.map Prod.fst ↔ (exclusionOf past key).isSome := by
    intro key
    rw [mem_keys_iff, h.exclusion_eq]
  constructor
  · intro hsame p hp key hkey
    exact (hexclusion key).1 ((hsame.mem_iff key).1 ((hvalue key).2 ⟨p, hp, hkey⟩))
  · intro hcomplete
    refine ⟨h.nodup_values, h.nodup_exclusions, fun key => ?_⟩
    rw [hvalue, hexclusion]
    constructor
    · rintro ⟨p, hp, hkey⟩
      exact hcomplete p hp key hkey
    · intro hsome
      obtain ⟨p, hp, -, hkey, -⟩ := isSome_exclusionOf_iff.1 hsome
      exact ⟨p, hp, hkey⟩

/-- The entry of a key holds what was recorded under it. -/
structure Recorded (past : List (Past ℝ)) (e : Table.Entry ℝ) : Prop where
  /-- The exclusion is the one that was given last. -/
  exclusion_eq : exclusionOf past e.key = some e.exclusion
  /-- The value is the one that was given last, unless the last call took one into a mean. -/
  value_eq : ∀ call, (accepted past e.key).getLast? = some call →
    ∀ value, call.value? = some value → e.value = value
  /-- The value is the exact mean, if all calls took numbers into it. -/
  mean_eq : ∀ xs : List ℝ, (accepted past e.key).map Call.mean? = xs.map some →
    e.value = .number (xs.sum / xs.length)

/-- Entries for all keys that were recorded and are not hidden. -/
structure Shows (past : List (Past ℝ)) (l : Logger ℝ) (shown : List (Table.Entry ℝ)) : Prop where
  ascending : Table.Ascending shown
  /-- Every entry has the value and the exclusion that the logger holds for its key. -/
  own : ∀ e ∈ shown, (e.key, e.value) ∈ l.values ∧ (e.key, e.exclusion) ∈ l.exclusions
  recorded : ∀ e ∈ shown, Recorded past e ∧ e.exclusion.hides = false
  complete : ∀ key exclusion, exclusionOf past key = some exclusion → exclusion.hides = false →
    ∃ e ∈ shown, e.key = key

/-- What a table does for the entries to be shown. -/
inductive Dumps [Scalar α] [Quotients α] [Shown α] (l : Logger α) (shown : List (Table.Entry α)) :
    Prop
  /-- A figure is refused, and nothing changes. -/
  | refused (e : Table.Entry α) :
      e ∈ shown → e.value = .figure →
      l.perform .dump = (.error .figureNotWritable, l) → Dumps l shown
  /-- There is a warning for each sink if there is nothing to be shown. -/
  | empty :
      shown = [] →
      l.perform .dump =
        (.ok ⟨[], l.sinks.map fun _ => "Tried to write empty key-value dict"⟩, l.clear) →
      Dumps l shown
  /-- Every sink gets the table of the arranged entries. -/
  | written (is : List (Table.Item α)) :
      shown ≠ [] → (∀ e ∈ shown, e.value ≠ .figure) → Table.Arranged shown is →
      l.perform .dump = (.ok ⟨l.sinks.map (·, Table.textOf l.maxLength is), []⟩, l.clear) →
      Dumps l shown

/-- The answer to a table with a given text, and the logger after it. -/
def answer (l : Logger α) : Except Error (Option String) → Except Error Emission × Logger α
  | .ok (some text) => (.ok ⟨l.sinks.map (·, text), []⟩, l.clear)
  | .ok none => (.ok ⟨[], l.sinks.map fun _ => "Tried to write empty key-value dict"⟩, l.clear)
  | .error e => (.error e, l)

theorem perform_dump_of_enabled
    [Scalar α] [Quotients α] [Shown α] {l : Logger α}
    (henabled : l.isDisabled = false)
    (hsinks : l.sinks ≠ []) :
    l.perform .dump = l.answer (Table.write l.maxLength l.values l.exclusions) := by
  have hempty : l.sinks.isEmpty = false := List.isEmpty_eq_false_iff.2 hsinks
  unfold perform dump
  rw [henabled, hempty]
  cases Table.write l.maxLength l.values l.exclusions with
  | error e => rfl
  | ok text => cases text <;> rfl

/-- A table is written for the pairs of values and exclusions that are not hidden. -/
theorem dumps_shownOf
    [Scalar α] [Quotients α] [Shown α] {l : Logger α}
    (henabled : l.isDisabled = false)
    (hsinks : l.sinks ≠ [])
    (hnodup : (l.values.map Prod.fst).Nodup) :
    Dumps l (Table.shownOf l.values l.exclusions) := by
  have hperform := perform_dump_of_enabled henabled hsinks
  by_cases hfigure : ∃ e ∈ Table.shownOf l.values l.exclusions, e.value = .figure
  · obtain ⟨e, he, hvalue⟩ := hfigure
    rw [Table.write, Table.render_eq_error he hvalue] at hperform
    exact .refused e he hvalue hperform
  · have hfigures : ∀ e ∈ Table.shownOf l.values l.exclusions, e.value ≠ .figure :=
      fun e he hvalue => hfigure ⟨e, he, hvalue⟩
    by_cases hnone : Table.shownOf l.values l.exclusions = []
    · rw [Table.write, Table.render_eq_none hnone] at hperform
      exact .empty hnone hperform
    · rw [Table.write, Table.render_eq hfigures hnone] at hperform
      exact .written _ hnone hfigures
        (Table.arranged_items (Table.ascending_shownOf hnodup l.exclusions)) hperform

/-- What a logger shows is what was recorded, if every key that was called got an exclusion. -/
theorem shows_shownOf
    [Threshold] {past : List (Past ℝ)} {l : Logger ℝ}
    (h : Follows past l)
    (haverages : Averages past l)
    (hcomplete : Complete past) :
    Shows past l (Table.shownOf l.values l.exclusions) := by
  have hsame := h.sameKeys_iff.2 hcomplete
  have hown : ∀ e ∈ Table.shownOf l.values l.exclusions,
      (e.key, e.value) ∈ l.values ∧ (e.key, e.exclusion) ∈ l.exclusions :=
    fun e he => ((hsame.mem_shownOf_iff e).1 he).imp_right And.left
  have hmem := hsame.mem_shownOf_iff
  simp only [mem_iff_lookup_eq hsame.nodup_left, mem_iff_lookup_eq hsame.nodup_right,
    h.exclusion_eq] at hmem
  refine ⟨Table.ascending_shownOf h.nodup_values l.exclusions, hown, ?_, ?_⟩
  · intro e he
    obtain ⟨hvalue, hexclusion, hhides⟩ := (hmem e).1 he
    refine ⟨⟨hexclusion, ?_, ?_⟩, hhides⟩
    · intro call hlast value hgiven
      have hgives := h.value_eq e.key call hlast value hgiven
      rw [hvalue, Option.some_inj] at hgives
      exact hgives
    · intro xs hxs
      have hmean := (haverages e.key xs hxs).1
      rwa [valueOf, hvalue, Option.getD_some] at hmean
  · intro key exclusion hexclusion hhides
    obtain ⟨p, hp, -, hkey, -⟩ := isSome_exclusionOf_iff.1 (Option.isSome_of_eq_some hexclusion)
    obtain ⟨value, hvalue⟩ := Option.isSome_iff_exists.1 ((h.isSome_value_iff key).2 ⟨p, hp, hkey⟩)
    exact ⟨⟨key, value, exclusion⟩, (hmem _).2 ⟨hvalue, hexclusion, hhides⟩, rfl⟩

/-- **Tables show what was recorded.**  After any calls, the values and the exclusions of a logger
have the same keys if and only if every key that was called since the last table got an exclusion.
Then a table that is not disabled shows exactly the keys that their own exclusions do not hide, each
once and with its own value. -/
theorem dump_shows_recorded
    [Threshold] [Shown ℝ] (folder : Option String) {sinks : List Sink}
    (hsinks : sinks ≠ [])
    (maxLength : ℤ) (calls : List (Call ℝ)) :
    let start : Logger ℝ := new folder sinks maxLength
    let l := start.after calls
    let past := start.since [] calls
    l.sinks = sinks ∧ l.maxLength = maxLength ∧
      (Table.SameKeys l.values l.exclusions ↔ Complete past) ∧
      (l.isDisabled = true → l.perform .dump = (.ok ⟨[], []⟩, l)) ∧
      (l.isDisabled = false → Complete past → ∃ shown, Shows past l shown ∧ Dumps l shown) := by
  intro start l past
  obtain ⟨hkeep, hlength⟩ : l.sinks = sinks ∧ l.maxLength = maxLength := start.sinks_after calls
  have hfollows : Follows past l := Follows.run (.nil rfl rfl) calls
  have haverages : Averages past l := Averages.run (.nil rfl rfl) calls
  refine ⟨hkeep, hlength, hfollows.sameKeys_iff, ?_, ?_⟩
  · intro hdisabled
    rcases l.perform_dump_cases with ⟨-, hdump⟩ | ⟨henabled, -⟩
    · exact hdump
    · rw [hdisabled] at henabled
      cases henabled
  · intro henabled hcomplete
    exact ⟨_, shows_shownOf hfollows haverages hcomplete,
      dumps_shownOf henabled (hkeep ▸ hsinks) hfollows.nodup_values⟩

/-- Two costs that are taken into a mean, and a text. -/
theorem dump_shows_recorded_costs :
    letI := Threshold.ofFormat .double
    letI : Shown ℝ := ⟨fun _ => "real", fun _ => "real", fun _ => "real"⟩
    let start : Logger ℝ := new none [.console] 36
    let calls : List (Call ℝ) := [.recordMean "newton/cost" (.number 1) .nothing,
      .record "state" (.text "sliding") (.text "tensorboard"),
      .recordMean "newton/cost" (.number 3) .nothing]
    [Sink.console] ≠ [] ∧ (start.after calls).isDisabled = false ∧
      Complete (start.since [] calls) ∧
      ∃ shown, Shows (start.since [] calls) (start.after calls) shown ∧
        Dumps (start.after calls) shown := by
  let _ := Threshold.ofFormat .double
  let _ : Shown ℝ := ⟨fun _ => "real", fun _ => "real", fun _ => "real"⟩
  intro start calls
  have hsinks : [Sink.console] ≠ [] := List.cons_ne_nil _ _
  have henabled : (start.after calls).isDisabled = false := rfl
  have hpast : start.since [] calls =
      [⟨.recordMean "newton/cost" (.number 1) .nothing, true⟩,
        ⟨.record "state" (.text "sliding") (.text "tensorboard"), true⟩,
        ⟨.recordMean "newton/cost" (.number 3) .nothing, true⟩] := rfl
  have hcomplete : Complete (start.since [] calls) := by
    rw [hpast]
    simp [Complete, isSome_exclusionOf_iff, Call.key?, Call.exclusion?, LogValue.isAbsent]
  obtain ⟨-, -, -, -, hdump⟩ := dump_shows_recorded none hsinks 36 calls
  exact ⟨hsinks, henabled, hcomplete, hdump henabled hcomplete⟩

/-- The mean of an absent value gives no exclusion to its key, and a refused value leaves its key
behind.  Then the exclusion of the other key is taken for this one, and the other one is lost. -/
theorem dump_loses_recorded :
    let start : Logger Machine := new none [.console] 36
    let l := start.after [.record "b" (.whole 1) .nothing, .recordMean "a" .absent .nothing]
    l.isDisabled = false ∧
      (l.perform .dump).1 = .ok ⟨[(.console, "------------\n| a | None |\n------------\n")], []⟩ ∧
      (start.perform (.recordMean "a" (.text "x") .nothing)).1 = .error .wrongType ∧
      (start.after [.recordMean "a" (.text "x") .nothing]).keys = (["a"], ["a"], []) := by
  intro start l
  have hwrite : Table.write l.maxLength l.values l.exclusions =
      .ok (some "------------\n| a | None |\n------------\n") := by
    change Table.write 36 [("a", (.absent : LogValue Machine)), ("b", .whole 1)]
      [("b", .nothing)] = _
    rw [Table.write, Table.pairs, Table.sorted_eq_self (by decide),
      Table.sorted_eq_self (by decide)]
    decide +kernel
  refine ⟨rfl, ?_, rfl, ?_⟩
  · rw [perform_dump_of_enabled rfl (List.cons_ne_nil _ _), hwrite]
    rfl
  · have hvalues : (start.after [.recordMean "a" (.text "x") .nothing]).values =
        [("a", .number 0)] := rfl
    have hcounts : (start.after [.recordMean "a" (.text "x") .nothing]).counts = [("a", 0)] := rfl
    have hexclusions : (start.after [.recordMean "a" (.text "x") .nothing]).exclusions = [] := rfl
    rw [keys, hvalues, hcounts, hexclusions, Table.sorted_eq_self (List.pairwise_singleton _ _),
      Table.sorted_eq_self (List.pairwise_singleton _ _), Table.sorted_eq_self List.Pairwise.nil]
    rfl

end Dumps

end Logger
end ConvexContact
