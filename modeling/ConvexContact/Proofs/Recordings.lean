import Mathlib
import ConvexContact.Log.Logger
import ConvexContact.Proofs.Exact

/-!
# Recorded values

**History.**  The calls since the last table, each with whether it was accepted (`Logger.since`).

**State.**  After any calls, the keys with a value are those of all calls since the last table, also
of refused ones.  The keys with an exclusion are those of accepted calls that give one: a mean of an
absent value gives none (`Logger.Follows`).  A key has the value that was recorded last, and if all
of its values are numbers taken into a mean, this is the exact mean (`Logger.Averages`).

**Proof.**  Both are preserved by each call (`Logger.Follows.step`, `Logger.Averages.step`), and so
by all calls (`Logger.Follows.run`, `Logger.Averages.run`).
-/

namespace ConvexContact

section Tables

namespace Logger

variable {β : Type} {table : List (String × β)}

theorem lookup_cons_of_ne
    {key other : String}
    (h : other ≠ key) (x : β) :
    ((key, x) :: table).lookup other = table.lookup other := by
  rw [List.lookup_cons, beq_eq_false_iff_ne.2 h]

theorem lookup_put
    (key other : String) (x : β) (table : List (String × β)) :
    (put key x table).lookup other = if other = key then some x else table.lookup other := by
  unfold put
  split_ifs with hother
  · rw [hother, List.lookup_cons_self]
  · rw [lookup_cons_of_ne hother]
    induction table with
    | nil =>
        rfl
    | cons entry table ih =>
        obtain ⟨key', y⟩ := entry
        by_cases hentry : key' = key
        · have hne : other ≠ key' := fun heq => hother (heq.trans hentry)
          rw [List.filter_cons_of_neg (by simpa using hentry), ih, lookup_cons_of_ne hne]
        · rw [List.filter_cons_of_pos (by simpa using hentry), List.lookup_cons, List.lookup_cons,
            ih]

theorem nodup_put
    (h : (table.map Prod.fst).Nodup) (key : String) (x : β) :
    ((put key x table).map Prod.fst).Nodup := by
  rw [put, List.map_cons, List.nodup_cons]
  refine ⟨?_, h.sublist (List.filter_sublist.map _)⟩
  intro hmem
  obtain ⟨entry, hentry, heq⟩ := List.mem_map.1 hmem
  have hne := List.of_mem_filter hentry
  simp [heq] at hne

theorem mem_keys_iff
    {key : String} :
    key ∈ table.map Prod.fst ↔ (table.lookup key).isSome := by
  rw [List.lookup_isSome_iff, List.mem_map]
  exact exists_congr fun entry => and_congr_right fun _ => by rw [beq_iff_eq, eq_comm]

theorem mem_iff_lookup_eq
    (h : (table.map Prod.fst).Nodup) {key : String} {x : β} :
    (key, x) ∈ table ↔ table.lookup key = some x := by
  induction table with
  | nil =>
      simp
  | cons entry table ih =>
      obtain ⟨key', y⟩ := entry
      obtain ⟨hnew, htable⟩ := List.nodup_cons.1 h
      by_cases hkey : key = key'
      · subst hkey
        have hnone : (key, x) ∉ table := fun hmem => hnew (List.mem_map.2 ⟨_, hmem, rfl⟩)
        rw [List.mem_cons, List.lookup_cons_self, or_iff_left hnone, Option.some_inj]
        simp [eq_comm]
      · rw [List.mem_cons, lookup_cons_of_ne hkey, ih htable, or_iff_right]
        exact fun heq => hkey (congrArg Prod.fst heq)

end Logger

end Tables

theorem LogValue.eq_absent_of_isAbsent
    {α : Type} {value : LogValue α}
    (h : value.isAbsent = true) :
    value = .absent := by
  cases value with
  | absent => rfl
  | _ => cases h

namespace Logger

variable {α : Type}

namespace Call

/-- The key under which a call records a value. -/
def key? : Call α → Option String
  | record key _ _ => some key
  | recordMean key _ _ => some key
  | _ => none

/-- The exclusion that a call gives to its key; a mean of an absent value gives none. -/
def exclusion? : Call α → Option Exclusion
  | record _ _ exclusion => some exclusion
  | recordMean _ value exclusion => if value.isAbsent then none else some exclusion
  | _ => none

/-- The value that a call gives to its key, whatever the key had before. -/
def value? : Call α → Option (LogValue α)
  | record _ value _ => some value
  | recordMean _ value _ => if value.isAbsent then some .absent else none
  | _ => none

end Call

/-- A call that was made. -/
structure Past (α : Type) where
  call : Call α
  accepted : Bool

/-- The accepted calls with a key. -/
def accepted (past : List (Past α)) (key : String) : List (Call α) :=
  (past.filter fun p => p.accepted && p.call.key? == some key).map Past.call

/-- The exclusion that was given to a key last. -/
def exclusionOf (past : List (Past α)) (key : String) : Option Exclusion :=
  ((accepted past key).filterMap Call.exclusion?).getLast?

section Accepted

variable {past : List (Past α)} {call : Call α} {key : String}

theorem accepted_concat_refused
    (past : List (Past α)) (call : Call α) (key : String) :
    accepted (past ++ [⟨call, false⟩]) key = accepted past key := by
  unfold accepted
  rw [List.filter_append, List.filter_cons_of_neg (by simp), List.filter_nil, List.append_nil]

theorem accepted_concat_self
    (hkey : call.key? = some key) :
    accepted (past ++ [⟨call, true⟩]) key = accepted past key ++ [call] := by
  unfold accepted
  rw [List.filter_append, List.filter_cons_of_pos (by simpa using hkey), List.map_append]
  rfl

theorem accepted_concat_of_ne
    (hkey : call.key? = some key)
    {other : String}
    (hne : other ≠ key) :
    accepted (past ++ [⟨call, true⟩]) other = accepted past other := by
  have hother : call.key? ≠ some other := by
    rw [hkey]
    exact fun heq => hne (Option.some.inj heq).symm
  unfold accepted
  rw [List.filter_append, List.filter_cons_of_neg (by simpa using hother), List.filter_nil,
    List.append_nil]

end Accepted

/-- What a logger holds after the calls since the last table. -/
structure Follows (past : List (Past α)) (l : Logger α) : Prop where
  nodup_values : (l.values.map Prod.fst).Nodup
  nodup_exclusions : (l.exclusions.map Prod.fst).Nodup
  /-- A key has a value if there was a call with it, accepted or not. -/
  isSome_value_iff : ∀ key,
    (l.values.lookup key).isSome ↔ ∃ p ∈ past, p.call.key? = some key
  /-- A key has the exclusion that was given last. -/
  exclusion_eq : ∀ key, l.exclusions.lookup key = exclusionOf past key
  /-- A key has the value that was given last, unless the last call took a value into a mean. -/
  value_eq : ∀ key call, (accepted past key).getLast? = some call →
    ∀ value, call.value? = some value → l.values.lookup key = some value

namespace Follows

variable {past : List (Past α)} {l l' : Logger α} {call : Call α} {key : String}

theorem nil
    (hvalues : l.values = [])
    (hexclusions : l.exclusions = []) :
    Follows [] l where
  nodup_values := by simp [hvalues]
  nodup_exclusions := by simp [hexclusions]
  isSome_value_iff key := by simp [hvalues]
  exclusion_eq key := by simp [hexclusions, exclusionOf, accepted]
  value_eq key call h := by simp [accepted] at h

/-- The keys with a value after a call. -/
theorem isSome_put_iff
    (h : Follows past l)
    (hkey : call.key? = some key)
    (value : LogValue α) (ok : Bool) (other : String) :
    ((put key value l.values).lookup other).isSome ↔
      ∃ p ∈ past ++ [⟨call, ok⟩], p.call.key? = some other := by
  have hcall : (∃ p ∈ past ++ [⟨call, ok⟩], p.call.key? = some other) ↔
      (∃ p ∈ past, p.call.key? = some other) ∨ key = other := by
    simp [or_and_right, exists_or, hkey]
  rw [hcall, ← h.isSome_value_iff, lookup_put]
  split_ifs with hother
  · simp [hother]
  · simp [Ne.symm hother]

/-- An accepted call sets the value and, if it gives one, the exclusion. -/
theorem accept
    (h : Follows past l)
    (hkey : call.key? = some key)
    {value : LogValue α}
    (hvalue : ∀ x, call.value? = some x → value = x)
    (hvalues : l'.values = put key value l.values)
    (hexclusions : l'.exclusions =
      call.exclusion?.elim l.exclusions fun x => put key x l.exclusions) :
    Follows (past ++ [⟨call, true⟩]) l' := by
  refine ⟨?_, ?_, ?_, ?_, ?_⟩
  · rw [hvalues]
    exact nodup_put h.nodup_values key value
  · rw [hexclusions]
    cases call.exclusion? with
    | none => exact h.nodup_exclusions
    | some x => exact nodup_put h.nodup_exclusions key x
  · intro other
    rw [hvalues]
    exact h.isSome_put_iff hkey value true other
  · intro other
    have hold := h.exclusion_eq other
    rw [hexclusions]
    unfold exclusionOf at hold ⊢
    by_cases hother : other = key
    · rw [hother] at hold ⊢
      rw [accepted_concat_self hkey, List.filterMap_append]
      cases hcall : call.exclusion? with
      | none =>
          rw [List.filterMap_cons_none hcall, List.filterMap_nil, List.append_nil]
          exact hold
      | some x =>
          rw [List.filterMap_cons_some hcall, List.filterMap_nil, List.getLast?_concat,
            Option.elim_some, lookup_put, if_pos rfl]
    · rw [accepted_concat_of_ne hkey hother, ← hold]
      cases call.exclusion? with
      | none => rfl
      | some x => rw [Option.elim_some, lookup_put, if_neg hother]
  · intro other last hlast x hx
    rw [hvalues, lookup_put]
    split_ifs with hother
    · rw [hother, accepted_concat_self hkey, List.getLast?_concat, Option.some_inj] at hlast
      subst hlast
      rw [hvalue x hx]
    · rw [accepted_concat_of_ne hkey hother] at hlast
      exact h.value_eq other last hlast x hx

/-- A refused call leaves all values as they are, and a new key behind. -/
theorem refuse
    (h : Follows past l)
    (hkey : call.key? = some key)
    {start : LogValue α}
    (hvalues : l'.values = put key ((l.values.lookup key).getD start) l.values)
    (hexclusions : l'.exclusions = l.exclusions) :
    Follows (past ++ [⟨call, false⟩]) l' := by
  refine ⟨?_, ?_, ?_, ?_, ?_⟩
  · rw [hvalues]
    exact nodup_put h.nodup_values key _
  · rw [hexclusions]
    exact h.nodup_exclusions
  · intro other
    rw [hvalues]
    exact h.isSome_put_iff hkey _ false other
  · intro other
    rw [hexclusions, exclusionOf, accepted_concat_refused]
    exact h.exclusion_eq other
  · intro other last hlast x hx
    rw [accepted_concat_refused] at hlast
    have hvalue := h.value_eq other last hlast x hx
    rw [hvalues, lookup_put]
    split_ifs with hother
    · rw [← hother, hvalue]
      rfl
    · exact hvalue

end Follows

section Calls

variable [Scalar α]

/-- The value from which a mean of a key goes on. -/
def valueOf (l : Logger α) (key : String) : LogValue α :=
  (l.values.lookup key).getD (.number 0)

/-- How many values are in the mean of a key. -/
def countOf (l : Logger α) (key : String) : ℕ :=
  (l.counts.lookup key).getD 0

section Entries

variable {l l' : Logger α} {key other : String} {x : LogValue α}

theorem valueOf_self
    (h : l'.values = put key x l.values) :
    l'.valueOf key = x := by
  rw [valueOf, h, lookup_put, if_pos rfl]
  rfl

theorem valueOf_of_ne
    (h : l'.values = put key x l.values)
    (hother : other ≠ key) :
    l'.valueOf other = l.valueOf other := by
  rw [valueOf, h, lookup_put, if_neg hother]
  rfl

omit [Scalar α] in
theorem countOf_self
    {n : ℕ}
    (h : l'.counts = put key n l.counts) :
    l'.countOf key = n := by
  rw [countOf, h, lookup_put, if_pos rfl]
  rfl

omit [Scalar α] in
theorem countOf_of_ne
    {n : ℕ}
    (h : l'.counts = put key n l.counts)
    (hother : other ≠ key) :
    l'.countOf other = l.countOf other := by
  rw [countOf, h, lookup_put, if_neg hother]
  rfl

end Entries

variable [Quotients α] [Shown α] {l : Logger α} {key : String} {value x : LogValue α}

/-- A value taken into a mean makes it absent, or is added to it, or is refused and leaves the mean
as it is. -/
theorem perform_recordMean_cases
    (l : Logger α) (key : String) (value : LogValue α) (exclusion : Exclusion) :
    (value = .absent ∧ l.perform (.recordMean key value exclusion) =
        (.ok ⟨[], []⟩, { l with values := put key .absent l.values })) ∨
      (value.isAbsent = false ∧
        ((∃ x, mean (l.valueOf key) (l.countOf key) value = .ok x ∧
          l.perform (.recordMean key value exclusion) = (.ok ⟨[], []⟩,
            { l with
              values := put key x l.values
              counts := put key (l.countOf key + 1) l.counts
              exclusions := put key exclusion l.exclusions })) ∨
        ∃ e, l.perform (.recordMean key value exclusion) = (.error e,
          { l with
            values := put key (l.valueOf key) l.values
            counts := put key (l.countOf key) l.counts }))) := by
  cases hvalue : value.isAbsent with
  | true =>
      obtain rfl := LogValue.eq_absent_of_isAbsent hvalue
      exact .inl ⟨rfl, rfl⟩
  | false =>
      refine .inr ⟨rfl, ?_⟩
      cases hmean : mean (l.valueOf key) (l.countOf key) value with
      | ok x =>
          refine .inl ⟨x, rfl, ?_⟩
          unfold valueOf countOf at hmean
          simp only [perform, recordMean, hvalue, hmean, countOf, Bool.false_eq_true, if_false]
      | error e =>
          refine .inr ⟨e, ?_⟩
          unfold valueOf countOf at hmean
          simp only [perform, recordMean, hvalue, hmean, countOf, valueOf, Bool.false_eq_true,
            if_false]

/-- A logger that is disabled writes no table; otherwise a table is refused, or written and its
values cleared. -/
theorem perform_dump_cases
    (l : Logger α) :
    (l.isDisabled = true ∧ l.perform .dump = (.ok ⟨[], []⟩, l)) ∨
      (l.isDisabled = false ∧
        ((∃ e, l.perform .dump = (.error e, l)) ∨ ∃ x, l.perform .dump = (.ok x, l.clear))) := by
  unfold perform dump
  cases l.isDisabled with
  | true =>
      exact .inl ⟨rfl, rfl⟩
  | false =>
      refine .inr ⟨rfl, ?_⟩
      cases l.sinks.isEmpty with
      | true =>
          exact .inr ⟨_, rfl⟩
      | false =>
          cases Table.write l.maxLength l.values l.exclusions with
          | error e => exact .inl ⟨e, rfl⟩
          | ok text => cases text with
            | none => exact .inr ⟨_, rfl⟩
            | some text => exact .inr ⟨_, rfl⟩

/-- The calls since the last table, with one more call. -/
def remembered (l : Logger α) (past : List (Past α)) : Call α → List (Past α)
  | .dump => if l.isDisabled || !(l.perform .dump).1.isOk then past else []
  | .setLevel _ => past
  | call => past ++ [⟨call, (l.perform call).1.isOk⟩]

/-- A table changes nothing, or clears the values and the calls since the last table. -/
theorem remembered_dump_cases
    (l : Logger α) (past : List (Past α)) :
    (l.remembered past .dump = past ∧ (l.perform .dump).2 = l) ∨
      (l.remembered past .dump = [] ∧ (l.perform .dump).2 = l.clear) := by
  unfold remembered
  rcases l.perform_dump_cases with ⟨hdisabled, hdump⟩ | ⟨hdisabled, ⟨e, hdump⟩ | ⟨x, hdump⟩⟩
  · rw [hdisabled, hdump]
    exact .inl ⟨rfl, rfl⟩
  · rw [hdisabled, hdump]
    exact .inl ⟨rfl, rfl⟩
  · rw [hdisabled, hdump]
    exact .inr ⟨rfl, rfl⟩

/-- The calls since the last table, with further calls. -/
def since (l : Logger α) (past : List (Past α)) : List (Call α) → List (Past α)
  | [] => past
  | call :: calls => since (l.perform call).2 (l.remembered past call) calls

/-- A call keeps the sinks and the greatest length of texts. -/
theorem sinks_perform
    (l : Logger α) (call : Call α) :
    (l.perform call).2.sinks = l.sinks ∧ (l.perform call).2.maxLength = l.maxLength := by
  cases call with
  | record key value exclusion =>
      exact ⟨rfl, rfl⟩
  | setLevel level =>
      exact ⟨rfl, rfl⟩
  | recordMean key value exclusion =>
      rcases l.perform_recordMean_cases key value exclusion with
        ⟨-, h⟩ | ⟨-, ⟨_, -, h⟩ | ⟨_, h⟩⟩ <;> rw [h] <;> exact ⟨rfl, rfl⟩
  | dump =>
      rcases l.perform_dump_cases with ⟨-, h⟩ | ⟨-, ⟨_, h⟩ | ⟨_, h⟩⟩ <;> rw [h] <;> exact ⟨rfl, rfl⟩

/-- What a logger holds is preserved by each call. -/
theorem Follows.step
    {past : List (Past α)}
    (h : Follows past l) (call : Call α) :
    Follows (l.remembered past call) (l.perform call).2 := by
  cases call with
  | record key value exclusion =>
      exact h.accept rfl (fun _ => Option.some.inj) rfl rfl
  | setLevel level =>
      exact ⟨h.nodup_values, h.nodup_exclusions, h.isSome_value_iff, h.exclusion_eq, h.value_eq⟩
  | recordMean key value exclusion =>
      unfold remembered
      dsimp only
      rcases l.perform_recordMean_cases key value exclusion with
        ⟨rfl, hperform⟩ | ⟨hvalue, ⟨x, -, hperform⟩ | ⟨e, hperform⟩⟩
      · rw [hperform]
        exact h.accept rfl (fun _ => Option.some.inj) rfl rfl
      · have hgives : (Call.recordMean key value exclusion).exclusion? = some exclusion := by
          simp [Call.exclusion?, hvalue]
        have hfree : (Call.recordMean key value exclusion).value? = none := by
          simp [Call.value?, hvalue]
        rw [hperform]
        refine h.accept rfl (fun _ hx => ?_) rfl ?_
        · rw [hfree] at hx
          cases hx
        · rw [hgives]
          rfl
      · rw [hperform]
        exact h.refuse rfl rfl rfl
  | dump =>
      rcases remembered_dump_cases l past with ⟨hpast, hdump⟩ | ⟨hpast, hdump⟩
      · rw [hpast, hdump]
        exact h
      · rw [hpast, hdump]
        exact .nil rfl rfl

/-- What a logger holds is preserved by all calls. -/
theorem Follows.run
    {past : List (Past α)}
    (h : Follows past l) (calls : List (Call α)) :
    Follows (l.since past calls) (l.after calls) := by
  induction calls generalizing l past with
  | nil => exact h
  | cons call calls ih => exact ih (h.step call)

theorem sinks_after
    (l : Logger α) (calls : List (Call α)) :
    (l.after calls).sinks = l.sinks ∧ (l.after calls).maxLength = l.maxLength := by
  induction calls generalizing l with
  | nil =>
      exact ⟨rfl, rfl⟩
  | cons call calls ih =>
      obtain ⟨hsinks, hlength⟩ := l.sinks_perform call
      rw [← hsinks, ← hlength]
      exact ih _

end Calls

end Logger

/-- The quotient of whole numbers is exact. -/
noncomputable instance Exact.quotients : Quotients ℝ :=
  ⟨fun n total => .ok (n / total)⟩

/-- The number that a value stands for. -/
def LogValue.real? : LogValue ℝ → Option ℝ
  | whole n => some n
  | truth b => some (if b then 1 else 0)
  | number x => some x
  | _ => none

namespace Logger

/-- The number that a call takes into the mean of its key. -/
def Call.mean? : Call ℝ → Option ℝ
  | recordMean _ value _ => value.real?
  | _ => none

section Averages

variable [Threshold]

/-- The mean of a number that counts several times and another number. -/
theorem mean_number
    {value : LogValue ℝ} {y : ℝ}
    (h : value.real? = some y) (x : ℝ) (count : ℕ) :
    mean (.number x) count value = .ok (.number ((x * count + y) / (count + 1 : ℕ))) := by
  have hshare : value.share 1 (count + 1) = .ok (.number (y / (count + 1 : ℕ))) := by
    cases value with
    | whole n =>
        obtain rfl := Option.some.inj h
        simp [LogValue.share, Quotients.quotient]
        rfl
    | truth b =>
        obtain rfl := Option.some.inj h
        simp [LogValue.share, Quotients.quotient]
        rfl
    | number z =>
        obtain rfl := Option.some.inj h
        simp [LogValue.share]
    | _ => cases h
  rw [add_div]
  unfold mean
  rw [hshare]
  rfl

/-- The means that a logger holds: if all accepted calls with a key took numbers into its mean, the
value is their exact mean. -/
def Averages (past : List (Past ℝ)) (l : Logger ℝ) : Prop :=
  ∀ key (xs : List ℝ), (accepted past key).map Call.mean? = xs.map some →
    l.valueOf key = .number (xs.sum / xs.length) ∧ l.countOf key = xs.length

namespace Averages

variable {past : List (Past ℝ)} {l l' : Logger ℝ} {call : Call ℝ} {key : String}

theorem nil
    (hvalues : l.values = [])
    (hcounts : l.counts = []) :
    Averages [] l := by
  intro key xs hxs
  obtain rfl : xs = [] := List.map_eq_nil_iff.1 hxs.symm
  simp [valueOf, countOf, hvalues, hcounts]

/-- A call with one key keeps the means of all others. -/
theorem accept
    (h : Averages past l)
    (hkey : call.key? = some key)
    (hothers : ∀ other, other ≠ key →
      l'.valueOf other = l.valueOf other ∧ l'.countOf other = l.countOf other)
    (hmean : ∀ (xs : List ℝ) (y : ℝ), call.mean? = some y →
      l.valueOf key = .number (xs.sum / xs.length) ∧ l.countOf key = xs.length →
      l'.valueOf key = .number ((xs.sum + y) / (xs.length + 1 : ℕ)) ∧
        l'.countOf key = xs.length + 1) :
    Averages (past ++ [⟨call, true⟩]) l' := by
  intro other xs hxs
  by_cases hother : other = key
  · rw [hother] at hxs ⊢
    rw [accepted_concat_self hkey, List.map_append, List.map_singleton] at hxs
    obtain ⟨ys, zs, rfl, hys, hzs⟩ := List.append_eq_map_iff.1 hxs
    obtain ⟨y, rfl, hy⟩ : ∃ y, zs = [y] ∧ some y = call.mean? := by
      simpa using hzs
    obtain ⟨hvalue, hcount⟩ := hmean ys y hy.symm (h key ys hys.symm)
    rw [List.sum_append, List.sum_singleton, List.length_append, List.length_singleton]
    exact ⟨hvalue, hcount⟩
  · rw [accepted_concat_of_ne hkey hother] at hxs
    rw [(hothers other hother).1, (hothers other hother).2]
    exact h other xs hxs

/-- A call that is refused keeps all means. -/
theorem refuse
    (h : Averages past l)
    (hsame : ∀ other, l'.valueOf other = l.valueOf other ∧ l'.countOf other = l.countOf other) :
    Averages (past ++ [⟨call, false⟩]) l' := by
  intro other xs hxs
  rw [accepted_concat_refused] at hxs
  rw [(hsame other).1, (hsame other).2]
  exact h other xs hxs

end Averages

variable [Shown ℝ] {past : List (Past ℝ)} {l : Logger ℝ}

/-- Means are preserved by each call. -/
theorem Averages.step
    (h : Averages past l) (call : Call ℝ) :
    Averages (l.remembered past call) (l.perform call).2 := by
  cases call with
  | record key value exclusion =>
      refine h.accept rfl (fun other hother => ⟨?_, rfl⟩) fun _ _ hmean => by cases hmean
      exact valueOf_of_ne rfl hother
  | setLevel level =>
      exact h
  | recordMean key value exclusion =>
      unfold remembered
      dsimp only
      rcases l.perform_recordMean_cases key value exclusion with
        ⟨rfl, hperform⟩ | ⟨-, ⟨x, hmean, hperform⟩ | ⟨e, hperform⟩⟩
      · rw [hperform]
        refine h.accept rfl (fun other hother => ⟨?_, rfl⟩) fun _ _ hmean => by cases hmean
        exact valueOf_of_ne rfl hother
      · rw [hperform]
        refine h.accept rfl (fun other hother => ⟨?_, ?_⟩) ?_
        · exact valueOf_of_ne rfl hother
        · exact countOf_of_ne rfl hother
        · intro xs y hy hold
          rw [hold.1, hold.2, mean_number hy] at hmean
          obtain rfl := Except.ok.inj hmean
          have hsum : xs.sum / xs.length * xs.length = xs.sum := by
            apply div_mul_cancel_of_imp
            intro hzero
            rw [List.length_eq_zero_iff.1 (Nat.cast_eq_zero.1 hzero), List.sum_nil]
          rw [hsum, ← hold.2]
          exact ⟨valueOf_self rfl, countOf_self rfl⟩
      · rw [hperform]
        refine h.refuse fun other => ?_
        by_cases hother : other = key
        · rw [hother]
          exact ⟨valueOf_self rfl, countOf_self rfl⟩
        · exact ⟨valueOf_of_ne rfl hother, countOf_of_ne rfl hother⟩
  | dump =>
      rcases remembered_dump_cases l past with ⟨hpast, hdump⟩ | ⟨hpast, hdump⟩
      · rw [hpast, hdump]
        exact h
      · rw [hpast, hdump]
        exact .nil rfl rfl

/-- Means are preserved by all calls. -/
theorem Averages.run
    (h : Averages past l) (calls : List (Call ℝ)) :
    Averages (l.since past calls) (l.after calls) := by
  induction calls generalizing l past with
  | nil => exact h
  | cons call calls ih => exact ih (h.step call)

end Averages

end Logger
end ConvexContact
