import Mathlib.Data.List.Basic
import Mathlib.Data.List.Induction
import TemporalRewards.Monitor

/-! The states that a monitor of a formula can reach, and what they depend on.
Whatever was observed, refused or reset before, a monitor is where a fresh one is
after the last observation of each tick since the reset, in order of ticks. -/
namespace TemporalRewards

namespace SortedMap

variable {κ α : Type} [Ord κ]

/-- A key above all others gives a new last entry. -/
theorem insertEntry_above {key : κ} {value : α} {entries : List (κ × α)}
    (above : ∀ e ∈ entries, compare key e.1 = .gt) :
    insertEntry key value entries = entries ++ [(key, value)] := by
  induction entries with
  | nil => rfl
  | cons e rest ih =>
    obtain ⟨first, others⟩ := List.forall_mem_cons.mp above
    simp only [insertEntry, first, ih others, List.cons_append]

/-- The last key again replaces the last value. -/
theorem insertEntry_last [Std.ReflOrd κ] {key : κ} {value old : α} {entries : List (κ × α)}
    (above : ∀ e ∈ entries, compare key e.1 = .gt) :
    insertEntry key value (entries ++ [(key, old)]) = entries ++ [(key, value)] := by
  induction entries with
  | nil =>
    have same : compare key key = .eq := Std.ReflCmp.compare_self
    simp only [List.nil_append, insertEntry, same]
  | cons e rest ih =>
    obtain ⟨first, others⟩ := List.forall_mem_cons.mp above
    simp only [List.cons_append, insertEntry, first, ih others]

theorem entries_insert [Std.TransOrd κ] [Std.LawfulEqOrd κ] (m : SortedMap κ α) (key : κ)
    (value : α) : (m.insert key value).entries = insertEntry key value m.entries := rfl

theorem ofList_append [Std.TransOrd κ] [Std.LawfulEqOrd κ] (entries : List (κ × α)) (key : κ)
    (value : α) : ofList (entries ++ [(key, value)]) = (ofList entries).insert key value := by
  simp only [ofList, insertAll, List.foldl_append, List.foldl_cons, List.foldl_nil]

/-- Entries with increasing keys are the map that they make. -/
theorem entries_ofList [Std.TransOrd κ] [Std.LawfulEqOrd κ] {entries : List (κ × α)}
    (increasing : entries.Pairwise fun a b => compare a.1 b.1 = .lt) :
    (ofList entries).entries = entries := by
  induction entries using List.reverseRecOn with
  | nil => rfl
  | append_singleton entries e ih =>
    obtain ⟨before, _, below⟩ := List.pairwise_append.mp increasing
    have above : ∀ other ∈ entries, compare e.1 other.1 = .gt := by
      intro other member
      exact Std.OrientedCmp.gt_of_lt (below other member e List.mem_cons_self)
    rw [ofList_append, entries_insert, ih before]
    exact insertEntry_above above

end SortedMap

namespace Monitor

/-- The monitor after entries with increasing ticks. -/
def replay (m : Monitor) (entries : List (Tick × Observation)) : Monitor :=
  entries.foldl (fun m e => m.advance e.1 e.2) m

/-- The monitors of a formula that can be reached, each with the observations
that it accepted since the start or the last reset. -/
inductive Reached (φ : Formula) : List (Tick × Observation) → Monitor → Prop where
  | start : Reached φ [] (ofFormula φ)
  | accepted {calls m tick o verdict after} : Reached φ calls m →
      (m.observe tick o).value = (.ok verdict, after) → Reached φ (calls ++ [(tick, o)]) after
  | refused {calls m tick o e after} : Reached φ calls m →
      (m.observe tick o).value = (.error e, after) → Reached φ calls after
  | reset {calls m} : Reached φ calls m → Reached φ [] m.reset

variable {φ : Formula} {m after : Monitor} {tick : Tick} {o : Observation} {verdict : Verdict}
  {calls entries : List (Tick × Observation)}

theorem observe_ok_iff : (m.observe tick o).value = (.ok verdict, after) ↔
    m.stale? tick = none ∧ verdict = after.verdict ∧ after = m.advance tick o := by
  unfold observe
  cases m.stale? tick with
  | some e => simp
  | none =>
    simp only [Prod.mk.injEq, Except.ok.injEq, true_and]
    constructor
    · rintro ⟨rfl, rfl⟩
      exact ⟨rfl, rfl⟩
    · rintro ⟨rfl, rfl⟩
      exact ⟨rfl, rfl⟩

theorem observe_error_iff {e : StaleTick} : (m.observe tick o).value = (.error e, after) ↔
    m.stale? tick = some e ∧ after = m := by
  unfold observe
  cases m.stale? tick with
  | some e => simp [eq_comm]
  | none => simp

theorem stale?_eq_none_iff :
    m.stale? tick = none ↔ ∀ last, m.lastTick = some last → last ≤ tick := by
  unfold stale?
  cases m.lastTick with
  | none => simp
  | some last => simp

/-- Observing a tick again forgets what was observed for it before. -/
theorem advance_again (m : Monitor) (tick : Tick) (old new : Observation) :
    (m.advance tick old).advance tick new = m.advance tick new := by
  have base : (m.advance tick old).baseAt tick = m.baseAt tick := by
    simp [baseAt, advance]
  rw [advance, base]
  rfl

theorem replay_append (m : Monitor) (entries : List (Tick × Observation)) (tick : Tick)
    (o : Observation) :
    m.replay (entries ++ [(tick, o)]) = (m.replay entries).advance tick o := by
  rw [replay, List.foldl_append]
  rfl

theorem replay_formula (m : Monitor) (entries : List (Tick × Observation)) :
    (m.replay entries).formula = m.formula := by
  induction entries generalizing m with
  | nil => rfl
  | cons e rest ih => exact ih (m.advance e.1 e.2)

theorem replay_lastTick (m : Monitor) (entries : List (Tick × Observation))
    (e : Tick × Observation) : (m.replay (entries ++ [e])).lastTick = some e.1 := by
  rw [replay_append]
  rfl

/-- Advancing by a tick that is not before the last one replays the trace with
the observation put at that tick. -/
theorem replay_insert (trace : Trace Observation)
    (notBefore : ∀ last, (m.replay trace.entries).lastTick = some last → last ≤ tick) :
    m.replay (trace.insert tick o).entries = (m.replay trace.entries).advance tick o := by
  obtain ⟨entries, increasing⟩ := trace
  rcases List.eq_nil_or_concat' entries with rfl | ⟨before, ⟨last, old⟩, rfl⟩
  · rfl
  · have below : ∀ e ∈ before, e.1 < last := by
      intro e member
      simpa [Nat.compare_eq_lt] using (List.pairwise_append.mp increasing).2.2 e member
    rw [SortedMap.entries_insert]
    rcases Nat.lt_or_eq_of_le (notBefore last (replay_lastTick m before (last, old))) with
      later | rfl
    · have above : ∀ e ∈ before ++ [(last, old)], compare tick e.1 = .gt := by
        simp only [List.forall_mem_append, List.forall_mem_singleton, Nat.compare_eq_gt]
        refine ⟨?_, later⟩
        intro e member
        exact Nat.lt_trans (below e member) later
      rw [SortedMap.insertEntry_above above, replay_append]
    · have above : ∀ e ∈ before, compare last e.1 = .gt := by
        intro e member
        exact Nat.compare_eq_gt.mpr (below e member)
      rw [SortedMap.insertEntry_last above, replay_append, replay_append, advance_again]

theorem increasing_entries (trace : Trace Observation) :
    trace.entries.Pairwise fun a b => a.1 < b.1 :=
  trace.increasing.imp Nat.compare_eq_lt.mp

/-- Observations of ticks zero, one, and so on. -/
theorem increasing_of_ticks {n : Nat} (ticks : entries.map (·.1) = List.range n) :
    entries.Pairwise fun a b => a.1 < b.1 := by
  have ordered : (List.range n).Pairwise (· < ·) := List.pairwise_lt_range
  rwa [← ticks, List.pairwise_map] at ordered

/-- The verdict at each of some entries with increasing ticks. -/
def verdictsAlong (m : Monitor) : List (Tick × Observation) → List (Tick × Verdict)
  | [] => []
  | (tick, o) :: rest => (tick, (m.advance tick o).verdict) :: (m.advance tick o).verdictsAlong rest

theorem ticks_verdictsAlong (m : Monitor) (entries : List (Tick × Observation)) :
    (m.verdictsAlong entries).map (·.1) = entries.map (·.1) := by
  induction entries generalizing m with
  | nil => rfl
  | cons e rest ih => rw [verdictsAlong, List.map_cons, List.map_cons, ih]

/-- Each verdict is that of the monitor after the entries up to its place. -/
theorem getElem?_verdictsAlong (m : Monitor) (entries : List (Tick × Observation)) (i : Nat) :
    (m.verdictsAlong entries)[i]? =
      entries[i]?.map fun e => (e.1, (m.replay (entries.take (i + 1))).verdict) := by
  induction entries generalizing m i with
  | nil => rfl
  | cons e rest ih =>
    cases i with
    | zero => rfl
    | succ i =>
      rw [verdictsAlong, List.getElem?_cons_succ, List.getElem?_cons_succ, ih]
      rfl

/-- Entries with increasing ticks, from the last tick on, are all accepted. -/
theorem value_observeAll (increasing : entries.Pairwise fun a b => a.1 < b.1)
    (later : ∀ last, m.lastTick = some last → ∀ e ∈ entries, last ≤ e.1) :
    (m.observeAll entries).value = (.ok (m.verdictsAlong entries), m.replay entries) := by
  induction entries generalizing m with
  | nil => rfl
  | cons e rest ih =>
    obtain ⟨tick, o⟩ := e
    obtain ⟨first, others⟩ := List.pairwise_cons.mp increasing
    have fresh : m.stale? tick = none := by
      apply stale?_eq_none_iff.mpr
      intro last known
      exact later last known (tick, o) List.mem_cons_self
    have accepted : (m.observe tick o).value = (.ok (m.advance tick o).verdict, m.advance tick o) :=
      observe_ok_iff.mpr ⟨fresh, rfl, rfl⟩
    have answer := ih (m := m.advance tick o) others (by
      rintro last ⟨⟩ e member
      exact Nat.le_of_lt (first e member))
    rw [observeAll, Logged.value_bind, accepted, Logged.value_bind, answer]
    rfl

/-- The last of their verdicts is that of the monitor after them. -/
theorem observeAll_eq (increasing : entries.Pairwise fun a b => a.1 < b.1)
    (later : ∀ last, m.lastTick = some last → ∀ e ∈ entries, last ≤ e.1) :
    ∃ verdicts, (m.observeAll entries).value = (.ok verdicts, m.replay entries) ∧
      verdicts.getLast? = entries.getLast?.map fun e => (e.1, (m.replay entries).verdict) := by
  refine ⟨_, value_observeAll increasing later, ?_⟩
  have length : (m.verdictsAlong entries).length = entries.length := by
    simpa using congrArg List.length (ticks_verdictsAlong m entries)
  rw [List.getLast?_eq_getElem?, List.getLast?_eq_getElem?, length, getElem?_verdictsAlong]
  cases entries with
  | nil => rfl
  | cons e rest => rw [List.length_cons, Nat.add_sub_cancel, ← List.length_cons, List.take_length]

/-- Entries with increasing ticks can be observed one after another. -/
theorem reached_replay (increasing : entries.Pairwise fun a b => a.1 < b.1) :
    Reached φ entries ((ofFormula φ).replay entries) := by
  induction entries using List.reverseRecOn with
  | nil => exact .start
  | append_singleton entries e ih =>
    obtain ⟨before, _, later⟩ := List.pairwise_append.mp increasing
    rw [replay_append]
    refine .accepted (ih before) (observe_ok_iff.mpr ⟨?_, rfl, rfl⟩)
    apply stale?_eq_none_iff.mpr
    intro last known
    rcases List.eq_nil_or_concat' entries with rfl | ⟨earlier, newest, rfl⟩
    · contradiction
    · rw [replay_lastTick, Option.some.injEq] at known
      exact known ▸ Nat.le_of_lt (later newest (by simp) e (by simp))

/-- Only the last observation of each tick counts, in order of ticks. -/
theorem Reached.eq_replay (reached : Reached φ calls m) :
    m = (ofFormula φ).replay (SortedMap.ofList calls).entries := by
  induction reached with
  | start => rfl
  | accepted _ accepted ih =>
    obtain ⟨fresh, _, rfl⟩ := observe_ok_iff.mp accepted
    rw [ih] at fresh ⊢
    rw [SortedMap.ofList_append, replay_insert _ (stale?_eq_none_iff.mp fresh)]
  | refused _ refused ih =>
    obtain ⟨_, rfl⟩ := observe_error_iff.mp refused
    exact ih
  | reset _ ih =>
    rw [ih, Monitor.reset, replay_formula]
    rfl

theorem Reached.formula_eq (reached : Reached φ calls m) : m.formula = φ.simplify := by
  rw [reached.eq_replay, replay_formula]
  rfl

end Monitor

end TemporalRewards
