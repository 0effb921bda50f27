import Mathlib.Order.Monotone.Basic
import Mathlib.Order.Nat
import TemporalRewards.Proofs.Monitor.History

/-! What a monitor keeps of the calls on it: the last observation of each tick that it
accepted, in order of ticks. The calls that it refuses leave no mark, and of the ticks
that it accepts only their order counts. -/
namespace TemporalRewards

namespace SortedMap

variable {κ α : Type} [Ord κ] [Std.TransOrd κ] [Std.LawfulEqOrd κ]

/-- An insertion puts its entry in and takes out the others of its key. -/
theorem mem_insertEntry {key : κ} {value : α} {entries : List (κ × α)} {e : κ × α}
    (increasing : entries.Pairwise fun a b => compare a.1 b.1 = .lt) :
    e ∈ insertEntry key value entries ↔ e = (key, value) ∨ e.1 ≠ key ∧ e ∈ entries := by
  have apart : ∀ {a b : κ}, compare a b = .lt → b ≠ a := by
    intro a b less same
    rw [same, Std.ReflOrd.compare_self] at less
    contradiction
  induction entries with
  | nil => simp [insertEntry]
  | cons first rest ih =>
    obtain ⟨below, others⟩ := List.pairwise_cons.mp increasing
    rw [insertEntry]
    split
    · rename_i less
      have kept : e ∈ first :: rest → e.1 ≠ key := by
        intro member
        rcases List.mem_cons.mp member with rfl | member
        · exact apart less
        · exact apart (Std.TransCmp.lt_trans less (below e member))
      rw [List.mem_cons]
      exact or_congr_right ⟨fun member => ⟨kept member, member⟩, And.right⟩
    · rename_i same
      have same : key = first.1 := Std.LawfulEqOrd.eq_of_compare same
      rw [List.mem_cons, List.mem_cons]
      refine or_congr_right ⟨?_, ?_⟩
      · intro member
        exact ⟨same ▸ apart (below e member), Or.inr member⟩
      · rintro ⟨other, rfl | member⟩
        · exact absurd same.symm other
        · exact member
    · rename_i more
      have other : first.1 ≠ key := (apart (Std.OrientedCmp.lt_of_gt more)).symm
      simp only [List.mem_cons, ih others]
      constructor
      · rintro (rfl | rfl | ⟨kept, member⟩)
        · exact Or.inr ⟨other, Or.inl rfl⟩
        · exact Or.inl rfl
        · exact Or.inr ⟨kept, Or.inr member⟩
      · rintro (rfl | ⟨kept, rfl | member⟩)
        · exact Or.inr (Or.inl rfl)
        · exact Or.inl rfl
        · exact Or.inr (Or.inr ⟨kept, member⟩)

/-- A map that is made of entries has the last one of each key. -/
theorem mem_entries_ofList {entries : List (κ × α)} {e : κ × α} : e ∈ (ofList entries).entries ↔
    ∃ earlier later, entries = earlier ++ e :: later ∧ ∀ other ∈ later, other.1 ≠ e.1 := by
  induction entries using List.reverseRecOn with
  | nil => simp [ofList, insertAll, empty]
  | append_singleton entries last ih =>
    rw [ofList_append, entries_insert, mem_insertEntry (ofList entries).increasing, ih]
    constructor
    · rintro (rfl | ⟨kept, earlier, later, rfl, none⟩)
      · exact ⟨entries, [], rfl, by simp⟩
      · refine ⟨earlier, later ++ [last], by simp, ?_⟩
        rw [List.forall_mem_append, List.forall_mem_singleton]
        exact ⟨none, kept.symm⟩
    · rintro ⟨earlier, later, split, none⟩
      rcases List.eq_nil_or_concat' later with rfl | ⟨later, final, rfl⟩
      · obtain ⟨_, same⟩ := List.append_inj' split rfl
        exact Or.inl (List.cons.inj same).1.symm
      · rw [← List.cons_append, ← List.append_assoc] at split
        obtain ⟨rfl, same⟩ := List.append_inj' split rfl
        obtain rfl := (List.cons.inj same).1
        rw [List.forall_mem_append, List.forall_mem_singleton] at none
        exact Or.inr ⟨none.2.symm, earlier, later, rfl, none.1⟩

end SortedMap

namespace Monitor

variable {φ : Formula} {m after : Monitor} {tick : Tick} {o : Observation}
  {calls : List (Tick × Observation)}

/-- The monitor after calls of which it may refuse some. -/
def observeEach (m : Monitor) : List (Tick × Observation) → Monitor
  | [] => m
  | (tick, o) :: rest => (m.observe tick o).value.2.observeEach rest

/-- The calls that are not refused, in order. -/
def accepted (m : Monitor) : List (Tick × Observation) → List (Tick × Observation)
  | [] => []
  | (tick, o) :: rest =>
    match (m.observe tick o).value with
    | (.ok _, after) => (tick, o) :: after.accepted rest
    | (.error _, after) => after.accepted rest

/-- The same monitor with its last tick under another name. -/
def relabel (f : Tick → Tick) (m : Monitor) : Monitor := { m with lastTick := m.lastTick.map f }

theorem observe_stale {last : Tick} (known : m.lastTick = some last) (before : tick < last) :
    m.observe tick o = ⟨(.error ⟨tick, last⟩, m), []⟩ := by
  have refused : m.stale? tick = some ⟨tick, last⟩ := by simp [stale?, known, before]
  rw [observe, refused]

/-- A call is accepted or refused, and then the others follow. -/
theorem observe_cases (m : Monitor) (tick : Tick) (o : Observation)
    (rest : List (Tick × Observation)) :
    (m.stale? tick = none ∧ m.accepted ((tick, o) :: rest) =
        (tick, o) :: (m.advance tick o).accepted rest ∧
      m.observeEach ((tick, o) :: rest) = (m.advance tick o).observeEach rest) ∨
    (m.stale? tick ≠ none ∧ m.accepted ((tick, o) :: rest) = m.accepted rest ∧
      m.observeEach ((tick, o) :: rest) = m.observeEach rest) := by
  rw [accepted, observeEach]
  cases answer : m.stale? tick with
  | none =>
    rw [(observe_ok_iff.mpr ⟨answer, rfl, rfl⟩ : (m.observe tick o).value = _)]
    exact Or.inl ⟨rfl, rfl, rfl⟩
  | some e =>
    rw [(observe_error_iff.mpr ⟨answer, rfl⟩ : (m.observe tick o).value = _)]
    exact Or.inr ⟨by simp, rfl, rfl⟩

theorem Reached.observeEach {earlier : List (Tick × Observation)} (reached : Reached φ earlier m)
    (calls : List (Tick × Observation)) :
    Reached φ (earlier ++ m.accepted calls) (m.observeEach calls) := by
  induction calls generalizing m earlier with
  | nil => simpa [Monitor.accepted, Monitor.observeEach] using reached
  | cons call rest ih =>
    obtain ⟨tick, o⟩ := call
    rcases observe_cases m tick o rest with ⟨fresh, calls, state⟩ | ⟨_, calls, state⟩
    · have next := reached.accepted
        (observe_ok_iff.mpr ⟨fresh, rfl, rfl⟩ : (m.observe tick o).value = _)
      rw [calls, state, List.append_cons]
      exact ih next
    · rw [calls, state]
      exact ih reached

/-- The order of the last tick and the next decides everything that is done with them. -/
theorem advance_relabel {f : Tick → Tick}
    (order : ∀ last, m.lastTick = some last → (f last < f tick ↔ last < tick)) :
    (m.relabel f).advance (f tick) o = (m.advance tick o).relabel f := by
  have base : (m.relabel f).baseAt (f tick) = m.baseAt tick := by
    cases known : m.lastTick with
    | none => simp [baseAt, relabel, known]
    | some last =>
      simp only [baseAt, relabel, known, Option.map_some]
      exact if_congr (and_congr_left fun _ => order last known) rfl rfl
  rw [advance, base]
  rfl

theorem stale?_relabel {f : Tick → Tick}
    (order : ∀ last, m.lastTick = some last → (f tick < f last ↔ tick < last)) :
    (m.relabel f).stale? (f tick) = none ↔ m.stale? tick = none := by
  cases known : m.lastTick with
  | none => simp [stale?, relabel, known]
  | some last => simp [stale?, relabel, known, order last known]

/-- Other ticks in the same order lead to the same state. -/
theorem observeEach_relabel {f : Tick → Tick} {ticks : Set Tick} (increasing : StrictMonoOn f ticks)
    (last : ∀ last, m.lastTick = some last → last ∈ ticks)
    (next : ∀ c ∈ m.accepted calls, c.1 ∈ ticks) :
    (m.relabel f).observeEach ((m.accepted calls).map fun c => (f c.1, c.2)) =
      (m.observeEach calls).relabel f := by
  induction calls generalizing m with
  | nil => rfl
  | cons call rest ih =>
    obtain ⟨tick, o⟩ := call
    rcases observe_cases m tick o rest with ⟨fresh, calls, state⟩ | ⟨_, calls, state⟩
    · rw [calls, List.forall_mem_cons] at next
      obtain ⟨now, later⟩ := next
      have same : (m.relabel f).stale? (f tick) = none :=
        (stale?_relabel fun t known => increasing.lt_iff_lt now (last t known)).mpr fresh
      have step := advance_relabel (o := o) fun t known =>
        increasing.lt_iff_lt (last t known) now
      rw [calls, state, List.map_cons]
      rcases observe_cases (m.relabel f) (f tick) o
        (((m.advance tick o).accepted rest).map fun c => (f c.1, c.2)) with
        ⟨_, _, relabelled⟩ | ⟨stale, _⟩
      · rw [relabelled, step]
        refine ih ?_ later
        rintro t ⟨⟩
        exact now
      · exact absurd same stale
    · rw [calls] at next ⊢
      rw [state]
      exact ih last next

/-- The state after any calls depends on the last accepted observation of each tick only,
in order of ticks: a monitor that was just made and is given those is in the same state.
A call for a tick before the last one is refused and changes nothing, and accepted ticks
in another spacing change nothing but the last tick. -/
theorem observeEach_exact (fresh : Reached φ [] m) (calls : List (Tick × Observation)) :
    (∃ entries verdicts, (entries.Pairwise fun a b => a.1 < b.1) ∧
        (∀ e, e ∈ entries ↔ ∃ earlier later, m.accepted calls = earlier ++ e :: later ∧
          ∀ c ∈ later, c.1 ≠ e.1) ∧
        ((ofFormula φ).observeAll entries).value = (.ok verdicts, m.observeEach calls)) ∧
      (∀ tick o last, (m.observeEach calls).lastTick = some last → tick < last →
        (m.observeEach calls).observe tick o =
          ⟨(.error ⟨tick, last⟩, m.observeEach calls), []⟩) ∧
      ∀ f, StrictMonoOn f {tick | ∃ o, (tick, o) ∈ m.accepted calls} →
        m.observeEach ((m.accepted calls).map fun c => (f c.1, c.2)) =
          { m.observeEach calls with lastTick := (m.observeEach calls).lastTick.map f } := by
  have start : m = ofFormula φ := fresh.eq_replay
  refine ⟨?_, fun tick o last known before => observe_stale known before, ?_⟩
  · have state : m.observeEach calls =
        (ofFormula φ).replay (SortedMap.ofList (m.accepted calls)).entries :=
      (fresh.observeEach calls).eq_replay
    have increasing : (SortedMap.ofList (m.accepted calls)).entries.Pairwise
        fun a b => a.1 < b.1 := by
      simpa only [Nat.compare_eq_lt] using (SortedMap.ofList (m.accepted calls)).increasing
    obtain ⟨verdicts, answer, _⟩ := observeAll_eq (m := ofFormula φ) increasing
      (fun last known => by contradiction)
    refine ⟨_, verdicts, increasing, fun e => SortedMap.mem_entries_ofList, ?_⟩
    rw [answer, state]
  · intro f increasing
    have unlabelled : m.relabel f = m := by
      rw [start]
      rfl
    have same := observeEach_relabel (m := m) increasing (fun last known => by
      rw [start] at known
      contradiction) (fun c member => ⟨c.2, member⟩)
    rwa [unlabelled] at same

/-- `p until q`, with a monitor that was reset. -/
def promise : Formula := .strongUntil (.atom 0) (.atom 1)

def promised : Monitor := ((ofFormula promise).observe 7 (.ofNat 2)).value.2.reset

/-- Calls of which two are refused and two are for a tick again. Tick 3 first violates
`p until q` and tick 5 first satisfies it. -/
def wavering : List (Tick × Observation) :=
  [(0, .ofNat 1), (3, .ofNat 0), (1, .ofNat 2), (3, .ofNat 1), (5, .ofNat 2), (2, .ofNat 0),
    (5, .ofNat 1)]

/-- The last word on each tick is `p`, so nothing is settled, at ticks 0, 3 and 5 as well
as at 0, 1 and 2. -/
theorem observeEach_exact_until : Reached promise [] promised ∧
    promised.accepted wavering =
      [(0, .ofNat 1), (3, .ofNat 0), (3, .ofNat 1), (5, .ofNat 2), (5, .ofNat 1)] ∧
    (promised.observeEach wavering).residual = promise ∧
    (∃ entries verdicts, ((ofFormula promise).observeAll entries).value =
      (.ok verdicts, promised.observeEach wavering)) ∧
    (promised.observeEach wavering).observe 4 (.ofNat 2) =
      ⟨(.error ⟨4, 5⟩, promised.observeEach wavering), []⟩ ∧
    promised.observeEach
        [(0, .ofNat 1), (1, .ofNat 0), (1, .ofNat 1), (2, .ofNat 2), (2, .ofNat 1)] =
      { promised.observeEach wavering with lastTick := some 2 } := by
  have reached : Reached promise [] promised :=
    .reset (.accepted .start
      (rfl : ((ofFormula promise).observe 7 (.ofNat 2)).value = (.ok .satisfied, _)))
  have calls : promised.accepted wavering =
      [(0, .ofNat 1), (3, .ofNat 0), (3, .ofNat 1), (5, .ofNat 2), (5, .ofNat 1)] := rfl
  have halved : StrictMonoOn (· / 2) {tick | ∃ o, (tick, o) ∈ promised.accepted wavering} := by
    have known : ∀ tick, (∃ o, (tick, o) ∈ promised.accepted wavering) →
        tick = 0 ∨ tick = 3 ∨ tick = 5 := by
      rintro tick ⟨o, member⟩
      rw [calls] at member
      simp only [List.mem_cons, Prod.mk.injEq, List.not_mem_nil, or_false] at member
      rcases member with ⟨rfl, _⟩ | ⟨rfl, _⟩ | ⟨rfl, _⟩ | ⟨rfl, _⟩ | ⟨rfl, _⟩ <;> decide
    intro s first t second
    rcases known s first with rfl | rfl | rfl <;> rcases known t second with rfl | rfl | rfl <;>
      decide
  have last : (promised.observeEach wavering).lastTick = some 5 := rfl
  obtain ⟨⟨entries, verdicts, _, _, answer⟩, refuses, respaced⟩ :=
    observeEach_exact reached wavering
  have respaced := respaced (· / 2) halved
  rw [calls, last] at respaced
  exact ⟨reached, calls, rfl, ⟨entries, verdicts, answer⟩,
    refuses 4 (.ofNat 2) 5 last (by decide), respaced⟩

end Monitor

end TemporalRewards
