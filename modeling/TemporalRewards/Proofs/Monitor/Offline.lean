import TemporalRewards.Labelling.Clock
import TemporalRewards.Proofs.Monitor.LastObservations

/-! Monitoring a recorded trace against monitoring while it is recorded. The check of a trace
starts over and never meets a tick twice, so that it cannot fail, and its verdict at a tick is
that of a fresh monitor after the entries up to this tick. Over a clock these are the
observations that the clock shows when it is reset and advanced. -/
namespace TemporalRewards

namespace Trace

variable {α : Type}

/-- In increasing entries, those up to the tick of one of them are the ones up to its place. -/
theorem filter_eq_take {entries : List (Tick × α)} {i : Nat} {e : Tick × α}
    (increasing : entries.Pairwise fun a b => a.1 < b.1) (place : entries[i]? = some e) :
    entries.filter (·.1 ≤ e.1) = entries.take (i + 1) := by
  induction entries generalizing i with
  | nil => simp at place
  | cons first rest ih =>
    obtain ⟨above, others⟩ := List.pairwise_cons.mp increasing
    cases i with
    | zero =>
      obtain rfl : first = e := by simpa using place
      have later : rest.filter (·.1 ≤ first.1) = [] := by
        simpa using above
      simp [later]
    | succ i =>
      have there : rest[i]? = some e := by simpa using place
      have earlier : first.1 ≤ e.1 := Nat.le_of_lt (above e (List.mem_of_getElem? there))
      simp [earlier, ih others there]

end Trace

namespace ClockLabelling

/-- The observations of the first ticks. -/
def samples (c : ClockLabelling) (n : Nat) : List (Tick × Observation) :=
  (List.range n).map fun tick => (tick, c.sample tick)

theorem ticks_samples (c : ClockLabelling) (n : Nat) :
    (c.samples n).map (·.1) = List.range n := by
  rw [samples, List.map_map]
  exact List.map_id _

theorem samples_succ (c : ClockLabelling) (n : Nat) :
    c.samples (n + 1) = c.samples n ++ [(n, c.sample n)] := by
  rw [samples, List.range_succ, List.map_append]
  rfl

theorem take_samples (c : ClockLabelling) {t n : Nat} (before : t ≤ n) :
    (c.samples n).take t = c.samples t := by
  rw [samples, ← List.map_take, List.take_range, Nat.min_eq_left before, samples]

theorem getElem?_samples {c : ClockLabelling} {n i : Nat} {e : Tick × Observation}
    (place : (c.samples n)[i]? = some e) : i = e.1 ∧ i < n := by
  rw [samples, List.getElem?_map, Option.map_eq_some_iff] at place
  obtain ⟨tick, place, rfl⟩ := place
  obtain ⟨before, rfl⟩ := List.getElem?_eq_some_iff.mp place
  exact ⟨by simp, by simpa using before⟩

theorem entries_trace (c : ClockLabelling) (n : Nat) : (c.trace 0 n).entries = c.samples n := by
  have increasing := Monitor.increasing_of_ticks (c.ticks_samples n)
  rw [trace, Nat.sub_zero, ← List.range_eq_range']
  change (SortedMap.ofList (c.samples n)).entries = c.samples n
  exact SortedMap.entries_ofList (increasing.imp Nat.compare_eq_lt.mpr)

end ClockLabelling

namespace Monitor

variable {φ : Formula} {m : Monitor} {c : ClockLabelling}
  {calls entries : List (Tick × Observation)}

theorem mem_verdictsAlong {tick : Tick} {verdict : Verdict}
    (member : (tick, verdict) ∈ m.verdictsAlong entries) : ∃ i o,
      entries[i]? = some (tick, o) ∧ verdict = (m.replay (entries.take (i + 1))).verdict := by
  obtain ⟨i, there⟩ := List.mem_iff_getElem?.mp member
  rw [getElem?_verdictsAlong, Option.map_eq_some_iff] at there
  obtain ⟨⟨_, o⟩, place, same⟩ := there
  obtain ⟨rfl, rfl⟩ := Prod.mk.inj same
  exact ⟨i, o, place, rfl⟩

/-- A fresh monitor accepts some entries and has a verdict after them. -/
def Concludes (φ : Formula) (entries : List (Tick × Observation)) (verdict : Verdict) : Prop :=
  ∃ seen after, ((ofFormula φ).observeAll entries).value = (.ok seen, after) ∧
    after.verdict = verdict

theorem concludes_replay (trace : Trace Observation) :
    Concludes φ trace.entries ((ofFormula φ).replay trace.entries).verdict :=
  ⟨_, _, value_observeAll (increasing_entries trace) (fun _ known => by contradiction), rfl⟩

/-- Whatever a monitor was used for, a reset makes it as good as new. -/
theorem Reached.reset_eq (reached : Reached φ calls m) : m.reset = ofFormula φ :=
  reached.reset.eq_replay

theorem Reached.value_checkTrace (reached : Reached φ calls m) (trace : Trace Observation) :
    (m.checkTrace trace).value = (.ok ((ofFormula φ).verdictsAlong trace.entries),
      (ofFormula φ).replay trace.entries) := by
  rw [checkTrace, reached.reset_eq]
  exact value_observeAll (increasing_entries trace) fun _ known => by contradiction

/-- The check leaves the monitor with the entries of the trace and nothing else. -/
theorem Reached.checkTrace (reached : Reached φ calls m) (trace : Trace Observation) :
    Reached φ trace.entries (m.checkTrace trace).value.2 := by
  rw [reached.value_checkTrace]
  exact reached_replay (increasing_entries trace)

/-- Observes a clock as it stands. -/
def observeClock : StateM (Monitor × ClockLabelling) (Except StaleTick Verdict) := do
  let (m, c) ← get
  let (answer, m) := (m.observe c.tick c.observation).value
  set (m, c)
  return answer

/-- Resets a clock and advances it for a number of ticks, observes it at each of them and
answers the last verdict. -/
def online : Nat → StateM (Monitor × ClockLabelling) (Except StaleTick Verdict)
  | 0 => do
    modify fun (m, c) => (m, c.reset)
    observeClock
  | t + 1 => do
    let _ ← online t
    modify fun (m, c) => (m, c.step)
    observeClock

/-- Checks the trace of the first ticks of a clock. -/
def checkClock (n : Nat) :
    StateM (Monitor × ClockLabelling) (Except StaleTick (List (Tick × Verdict))) := do
  let (m, c) ← get
  let (answer, m) := (m.checkTrace (c.trace 0 n)).value
  set (m, c)
  return answer

theorem run_observeClock (fresh : m.stale? c.tick = none) : observeClock.run (m, c) =
    (.ok (m.advance c.tick c.observation).verdict, m.advance c.tick c.observation, c) := by
  have accepted : (m.observe c.tick c.observation).value = _ :=
    observe_ok_iff.mpr ⟨fresh, rfl, rfl⟩
  change ((m.observe c.tick c.observation).value.1, (m.observe c.tick c.observation).value.2, c) = _
  rw [accepted]

/-- The clock shows at each tick what its trace has there, whatever it showed before. -/
theorem run_online (fresh : m.lastTick = none) (c : ClockLabelling) (t : Nat) :
    (online t).run (m, c) = (.ok (m.replay (c.samples (t + 1))).verdict,
      m.replay (c.samples (t + 1)), c.evaluateAt t) := by
  induction t with
  | zero =>
    have start : m.stale? c.reset.tick = none := by
      rw [stale?, fresh]
    exact run_observeClock start
  | succ t ih =>
    -- The last tick observed is `t`, and the clock has moved on.
    have next : (m.replay (c.samples (t + 1))).stale? (c.evaluateAt t).step.tick = none := by
      apply stale?_eq_none_iff.mpr
      rw [c.samples_succ, replay_lastTick]
      rintro last ⟨⟩
      exact Nat.le_succ t
    have step : (online (t + 1)).run (m, c) =
        observeClock.run (((online t).run (m, c)).2.1, ((online t).run (m, c)).2.2.step) := rfl
    rw [step, ih, run_observeClock next, c.samples_succ (t + 1), replay_append]
    rfl

theorem run_checkClock (reached : Reached φ calls m) (c : ClockLabelling) (n : Nat) :
    (checkClock n).run (m, c) = (.ok ((ofFormula φ).verdictsAlong (c.samples n)),
      (ofFormula φ).replay (c.samples n), c) := by
  change ((m.checkTrace (c.trace 0 n)).value.1, (m.checkTrace (c.trace 0 n)).value.2, c) = _
  rw [reached.value_checkTrace, c.entries_trace]

/-- The check of a trace never fails. It answers the ticks of the trace, each with the verdict
of a fresh monitor after the entries up to the tick, whatever the checking monitor was used for.
Over a clock, which it leaves as it was, these are the verdicts that a fresh monitor gives while
the clock is reset and advanced. -/
theorem checkTrace_exact (reached : Reached φ calls m) (pairs : List (Tick × Observation)) :
    (∀ e, e ∈ (SortedMap.ofList pairs).entries ↔ ∃ earlier later, pairs = earlier ++ e :: later ∧
      ∀ other ∈ later, other.1 ≠ e.1) ∧
    (∃ verdicts after, (m.checkTrace (SortedMap.ofList pairs)).value = (.ok verdicts, after) ∧
      Reached φ (SortedMap.ofList pairs).entries after ∧
      verdicts.map (·.1) = (SortedMap.ofList pairs).keys ∧
      ∀ tick verdict, (tick, verdict) ∈ verdicts →
        Concludes φ ((SortedMap.ofList pairs).filter (· ≤ tick)).entries verdict) ∧
    ∀ (c : ClockLabelling) (n : Nat), ∃ verdicts after,
      (checkClock n).run (m, c) = (.ok verdicts, after, c) ∧
      verdicts.map (·.1) = List.range n ∧
      ∀ t verdict, (t, verdict) ∈ verdicts →
        ((online t).run (ofFormula φ, c)).1 = .ok verdict := by
  refine ⟨fun e => SortedMap.mem_entries_ofList, ?_, fun c n => ?_⟩
  · have state := reached.checkTrace (SortedMap.ofList pairs)
    have answer := reached.value_checkTrace (SortedMap.ofList pairs)
    rw [answer] at state
    refine ⟨_, _, answer, state, ticks_verdictsAlong _ _, fun tick verdict member => ?_⟩
    obtain ⟨i, o, place, rfl⟩ := mem_verdictsAlong member
    rw [← Trace.filter_eq_take (increasing_entries _) place]
    exact concludes_replay ((SortedMap.ofList pairs).filter (· ≤ tick))
  · refine ⟨_, _, run_checkClock reached c n, ?_, fun t verdict member => ?_⟩
    · rw [ticks_verdictsAlong, c.ticks_samples]
    · obtain ⟨i, o, place, rfl⟩ := mem_verdictsAlong member
      obtain ⟨rfl, before⟩ := ClockLabelling.getElem?_samples place
      rw [run_online rfl, c.take_samples before]

/-- Entries out of order, with tick two corrected. -/
def scattered : List (Tick × Observation) :=
  [(5, .ofNat 0), (2, .ofNat 0), (0, .ofNat 1), (2, .ofNat 1)]

/-- A clock at tick three on which `p` holds before tick two and `q` never. -/
def lapsing : ClockLabelling :=
  (ClockLabelling.reset ⟨[("p", (· < 2)), ("q", fun _ => false)], 0, .empty, []⟩).step.step.step

/-- By a monitor that was at tick five. -/
theorem checkTrace_exact_until : (promised.observeEach wavering).lastTick = some 5 ∧
    ((promised.observeEach wavering).checkTrace (SortedMap.ofList scattered)).value.1 =
      .ok [(0, .satisfied), (2, .satisfied), (5, .violated)] ∧
    Concludes promise [(0, .ofNat 1), (2, .ofNat 1)] .satisfied ∧
    ((checkClock 3).run (promised.observeEach wavering, lapsing)).1 =
      .ok [(0, .satisfied), (1, .satisfied), (2, .violated)] ∧
    ((checkClock 3).run (promised.observeEach wavering, lapsing)).2.2 = lapsing ∧
    lapsing.tick = 3 ∧
    ((online 1).run (ofFormula promise, lapsing)).1 = .ok .satisfied ∧
    ((online 2).run (ofFormula promise, lapsing)).1 = .ok .violated := by
  have reached : Reached promise [] promised :=
    .reset (.accepted .start
      (rfl : ((ofFormula promise).observe 7 (.ofNat 2)).value = (.ok .satisfied, _)))
  have checked : ((promised.observeEach wavering).checkTrace
      (SortedMap.ofList scattered)).value.1 =
    .ok [(0, .satisfied), (2, .satisfied), (5, .violated)] := rfl
  have clocked : ((checkClock 3).run (promised.observeEach wavering, lapsing)).1 =
    .ok [(0, .satisfied), (1, .satisfied), (2, .violated)] := rfl
  obtain ⟨_, ⟨verdicts, after, answer, _, _, concludes⟩, overClock⟩ :=
    checkTrace_exact (reached.observeEach wavering) scattered
  obtain rfl : verdicts = _ := Except.ok.inj ((congrArg Prod.fst answer).symm.trans checked)
  obtain ⟨verdicts, after, run, _, agrees⟩ := overClock lapsing 3
  obtain rfl : verdicts = _ := Except.ok.inj ((congrArg Prod.fst run).symm.trans clocked)
  exact ⟨rfl, checked, concludes 2 .satisfied (by simp), clocked, congrArg (·.2.2) run, rfl,
    agrees 1 .satisfied (by simp), agrees 2 .violated (by simp)⟩

end Monitor

end TemporalRewards
