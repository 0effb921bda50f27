import TemporalRewards.Proofs.Formula.Settling
import TemporalRewards.Proofs.Monitor.LastObservations
import TemporalRewards.Proofs.Monitor.Memoryless

/-! What a monitor records. Each observation that it accepts leaves one record and each
that it refuses leaves none. As long as no tick is observed twice, a run has at most one
record that matters more than detail: that of the observation which settles the monitor,
with the verdict that is answered from then on. -/
namespace TemporalRewards.Monitor

open Formula

variable {φ : Formula} {m : Monitor} {tick last : Tick} {o : Observation} {b : Bool}
  {calls : List (Tick × Observation)}

/-- What each call is answered, and the records that it leaves. -/
def answersEach (m : Monitor) :
    List (Tick × Observation) → List (Except StaleTick Verdict × List Event)
  | [] => []
  | (tick, o) :: rest =>
    ((m.observe tick o).value.1, (m.observe tick o).events) ::
      (m.observe tick o).value.2.answersEach rest

/-- An accepted call that leaves one record of detail, or a refused one that leaves none. -/
def Unremarkable : Except StaleTick Verdict × List Event → Prop
  | (.ok _, events) => ∃ e, events = [e] ∧ e.level = .trace
  | (.error _, events) => events = []

theorem observe_of_fresh (fresh : m.stale? tick = none) (o : Observation) : m.observe tick o =
    ⟨(.ok (m.advance tick o).verdict, m.advance tick o), [m.event (m.advance tick o) tick]⟩ := by
  rw [observe, fresh]

theorem observe_of_stale {e : StaleTick} (stale : m.stale? tick = some e) (o : Observation) :
    m.observe tick o = ⟨(.error e, m), []⟩ := by
  rw [observe, stale]

theorem level_event (m after : Monitor) (tick : Tick)
    (same : m.isSettled = true ∨ after.isSettled = false) : (m.event after tick).level = .trace := by
  have plain : (!m.isSettled && after.isSettled) = false := by
    rcases same with settled | pending
    · simp [settled]
    · simp [pending]
  rw [event, plain]
  rfl

theorem isTemporal_of_settled? (settled : m.settled? = some b) : m.isTemporal = true := by
  by_contra memoryless
  rw [settled?, if_neg memoryless] at settled
  contradiction

theorem verdict_of_settled? (settled : m.settled? = some b) : m.verdict = Verdict.ofBool b := by
  rw [verdict, settled?_eq_some settled, presume_ofBool]

/-- A later tick leaves a settled monitor settled. -/
theorem settled?_advance (settled : m.settled? = some b) (known : m.lastTick = some last)
    (later : last < tick) (o : Observation) : (m.advance tick o).settled? = some b := by
  have temporal := isTemporal_of_settled? settled
  have base : m.baseAt tick = ofBool b := by
    simp [baseAt, known, later, temporal, settled?_eq_some settled]
  apply (settled?_eq_some_iff (m := m.advance tick o) temporal).mpr
  rw [advance, base, progress_ofBool]

/-- Nothing that a settled monitor answers is remarkable. -/
theorem answersEach_of_settled (settled : m.settled? = some b) (known : m.lastTick = some last)
    (later : ∀ c ∈ m.accepted calls, last < c.1)
    (increasing : (m.accepted calls).Pairwise fun a b => a.1 < b.1) :
    ∀ a ∈ m.answersEach calls, Unremarkable a ∧ ∀ v, a.1 = .ok v → v = Verdict.ofBool b := by
  induction calls generalizing m last with
  | nil => exact fun a none => absurd none List.not_mem_nil
  | cons call rest ih =>
    obtain ⟨tick, o⟩ := call
    cases answer : m.stale? tick with
    | some e =>
      rw [accepted, observe_of_stale answer] at later increasing
      rw [answersEach, observe_of_stale answer, List.forall_mem_cons]
      refine ⟨⟨rfl, fun v refused => ?_⟩, ih settled known later increasing⟩
      contradiction
    | none =>
      rw [accepted, observe_of_fresh answer] at later increasing
      obtain ⟨first, _⟩ := List.forall_mem_cons.mp later
      obtain ⟨next, others⟩ := List.pairwise_cons.mp increasing
      have after := settled?_advance settled known first o
      have detail : (m.event (m.advance tick o) tick).level = .trace :=
        level_event m _ tick (.inl (Option.isSome_of_eq_some settled))
      rw [answersEach, observe_of_fresh answer, List.forall_mem_cons]
      refine ⟨⟨⟨_, rfl, detail⟩, ?_⟩, ih after rfl next others⟩
      rintro v ⟨⟩
      exact verdict_of_settled? after

/-- The records of a run that are more than detail. -/
def highlights (m : Monitor) (calls : List (Tick × Observation)) : List Event :=
  ((m.answersEach calls).flatMap Prod.snd).filter (·.level ≠ .trace)

theorem Unremarkable.filter_eq_nil {a : Except StaleTick Verdict × List Event}
    (plain : Unremarkable a) : a.2.filter (·.level ≠ .trace) = [] := by
  obtain ⟨_ | _, events⟩ := a
  · obtain rfl : events = [] := plain
    rfl
  · obtain ⟨e, rfl, detail⟩ := plain
    simp [detail]

theorem filter_flatMap_eq_nil {answers : List (Except StaleTick Verdict × List Event)}
    (plain : ∀ a ∈ answers, Unremarkable a) :
    (answers.flatMap Prod.snd).filter (·.level ≠ .trace) = [] := by
  rw [List.filter_flatMap, List.flatMap_eq_nil_iff]
  exact fun a among => (plain a among).filter_eq_nil

theorem pending_cons (pending : m.isSettled = false)
    (rest : ∀ part, part <+: calls → ((m.observe tick o).value.2.observeEach part).isSettled = false)
    (part : List (Tick × Observation)) (start : part <+: (tick, o) :: calls) :
    (m.observeEach part).isSettled = false := by
  rcases List.prefix_cons_iff.mp start with rfl | ⟨part, rfl, inner⟩
  · exact pending
  · exact rest part inner

/-- How a run settles a monitor: with a first call after which it is settled. The record of this
call names the verdict, which accepted calls are answered from then on; all other calls are
unremarkable. -/
structure Settles (m : Monitor) (calls earlier : List (Tick × Observation)) (tick : Tick)
    (o : Observation) (later : List (Tick × Observation)) (verdict : Verdict) : Prop where
  place : calls = earlier ++ (tick, o) :: later
  pending : ∀ part, part <+: earlier → (m.observeEach part).isSettled = false
  settled : (m.observeEach (earlier ++ [(tick, o)])).isSettled = true
  plain : ∀ a ∈ m.answersEach earlier, Unremarkable a
  answers : ∃ late, m.answersEach calls =
      m.answersEach earlier ++ (.ok verdict, [.settled m.formula verdict tick]) :: late ∧
    ∀ a ∈ late, Unremarkable a ∧ ∀ v, a.1 = .ok v → v = verdict

namespace Settles

variable {earlier later : List (Tick × Observation)} {verdict : Verdict}

theorem highlights_eq (settles : Settles m calls earlier tick o later verdict) :
    m.highlights calls = [.settled m.formula verdict tick] := by
  obtain ⟨late, answers, plain⟩ := settles.answers
  rw [highlights, answers, List.flatMap_append, List.flatMap_cons, List.filter_append,
    List.filter_append, filter_flatMap_eq_nil settles.plain,
    filter_flatMap_eq_nil fun a among => (plain a among).1]
  rfl

/-- A call before that leaves the monitor open. -/
theorem cons {t : Tick} {p : Observation} (pending : m.isSettled = false)
    (plain : Unremarkable ((m.observe t p).value.1, (m.observe t p).events))
    (formula : (m.observe t p).value.2.formula = m.formula)
    (settles : Settles (m.observe t p).value.2 calls earlier tick o later verdict) :
    Settles m ((t, p) :: calls) ((t, p) :: earlier) tick o later verdict where
  place := congrArg ((t, p) :: ·) settles.place
  pending := pending_cons pending settles.pending
  settled := settles.settled
  plain := List.forall_mem_cons.mpr ⟨plain, settles.plain⟩
  answers := by
    obtain ⟨late, answers, after⟩ := settles.answers
    refine ⟨late, ?_, after⟩
    rw [answersEach, answersEach, answers, formula]
    rfl

end Settles

/-- A run that leaves a monitor open has no remarkable call. -/
structure StaysOpen (m : Monitor) (calls : List (Tick × Observation)) : Prop where
  pending : ∀ part, part <+: calls → (m.observeEach part).isSettled = false
  plain : ∀ a ∈ m.answersEach calls, Unremarkable a

theorem StaysOpen.cons (pending : m.isSettled = false)
    (plain : Unremarkable ((m.observe tick o).value.1, (m.observe tick o).events))
    (rest : StaysOpen (m.observe tick o).value.2 calls) : StaysOpen m ((tick, o) :: calls) where
  pending := pending_cons pending rest.pending
  plain := List.forall_mem_cons.mpr ⟨plain, rest.plain⟩

/-- The first call of a run that leaves a monitor open decides nothing about the run. -/
theorem staysOpen_or_settles_cons (pending : m.isSettled = false)
    (plain : Unremarkable ((m.observe tick o).value.1, (m.observe tick o).events))
    (formula : (m.observe tick o).value.2.formula = m.formula)
    (rest : StaysOpen (m.observe tick o).value.2 calls ∨ ∃ earlier t p later verdict,
      Settles (m.observe tick o).value.2 calls earlier t p later verdict) :
    StaysOpen m ((tick, o) :: calls) ∨ ∃ earlier t p later verdict,
      Settles m ((tick, o) :: calls) earlier t p later verdict := by
  rcases rest with stays | ⟨earlier, t, p, later, verdict, settles⟩
  · exact .inl (stays.cons pending plain)
  · exact .inr ⟨_, t, p, later, verdict, settles.cons pending plain formula⟩

/-- An accepted call after which the monitor is settled. -/
theorem settles_head (pending : m.isSettled = false) (fresh : m.stale? tick = none)
    (settled : (m.advance tick o).isSettled = true)
    (later : ∀ c ∈ (m.advance tick o).accepted calls, tick < c.1)
    (increasing : ((m.advance tick o).accepted calls).Pairwise fun a b => a.1 < b.1) :
    Settles m ((tick, o) :: calls) [] tick o calls (m.advance tick o).verdict := by
  have call := observe_of_fresh fresh o
  obtain ⟨b, value⟩ := Option.isSome_iff_exists.mp settled
  have record : m.event (m.advance tick o) tick =
      .settled m.formula (m.advance tick o).verdict tick := by
    simp only [event, pending, settled]
    rfl
  refine ⟨rfl, fun part start => ?_, ?_, nofun, (m.advance tick o).answersEach calls, ?_, ?_⟩
  · rw [List.prefix_nil.mp start]
    exact pending
  · rw [List.nil_append, observeEach, call]
    exact settled
  · simp only [answersEach, call, record, List.nil_append]
  · rw [verdict_of_settled? value]
    exact answersEach_of_settled value rfl later increasing

/-- A monitor that is not settled stays so through the run, or it is settled by one of its calls. -/
theorem staysOpen_or_settles (pending : m.isSettled = false)
    (later : ∀ last, m.lastTick = some last → ∀ c ∈ m.accepted calls, last < c.1)
    (increasing : (m.accepted calls).Pairwise fun a b => a.1 < b.1) :
    StaysOpen m calls ∨
      ∃ earlier tick o later verdict, Settles m calls earlier tick o later verdict := by
  induction calls generalizing m with
  | nil =>
    refine .inl ⟨fun part start => ?_, nofun⟩
    rw [List.prefix_nil.mp start]
    exact pending
  | cons call rest ih =>
    obtain ⟨tick, o⟩ := call
    cases answer : m.stale? tick with
    | some e =>
      have call := observe_of_stale answer o
      rw [accepted, call] at later increasing
      apply staysOpen_or_settles_cons pending <;> rw [call]
      · rfl
      · exact ih pending later increasing
    | none =>
      have call := observe_of_fresh answer o
      rw [accepted, call] at increasing
      obtain ⟨next, others⟩ := List.pairwise_cons.mp increasing
      cases settled : (m.advance tick o).isSettled with
      | true => exact .inr ⟨_, _, _, _, _, settles_head pending answer settled next others⟩
      | false =>
        apply staysOpen_or_settles_cons pending <;> rw [call]
        · exact ⟨_, rfl, level_event m _ tick (.inr settled)⟩
        · rfl
        · refine ih settled ?_ others
          rintro last ⟨⟩
          exact next

theorem Reached.not_settled (fresh : Reached φ [] m) : m.isSettled = false := by
  obtain rfl : m = ofFormula φ := fresh.eq_replay
  rw [Bool.eq_false_iff]
  intro settled
  obtain ⟨b, value⟩ := Option.isSome_iff_exists.mp settled
  exact not_constant_of_temporal (isTemporal_of_settled? value) ⟨b, settled?_eq_some value⟩

theorem Reached.isTemporal_observeEach (fresh : Reached φ [] m)
    (calls : List (Tick × Observation)) : (m.observeEach calls).isTemporal = m.isTemporal := by
  rw [isTemporal, (fresh.observeEach calls).formula_eq, isTemporal, fresh.formula_eq]

/-- Settling is recorded once. Take a monitor after its start or a reset, and calls of which
those that it accepts have increasing ticks, whichever others it refuses in between. Each
accepted call leaves one record and each refused call none. If the monitor is ever settled, the
first call after which it is leaves the only record that is more than detail, and this names the
verdict that every later call is answered, unless it is refused. If the monitor is never settled,
all records are of detail, and a memoryless monitor is never settled. -/
theorem settling_recorded_once (fresh : Reached φ [] m)
    (increasing : (m.accepted calls).Pairwise fun a b => a.1 < b.1) :
    ((∃ part, part <+: calls ∧ (m.observeEach part).isSettled = true) →
      ∃ earlier tick o later verdict, Settles m calls earlier tick o later verdict ∧
        m.highlights calls = [.settled m.formula verdict tick] ∧
        (Event.settled m.formula verdict tick).level = .debug) ∧
    ((∀ part, part <+: calls → (m.observeEach part).isSettled = false) →
      ∀ a ∈ m.answersEach calls, Unremarkable a) ∧
    (m.isTemporal = false → (∀ part, (m.observeEach part).isSettled = false) ∧
      ∀ a ∈ m.answersEach calls, Unremarkable a) := by
  have later : ∀ last, m.lastTick = some last → ∀ c ∈ m.accepted calls, last < c.1 := by
    obtain rfl : m = ofFormula φ := fresh.eq_replay
    intro last known
    contradiction
  have either := staysOpen_or_settles fresh.not_settled later increasing
  have never : (∀ part, part <+: calls → (m.observeEach part).isSettled = false) →
      ∀ a ∈ m.answersEach calls, Unremarkable a := by
    intro pending
    rcases either with stays | ⟨earlier, tick, o, later, verdict, settles⟩
    · exact stays.plain
    · have start : earlier ++ [(tick, o)] <+: calls := ⟨later, by simp [settles.place]⟩
      exact absurd settles.settled (by simp [pending _ start])
  refine ⟨?_, never, ?_⟩
  · rintro ⟨part, start, settled⟩
    rcases either with stays | ⟨earlier, tick, o, later, verdict, settles⟩
    · exact absurd settled (by simp [stays.pending part start])
    · exact ⟨earlier, tick, o, later, verdict, settles, settles.highlights_eq, rfl⟩
  · intro memoryless
    have pending (part : List (Tick × Observation)) : (m.observeEach part).isSettled = false := by
      apply isSettled_of_memoryless
      rw [fresh.isTemporal_observeEach, memoryless]
    exact ⟨pending, never fun part _ => pending part⟩

/-- Calls of which two are refused, one before and one after `p until q` is settled. -/
def fulfilling : List (Tick × Observation) :=
  [(0, .ofNat 1), (3, .ofNat 1), (1, .ofNat 2), (5, .ofNat 2), (2, .ofNat 0), (6, .ofNat 0)]

/-- The observation of tick 5 settles the monitor, and this is the only record that matters. -/
theorem settling_recorded_once_until : ∃ earlier o later,
    Settles (ofFormula promise) fulfilling earlier 5 o later .satisfied ∧
      (ofFormula promise).highlights fulfilling = [.settled promise .satisfied 5] := by
  have increasing : ((ofFormula promise).accepted fulfilling).Pairwise fun a b => a.1 < b.1 := by
    have accepted : (ofFormula promise).accepted fulfilling =
        [(0, .ofNat 1), (3, .ofNat 1), (5, .ofNat 2), (6, .ofNat 0)] := rfl
    rw [accepted]
    simp
  obtain ⟨reaches, _⟩ := settling_recorded_once .start increasing
  obtain ⟨earlier, tick, o, later, verdict, settles, records, _⟩ :=
    reaches ⟨fulfilling, List.prefix_rfl, rfl⟩
  have known : (ofFormula promise).highlights fulfilling = [.settled promise .satisfied 5] := rfl
  obtain ⟨_, rfl, rfl⟩ : promise = (ofFormula promise).formula ∧ Verdict.satisfied = verdict ∧
      5 = tick := by simpa using known.symm.trans records
  exact ⟨earlier, o, later, settles, known⟩

end TemporalRewards.Monitor
