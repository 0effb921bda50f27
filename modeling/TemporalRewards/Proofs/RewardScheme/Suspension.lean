import TemporalRewards.Proofs.Monitor.LastObservations
import TemporalRewards.Proofs.Monitor.Violation
import TemporalRewards.Proofs.RewardScheme.Punctuality

/-! Properties that are switched off. An evaluation leaves such a property as it is, and finds
that it does not fire. A check passes its observation to the monitor all the same: the property
stays as it was just if the monitor refuses every one of them, or takes it for its last tick and
to the same effect. As long as that is so, a property that is switched on again goes on from what
it observed while it was on. -/
namespace TemporalRewards

namespace Monitor

variable {φ : Formula} {m n : Monitor} {tick : Tick} {o : Observation}
  {calls : List (Tick × Observation)}

/-- What can be seen of two monitors is the same. -/
structure Still (m n : Monitor) : Prop where
  residual : n.residual = m.residual
  verdict : n.verdict = m.verdict
  lastTick : n.lastTick = m.lastTick

theorem Still.refl (m : Monitor) : m.Still m := ⟨rfl, rfl, rfl⟩

/-- The observation is for an earlier tick than the last one, or for that tick and to the
same effect. -/
def Absorbs (m : Monitor) (tick : Tick) (o : Observation) : Prop :=
  ∃ last, m.lastTick = some last ∧
    (tick < last ∨ tick = last ∧ m.base.progress o = m.residual)

theorem Absorbs.observe (absorbs : m.Absorbs tick o) : (m.observe tick o).value.2 = m := by
  obtain ⟨last, known, before | ⟨rfl, same⟩⟩ := absorbs
  · rw [observe_stale known before]
  · have current : m.stale? tick = none := by simp [stale?, known]
    have base : m.baseAt tick = m.base := by simp [baseAt, known]
    simp [Monitor.observe, current, advance, base, same, ← known]

/-- Any other observation leaves a trace. -/
theorem absorbs_iff : m.Absorbs tick o ↔ m.Still (m.observe tick o).value.2 := by
  refine ⟨fun absorbs => absorbs.observe.symm ▸ .refl m, ?_⟩
  rintro ⟨residual, _, lastTick⟩
  cases answer : m.stale? tick with
  | none =>
    simp only [Monitor.observe, answer] at residual lastTick
    have known : m.lastTick = some tick := lastTick.symm
    have base : m.baseAt tick = m.base := by simp [baseAt, known]
    exact ⟨tick, known, .inr ⟨rfl, base ▸ residual⟩⟩
  | some e =>
    unfold stale? at answer
    split at answer
    · rename_i last known
      split at answer
      · exact ⟨last, known, .inl ‹_›⟩
      · contradiction
    · contradiction

theorem observeEach_append (m : Monitor) (calls : List (Tick × Observation)) (tick : Tick)
    (o : Observation) :
    m.observeEach (calls ++ [(tick, o)]) = ((m.observeEach calls).observe tick o).value.2 := by
  induction calls generalizing m with
  | nil => rfl
  | cons call rest ih => exact ih _

theorem formula_observe (m : Monitor) (tick : Tick) (o : Observation) :
    (m.observe tick o).value.2.formula = m.formula := by
  unfold Monitor.observe
  cases m.stale? tick <;> rfl

end Monitor

namespace Property

variable {spec : PropertySpec} {alphabet : Alphabet} {first p : Property} {tick : Tick}
  {o : Observation} {calls : List (Tick × Observation)}

/-- A look of a property at an observation, with or without a decision whether it fires. -/
inductive Look
  | check (tick : Tick) (o : Observation)
  | evaluate (tick : Tick) (o : Observation)

/-- The observation of a look, for its tick. -/
def Look.call : Look → Tick × Observation
  | check tick o | evaluate tick o => (tick, o)

def look (p : Property) : Look → Property
  | .check tick o => (p.check tick o).value.2
  | .evaluate tick o => (p.evaluate tick o).value.2

def lookAll (p : Property) (looks : List Look) : Property := looks.foldl look p

theorem active_look (p : Property) (l : Look) : (p.look l).active = p.active := by
  cases l with
  | check tick o => rfl
  | evaluate tick o =>
    change (p.evaluate tick o).value.2.active = p.active
    unfold evaluate
    split
    · simp only [check, Logged.value_bind, Logged.value_pure]
      cases (p.monitor.observe tick o).value.1 <;> rfl
    · rfl

/-- An evaluation has no effect on an inactive property. -/
theorem evaluate_silent (inactive : p.active = false) (silent : p.fired = false) (tick : Tick)
    (o : Observation) : p.evaluate tick o = ⟨(.ok false, p), [.judged p.formula p.mode false]⟩ := by
  have same : { p with fired := false } = p := by rw [← silent]
  rw [evaluate, if_neg (Bool.eq_false_iff.mp inactive), judge, same]

theorem look_inactive (inactive : p.active = false) (silent : p.fired = false) (l : Look) :
    (p.look l).active = false ∧ (p.look l).fired = false := by
  refine ⟨(active_look p l).trans inactive, ?_⟩
  cases l with
  | check tick o => exact silent
  | evaluate tick o => simp only [look, evaluate_silent inactive silent, silent]

/-- What a property can have become since it was built. -/
inductive Reached (first : Property) : Property → Prop where
  | built : Reached first first
  | operation {p : Property} {f : Property → Property} :
      Reached first p → Operation f → Reached first (f p)

/-- Only an active property is on record as having fired. -/
theorem Reached.silent (built : Property.build spec alphabet = .ok first)
    (reached : Reached first p) (inactive : p.active = false) : p.fired = false := by
  induction reached with
  | built =>
    have reset := reset_of_build built
    rw [← reset]
    rfl
  | @operation p f _ operation ih =>
    cases operation with
    | activate => contradiction
    | deactivate | reset => rfl
    | check tick o => exact ih inactive
    | evaluate tick o =>
      have off : p.active = false := (active_look p (.evaluate tick o)).symm.trans inactive
      exact (look_inactive off (ih off) (.evaluate tick o)).2

theorem Reached.blueprint (reached : Reached first p) : p.blueprint = first.blueprint := by
  induction reached with
  | built => rfl
  | operation _ operation ih => exact (operation.blueprint _).trans ih

theorem Reached.lookAll (reached : Reached first p) (looks : List Look) :
    Reached first (p.lookAll looks) := by
  induction looks generalizing p with
  | nil => exact reached
  | cons l rest ih =>
    cases l with
    | check tick o => exact ih (reached.operation (.check tick o))
    | evaluate tick o => exact ih (reached.operation (.evaluate tick o))

theorem active_lookAll (p : Property) (looks : List Look) :
    (p.lookAll looks).active = p.active := by
  induction looks generalizing p with
  | nil => rfl
  | cons l rest ih => exact (ih (p.look l)).trans (active_look p l)

/-- While a property is off, an evaluation does not reach its monitor. -/
theorem monitor_look (inactive : p.active = false) {l : Look}
    (absorbs : ∀ tick o, l = .check tick o → p.monitor.Absorbs tick o) :
    (p.look l).monitor = p.monitor := by
  cases l with
  | check tick o => exact (absorbs tick o rfl).observe
  | evaluate tick o => simp [look, evaluate, judge, inactive]

/-- The monitor is the same after each of some looks just when it absorbs all that are checks. -/
theorem still_iff (inactive : p.active = false) (looks : List Look) :
    (∀ front, front <+: looks → p.monitor.Still (p.lookAll front).monitor) ↔
      ∀ tick o, .check tick o ∈ looks → p.monitor.Absorbs tick o := by
  induction looks generalizing p with
  | nil => simp [lookAll, Monitor.Still.refl]
  | cons l rest ih =>
    have off : (p.look l).active = false := (active_look p l).trans inactive
    constructor
    · intro still
      have first : ∀ tick o, l = .check tick o → p.monitor.Absorbs tick o := by
        rintro tick o rfl
        exact Monitor.absorbs_iff.mpr (still [.check tick o] (by simp))
      have kept := monitor_look inactive first
      have others := (ih off).mp fun front within => by
        rw [kept]
        exact still (l :: front) (by simpa using within)
      intro tick o member
      rcases List.mem_cons.mp member with same | member
      · exact first tick o same.symm
      · exact kept ▸ others tick o member
    · intro absorbs front within
      have first : ∀ tick o, l = .check tick o → p.monitor.Absorbs tick o := by
        rintro tick o rfl
        exact absorbs tick o List.mem_cons_self
      have kept := monitor_look inactive first
      rcases List.prefix_cons_iff.mp within with rfl | ⟨later, rfl, inside⟩
      · exact .refl _
      · rw [← kept]
        refine (ih off).mpr (fun tick o member => ?_) later inside
        exact kept.symm ▸ absorbs tick o (List.mem_cons_of_mem l member)

/-- What a property can have become since it was built if no check disturbed it while it was
off, with the observations that were accepted while it was on, since the last reset. -/
inductive Attends (first : Property) : List (Tick × Observation) → Property → Prop where
  | built : Attends first [] first
  | switch {calls : List (Tick × Observation)} {p : Property} (on : Bool) :
      Attends first calls p → Attends first calls (p.switch on)
  | reset {calls : List (Tick × Observation)} {p : Property} :
      Attends first calls p → Attends first [] p.reset
  | accepted {calls : List (Tick × Observation)} {p : Property} {l : Look} {verdict : Verdict} :
      Attends first calls p → p.active = true →
      (p.monitor.observe l.call.1 l.call.2).value.1 = .ok verdict →
      Attends first (calls ++ [l.call]) (p.look l)
  | refused {calls : List (Tick × Observation)} {p : Property} {l : Look} {e : StaleTick} :
      Attends first calls p → p.active = true →
      (p.monitor.observe l.call.1 l.call.2).value.1 = .error e → Attends first calls (p.look l)
  | suspended {calls : List (Tick × Observation)} {p : Property} {l : Look} :
      Attends first calls p → p.active = false →
      (∀ tick o, l = .check tick o → p.monitor.Absorbs tick o) → Attends first calls (p.look l)

theorem monitor_look_active (active : p.active = true) (l : Look) :
    (p.look l).monitor = (p.monitor.observe l.call.1 l.call.2).value.2 := by
  cases l with
  | check tick o => rfl
  | evaluate tick o =>
    obtain ⟨_, observed, _⟩ := evaluate_active active (Prod.eta (p.evaluate tick o).value).symm
    exact (congrArg Prod.snd observed).symm

/-- The monitor is where a new one gets with what was accepted while the property was on. -/
theorem Attends.monitor (fresh : first.reset = first) (attends : Attends first calls p) :
    first.monitor.observeEach calls = p.monitor ∧ p.monitor.formula = first.monitor.formula := by
  induction attends with
  | built => exact ⟨rfl, rfl⟩
  | switch on _ ih => cases on <;> exact ih
  | reset _ ih =>
    refine ⟨?_, ih.2⟩
    change first.monitor = .start _
    rw [ih.2]
    exact (congrArg Property.monitor fresh).symm
  | @accepted calls p l _ _ active _ ih =>
    rw [monitor_look_active active, Monitor.formula_observe, ← ih.1]
    exact ⟨Monitor.observeEach_append .., ih.1 ▸ ih.2⟩
  | @refused calls p l e _ active answer ih =>
    have observed : (p.monitor.observe l.call.1 l.call.2).value =
        (.error e, (p.monitor.observe l.call.1 l.call.2).value.2) := Prod.ext answer rfl
    obtain ⟨_, state⟩ := Monitor.observe_error_iff.mp observed
    rwa [monitor_look_active active, state]
  | suspended _ inactive absorbs ih => rwa [monitor_look inactive absorbs]

/-- An inactive property keeps what can be seen of its monitor through a sequence of looks just
when the monitor absorbs all observations that are checked. In any case it is never found nor
recorded to fire. If no check disturbs it while it is off, its verdict is that of a new monitor
after the observations that were accepted while it was on. -/
theorem frozen_iff (built : Property.build spec alphabet = .ok first) :
    (∀ p, Reached first p → p.active = false → ∀ looks,
        ((∀ front, front <+: looks → p.monitor.Still (p.lookAll front).monitor) ↔
            ∀ tick o, .check tick o ∈ looks → p.monitor.Absorbs tick o) ∧
          (p.lookAll looks).fired = false ∧
          ∀ tick o, (p.lookAll looks).evaluate tick o =
            ⟨(.ok false, p.lookAll looks), [.judged spec.formula spec.mode false]⟩) ∧
      ∀ calls p, Attends first calls p → first.monitor.observeEach calls = p.monitor ∧
        (first.monitor.observeEach calls).verdict = p.verdict := by
  constructor
  · intro p reached inactive looks
    have later := reached.lookAll looks
    have off : (p.lookAll looks).active = false := (active_lookAll p looks).trans inactive
    have silent := later.silent built off
    have declared : (p.lookAll looks).blueprint.1 = spec :=
      (congrArg Prod.fst later.blueprint).trans (build_ok built).1
    refine ⟨still_iff inactive looks, silent, fun tick o => ?_⟩
    rw [← declared]
    exact evaluate_silent off silent tick o
  · intro calls p attends
    have same := (attends.monitor (reset_of_build built)).1
    exact ⟨same, congrArg Monitor.verdict same⟩

/-- `always p`, with a penalty. -/
def guarded : Property := ⟨"G p", .start (.always (.atom 0)), .constant (-1), .violation, true, false⟩

theorem build_guarded : Property.build ⟨"G p", .constant (-1), .violation⟩ ⟨["p"]⟩ = .ok guarded := by
  have always : parseFormula "G p" ⟨["p"]⟩ = .ok (.always (.atom 0)) := by decide +kernel
  simp only [Property.build, Monitor.compile, always]
  rfl

/-- The property after `p` at tick 1, switched off. -/
def dozing : Property := (guarded.look (.evaluate 1 (.ofNat 1))).deactivate

theorem reached_dozing : Reached guarded dozing :=
  .operation (.operation .built (.evaluate 1 (.ofNat 1))) .deactivate

/-- An evaluation, an old tick and the last tick again do not disturb it; `p` violated at tick 2
does. -/
theorem frozen_iff_dozing : dozing.active = false ∧
    (∀ front, front <+: [.evaluate 2 (.ofNat 0), .check 0 (.ofNat 0), .check 1 (.ofNat 3)] →
      dozing.monitor.Still (dozing.lookAll front).monitor) ∧
    ¬ (∀ front, front <+: [.evaluate 3 (.ofNat 1), .check 2 (.ofNat 0)] →
      dozing.monitor.Still (dozing.lookAll front).monitor) ∧
    (dozing.look (.evaluate 2 (.ofNat 0))).activate.verdict = .satisfied := by
  obtain ⟨frozen, resumed⟩ := frozen_iff build_guarded
  have off := frozen dozing reached_dozing rfl
  refine ⟨rfl, (off _).1.mpr ?_, ?_, ?_⟩
  · intro tick o member
    simp only [List.mem_cons, reduceCtorEq, Look.check.injEq, List.not_mem_nil, or_false,
      false_or] at member
    rcases member with ⟨rfl, rfl⟩ | ⟨rfl, rfl⟩
    · exact ⟨1, rfl, .inl (by decide)⟩
    · exact ⟨1, rfl, .inr ⟨rfl, rfl⟩⟩
  · intro still
    obtain ⟨last, known, absorbed⟩ := (off _).1.mp still 2 (.ofNat 0) (by simp)
    obtain rfl : 1 = last := Option.some.inj known
    exact absorbed.elim (by decide) fun again => absurd again.1 (by decide)
  · have accepted : (guarded.monitor.observe 1 (.ofNat 1)).value.1 = .ok .satisfied := rfl
    have on : Attends guarded [(1, .ofNat 1)] (guarded.look (.evaluate 1 (.ofNat 1))) :=
      .accepted (l := .evaluate 1 (.ofNat 1)) .built rfl accepted
    have suspended : Attends guarded [(1, .ofNat 1)] (dozing.look (.evaluate 2 (.ofNat 0))) :=
      .suspended (.switch false on) rfl nofun
    exact (resumed _ _ (.switch true suspended)).2.symm

/-- Checks do disturb properties that are switched off. -/
theorem not_frozen_guarded :
    ¬ ∀ {spec : PropertySpec} {alphabet : Alphabet} {first p : Property},
      Property.build spec alphabet = .ok first → Reached first p → p.active = false →
      ∀ looks, p.monitor.Still (p.lookAll looks).monitor := by
  intro frozen
  have still := frozen build_guarded (.operation .built .deactivate) rfl [.check 0 (.ofNat 0)]
  have residual : Formula.bot = .always (.atom 0) := still.residual
  contradiction

end Property

end TemporalRewards
