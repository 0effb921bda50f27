import TemporalRewards.Episode.Basic
import TemporalRewards.Proofs.Labelling.Failures
import TemporalRewards.Proofs.RewardScheme.Rewinding

/-! The tick of an episode against the tick of its signals. A call takes the episode to its
target tick before the reward scheme is asked, and a definition that fails leaves the pipeline
behind. A proposition that fails puts the two tables apart, so that no step succeeds any more,
and a reward that fails comes after both ticks have moved. So only failing definitions set the
two ticks apart, and only a reset that gets past the definitions brings them together. -/
namespace TemporalRewards

/-- A call that succeeds brings the definitions to the tick of the pipeline. -/
theorem Pipeline.Outcome.level_ok {p after : Pipeline} {c : Pipeline.Call} {world : World}
    (outcome : Outcome p c world (.ok ()) after) :
    ¬ p.Undefined c world ∧ after.definitions.tick = after.tick := by
  cases outcome with
  | labelled defined same _ =>
    refine ⟨?_, same⟩
    rintro ⟨_, failed⟩
    rw [defined] at failed
    contradiction

namespace RewardScheme

variable {s after : RewardScheme} {c : Pipeline.Call} {world : World} {signal : Signal}

def call (s : RewardScheme) :
    Pipeline.Call → World → Logged (Except RunError Signal × RewardScheme)
  | .reset => s.reset
  | .step => s.step

theorem pipeline_call (s : RewardScheme) (c : Pipeline.Call) (world : World) :
    (s.call c world).value.2.pipeline = (s.pipeline.call c world).value.2 := by
  cases c with
  | reset => exact pipeline_reset s world
  | step => exact pipeline_step s world

/-- A signal has the tick at which the pipeline was evaluated for it. -/
theorem call_ok (succeeded : (s.call c world).value = (.ok signal, after)) :
    (s.pipeline.call c world).value = (.ok (), after.pipeline) ∧ signal.tick = after.tick := by
  cases c with
  | reset =>
    obtain ⟨_, shown, checked⟩ := reset_ok succeeded
    obtain ⟨rfl, _, _, rfl⟩ := check_ok checked
    exact ⟨shown, rfl⟩
  | step =>
    obtain ⟨_, shown, checked⟩ := step_ok succeeded
    obtain ⟨rfl, _, _, rfl⟩ := check_ok checked
    exact ⟨shown, rfl⟩

end RewardScheme

namespace Episode

/-- A reset or a step, with what the world has for it. -/
inductive Call
  | reset (priority : Priority)
  | step (priority : Priority) (update : Nat → Agent → List Assignment)

namespace Call

/-- The call that the pipeline of the reward scheme gets. -/
def inner : Call → Pipeline.Call
  | reset _ => .reset
  | step _ _ => .step

def priority : Call → Priority
  | reset priority | step priority _ => priority

end Call

variable {e first before after : Episode} {c : Call} {s : RewardScheme} {turn : Turn}
  {result : Except RunError Turn} {drift : Int} {priority : Priority}
  {update : Nat → Agent → List Assignment}

def call (e : Episode) : Call → Logged (Except RunError Turn × Episode)
  | .reset priority => e.reset priority
  | .step priority update => e.step priority update

/-- The episode at the moment when it asks its reward scheme. -/
def prepare (e : Episode) : Call → Episode
  | .reset _ => { e with total := 0.0, tick := 0 }
  | .step _ update =>
    let e := e.updateOrder.foldl (updateAgent update) e
    { e with tick := e.tick + 1 }

/-- The world in which the rules are evaluated in a call. -/
def seen (e : Episode) (c : Call) : World := (e.prepare c).world c.priority

theorem call_eq_settle (e : Episode) (c : Call) :
    e.call c = (e.prepare c).settle (·.call c.inner (e.seen c)) := by
  cases c <;> rfl

theorem writes_keep {P : Episode → Prop} (write : ∀ e w, P e → P (e.assign w))
    (ws : List Assignment) (holds : P e) : P (ws.foldl assign e) :=
  List.foldlRecOn ws assign holds fun e holds w _ => write e w holds

/-- Updates keep what every write keeps. -/
theorem updates_keep {P : Episode → Prop} (write : ∀ e w, P e → P (e.assign w))
    (update : Nat → Agent → List Assignment) (order : List Nat) (holds : P e) :
    P (order.foldl (updateAgent update) e) := by
  refine List.foldlRecOn order _ holds fun e holds index _ => ?_
  unfold updateAgent
  split
  · exact writes_keep write _ holds
  · exact holds

/-- Updates write to agents only. -/
theorem updates_eq (update : Nat → Agent → List Assignment) (order : List Nat) (e : Episode) :
    order.foldl (updateAgent update) e =
      { e with agents := (order.foldl (updateAgent update) e).agents } := by
  refine updates_keep (P := fun moved => moved = { e with agents := moved.agents }) ?_ update order rfl
  intro moved w same
  rw [assign, same]

theorem prepare_frame (e : Episode) (c : Call) :
    (e.prepare c).rewards = e.rewards ∧ (e.prepare c).tick = c.inner.target e.tick := by
  cases c with
  | reset priority => exact ⟨rfl, rfl⟩
  | step priority update =>
    have moved := updates_eq update e.updateOrder e
    have rewards := congrArg Episode.rewards moved
    have tick := congrArg Episode.tick moved
    exact ⟨rewards, congrArg (· + 1) tick⟩

/-- The account changes the reward of a signal and the total. -/
theorem account_eq {signal : Signal} (accounted : (e.account signal).value = (turn, after)) :
    turn.signal =
        { signal with reward := e.clip.grant e.decimals e.total signal.reward } ∧
      turn.total = e.total + turn.signal.reward ∧ after = { e with total := turn.total } := by
  unfold account at accounted
  dsimp only at accounted
  split at accounted
  all_goals
    obtain ⟨rfl, rfl⟩ := Prod.mk.inj accounted
    exact ⟨rfl, rfl, rfl⟩

/-- What comes of asking a reward scheme, if there is one. -/
inductive Settlement (e : Episode)
    (run : RewardScheme → Logged (Except RunError Signal × RewardScheme)) :
    Except RunError Turn → Episode → Prop where
  | idle {turn : Turn} {after : Episode} :
      e.rewards = none → (e.account (idle e.tick)).value = (turn, after) →
      Settlement e run (.ok turn) after
  | failed {s t : RewardScheme} {error : RunError} :
      e.rewards = some s → (run s).value = (.error error, t) →
      Settlement e run (.error error) (e.withRewards t)
  | entered {s t : RewardScheme} {signal : Signal} {turn : Turn} {after : Episode} :
      e.rewards = some s → (run s).value = (.ok signal, t) →
      ((e.withRewards t).account signal).value = (turn, after) →
      Settlement e run (.ok turn) after

theorem settlement {run : RewardScheme → Logged (Except RunError Signal × RewardScheme)}
    (settled : (e.settle run).value = (result, after)) : Settlement e run result after := by
  unfold settle at settled
  split at settled
  · rename_i lacks
    rw [Logged.value_bind] at settled
    rcases accounted : (e.account (idle e.tick)).value with ⟨turn, e'⟩
    rw [accounted] at settled
    obtain ⟨rfl, rfl⟩ := Prod.mk.inj settled
    exact .idle lacks accounted
  · rename_i s rewards
    rw [Logged.value_bind] at settled
    rcases answer : (run s).value with ⟨error | signal, t⟩
    · rw [answer] at settled
      obtain ⟨rfl, rfl⟩ := Prod.mk.inj settled
      exact .failed rewards answer
    · rw [answer] at settled
      dsimp only at settled
      rw [Logged.value_bind] at settled
      rcases accounted : ((e.withRewards t).account signal).value with ⟨turn, e'⟩
      rw [accounted] at settled
      obtain ⟨rfl, rfl⟩ := Prod.mk.inj settled
      exact .entered rewards answer accounted

/-- A call takes the episode to its target whatever the reward scheme answers, and a turn has
the tick of the signal. -/
theorem call_frame (rewards : e.rewards = some s) (called : (e.call c).value = (result, after)) :
    after.rewards = some (s.call c.inner (e.seen c)).value.2 ∧
      after.tick = c.inner.target e.tick ∧
      ∀ turn, result = .ok turn → ∃ signal,
        (s.call c.inner (e.seen c)).value.1 = .ok signal ∧ turn.signal.tick = signal.tick := by
  obtain ⟨same, tick⟩ := prepare_frame e c
  rw [call_eq_settle] at called
  cases settlement called with
  | idle lacks _ => exact absurd (lacks.symm.trans (same.trans rewards)) nofun
  | failed has answer =>
    obtain rfl := Option.some.inj (rewards.symm.trans (same.symm.trans has))
    rw [answer]
    exact ⟨rfl, tick, nofun⟩
  | entered has answer accounted =>
    obtain rfl := Option.some.inj (rewards.symm.trans (same.symm.trans has))
    obtain ⟨known, _, rfl⟩ := account_eq accounted
    rw [answer]
    refine ⟨rfl, tick, ?_⟩
    rintro turn ⟨⟩
    exact ⟨_, rfl, by rw [known]⟩

/-- A definition fails in a call. -/
def Undefined (e : Episode) (c : Call) : Prop :=
  ∃ s, e.rewards = some s ∧ s.pipeline.Undefined c.inner (e.seen c)

/-- The definitions of the reward scheme are some ticks ahead of the episode, or behind it. -/
def Ahead (e : Episode) (drift : Int) : Prop :=
  ∃ s, e.rewards = some s ∧ (s.pipeline.definitions.tick : Int) = e.tick + drift

/-- What an episode can have become after a reset that succeeded, by resets and steps, failed
or not, with how far its definitions are ahead. Between calls anything may change but the
reward scheme and the tick. -/
inductive Drifts (first : Episode) : Int → Episode → Prop where
  | started {priority : Priority} {turn : Turn} {after : Episode} :
      (first.call (.reset priority)).value = (.ok turn, after) → Drifts first 0 after
  | between {drift : Int} {e after : Episode} :
      Drifts first drift e → after.rewards = e.rewards → after.tick = e.tick →
      Drifts first drift after
  | reset {drift : Int} {e : Episode} {priority : Priority} :
      Drifts first drift e → ¬ e.Undefined (.reset priority) →
      Drifts first 0 (e.call (.reset priority)).value.2
  | undefinedReset {drift : Int} {e : Episode} {priority : Priority} :
      Drifts first drift e → e.Undefined (.reset priority) →
      Drifts first (e.tick + drift) (e.call (.reset priority)).value.2
  | step {drift : Int} {e : Episode} {priority : Priority}
      {update : Nat → Agent → List Assignment} :
      Drifts first drift e → ¬ e.Undefined (.step priority update) →
      Drifts first drift (e.call (.step priority update)).value.2
  | undefinedStep {drift : Int} {e : Episode} {priority : Priority}
      {update : Nat → Agent → List Assignment} :
      Drifts first drift e → e.Undefined (.step priority update) →
      Drifts first (drift - 1) (e.call (.step priority update)).value.2

/-- The definitions keep their tick if one of them fails, and go to their target if not. The
episode goes to its target in either case. -/
theorem definitions_call (rewards : e.rewards = some s) (c : Call) :
    ∃ t, (e.call c).value.2.rewards = some t ∧ (e.call c).value.2.tick = c.inner.target e.tick ∧
      (e.Undefined c → t.pipeline.definitions.tick = s.pipeline.definitions.tick) ∧
      (¬ e.Undefined c →
        t.pipeline.definitions.tick = c.inner.target s.pipeline.definitions.tick) := by
  obtain ⟨kept, tick, _⟩ := call_frame (c := c) rewards (Prod.eta _).symm
  have outcome := Pipeline.call_outcome (Prod.eta (s.pipeline.call c.inner (e.seen c)).value).symm
  refine ⟨_, kept, tick, ?_, ?_⟩
  · rintro ⟨s', same, failed⟩
    obtain rfl := Option.some.inj (rewards.symm.trans same)
    rw [RewardScheme.pipeline_call, outcome.eq_of_undefined failed]
  · intro defined
    rw [RewardScheme.pipeline_call]
    exact (outcome.definitions_moved fun failed => defined ⟨s, rewards, failed⟩).1

/-- The signal of a call has the tick that the definitions have after it. -/
theorem definitions_call_ok (rewards : e.rewards = some s)
    (called : (e.call c).value = (.ok turn, after)) :
    ∃ t, after.rewards = some t ∧ turn.signal.tick = t.pipeline.definitions.tick ∧
      ¬ e.Undefined c := by
  obtain ⟨kept, _, answer⟩ := call_frame rewards called
  obtain ⟨signal, succeeded, same⟩ := answer turn rfl
  obtain ⟨shown, tick⟩ := RewardScheme.call_ok (Prod.ext succeeded rfl)
  obtain ⟨defined, level⟩ := (Pipeline.call_outcome shown).level_ok
  refine ⟨_, kept, same.trans (tick.trans level.symm), ?_⟩
  rintro ⟨s', same', undefined⟩
  obtain rfl := Option.some.inj (rewards.symm.trans same')
  exact defined undefined

theorem Ahead.reset (ahead : e.Ahead drift) (defined : ¬ e.Undefined (.reset priority)) :
    (e.call (.reset priority)).value.2.Ahead 0 := by
  obtain ⟨s, has, _⟩ := ahead
  obtain ⟨t, kept, zero, _, moved⟩ := definitions_call has (.reset priority)
  have level : t.pipeline.definitions.tick = 0 := moved defined
  refine ⟨t, kept, ?_⟩
  rw [level, zero]
  rfl

theorem Ahead.undefinedReset (ahead : e.Ahead drift) (undefined : e.Undefined (.reset priority)) :
    (e.call (.reset priority)).value.2.Ahead (e.tick + drift) := by
  obtain ⟨s, has, ahead⟩ := ahead
  obtain ⟨t, kept, zero, still, _⟩ := definitions_call has (.reset priority)
  refine ⟨t, kept, ?_⟩
  rw [still undefined, ahead, zero]
  exact (Int.zero_add _).symm

theorem Ahead.step (ahead : e.Ahead drift) (defined : ¬ e.Undefined (.step priority update)) :
    (e.call (.step priority update)).value.2.Ahead drift := by
  obtain ⟨s, has, ahead⟩ := ahead
  obtain ⟨t, kept, next, _, moved⟩ := definitions_call has (.step priority update)
  have level : t.pipeline.definitions.tick = s.pipeline.definitions.tick + 1 := moved defined
  have later : (e.call (.step priority update)).value.2.tick = e.tick + 1 := next
  refine ⟨t, kept, ?_⟩
  rw [level, later]
  omega

theorem Ahead.undefinedStep (ahead : e.Ahead drift)
    (undefined : e.Undefined (.step priority update)) :
    (e.call (.step priority update)).value.2.Ahead (drift - 1) := by
  obtain ⟨s, has, ahead⟩ := ahead
  obtain ⟨t, kept, next, still, _⟩ := definitions_call has (.step priority update)
  have later : (e.call (.step priority update)).value.2.tick = e.tick + 1 := next
  refine ⟨t, kept, ?_⟩
  rw [still undefined, later]
  omega

theorem Drifts.ahead (rewards : first.rewards = some s) (drifts : Drifts first drift e) :
    e.Ahead drift := by
  induction drifts with
  | @started priority turn after succeeded =>
    obtain ⟨_, _, _, defined⟩ := definitions_call_ok rewards succeeded
    have level : first.Ahead (s.pipeline.definitions.tick - first.tick) := ⟨s, rewards, by omega⟩
    have reset := level.reset defined
    rwa [succeeded] at reset
  | between _ rewards tick ih =>
    obtain ⟨t, has, ahead⟩ := ih
    exact ⟨t, rewards.trans has, tick ▸ ahead⟩
  | reset _ defined ih => exact ih.reset defined
  | undefinedReset _ undefined ih => exact ih.undefinedReset undefined
  | step _ defined ih => exact ih.step defined
  | undefinedStep _ undefined ih => exact ih.undefinedStep undefined

/-- However an episode was driven since a reset that succeeded, the signal of a reset that
succeeds has tick zero, as the episode does. The signal of a step that succeeds is as far ahead
of the episode as the definitions were before the step, so it has the tick of the episode just
when nothing has set the two apart. -/
theorem signal_tick_iff (rewards : first.rewards = some s) (drifts : Drifts first drift before)
    (called : (before.call c).value = (.ok turn, after)) :
    (c.inner = .reset → turn.signal.tick = 0 ∧ after.tick = 0) ∧
      (c.inner = .step → (turn.signal.tick : Int) = after.tick + drift) ∧
      (turn.signal.tick = after.tick ↔ c.inner = .reset ∨ drift = 0) := by
  obtain ⟨_, has, _⟩ := drifts.ahead rewards
  have ahead := drifts.ahead rewards
  obtain ⟨t, kept, shown, defined⟩ := definitions_call_ok has called
  -- How far ahead the definitions are after the call is how far ahead the signal is.
  have onward : ∀ {drift}, (before.call c).value.2.Ahead drift →
      (turn.signal.tick : Int) = after.tick + drift := by
    rintro drift ⟨t', same, level⟩
    rw [called] at same level
    obtain rfl := Option.some.inj (kept.symm.trans same)
    rw [shown, level]
  cases c with
  | reset priority =>
    obtain ⟨_, zero, _⟩ := call_frame has called
    have stopped : after.tick = 0 := zero
    have level := onward (ahead.reset defined)
    have same : turn.signal.tick = after.tick := Int.ofNat.inj (level.trans (Int.add_zero _))
    exact ⟨fun _ => ⟨same.trans stopped, stopped⟩, nofun, iff_of_true same (.inl rfl)⟩
  | step priority update =>
    have level := onward (ahead.step defined)
    refine ⟨nofun, fun _ => level, ?_⟩
    constructor
    · intro same
      rw [same] at level
      exact .inr (by omega)
    · rintro (⟨⟨⟩⟩ | rfl)
      exact Int.ofNat.inj (level.trans (Int.add_zero _))

/-- A definition that fails while the priority is taken. -/
def whileFree : List (String × Rule Value) :=
  [("free", .computed fun scope _ =>
    if scope.world.priority.has "other" then .error (.custom "claimed") else .ok (.bool true))]

/-- A scheme over that definition, without properties. -/
def gated : RewardScheme :=
  { pipeline :=
      { definitions := ⟨⟨.definitions, whileFree, by decide⟩, 0, [("free", .bool true)]⟩
        propositions := ⟨⟨.propositions, [], by decide⟩, 0, []⟩ }
    reward := ⟨[], fun left right => left + right⟩
    termination := ⟨[], fun left right => left + right⟩
    success := ⟨[], fun left right => left + right⟩ }

/-- One agent within the bounds, which nothing moves. -/
def parked : Episode :=
  { agents := [⟨"ego", true, .ofList [("x", .float 0.0), ("y", .float 0.0)]⟩]
    bounds := ⟨-10.0, 10.0, -10.0, 10.0⟩
    unfrozen := everyone 1
    rewards := some gated
    clip := ⟨-1.0 / 0.0, 1.0 / 0.0⟩
    decimals := 3
    total := 0.0
    tick := 0 }

/-- The step that nobody moves in. -/
def idly (priority : Priority) : Call := .step priority fun _ _ => []

/-- After a reset and a step while the priority is taken. -/
def delayed : Episode := ((parked.call (.reset .free)).value.2.call (idly ⟨some "other"⟩)).value.2

theorem drifts_delayed : Drifts parked (-1) delayed := by
  have started : Drifts parked 0 (parked.call (.reset .free)).value.2 :=
    .started (rfl : (parked.call (.reset .free)).value = _)
  exact started.undefinedStep ⟨gated, rfl, _, rfl⟩

/-- The next step succeeds, and at tick two it brings the signal of tick one. -/
theorem signal_tick_iff_delayed : ∃ turn after,
    (delayed.call (idly .free)).value = (.ok turn, after) ∧
      after.tick = 2 ∧ turn.signal.tick = 1 := by
  obtain ⟨turn, after, called, two⟩ : ∃ turn after,
      (delayed.call (idly .free)).value = (.ok turn, after) ∧ after.tick = 2 := ⟨_, _, rfl, rfl⟩
  obtain ⟨_, behind, _⟩ := signal_tick_iff (rfl : parked.rewards = some gated) drifts_delayed called
  have lag := behind rfl
  rw [two] at lag
  exact ⟨turn, after, called, two, Int.ofNat.inj lag⟩

/-- Not every turn has the tick of its episode. -/
theorem not_level_delayed :
    ¬ ∀ {definitions propositions} {start : World} {pipeline : Pipeline}
        {rewards terminations successes : List PropertySpec} {s : RewardScheme}
        {agents : List Agent} {bounds : Bounds} {built before after : Episode} {drift : Int}
        {c : Call} {turn : Turn},
      (Pipeline.build definitions propositions start).value = .ok pipeline →
      RewardScheme.compile pipeline rewards terminations successes = .ok s →
      build agents bounds = .ok built → Drifts (built.withRewards s) drift before →
      (before.call c).value = (.ok turn, after) → turn.signal.tick = after.tick := by
  intro level
  obtain ⟨turn, after, called, one, two⟩ : ∃ turn after,
      (delayed.call (idly .free)).value = (.ok turn, after) ∧
        turn.signal.tick = 1 ∧ after.tick = 2 := ⟨_, _, rfl, rfl, rfl⟩
  have same := level (rfl : (Pipeline.build whileFree [] World.empty).value = .ok gated.pipeline)
    (rfl : RewardScheme.compile gated.pipeline [] [] [] = .ok gated)
    (rfl : build parked.agents parked.bounds = .ok { parked with rewards := none })
    drifts_delayed called
  rw [one, two] at same
  contradiction

end Episode

end TemporalRewards
