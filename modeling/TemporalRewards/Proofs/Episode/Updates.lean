import TemporalRewards.Proofs.Episode.Ticks
import TemporalRewards.Proofs.Labelling.Packing

/-! The updates of a step. An agent is updated unless the last operation that froze or unfroze
it was one that froze it. The mask of the episode keeps this set through every operation, and
the order of updates is a permutation of it: the ego first, if it is in the set, and the others
by index. -/
namespace TemporalRewards

/-- What no write to an agent changes. -/
def Agent.label (a : Agent) : String × Bool := (a.name, a.isEgo)

theorem Agent.labels_assign (w : Assignment) (agents : List Agent) :
    (assign w agents).map label = agents.map label := by
  induction agents with
  | nil => rfl
  | cons a rest ih =>
    rw [assign]
    split
    · rfl
    · rw [List.map_cons, ih, List.map_cons]

namespace Episode

variable {e first after moved : Episode} {c : Call} {agents : List Agent} {bounds : Bounds}
  {update : Nat → Agent → List Assignment} {calls : List (Nat × Agent)} {i : Nat}

theorem labels_writes (ws : List Assignment) (e : Episode) :
    (ws.foldl assign e).agents.map Agent.label = e.agents.map Agent.label := by
  refine writes_keep (P := fun moved => moved.agents.map Agent.label = _) ?_ ws rfl
  exact fun moved w same => (Agent.labels_assign w moved.agents).trans same

theorem labels_updates (update : Nat → Agent → List Assignment) (order : List Nat) (e : Episode) :
    (order.foldl (updateAgent update) e).agents.map Agent.label = e.agents.map Agent.label := by
  refine updates_keep (P := fun moved => moved.agents.map Agent.label = _) ?_ update order rfl
  exact fun moved w same => (Agent.labels_assign w moved.agents).trans same

/-- What is done to an episode from outside. -/
inductive Operation
  | freeze (index : Nat)
  | unfreeze (index : Nat)
  | freezeAll
  | unfreezeAll
  | call (c : Call)
  | write (w : Assignment)
  | reward (s : RewardScheme)
  | clip (x y : Float)
  | round (decimals : Int)

namespace Operation

/-- The operation freezes an agent. -/
def Freezes (i : Nat) : Operation → Prop
  | freeze index => index = i
  | freezeAll => True
  | _ => False

def Thaws (i : Nat) : Operation → Prop
  | unfreeze index => index = i
  | unfreezeAll => True
  | _ => False

theorem Freezes.not_thaws {op : Operation} (freezes : op.Freezes i) : ¬ op.Thaws i := by
  cases op <;> simp_all [Freezes, Thaws]

end Operation

def operate (e : Episode) : Operation → Episode
  | .freeze index => (e.setFrozen index true).2
  | .unfreeze index => (e.setFrozen index false).2
  | .freezeAll => e.freezeAll
  | .unfreezeAll => e.unfreezeAll
  | .call c => (e.call c).value.2
  | .write w => e.assign w
  | .reward s => e.withRewards s
  | .clip x y => e.withClip x y
  | .round decimals => e.withRounding decimals

/-- The last operation that froze or unfroze the agent froze it. -/
def Frozen (ops : List Operation) (i : Nat) : Prop :=
  ∃ earlier op later, ops = earlier ++ op :: later ∧ op.Freezes i ∧ ∀ o ∈ later, ¬ o.Thaws i

theorem not_frozen_nil (i : Nat) : ¬ Frozen [] i := by
  rintro ⟨earlier, op, later, same, _⟩
  simp at same

theorem frozen_concat (ops : List Operation) (op : Operation) (i : Nat) :
    Frozen (ops ++ [op]) i ↔ op.Freezes i ∨ Frozen ops i ∧ ¬ op.Thaws i := by
  constructor
  · rintro ⟨earlier, o, later, same, freezes, kept⟩
    rcases List.eq_nil_or_concat' later with rfl | ⟨later, final, rfl⟩
    · obtain ⟨_, last⟩ := List.append_inj' same rfl
      obtain rfl := List.singleton_inj.mp last
      exact .inl freezes
    · rw [← List.cons_append, ← List.append_assoc] at same
      obtain ⟨rfl, last⟩ := List.append_inj' same rfl
      obtain rfl := List.singleton_inj.mp last
      have still := fun o among => kept o (List.mem_append_left _ among)
      exact .inr ⟨⟨earlier, o, later, rfl, freezes, still⟩, kept op (by simp)⟩
  · rintro (freezes | ⟨⟨earlier, o, later, rfl, freezes, kept⟩, still⟩)
    · exact ⟨ops, op, [], rfl, freezes, nofun⟩
    · refine ⟨earlier, o, later ++ [op], by simp, freezes, ?_⟩
      intro o among
      rcases List.mem_append.mp among with among | last
      · exact kept o among
      · rwa [List.mem_singleton.mp last]

theorem get_everyone {count : Nat} (room : count ≤ Observation.capacity) (i : Nat) :
    (everyone count).get i = decide (i < count) := by
  rw [everyone, Observation.get_ofList, List.take_of_length_le (by simpa using room),
    List.getElem?_replicate]
  split <;> simp_all

/-- Once the agents are updated, a call neither moves nor freezes them. -/
theorem call_agents {result : Except RunError Turn} (called : (e.call c).value = (result, after)) :
    after.agents = (e.prepare c).agents ∧ after.unfrozen = (e.prepare c).unfrozen := by
  rw [call_eq_settle] at called
  cases settlement called with
  | idle _ accounted | entered _ _ accounted =>
    obtain ⟨_, _, rfl⟩ := account_eq accounted
    exact ⟨rfl, rfl⟩
  | failed => exact ⟨rfl, rfl⟩

theorem labels_call (e : Episode) (c : Call) :
    (e.call c).value.2.agents.map Agent.label = e.agents.map Agent.label ∧
      (e.call c).value.2.unfrozen = e.unfrozen := by
  obtain ⟨agents, unfrozen⟩ := call_agents (e := e) (c := c) (Prod.eta _).symm
  rw [agents, unfrozen]
  cases c with
  | reset priority => exact ⟨rfl, rfl⟩
  | step priority update =>
    have moved := updates_eq update e.updateOrder e
    exact ⟨labels_updates update e.updateOrder e, (congrArg Episode.unfrozen moved :)⟩

theorem labels_operate (e : Episode) (op : Operation) :
    (e.operate op).agents.map Agent.label = e.agents.map Agent.label := by
  cases op with
  | freeze index | unfreeze index =>
    simp only [operate, setFrozen]
    split <;> rfl
  | call c => exact (labels_call e c).1
  | write w => exact Agent.labels_assign w e.agents
  | _ => rfl

theorem get_setFrozen (inside : i < e.agents.length)
    (room : e.agents.length ≤ Observation.capacity) (index : Nat) (frozen : Bool) :
    (e.setFrozen index frozen).2.unfrozen.get i =
      if index = i then !frozen else e.unfrozen.get i := by
  unfold setFrozen
  split
  · rw [Observation.get_put]
    grind
  · grind

/-- The bit of an agent after an operation. -/
theorem get_operate (inside : i < e.agents.length)
    (room : e.agents.length ≤ Observation.capacity) (op : Operation) :
    (e.operate op).unfrozen.get i = true ↔
      ¬ op.Freezes i ∧ (op.Thaws i ∨ e.unfrozen.get i = true) := by
  cases op with
  | freeze index | unfreeze index =>
    simp only [operate, get_setFrozen inside room, Operation.Freezes, Operation.Thaws]
    grind
  | freezeAll => simp [operate, freezeAll, Observation.get, Observation.empty, Operation.Freezes]
  | unfreezeAll =>
    simp [operate, unfreezeAll, get_everyone room, inside, Operation.Freezes, Operation.Thaws]
  | call c =>
    simp [operate, (labels_call e c).2, Operation.Freezes, Operation.Thaws]
  | _ => simp [operate, assign, withRewards, withClip, withRounding, Operation.Freezes, Operation.Thaws]

/-- An episode to which one operation was done after the other. -/
def driven (e : Episode) (ops : List Operation) : Episode := ops.foldl operate e

theorem driven_concat (e : Episode) (ops : List Operation) (op : Operation) :
    e.driven (ops ++ [op]) = (e.driven ops).operate op := by simp [driven]

theorem labels_driven (e : Episode) (ops : List Operation) :
    (e.driven ops).agents.map Agent.label = e.agents.map Agent.label := by
  induction ops using List.reverseRecOn with
  | nil => rfl
  | append_singleton ops op ih => rw [driven_concat, labels_operate, ih]

theorem length_driven (e : Episode) (ops : List Operation) :
    (e.driven ops).agents.length = e.agents.length := by
  simpa using congrArg List.length (labels_driven e ops)

theorem build_ok (built : build agents bounds = .ok first) :
    first.agents = agents ∧ first.unfrozen = everyone agents.length ∧
      agents.countP Agent.isEgo ≤ 1 ∧ agents.length ≤ Observation.capacity := by
  unfold build at built
  dsimp only at built
  split at built
  · contradiction
  · split at built
    · contradiction
    · rename_i egos few
      obtain rfl := Except.ok.inj built
      exact ⟨rfl, rfl, Nat.le_of_not_lt egos, Nat.le_trans (Nat.le_of_not_lt few) (by decide)⟩

/-- The bit of an agent tells whether it is frozen. -/
theorem get_driven (built : build agents bounds = .ok first) (ops : List Operation)
    (inside : i < agents.length) :
    (first.driven ops).unfrozen.get i = true ↔ ¬ Frozen ops i := by
  obtain ⟨rfl, fresh, _, room⟩ := build_ok built
  induction ops using List.reverseRecOn with
  | nil => simp [driven, fresh, get_everyone room, inside, not_frozen_nil]
  | append_singleton ops op ih =>
    have same := length_driven first ops
    rw [driven_concat, get_operate (same ▸ inside) (same ▸ room), ih, frozen_concat]
    have exclusive : op.Freezes i → ¬ op.Thaws i := Operation.Freezes.not_thaws
    grind

theorem mem_unfrozenAgents (built : build agents bounds = .ok first) (ops : List Operation) (i : Nat) :
    i ∈ (first.driven ops).unfrozenAgents ↔ i < agents.length ∧ ¬ Frozen ops i := by
  obtain ⟨rfl, _⟩ := build_ok built
  simp only [unfrozenAgents, List.mem_filter, List.mem_range, length_driven]
  exact and_congr_right fun inside => get_driven built ops inside

theorem isFrozen_iff (built : build agents bounds = .ok first) (ops : List Operation) (i : Nat) :
    (first.driven ops).isFrozen i = true ↔ i < agents.length ∧ Frozen ops i := by
  obtain ⟨rfl, _⟩ := build_ok built
  simp only [isFrozen, Bool.and_eq_true, decide_eq_true_eq, length_driven]
  refine and_congr_right fun inside => ?_
  have bit := get_driven built ops inside
  grind

/-- The agent with an index is the ego. -/
def IsEgo (agents : List Agent) (i : Nat) : Prop := ∃ a, agents[i]? = some a ∧ a.isEgo = true

/-- The only ego is the one that a search finds. -/
theorem findIdx?_eq_some_iff_isEgo (single : agents.countP Agent.isEgo ≤ 1) :
    agents.findIdx? Agent.isEgo = some i ↔ IsEgo agents i := by
  constructor
  · intro found
    obtain ⟨inside, ego, _⟩ := List.findIdx?_eq_some_iff_getElem.mp found
    exact ⟨agents[i], List.getElem?_eq_getElem inside, ego⟩
  · rintro ⟨a, place, ego⟩
    induction agents generalizing i with
    | nil => simp at place
    | cons b rest ih =>
      rw [List.countP_cons] at single
      cases i with
      | zero =>
        obtain rfl := Option.some.inj place
        simp [List.findIdx?_cons, ego]
      | succ i =>
        rw [List.getElem?_cons_succ] at place
        have found : 0 < rest.countP Agent.isEgo :=
          List.countP_pos_iff.mpr ⟨a, List.mem_of_getElem? place, ego⟩
        have other : b.isEgo = false := by grind
        rw [List.findIdx?_cons, other, ih (by omega) place]
        rfl

theorem IsEgo.inside (ego : IsEgo agents i) : i < agents.length := by
  obtain ⟨a, place, _⟩ := ego
  exact (List.getElem?_eq_some_iff.mp place).1

/-- The update of one agent comes before that of another: the ego comes first, and the others
by index. -/
def Precedes (agents : List Agent) (i j : Nat) : Prop := ¬ IsEgo agents j ∧ (IsEgo agents i ∨ i < j)

theorem Precedes.ne {j : Nat} (precedes : Precedes agents i j) : i ≠ j := by
  rintro rfl
  obtain ⟨other, ego | below⟩ := precedes
  · exact other ego
  · exact Nat.lt_irrefl i below

theorem Precedes.asymm {j : Nat} (precedes : Precedes agents i j) : ¬ Precedes agents j i := by
  rintro ⟨other, back⟩
  obtain ⟨same, forth⟩ := precedes
  exact Nat.lt_asymm (forth.resolve_left other) (back.resolve_left same)

theorem mem_updateOrder (e : Episode) (single : e.agents.countP Agent.isEgo ≤ 1) (i : Nat) :
    i ∈ e.updateOrder ↔ i < e.agents.length ∧ e.unfrozen.get i = true := by
  have inside : IsEgo e.agents i → i < e.agents.length := IsEgo.inside
  have search : e.agents.findIdx? Agent.isEgo = some i ↔ IsEgo e.agents i :=
    findIdx?_eq_some_iff_isEgo single
  simp only [updateOrder, List.mem_filter, List.mem_append, Option.mem_toList, List.mem_range,
    decide_eq_true_eq, ne_eq]
  grind

theorem precedes_updateOrder (e : Episode) (single : e.agents.countP Agent.isEgo ≤ 1) :
    e.updateOrder.Pairwise (Precedes e.agents) := by
  have search : ∀ i, e.agents.findIdx? Agent.isEgo = some i ↔ IsEgo e.agents i :=
    fun i => findIdx?_eq_some_iff_isEgo single
  unfold updateOrder
  refine List.Pairwise.filter _ (List.pairwise_append.mpr ⟨?_, ?_, ?_⟩)
  · cases e.agents.findIdx? Agent.isEgo <;> simp
  · refine (List.pairwise_lt_range.filter _).imp_of_mem ?_
    intro i j _ later below
    have other := (List.mem_filter.mp later).2
    exact ⟨fun ego => by simp [(search j).mpr ego] at other, .inr below⟩
  · intro i found j later
    have other := (List.mem_filter.mp later).2
    have ego := (search i).mp (Option.mem_toList.mp found)
    exact ⟨fun ego => by simp [(search j).mpr ego] at other, .inl ego⟩

theorem isEgo_iff_label (agents : List Agent) (i : Nat) :
    IsEgo agents i ↔ ((agents.map Agent.label)[i]?).any Prod.snd = true := by
  simp [IsEgo, Agent.label, Option.any_eq_true]

theorem countP_isEgo (agents : List Agent) :
    agents.countP Agent.isEgo = (agents.map Agent.label).countP Prod.snd := by
  rw [List.countP_map]
  rfl

/-- The agents that a step updates, in the order in which it does. -/
theorem updateOrder_driven (built : build agents bounds = .ok first) (ops : List Operation) :
    (first.driven ops).updateOrder.Pairwise (Precedes agents) ∧
      ∀ i, i ∈ (first.driven ops).updateOrder ↔ i < agents.length ∧ ¬ Frozen ops i := by
  obtain ⟨rfl, _, single, _⟩ := build_ok built
  have labels := labels_driven first ops
  have egos (i : Nat) : IsEgo (first.driven ops).agents i ↔ IsEgo first.agents i := by
    rw [isEgo_iff_label, labels, ← isEgo_iff_label]
  rw [countP_isEgo, ← labels, ← countP_isEgo] at single
  constructor
  · refine (precedes_updateOrder _ single).imp ?_
    rintro i j ⟨other, before⟩
    exact ⟨mt (egos j).mpr other, before.imp_left (egos i).mp⟩
  · intro i
    rw [mem_updateOrder _ single, length_driven]
    exact and_congr_right fun inside => get_driven built ops inside

/-- Calls of `update` one after the other, each for an agent as it is by then. -/
inductive Updates (update : Nat → Agent → List Assignment) :
    Episode → List (Nat × Agent) → Episode → Prop where
  | done (e : Episode) : Updates update e [] e
  | call {e moved : Episode} {i : Nat} {a : Agent} {calls : List (Nat × Agent)} :
      e.agents[i]? = some a → Updates update ((update i a).foldl assign e) calls moved →
      Updates update e ((i, a) :: calls) moved

/-- Whatever is written, an agent that is updated has the name of the agent with its index. -/
theorem Updates.label (updates : Updates update e calls moved) :
    ∀ call ∈ calls, (e.agents.map Agent.label)[call.1]? = some call.2.label := by
  induction updates with
  | done => nofun
  | @call e moved i a calls place _ ih =>
    intro call among
    rcases List.mem_cons.mp among with rfl | among
    · simp [place]
    · rw [← ih call among, labels_writes]

theorem updates_foldl (update : Nat → Agent → List Assignment) {order : List Nat} (e : Episode)
    (inside : ∀ i ∈ order, i < e.agents.length) :
    ∃ calls, Updates update e calls (order.foldl (updateAgent update) e) ∧
      calls.map Prod.fst = order := by
  induction order generalizing e with
  | nil => exact ⟨[], .done e, rfl⟩
  | cons i rest ih =>
    obtain ⟨here, below⟩ := List.forall_mem_cons.mp inside
    have place : e.agents[i]? = some e.agents[i] := List.getElem?_eq_getElem here
    have moved : updateAgent update e i = (update i e.agents[i]).foldl assign e := by
      rw [updateAgent, place]
    have same : ((update i e.agents[i]).foldl assign e).agents.length = e.agents.length := by
      simpa using congrArg List.length (labels_writes (update i e.agents[i]) e)
    obtain ⟨calls, updates, order⟩ := ih _ (by rwa [same])
    rw [List.foldl_cons, moved]
    exact ⟨(i, e.agents[i]) :: calls, .call place updates, congrArg (i :: ·) order⟩

/-- Whatever was done to an episode since it was built, the agents that are not frozen are
those whose last operation did not freeze them, and there is no freezing or unfreezing an agent
that is not there. A step updates every agent that is not frozen once and no other, the ego
first and the others by index, and then asks for its turn. -/
theorem updates_unfrozen (built : build agents bounds = .ok first) (ops : List Operation) :
    (∀ i, i ∈ (first.driven ops).unfrozenAgents ↔ i < agents.length ∧ ¬ Frozen ops i) ∧
    (first.driven ops).unfrozenAgents.Pairwise (· < ·) ∧
    (∀ i, (first.driven ops).isFrozen i = true ↔ i < agents.length ∧ Frozen ops i) ∧
    (∀ i frozen, (i < agents.length → ((first.driven ops).setFrozen i frozen).1 = true) ∧
      (agents.length ≤ i → (first.driven ops).setFrozen i frozen = (false, first.driven ops))) ∧
    ∀ priority update, ∃ calls moved, Updates update (first.driven ops) calls moved ∧
      (first.driven ops).step priority update =
        { moved with tick := moved.tick + 1 }.settle (·.step (moved.world priority)) ∧
      (calls.map Prod.fst).Nodup ∧
      (∀ i, i ∈ calls.map Prod.fst ↔ i < agents.length ∧ ¬ Frozen ops i) ∧
      (calls.map Prod.fst).Pairwise (Precedes agents) ∧
      ∀ call ∈ calls, (agents.map Agent.label)[call.1]? = some call.2.label := by
  obtain ⟨same, _⟩ := build_ok built
  have labels : (first.driven ops).agents.map Agent.label = agents.map Agent.label := by
    rw [labels_driven, same]
  have length : (first.driven ops).agents.length = agents.length := by
    rw [length_driven, same]
  refine ⟨mem_unfrozenAgents built ops, List.pairwise_lt_range.filter _, isFrozen_iff built ops,
    ?_, ?_⟩
  · intro i frozen
    unfold setFrozen
    rw [length]
    exact ⟨fun inside => by rw [if_pos inside], fun outside => if_neg (Nat.not_lt.mpr outside)⟩
  · intro priority update
    obtain ⟨order, members⟩ := updateOrder_driven built ops
    obtain ⟨calls, updates, indices⟩ := updates_foldl update (first.driven ops)
      fun i among => length ▸ ((members i).mp among).1
    have known := updates.label
    rw [labels] at known
    refine ⟨calls, _, updates, rfl, ?_⟩
    rw [indices]
    exact ⟨order.imp Precedes.ne, members, order, known⟩

/-- Two agents, of which the second is the ego. -/
def pair : List Agent := [⟨"other", false, .ofList []⟩, ⟨"ego", true, .ofList []⟩]

/-- Frozen together, then unfrozen one by one, with an agent frozen that is not there. -/
def thawed : List Operation := [.freezeAll, .unfreeze 1, .freeze 2, .unfreeze 0]

/-- A step updates both, the second one first. -/
theorem updates_unfrozen_pair : ∃ first, build pair parked.bounds = .ok first ∧
    ∀ update, ∃ calls moved, Updates update (first.driven thawed) calls moved ∧
      calls.map Prod.fst = [1, 0] := by
  obtain ⟨first, built, zero, one⟩ : ∃ first, build pair parked.bounds = .ok first ∧
      (first.driven thawed).unfrozen.get 0 = true ∧ (first.driven thawed).unfrozen.get 1 = true :=
    ⟨_, rfl, rfl, rfl⟩
  refine ⟨first, built, fun update => ?_⟩
  obtain ⟨_, _, _, _, steps⟩ := updates_unfrozen built thawed
  obtain ⟨calls, moved, updates, _, distinct, members, order, _⟩ := steps .free update
  refine ⟨calls, moved, updates, ?_⟩
  have both : (calls.map Prod.fst).Perm [1, 0] := by
    refine (List.perm_ext_iff_of_nodup distinct (by decide)).mpr fun i => ?_
    rw [members]
    constructor
    · rintro ⟨inside, _⟩
      have few : i < 2 := inside
      rw [List.mem_cons, List.mem_singleton]
      omega
    · intro among
      rcases List.mem_cons.mp among with rfl | last
      · exact ⟨by decide, (get_driven built thawed (by decide)).mp one⟩
      · obtain rfl := List.mem_singleton.mp last
        exact ⟨by decide, (get_driven built thawed (by decide)).mp zero⟩
  have sorted : [1, 0].Pairwise (Precedes pair) := by simp [Precedes, IsEgo, pair]
  exact both.eq_of_pairwise (fun _ _ _ _ forth back => absurd back forth.asymm) order sorted

end Episode

end TemporalRewards
