import Mathlib.Data.Rat.Floor
import Mathlib.Tactic.Linarith
import Mathlib.Tactic.NormNum
import Mathlib.Tactic.Ring
import TemporalRewards.Proofs.Episode.Ticks

/-! The account of an episode over exact numbers. Clipping alone would keep the total in its
range, but a reward is rounded after it was clipped. The total is always a whole number of the
units that rewards are rounded to, so that it stays between the bounds of the range, rounded to
these units, and both can be reached. A bound that rounding moves outwards can be overrun. -/
namespace TemporalRewards

/-- The whole number nearest to a rational one; a half goes away from zero. -/
def nearest (x : ℚ) : Int := if 0 ≤ x then ⌊x + 1 / 2⌋ else ⌈x - 1 / 2⌉

instance : Arithmetic ℚ where
  zero := 0
  one := 1
  ten := 10
  isFinite := fun _ => true
  round := fun x => nearest x
  decidableLT := fun x y => inferInstanceAs (Decidable (x < y))

theorem ceil_half_le_floor_half (x : ℚ) : ⌈x - 1 / 2⌉ ≤ ⌊x + 1 / 2⌋ :=
  calc ⌈x - 1 / 2⌉ ≤ ⌊x - 1 / 2⌋ + 1 := Int.ceil_le_floor_add_one _
    _ = ⌊x - 1 / 2 + 1⌋ := (Int.floor_add_one _).symm
    _ = ⌊x + 1 / 2⌋ := by congr 1; ring

theorem nearest_le (x : ℚ) : nearest x ≤ ⌊x + 1 / 2⌋ := by
  unfold nearest
  split
  · exact le_rfl
  · exact ceil_half_le_floor_half x

theorem nearest_neg (x : ℚ) : nearest (-x) = -nearest x := by
  have floor : ⌊-x + 1 / 2⌋ = -⌈x - 1 / 2⌉ := by rw [← Int.floor_neg]; congr 1; ring
  have ceil : ⌈-x - 1 / 2⌉ = -⌊x + 1 / 2⌋ := by rw [← Int.ceil_neg]; congr 1; ring
  rcases lt_trichotomy x 0 with neg | rfl | pos
  · rw [nearest, if_pos (by linarith), nearest, if_neg neg.not_ge, floor]
  · decide +kernel
  · rw [nearest, if_neg (by linarith), nearest, if_pos pos.le, ceil]

/-- What is left of a number after some units is rounded at most as far as the number itself:
they agree while it is positive, and a half that is missing is rounded down. -/
theorem add_nearest_le {x y : ℚ} {units : Int} (nonneg : 0 ≤ x) (within : y + units ≤ x) :
    units + nearest y ≤ nearest x :=
  calc units + nearest y ≤ ⌊y + 1 / 2⌋ + units := by linarith [nearest_le y]
    _ = ⌊y + 1 / 2 + units⌋ := (Int.floor_add_intCast _ _).symm
    _ ≤ ⌊x + 1 / 2⌋ := Int.floor_le_floor (by linarith)
    _ = nearest x := (if_pos nonneg).symm

theorem le_add_nearest {x y : ℚ} {units : Int} (nonpos : x ≤ 0) (within : x ≤ y + units) :
    nearest x ≤ units + nearest y := by
  have mirrored : -units + nearest (-y) ≤ nearest (-x) :=
    add_nearest_le (neg_nonneg.mpr nonpos) (by push_cast; linarith)
  rw [nearest_neg, nearest_neg] at mirrored
  linarith

namespace Arithmetic

theorem powerOnto_eq (result base : ℚ) (n : Nat) : powerOnto result base n = result * base ^ n := by
  induction n using Nat.strong_induction_on generalizing result base with
  | _ n ih =>
    have power : base ^ n = base ^ (n % 2) * (base * base) ^ (n / 2) := by
      rw [← pow_two, ← pow_mul, ← pow_add, Nat.mod_add_div]
    have taken : (if n % 2 = 1 then result * base else result) = result * base ^ (n % 2) := by
      rcases Nat.mod_two_eq_zero_or_one n with even | odd
      · simp [even]
      · simp [odd]
    rw [powerOnto, power, ← mul_assoc, ← taken]
    split
    · rename_i last
      rw [last, pow_zero, mul_one]
    · exact ih (n / 2) (by omega) _ _

theorem powerOfTen_eq (n : Int) : (powerOfTen n : ℚ) = 10 ^ n := by
  have power : (powerOnto one ten n.natAbs : ℚ) = 10 ^ n.natAbs :=
    (powerOnto_eq 1 10 _).trans (one_mul _)
  simp only [powerOfTen, power]
  cases n with
  | ofNat n => exact (zpow_natCast 10 n).symm
  | negSucc n =>
    rw [if_pos (Int.negSucc_lt_zero n), zpow_negSucc]
    exact one_div _

end Arithmetic

/-- An account: the rewards granted since it was opened, and the running total. -/
structure Ledger (α : Type) where
  granted : List α
  total : α

namespace Clip

section

variable {α : Type} [Arithmetic α]

/-- Enters the reward that is granted for a due one. -/
def enter (clip : Clip α) (decimals : Int) (l : Ledger α) (due : α) : Ledger α :=
  let reward := clip.grant decimals l.total due
  ⟨l.granted ++ [reward], l.total + reward⟩

/-- The account of rewards that are due one after the other. -/
def ledger (clip : Clip α) (decimals : Int) (dues : List α) : Ledger α :=
  dues.foldl (clip.enter decimals) ⟨[], Arithmetic.zero⟩

theorem ledger_concat (clip : Clip α) (decimals : Int) (dues : List α) (due : α) :
    clip.ledger decimals (dues ++ [due]) = clip.enter decimals (clip.ledger decimals dues) due := by
  simp [ledger]

end

variable {clip : Clip ℚ} {decimals : Int}

theorem fromAbove_eq (clip : Clip ℚ) (total reward : ℚ) :
    clip.fromAbove total reward =
      if clip.highest < total + reward then clip.highest - total else reward := rfl

theorem fromBelow_eq (clip : Clip ℚ) (total reward : ℚ) :
    clip.fromBelow total reward =
      if total + reward < clip.lowest then clip.lowest - total else reward := rfl

theorem roundTo_eq (decimals : Int) (x : ℚ) :
    roundTo decimals x = nearest (x * 10 ^ decimals) / 10 ^ decimals := by
  rw [← Arithmetic.powerOfTen_eq]
  rfl

/-- Before it is rounded, the reward carries the total into the range. -/
theorem clipped_within (range : clip.lowest ≤ clip.highest) (total due : ℚ) :
    clip.lowest ≤ total + clip.fromBelow total (clip.fromAbove total due) ∧
      total + clip.fromBelow total (clip.fromAbove total due) ≤ clip.highest := by
  have lowered : total + clip.fromAbove total due ≤ clip.highest := by
    rw [fromAbove_eq]
    split <;> linarith
  rw [fromBelow_eq]
  split
  · constructor <;> linarith
  · constructor <;> linarith

theorem unit_pos (decimals : Int) : (0 : ℚ) < 10 ^ decimals := zpow_pos (by norm_num) decimals

/-- A reward that is rounded is a whole number of units. -/
theorem enter_total (clip : Clip ℚ) (decimals : Int) (l : Ledger ℚ) (due : ℚ) :
    (clip.enter decimals l due).total * 10 ^ decimals = l.total * 10 ^ decimals +
      nearest (clip.fromBelow l.total (clip.fromAbove l.total due) * 10 ^ decimals) := by
  have unit := (unit_pos decimals).ne'
  calc (l.total + roundTo decimals (clip.fromBelow l.total (clip.fromAbove l.total due))) *
        10 ^ decimals = _ := by
        rw [roundTo_eq, add_mul, div_mul_cancel₀ _ unit]

theorem ledger_whole (clip : Clip ℚ) (decimals : Int) (dues : List ℚ) :
    ∃ units : Int, (clip.ledger decimals dues).total * 10 ^ decimals = units := by
  induction dues using List.reverseRecOn with
  | nil => exact ⟨0, (zero_mul _).trans Int.cast_zero.symm⟩
  | append_singleton dues due ih =>
    obtain ⟨units, whole⟩ := ih
    rw [ledger_concat, enter_total, whole]
    exact ⟨_, (Int.cast_add _ _).symm⟩

theorem ledger_sum (clip : Clip ℚ) (decimals : Int) (dues : List ℚ) :
    (clip.ledger decimals dues).total = (clip.ledger decimals dues).granted.sum := by
  induction dues using List.reverseRecOn with
  | nil => rfl
  | append_singleton dues due ih =>
    rw [ledger_concat, enter, List.sum_append, List.sum_singleton, ← ih]

/-- From a whole number of units, a reward carries the total no further than to the bounds of
the range, rounded. -/
theorem enter_between (bottom : clip.lowest ≤ 0) (top : 0 ≤ clip.highest) {l : Ledger ℚ}
    {units : Int} (whole : l.total * 10 ^ decimals = units) (due : ℚ) :
    roundTo decimals clip.lowest ≤ (clip.enter decimals l due).total ∧
      (clip.enter decimals l due).total ≤ roundTo decimals clip.highest := by
  have unit := unit_pos decimals
  obtain ⟨above, below⟩ := clipped_within (bottom.trans top) l.total due
  rw [← mul_le_mul_iff_left₀ unit, add_mul, whole, add_comm] at above below
  rw [roundTo_eq, roundTo_eq, div_le_iff₀ unit, le_div_iff₀ unit, enter_total, whole,
    ← Int.cast_add, Int.cast_le, Int.cast_le]
  exact ⟨le_add_nearest (mul_nonpos_of_nonpos_of_nonneg bottom unit.le) above,
    add_nearest_le (mul_nonneg top unit.le) below⟩

theorem roundTo_nonneg (decimals : Int) {x : ℚ} (nonneg : 0 ≤ x) : 0 ≤ roundTo decimals x := by
  have unit := unit_pos decimals
  have units : 0 ≤ x * 10 ^ decimals := mul_nonneg nonneg unit.le
  rw [roundTo_eq, nearest, if_pos units]
  exact div_nonneg (Int.cast_nonneg (Int.floor_nonneg.mpr (by linarith))) unit.le

theorem roundTo_neg (decimals : Int) (x : ℚ) : roundTo decimals (-x) = -roundTo decimals x := by
  simp only [roundTo_eq, neg_mul, nearest_neg, Int.cast_neg, neg_div]

theorem roundTo_nonpos (decimals : Int) {x : ℚ} (nonpos : x ≤ 0) : roundTo decimals x ≤ 0 := by
  have mirrored := roundTo_nonneg decimals (neg_nonneg.mpr nonpos)
  rwa [roundTo_neg, neg_nonneg] at mirrored

theorem ledger_between (bottom : clip.lowest ≤ 0) (top : 0 ≤ clip.highest) (decimals : Int)
    (dues : List ℚ) : roundTo decimals clip.lowest ≤ (clip.ledger decimals dues).total ∧
      (clip.ledger decimals dues).total ≤ roundTo decimals clip.highest := by
  rcases List.eq_nil_or_concat' dues with rfl | ⟨dues, due, rfl⟩
  · exact ⟨roundTo_nonpos decimals bottom, roundTo_nonneg decimals top⟩
  · obtain ⟨units, whole⟩ := ledger_whole clip decimals dues
    rw [ledger_concat]
    exact enter_between bottom top whole due

theorem ledger_singleton {due : ℚ} (above : clip.lowest ≤ due) (below : due ≤ clip.highest) :
    (clip.ledger decimals [due]).total = roundTo decimals due := by
  have kept : clip.fromBelow 0 (clip.fromAbove 0 due) = due := by
    rw [fromAbove_eq, zero_add, if_neg below.not_gt, fromBelow_eq, zero_add, if_neg above.not_gt]
  calc (0 : ℚ) + roundTo decimals (clip.fromBelow 0 (clip.fromAbove 0 due)) = _ := by
        rw [zero_add, kept]

/-- Whatever is due, the total stays in the range just when neither bound is rounded outwards. -/
theorem ledger_within_iff (bottom : clip.lowest ≤ 0) (top : 0 ≤ clip.highest) :
    (∀ dues : List ℚ, clip.lowest ≤ (clip.ledger decimals dues).total ∧
        (clip.ledger decimals dues).total ≤ clip.highest) ↔
      clip.lowest ≤ roundTo decimals clip.lowest ∧
        roundTo decimals clip.highest ≤ clip.highest := by
  have range := bottom.trans top
  constructor
  · intro within
    obtain ⟨above, _⟩ := within [clip.lowest]
    obtain ⟨_, below⟩ := within [clip.highest]
    rw [ledger_singleton le_rfl range] at above
    rw [ledger_singleton range le_rfl] at below
    exact ⟨above, below⟩
  · rintro ⟨above, below⟩ dues
    obtain ⟨low, high⟩ := ledger_between bottom top decimals dues
    exact ⟨above.trans low, high.trans below⟩

end Clip

namespace Episode

variable {e before after : Episode} {c : Call} {turn : Turn} {error : RunError}
  {clip : Clip Float} {decimals : Int} {dues : List Float} {turns : List Turn}

/-- The reward that is due in a call: that of the signal, and zero without a reward scheme. -/
def due? (e : Episode) (c : Call) : Option Float :=
  match e.rewards with
  | none => some 0.0
  | some s =>
    match (s.call c.inner (e.seen c)).value.1 with
    | .ok signal => some signal.reward
    | .error _ => none

/-- What a call leaves of the entries made before it. -/
def Call.keeps {β : Type} : Call → List β → List β
  | .reset _, _ => []
  | .step _ _, entries => entries

/-- The rewards that were due since the account of an episode was opened, and the turns that
they brought. The account is opened with the episode and by every reset, whether it succeeds or
not. Between calls anything may change but the account. -/
inductive Books (clip : Clip Float) (decimals : Int) : List Float → List Turn → Episode → Prop where
  | opened {e : Episode} :
      e.clip = clip → e.decimals = decimals → e.total = 0.0 → Books clip decimals [] [] e
  | between {dues : List Float} {turns : List Turn} {e after : Episode} :
      Books clip decimals dues turns e → after.clip = e.clip → after.decimals = e.decimals →
      after.total = e.total → Books clip decimals dues turns after
  | failed {dues : List Float} {turns : List Turn} {e after : Episode} {c : Call}
      {error : RunError} :
      Books clip decimals dues turns e → (e.call c).value = (.error error, after) →
      Books clip decimals (c.keeps dues) (c.keeps turns) after
  | entered {dues : List Float} {turns : List Turn} {e after : Episode} {c : Call} {turn : Turn}
      {due : Float} :
      Books clip decimals dues turns e → (e.call c).value = (.ok turn, after) →
      e.due? c = some due →
      Books clip decimals (c.keeps dues ++ [due]) (c.keeps turns ++ [turn]) after

/-- An account and an episode have the same entries. -/
structure Agrees (e : Episode) (clip : Clip Float) (decimals : Int) (l : Ledger Float)
    (turns : List Turn) : Prop where
  clip : e.clip = clip
  decimals : e.decimals = decimals
  total : e.total = l.total
  granted : turns.map (·.signal.reward) = l.granted

/-- A reset empties the account before the reward scheme is asked. -/
theorem Agrees.prepare (agrees : e.Agrees clip decimals (clip.ledger decimals dues) turns)
    (c : Call) :
    (e.prepare c).Agrees clip decimals (clip.ledger decimals (c.keeps dues)) (c.keeps turns) := by
  cases c with
  | reset priority => exact ⟨agrees.clip, agrees.decimals, rfl, rfl⟩
  | step priority update =>
    have moved := updates_eq update e.updateOrder e
    have clip := congrArg Episode.clip moved
    have decimals := congrArg Episode.decimals moved
    have total := congrArg Episode.total moved
    exact ⟨clip.trans agrees.clip, decimals.trans agrees.decimals, total.trans agrees.total,
      agrees.granted⟩

theorem Agrees.account {signal : Signal} {l : Ledger Float}
    (agrees : e.Agrees clip decimals l turns)
    (accounted : (e.account signal).value = (turn, after)) :
    after.Agrees clip decimals (clip.enter decimals l signal.reward) (turns ++ [turn]) ∧
      turn.total = after.total := by
  obtain ⟨entered, summed, rfl⟩ := account_eq accounted
  have reward : turn.signal.reward = clip.grant decimals l.total signal.reward := by
    rw [entered, agrees.clip, agrees.decimals, agrees.total]
  refine ⟨⟨agrees.clip, agrees.decimals, ?_, ?_⟩, rfl⟩
  · exact summed.trans (congrArg₂ (· + ·) agrees.total reward)
  · simp [agrees.granted, reward, Clip.enter]

/-- A call that succeeds enters what is due into the account. -/
theorem Agrees.call_ok (agrees : e.Agrees clip decimals (clip.ledger decimals dues) turns)
    (called : (e.call c).value = (.ok turn, after)) :
    ∃ due, e.due? c = some due ∧
      after.Agrees clip decimals (clip.ledger decimals (c.keeps dues ++ [due]))
        (c.keeps turns ++ [turn]) ∧ turn.total = after.total := by
  have prepared := agrees.prepare c
  obtain ⟨same, _⟩ := prepare_frame e c
  rw [call_eq_settle] at called
  cases settlement called with
  | idle lacks accounted =>
    refine ⟨(idle (e.prepare c).tick).reward, by rw [due?, ← same, lacks]; rfl, ?_⟩
    rw [Clip.ledger_concat]
    exact prepared.account accounted
  | @entered s t signal _ _ has answer accounted =>
    refine ⟨signal.reward, by rw [due?, ← same, has]; dsimp only; rw [answer], ?_⟩
    rw [Clip.ledger_concat]
    have settled : ((e.prepare c).withRewards t).Agrees clip decimals _ _ :=
      ⟨prepared.clip, prepared.decimals, prepared.total, prepared.granted⟩
    exact settled.account accounted

theorem Agrees.call_error (agrees : e.Agrees clip decimals (clip.ledger decimals dues) turns)
    (called : (e.call c).value = (.error error, after)) :
    after.Agrees clip decimals (clip.ledger decimals (c.keeps dues)) (c.keeps turns) := by
  have prepared := agrees.prepare c
  rw [call_eq_settle] at called
  cases settlement called with
  | failed => exact ⟨prepared.clip, prepared.decimals, prepared.total, prepared.granted⟩

theorem Books.agrees (books : Books clip decimals dues turns e) :
    e.Agrees clip decimals (clip.ledger decimals dues) turns := by
  induction books with
  | opened clip decimals total => exact ⟨clip, decimals, total, rfl⟩
  | between _ clip decimals total ih =>
    exact ⟨clip.trans ih.clip, decimals.trans ih.decimals, total.trans ih.total, ih.granted⟩
  | failed _ called ih => exact ih.call_error called
  | entered _ called known ih =>
    obtain ⟨due, same, entered, _⟩ := ih.call_ok called
    obtain rfl := Option.some.inj (known.symm.trans same)
    exact entered

/-- However an episode was driven, a call that succeeds leaves it with the account of what was
due since the last reset, and so does the turn. Over exact numbers the total of such an account
is the sum of the rewards granted, and lies between the bounds of the range, rounded. It lies
in the range itself, whatever is due, just when neither bound is rounded outwards. -/
theorem totals_within (books : Books clip decimals dues turns before)
    (called : (before.call c).value = (.ok turn, after))
    (exact : Clip ℚ) (bottom : exact.lowest ≤ 0) (top : 0 ≤ exact.highest) :
    (∃ due, before.due? c = some due ∧
      after.total = (clip.ledger decimals (c.keeps dues ++ [due])).total ∧
      turn.total = after.total ∧
      (c.keeps turns ++ [turn]).map (·.signal.reward) =
        (clip.ledger decimals (c.keeps dues ++ [due])).granted) ∧
    (∀ dues : List ℚ,
      (exact.ledger decimals dues).total = (exact.ledger decimals dues).granted.sum ∧
      Clip.roundTo decimals exact.lowest ≤ (exact.ledger decimals dues).total ∧
      (exact.ledger decimals dues).total ≤ Clip.roundTo decimals exact.highest) ∧
    ((∀ dues : List ℚ, exact.lowest ≤ (exact.ledger decimals dues).total ∧
        (exact.ledger decimals dues).total ≤ exact.highest) ↔
      exact.lowest ≤ Clip.roundTo decimals exact.lowest ∧
        Clip.roundTo decimals exact.highest ≤ exact.highest) := by
  obtain ⟨due, known, entered, shown⟩ := books.agrees.call_ok called
  refine ⟨⟨due, known, entered.total, shown, entered.granted⟩, ?_, ?_⟩
  · intro dues
    exact ⟨Clip.ledger_sum exact decimals dues, Clip.ledger_between bottom top decimals dues⟩
  · exact Clip.ledger_within_iff bottom top

/-- An episode whose account is kept in tenths, between minus one and one half. -/
def tenths : Episode := (parked.withClip (-1.0) 0.5).withRounding 1

/-- Rounding to tenths moves neither bound. -/
theorem totals_within_tenths : ∃ turn after due,
    (tenths.call (.reset .free)).value = (.ok turn, after) ∧
      after.total = (tenths.clip.ledger 1 [due]).total ∧ turn.total = after.total ∧
      ∀ dues : List ℚ, -1 ≤ ((⟨-1, 1 / 2⟩ : Clip ℚ).ledger 1 dues).total ∧
        ((⟨-1, 1 / 2⟩ : Clip ℚ).ledger 1 dues).total ≤ 1 / 2 := by
  obtain ⟨turn, after, called⟩ : ∃ turn after,
      (tenths.call (.reset .free)).value = (.ok turn, after) := ⟨_, _, rfl⟩
  have books : Books tenths.clip 1 [] [] tenths := .opened rfl rfl rfl
  obtain ⟨⟨due, _, total, shown, _⟩, _, within⟩ :=
    totals_within books called ⟨-1, 1 / 2⟩ (by norm_num) (by norm_num)
  refine ⟨turn, after, due, called, total, shown, within.mpr ?_⟩
  norm_num [Clip.roundTo_eq, nearest]

/-- A top of one half, rounded to whole numbers, lets a total of one pass. -/
theorem not_within_halves :
    ¬ ∀ (clip : Clip ℚ) (decimals : Int) (dues : List ℚ), clip.lowest ≤ clip.highest →
      clip.lowest ≤ 0 → 0 ≤ clip.highest →
      clip.lowest ≤ (clip.ledger decimals dues).total ∧
        (clip.ledger decimals dues).total ≤ clip.highest ∧
        (clip.ledger decimals dues).total = (clip.ledger decimals dues).granted.sum := by
  intro within
  obtain ⟨_, below, _⟩ :=
    within ⟨0, 1 / 2⟩ 0 [1 / 2] (by norm_num) le_rfl (by norm_num)
  rw [Clip.ledger_singleton (by norm_num) le_rfl] at below
  norm_num [Clip.roundTo_eq, nearest] at below

end Episode

end TemporalRewards
