import Mathlib.Data.Nat.Find
import TemporalRewards.Priority

/-! Who holds a priority, told from the calls to it and their answers alone. A tenure
begins with a request that is granted to a claimant who has none, and ends with the next
release by the same claimant. At any time there is at most one tenure, and it decides
every answer. -/
namespace TemporalRewards.Priority

/-- What a claimant may ask of a priority. -/
inductive Call
  | request (claimant : String)
  | release (claimant : String)
  | has (claimant : String)
deriving DecidableEq

def Call.claimant : Call → String
  | request claimant | release claimant | has claimant => claimant

/-- The answer to a call, and the priority after it. -/
def call (p : Priority) : Call → Bool × Priority
  | .request claimant => (p.request claimant).value
  | .release claimant => (p.release claimant).value
  | .has claimant => (p.has claimant, p)

def heldBy (claimant : String) : Priority := ⟨some claimant⟩

/-! What one call does, by whether the priority is held. -/

theorem call_free (asked : Call) : free.call asked =
    match asked with
    | .request claimant => (true, heldBy claimant)
    | .release _ | .has _ => (false, free) := by
  cases asked <;> rfl

/-- Only the holder is answered yes, and only by a release of its own is anything changed. -/
theorem call_heldBy (c : String) (asked : Call) : (heldBy c).call asked =
    if asked.claimant = c then (true, if asked = .release c then free else heldBy c)
    else (false, heldBy c) := by
  have answer (d : String) : (heldBy c).has d = decide (d = c) := by
    rw [Bool.eq_iff_iff]
    simpa [has, heldBy] using eq_comm
  have request (d : String) : (heldBy c).call (.request d) = ((heldBy c).has d, heldBy c) := rfl
  cases asked with
  | request d =>
    rw [request, answer]
    by_cases own : d = c <;> simp [Call.claimant, own]
  | release d =>
    by_cases own : d = c <;> simp [call, release, answer, Call.claimant, own, Logged.quiet]
  | has d => by_cases own : d = c <;> simp [call, answer, Call.claimant, own]

theorem eq_free_or_heldBy (p : Priority) : p = free ∨ ∃ c, p = heldBy c := by
  obtain ⟨_ | c⟩ := p
  · exact .inl rfl
  · exact .inr ⟨c, rfl⟩

theorem free_ne_heldBy (c : String) : free ≠ heldBy c := nofun

theorem heldBy_inj {c d : String} : heldBy c = heldBy d ↔ c = d := by simp [heldBy]

/-- A claimant holds the priority once its request is granted, and from then on until its
release. -/
theorem call_eq_heldBy_iff (p : Priority) (asked : Call) (c : String) :
    (p.call asked).2 = heldBy c ↔
      (asked = .request c ∧ (p.call asked).1 = true) ∨ (p = heldBy c ∧ asked ≠ .release c) := by
  obtain rfl | ⟨d, rfl⟩ := p.eq_free_or_heldBy
  · rw [call_free]
    cases asked <;> simp [free_ne_heldBy, heldBy_inj]
  · rw [call_heldBy]
    cases asked <;> grind [Call.claimant, heldBy_inj, free_ne_heldBy]

/-! Positions in a sequence of calls to a new priority. -/

variable {calls : List Call} {c d : String} {i first last : Nat}

/-- The priority before call `i`. -/
def before (calls : List Call) (i : Nat) : Priority :=
  (calls.take i).foldl (fun p asked => (p.call asked).2) free

theorem before_succ {asked : Call} (place : calls[i]? = some asked) :
    before calls (i + 1) = ((before calls i).call asked).2 := by
  obtain ⟨inside, rfl⟩ := List.getElem?_eq_some_iff.mp place
  rw [before, List.take_succ_eq_append_getElem inside, List.foldl_append, ← before]
  rfl

/-- Call `i` is a request of a claimant, and it is granted. -/
def Granted (calls : List Call) (c : String) (i : Nat) : Prop :=
  calls[i]? = some (.request c) ∧ ((before calls i).call (.request c)).1 = true

/-- A claimant releases neither at call `i` nor later, up to call `j`, which does not count. -/
def Keeps (calls : List Call) (c : String) (i j : Nat) : Prop :=
  ∀ k, i ≤ k → k < j → calls[k]? ≠ some (.release c)

/-- A tenure of a claimant. It begins with call `first`, a request that is granted and is the
first such since the last release by this claimant, and ends with its next release, which is
call `last`, or is still going on after the last of the calls. -/
structure Tenure (calls : List Call) (c : String) (first last : Nat) : Prop where
  granted : Granted calls c first
  new : ∀ earlier < first, Granted calls c earlier → ¬ Keeps calls c earlier first
  later : first < last
  keeps : Keeps calls c first last
  ended : calls[last]? = some (.release c) ∨ last = calls.length

theorem Keeps.mono {i j k l : Nat} (keeps : Keeps calls c i l) (first : i ≤ j) (last : k ≤ l) :
    Keeps calls c j k :=
  fun m above below => keeps m (Nat.le_trans first above) (Nat.lt_of_lt_of_le below last)

theorem Keeps.append {i j k : Nat} (early : Keeps calls c i j) (late : Keeps calls c j k) :
    Keeps calls c i k := by
  intro m above below
  rcases Nat.lt_or_ge m j with before | after
  · exact early m above before
  · exact late m after below

theorem keeps_succ_iff {i j : Nat} (le : i ≤ j) :
    Keeps calls c i (j + 1) ↔ Keeps calls c i j ∧ calls[j]? ≠ some (.release c) := by
  constructor
  · intro keeps
    exact ⟨keeps.mono (Nat.le_refl i) (Nat.le_succ j), keeps j le (Nat.lt_succ_self j)⟩
  · rintro ⟨keeps, kept⟩
    refine keeps.append fun k above below => ?_
    obtain rfl := Nat.le_antisymm above (Nat.le_of_lt_succ below)
    exact kept

/-- The holder is the one with a granted request and no release since. -/
theorem before_eq_heldBy_iff (inside : i ≤ calls.length) :
    before calls i = heldBy c ↔ ∃ first < i, Granted calls c first ∧ Keeps calls c first i := by
  induction i with
  | zero => simp [before, free_ne_heldBy]
  | succ i ih =>
    have place : calls[i]? = some calls[i] := List.getElem?_eq_getElem inside
    rw [before_succ place, call_eq_heldBy_iff, ih (Nat.le_of_lt inside)]
    constructor
    · rintro (⟨asked, granted⟩ | ⟨⟨first, below, granted, keeps⟩, kept⟩)
      · rw [asked] at place granted
        refine ⟨i, Nat.lt_succ_self i, ⟨place, granted⟩, (keeps_succ_iff (Nat.le_refl i)).mpr ?_⟩
        exact ⟨fun k above below => absurd below (Nat.not_lt.mpr above), by simp [place]⟩
      · refine ⟨first, Nat.lt_succ_of_lt below, granted, ?_⟩
        exact (keeps_succ_iff (Nat.le_of_lt below)).mpr ⟨keeps, by simpa [place] using kept⟩
    · rintro ⟨first, below, granted, keeps⟩
      obtain ⟨keeps, kept⟩ := (keeps_succ_iff (Nat.le_of_lt_succ below)).mp keeps
      rcases Nat.lt_succ_iff_lt_or_eq.mp below with below | rfl
      · exact .inr ⟨⟨first, below, granted, keeps⟩, by simpa [place] using kept⟩
      · obtain ⟨asked, answer⟩ := granted
        rw [place, Option.some_inj] at asked
        exact .inl ⟨asked, asked ▸ answer⟩

namespace Tenure

variable {first' last' : Nat}

theorem last_le (t : Tenure calls c first last) : last ≤ calls.length := by
  rcases t.ended with released | rfl
  · exact Nat.le_of_lt (List.getElem?_eq_some_iff.mp released).1
  · exact Nat.le_refl _

/-- The claimant of a tenure holds the priority from its first call on until its last. -/
theorem held (t : Tenure calls c first last) (begun : first < i) (going : i ≤ last) :
    before calls i = heldBy c :=
  (before_eq_heldBy_iff (Nat.le_trans going t.last_le)).mpr
    ⟨first, begun, t.granted, t.keeps.mono (Nat.le_refl _) going⟩

/-- Whoever holds the priority does so in a tenure. -/
theorem exists_of_held (inside : i ≤ calls.length) (held : before calls i = heldBy c) :
    ∃ first last, Tenure calls c first last ∧ first < i ∧ i ≤ last := by
  classical
  have begun := (before_eq_heldBy_iff inside).mp held
  have ends : ∃ last, i ≤ last ∧ (calls[last]? = some (.release c) ∨ last = calls.length) :=
    ⟨calls.length, inside, .inr rfl⟩
  -- The earliest request since which there is no release, and the next release from here on.
  obtain ⟨below, granted, keeps⟩ := Nat.find_spec begun
  obtain ⟨above, ended⟩ := Nat.find_spec ends
  refine ⟨Nat.find begun, Nat.find ends, ⟨granted, ?_, Nat.lt_of_lt_of_le below above, ?_, ended⟩,
    below, above⟩
  · intro earlier since granted' keeps'
    exact Nat.find_min begun since ⟨Nat.lt_trans since below, granted', keeps'.append keeps⟩
  · refine keeps.append fun k above' below' released => ?_
    exact Nat.find_min ends below' ⟨above', .inl released⟩

/-- No tenure begins while another one is going on. -/
theorem last_lt (t : Tenure calls c first last) (other : Tenure calls d first' last')
    (after : first < first') : last < first' := by
  by_contra going
  have inside : first' ≤ last := Nat.le_of_not_lt going
  have granted := other.granted.2
  rw [t.held after inside, call_heldBy] at granted
  obtain rfl : d = c := by simpa [Call.claimant, apply_ite Prod.fst] using granted
  exact other.new first after t.granted (t.keeps.mono (Nat.le_refl _) inside)

theorem last_eq_of_le (t : Tenure calls c first last) (other : Tenure calls c first last')
    (le : last ≤ last') : last = last' := by
  refine Nat.le_antisymm le (Nat.le_of_not_lt fun lt => ?_)
  rcases t.ended with released | rfl
  · exact other.keeps last (Nat.le_of_lt t.later) lt released
  · exact Nat.not_lt.mpr other.last_le lt

/-- Two tenures are the same, or the one ends before the other begins. -/
theorem eq_or_apart (t : Tenure calls c first last) (other : Tenure calls d first' last') :
    (c = d ∧ first = first' ∧ last = last') ∨ last < first' ∨ last' < first := by
  rcases Nat.lt_trichotomy first first' with after | rfl | earlier
  · exact .inr (.inl (t.last_lt other after))
  · obtain rfl : c = d := by
      have place := t.granted.1
      rw [other.granted.1] at place
      simpa using place.symm
    refine .inl ⟨rfl, rfl, ?_⟩
    rcases Nat.le_total last last' with le | le
    · exact t.last_eq_of_le other le
    · exact (other.last_eq_of_le t le).symm
  · exact .inr (.inr (other.last_lt t earlier))

end Tenure

/-- Tenures are exclusive, whoever asks in whatever order. Each request that is granted falls
into a tenure, and two tenures are the same, or one ends before the other begins. While a
tenure goes on, calls of others are answered no and those of the holder yes, and nothing
changes; the release that ends it is answered yes and frees the priority. A release outside of
the claimant's own tenure is answered no. Whenever there is no tenure, the priority is not
claimed, and whoever requests it is granted it. -/
theorem tenures_exclusive (calls : List Call) :
    (∀ c i, Granted calls c i → ∃ first last, Tenure calls c first last ∧ first ≤ i ∧ i < last) ∧
    (∀ c d first last first' last', Tenure calls c first last → Tenure calls d first' last' →
      (c = d ∧ first = first' ∧ last = last') ∨ last < first' ∨ last' < first) ∧
    (∀ c first last, Tenure calls c first last →
      (∀ i asked, first < i → i < last → calls[i]? = some asked →
        (before calls i).call asked = (decide (asked.claimant = c), before calls i)) ∧
      (last < calls.length → calls[last]? = some (.release c) ∧
        (before calls last).call (.release c) = (true, free))) ∧
    (∀ c i, calls[i]? = some (.release c) →
      (∀ first last, Tenure calls c first last → ¬ (first < i ∧ i ≤ last)) →
      (before calls i).call (.release c) = (false, before calls i)) ∧
    ∀ i ≤ calls.length, (∀ c first last, Tenure calls c first last → ¬ (first < i ∧ i ≤ last)) →
      (before calls i).isClaimed = false ∧
        ∀ c, (before calls i).call (.request c) = (true, heldBy c) := by
  refine ⟨?_, fun c d first last first' last' => Tenure.eq_or_apart, ?_, ?_, ?_⟩
  · intro c i granted
    have inside : i < calls.length := (List.getElem?_eq_some_iff.mp granted.1).1
    have held : before calls (i + 1) = heldBy c := by
      rw [before_succ granted.1, call_eq_heldBy_iff]
      exact .inl ⟨rfl, granted.2⟩
    obtain ⟨first, last, tenure, begun, going⟩ := Tenure.exists_of_held inside held
    exact ⟨first, last, tenure, Nat.le_of_lt_succ begun, going⟩
  · intro c first last tenure
    constructor
    · intro i asked begun going place
      have kept : asked ≠ .release c := by
        rintro rfl
        exact tenure.keeps i (Nat.le_of_lt begun) going place
      rw [tenure.held begun (Nat.le_of_lt going), call_heldBy, if_neg kept]
      by_cases own : asked.claimant = c <;> simp [own]
    · intro inside
      refine ⟨tenure.ended.resolve_right (Nat.ne_of_lt inside), ?_⟩
      rw [tenure.held tenure.later (Nat.le_refl last), call_heldBy, if_pos rfl]
      exact if_pos rfl
  · intro c i place outside
    have inside : i < calls.length := (List.getElem?_eq_some_iff.mp place).1
    obtain free | ⟨d, held⟩ := (before calls i).eq_free_or_heldBy
    · rw [free, call_free]
    · rw [held, call_heldBy]
      by_cases own : c = d
      · subst own
        obtain ⟨first, last, tenure, within⟩ := Tenure.exists_of_held (Nat.le_of_lt inside) held
        exact absurd within (outside first last tenure)
      · exact if_neg own
  · intro i inside outside
    obtain free | ⟨c, held⟩ := (before calls i).eq_free_or_heldBy
    · rw [free]
      exact ⟨rfl, fun c => call_free (.request c)⟩
    · obtain ⟨first, last, tenure, within⟩ := Tenure.exists_of_held inside held
      exact absurd within (outside c first last tenure)

/-- One claimant asks twice and releases once, while another one is refused until then. -/
def contested : List Call :=
  [.request "ego", .request "car", .request "ego", .release "car", .has "ego", .release "ego",
    .release "ego", .request "car"]

/-- The request in between does not need a release of its own, and the release of the other
claimant ends nothing. -/
theorem tenures_exclusive_contested : Tenure contested "ego" 0 5 ∧
    (before contested 3).call (.release "car") = (false, before contested 3) ∧
    (before contested 5).call (.release "ego") = (true, free) := by
  have tenure : Tenure contested "ego" 0 5 := by
    have keeps : ∀ k < 5, contested[k]? ≠ some (.release "ego") := by decide
    exact ⟨⟨rfl, rfl⟩, nofun, by decide, fun k _ => keeps k, .inl rfl⟩
  obtain ⟨during, ended⟩ := (tenures_exclusive contested).2.2.1 "ego" 0 5 tenure
  exact ⟨tenure, during 3 _ (by decide) (by decide) rfl, (ended (by decide)).2⟩

end TemporalRewards.Priority
