import TemporalRewards.Json.Codec

/-! What was written to a document is read back from it: values by kind, lists of
them, and signals with what fired. Only floats that are not finite are lost, since a
document has no form for them. -/
namespace TemporalRewards

namespace JsonTree

variable {α : Type} {write : α → JsonTree} {read : JsonTree → Option α} {legible : α → Bool}

/-- A list is read back item by item. -/
theorem asList?_map (readBack : ∀ a, read (write a) = if legible a then some a else none)
    (items : List α) :
    (array (items.map write)).asList? read = if items.all legible then some items else none := by
  rw [asList?]
  induction items with
  | nil => rfl
  | cons a rest ih =>
    rw [List.map_cons, List.mapM_cons, readBack, List.all_cons]
    cases legible a with
    | false => rfl
    | true =>
      rw [ih]
      cases rest.all legible <;> rfl

theorem asFloat?_number (x : Float) :
    (number x).asFloat? = if x.isFinite then some x else none := by
  unfold number
  split <;> rfl

theorem asTick?_integer (tick : Nat) :
    (integer tick).asTick? = if tick < 0x100000000 then some tick else none := by
  have bounds : (0 ≤ (tick : Int) ∧ (tick : Int) < 0x100000000) ↔ tick < 0x100000000 := by omega
  simp only [asTick?, bounds, Int.toNat_natCast]

theorem asInt?_integer (n : Int64) : (integer n.toInt).asInt? = some n := by
  have range : -0x8000000000000000 ≤ n.toInt ∧ n.toInt < 0x8000000000000000 :=
    ⟨n.le_toInt, n.toInt_lt⟩
  rw [asInt?, if_pos range, Int64.ofInt_toInt]

end JsonTree

namespace Value

/-- Whether a value has a form in a document. -/
def isFinite : Value → Bool
  | float x => x.isFinite
  | _ => true

/-- No kind takes what another one wrote. -/
theorem ofJson?_toJson (v : Value) : ofJson? v.toJson = if v.isFinite then some v else none := by
  cases v with
  | bool b => rfl
  | int n =>
    rw [toJson, ofJson?, JsonTree.asInt?_integer]
    rfl
  | float x =>
    rw [toJson, ofJson?, JsonTree.asFloat?_number, isFinite, JsonTree.number]
    split <;> rfl

theorem listOfJson?_listToJson (values : List Value) :
    listOfJson? (listToJson values) = if values.all isFinite then some values else none :=
  JsonTree.asList?_map ofJson?_toJson values

end Value

theorem Channel.ofJson?_toJson (c : Channel) : ofJson? c.toJson = some c := by
  cases c <;> rfl

namespace Info

theorem formulas?_strings (items : List String) :
    formulas? (if items.isEmpty then none else some (strings items)) = some items := by
  split
  · rename_i empty
    rw [List.isEmpty_iff.mp empty]
    rfl
  · have each (text : String) :
        (JsonTree.string text).asString? = if true then some text else none := rfl
    have whole : items.all (fun _ => true) = true := List.all_eq_true.mpr fun _ _ => rfl
    rw [formulas?, strings, JsonTree.asList?_map each, if_pos whole]

theorem channel?_map (channel : Option Channel) :
    channel? (channel.map Channel.toJson) = some channel := by
  cases channel with
  | none => rfl
  | some c => exact congrArg (Option.map some) (Channel.ofJson?_toJson c)

/-- A document names a field just when there is something to write. -/
theorem toJson_eq_object (i : Info) : ∃ fields, i.toJson = .object fields ∧
    ("violations" ∈ fields.map Prod.fst ↔ i.violations ≠ []) ∧
    ("satisfactions" ∈ fields.map Prod.fst ↔ i.satisfactions ≠ []) ∧
    ("mode" ∈ fields.map Prod.fst ↔ i.channel ≠ none) := by
  refine ⟨_, rfl, ?_⟩
  obtain ⟨violations, satisfactions, channel⟩ := i
  cases violations <;> cases satisfactions <;> cases channel <;> simp

/-- The fields that are left out are missing when they are looked up. -/
theorem asRecord?_toJson (i : Info) :
    i.toJson.asRecord? ["violations", "satisfactions", "mode"] =
      some [if i.violations.isEmpty then none else some (strings i.violations),
        if i.satisfactions.isEmpty then none else some (strings i.satisfactions),
        i.channel.map Channel.toJson] := by
  obtain ⟨violations, satisfactions, channel⟩ := i
  cases violations <;> cases satisfactions <;> cases channel <;> rfl

theorem ofJson?_toJson (i : Info) : ofJson? i.toJson = some i := by
  rw [ofJson?, asRecord?_toJson]
  simp only [formulas?_strings, channel?_map]
  rfl

end Info

theorem Signal.ofJson?_toJson (s : Signal) :
    ofJson? s.toJson = if s.reward.isFinite ∧ s.tick < 0x100000000 then some s else none := by
  have fields : s.toJson.asRecord? ["reward", "info", "tick"] =
      some [some (.number s.reward), some s.info.toJson, some (.integer s.tick)] := rfl
  rw [ofJson?, fields]
  simp only [JsonTree.asFloat?_number, Info.ofJson?_toJson, JsonTree.asTick?_integer]
  by_cases finite : s.reward.isFinite = true <;> by_cases early : s.tick < 0x100000000 <;>
    simp [finite, early]

/-- What was written to a document is read back. What fired at a tick is read back whatever it
is, although empty lists and a missing channel are left out. A signal is read back just when
its reward is finite and its tick has 32 bits, and a list of values just when each of its
floats is finite; where one is not, nothing is read. No value comes back as another one, so
that a boolean stays one, an integer of 64 bits stays one, and so does a float that is whole. -/
theorem documents_readBack :
    (∀ i : Info, Info.ofJson? i.toJson = some i ∧ ∃ fields, i.toJson = .object fields ∧
      ("violations" ∈ fields.map Prod.fst ↔ i.violations ≠ []) ∧
      ("satisfactions" ∈ fields.map Prod.fst ↔ i.satisfactions ≠ []) ∧
      ("mode" ∈ fields.map Prod.fst ↔ i.channel ≠ none)) ∧
    (∀ s : Signal, Signal.ofJson? s.toJson =
      if s.reward.isFinite ∧ s.tick < 0x100000000 then some s else none) ∧
    (∀ values : List Value, Value.listOfJson? (Value.listToJson values) =
      if values.all Value.isFinite then some values else none) ∧
    (∀ b, Value.ofJson? (Value.bool b).toJson = some (.bool b)) ∧
    (∀ n, Value.ofJson? (Value.int n).toJson = some (.int n)) ∧
    ∀ x : Float, Value.ofJson? (Value.float x).toJson =
      if x.isFinite then some (.float x) else none :=
  ⟨fun i => ⟨Info.ofJson?_toJson i, i.toJson_eq_object⟩, Signal.ofJson?_toJson,
    Value.listOfJson?_listToJson, fun b => Value.ofJson?_toJson (.bool b),
    fun n => Value.ofJson?_toJson (.int n), fun x => Value.ofJson?_toJson (.float x)⟩

/-- The float 2.0 is finite, and so it does not come back as the integer 2. -/
example : Value.ofJson? (Value.float 2.0).toJson = some (.float 2.0) :=
  (Value.ofJson?_toJson (.float 2.0)).trans (if_pos (by decide))

end TemporalRewards
