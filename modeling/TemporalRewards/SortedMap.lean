/-! Finite maps as lists of entries with strictly increasing keys. -/
namespace TemporalRewards

structure SortedMap (κ α : Type) [Ord κ] where
  entries : List (κ × α)
  increasing : entries.Pairwise fun a b => compare a.1 b.1 = .lt

namespace SortedMap

variable {κ α β : Type} [Ord κ]

/-- Puts an entry in its place, over an entry with the same key. -/
def insertEntry (key : κ) (value : α) : List (κ × α) → List (κ × α)
  | [] => [(key, value)]
  | entry :: rest =>
    match compare key entry.1 with
    | .lt => (key, value) :: entry :: rest
    | .eq => (key, value) :: rest
    | .gt => entry :: insertEntry key value rest

theorem fst_of_mem_insertEntry {key : κ} {value : α} {entries : List (κ × α)} {e : κ × α}
    (h : e ∈ insertEntry key value entries) : e.1 = key ∨ e ∈ entries := by
  induction entries with
  | nil => simp_all [insertEntry]
  | cons first rest ih =>
    rw [insertEntry] at h
    split at h <;> grind

theorem pairwise_insertEntry [Std.TransOrd κ] [Std.LawfulEqOrd κ] (key : κ) (value : α)
    {entries : List (κ × α)} (h : entries.Pairwise fun a b => compare a.1 b.1 = .lt) :
    (insertEntry key value entries).Pairwise fun a b => compare a.1 b.1 = .lt := by
  induction entries with
  | nil => simp [insertEntry]
  | cons first rest ih =>
    rw [List.pairwise_cons] at h
    rw [insertEntry]
    split
    · rename_i less
      refine List.pairwise_cons.2 ⟨fun e he => ?_, List.pairwise_cons.2 h⟩
      rcases List.mem_cons.1 he with rfl | he
      · exact less
      · exact Std.TransCmp.lt_trans less (h.1 e he)
    · rename_i same
      have same := Std.LawfulEqOrd.eq_of_compare same
      refine List.pairwise_cons.2 ⟨fun e he => ?_, h.2⟩
      simpa [same] using h.1 e he
    · rename_i more
      refine List.pairwise_cons.2 ⟨fun e he => ?_, ih h.2⟩
      rcases fst_of_mem_insertEntry he with same | he
      · rw [same]
        exact Std.OrientedCmp.lt_of_gt more
      · exact h.1 e he

def empty : SortedMap κ α := ⟨[], .nil⟩

def size (m : SortedMap κ α) : Nat := m.entries.length

def keys (m : SortedMap κ α) : List κ := m.entries.map (·.1)

def values (m : SortedMap κ α) : List α := m.entries.map (·.2)

/-- The value at a key. -/
def get? [BEq κ] (m : SortedMap κ α) (key : κ) : Option α := m.entries.lookup key

def last? (m : SortedMap κ α) : Option (κ × α) := m.entries.getLast?

def insert [Std.TransOrd κ] [Std.LawfulEqOrd κ] (m : SortedMap κ α) (key : κ) (value : α) :
    SortedMap κ α :=
  ⟨insertEntry key value m.entries, pairwise_insertEntry key value m.increasing⟩

/-- Inserts entries from left to right; the last of two with one key stays. -/
def insertAll [Std.TransOrd κ] [Std.LawfulEqOrd κ] (m : SortedMap κ α) (entries : List (κ × α)) :
    SortedMap κ α :=
  entries.foldl (fun m e => m.insert e.1 e.2) m

def ofList [Std.TransOrd κ] [Std.LawfulEqOrd κ] (entries : List (κ × α)) : SortedMap κ α :=
  insertAll empty entries

def map (f : α → β) (m : SortedMap κ α) : SortedMap κ β :=
  ⟨m.entries.map fun e => (e.1, f e.2), by simpa [List.pairwise_map] using m.increasing⟩

/-- The entries whose keys satisfy a test. -/
def filter (m : SortedMap κ α) (test : κ → Bool) : SortedMap κ α :=
  ⟨m.entries.filter fun e => test e.1, m.increasing.filter _⟩

/-- Replaces the value at a key that is present. -/
def modify [BEq κ] (m : SortedMap κ α) (key : κ) (f : α → α) : SortedMap κ α :=
  ⟨m.entries.map fun e => (e.1, if e.1 == key then f e.2 else e.2),
    by simpa [List.pairwise_map] using m.increasing⟩

end SortedMap

end TemporalRewards
