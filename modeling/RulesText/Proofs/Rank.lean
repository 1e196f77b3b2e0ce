/-
What a rank is read from: a whole number of 32 bits, alone in a list or as the field `rank` of a
record, wherever that stands among the fields. So a rank that is written is read back.
-/
import Mathlib.Data.List.Nodup
import RulesText.Rank

namespace RulesText.Rank

/-- A number that has 32 bits is the level of a rank, and no other number is. -/
theorem ofInt?_eq_some_iff {n : Int} {r : Rank} : ofInt? n = some r ↔ r.level.toInt = n := by
  unfold ofInt?
  split
  · rename_i range
    have same : (Int32.ofInt n).toInt = n := by
      rw [Int32.toInt_minValue, Int32.toInt_maxValue] at range
      exact Int32.toInt_ofInt_of_le range.1 (by omega)
    constructor
    · rintro ⟨⟩
      exact same
    · rintro rfl
      rw [Int32.ofInt_toInt]
  · rename_i range
    refine ⟨nofun, ?_⟩
    rintro rfl
    exact absurd ⟨r.level.minValue_le_toInt, r.level.toInt_le⟩ range

theorem ofLevel?_eq_some_iff {d : Datum} {r : Rank} :
    ofLevel? d = some r ↔ d = .integer r.level.toInt := by
  cases d with
  | integer n => rw [ofLevel?, ofInt?_eq_some_iff, Datum.integer.injEq, eq_comm]
  | _ => exact ⟨nofun, nofun⟩

/-- A list is read if it holds a level and nothing else. -/
theorem ofDatum?_list {items : List Datum} {r : Rank} :
    ofDatum? (.list items) = some r ↔ items = [.integer r.level.toInt] := by
  match items with
  | [] | _ :: _ :: _ => exact ⟨nofun, nofun⟩
  | [level] => rw [ofDatum?, ofLevel?_eq_some_iff, List.singleton_inj]

/-- A record without two fields of one name is read by its field `rank`, wherever that stands. -/
theorem ofDatum?_record {fields : List (Text × Datum)} {r : Rank}
    (distinct : (fields.map (·.1)).Nodup) :
    ofDatum? (.record fields) = some r ↔
      ("rank".toList, .integer r.level.toInt) ∈ fields := by
  rw [ofDatum?, Option.bind_eq_some_iff]
  constructor
  · rintro ⟨⟨name, level⟩, found, read⟩
    obtain rfl : name = "rank".toList := by simpa using List.find?_some found
    obtain rfl := ofLevel?_eq_some_iff.1 read
    exact List.mem_of_find?_eq_some found
  · intro mem
    obtain ⟨field, found⟩ := Option.isSome_iff_exists.1
      (List.find?_isSome.2 ⟨_, mem, by simp⟩ : (fields.find? (·.1 = "rank".toList)).isSome)
    have named : field.1 = "rank".toList := by simpa using List.find?_some found
    obtain rfl := List.inj_on_of_nodup_map distinct (List.mem_of_find?_eq_some found) mem named
    exact ⟨_, found, ofLevel?_eq_some_iff.2 rfl⟩

/-- A rank that is written is read back. -/
@[simp] theorem ofDatum?_toDatum (r : Rank) : ofDatum? r.toDatum = some r := by
  rw [toDatum, ofDatum?_record (by simp)]
  exact List.mem_singleton_self _

theorem toDatum_injective : Function.Injective toDatum := fun r s h => by
  simpa using congrArg ofDatum? h

end RulesText.Rank
