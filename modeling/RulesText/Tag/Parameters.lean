/-
The parameters of a tag: keys with values in the order in which the keys are first written. A key
that is written again keeps its place and takes the later value.
-/
import RulesText.Text.Basic

namespace RulesText

/-- Keys with their values, in order; a flag has the empty value. -/
structure Parameters where
  entries : List (Text × Text)
  deriving DecidableEq, Repr

namespace Parameters

/-- Sets the value of a key in a list of entries: in place if the key is there, else at the end. -/
def set (key value : Text) : List (Text × Text) → List (Text × Text)
  | [] => [(key, value)]
  | (k, v) :: rest => if k = key then (k, value) :: rest else (k, v) :: set key value rest

def insert (p : Parameters) (key value : Text) : Parameters := ⟨set key value p.entries⟩

/-- A segment is a key and, behind its first colon, a value. -/
def segment (t : Text) : Text × Text :=
  (t.takeWhile (· != ':'), (t.dropWhile (· != ':')).drop 1)

/-- The parameters in the body of a tag, with bars between the segments. -/
def parse (body : Text) : Parameters :=
  (Text.fields '|' body).foldl (fun p t => p.insert (segment t).1 (segment t).2) ⟨[]⟩

def get? (p : Parameters) (key : Text) : Option Text :=
  (p.entries.find? (·.1 = key)).map (·.2)

/-- Whether a key is there, as a flag or with a value. -/
def contains (p : Parameters) (key : Text) : Bool := p.entries.any (·.1 = key)

/-- The value of a key, if the key is there and its value is not empty. -/
def filled? (p : Parameters) (key : Text) : Option Text := (p.get? key).filter (!·.isEmpty)

def size (p : Parameters) : Nat := p.entries.length

def isEmpty (p : Parameters) : Bool := p.entries.isEmpty

/-! ## Setting and getting -/

theorem find?_set (key value k : Text) (entries : List (Text × Text)) :
    ((set key value entries).find? (·.1 = k)).map (·.2) =
      if key = k then some value else (entries.find? (·.1 = k)).map (·.2) := by
  induction entries with
  | nil => by_cases h : key = k <;> simp [set, h]
  | cons e rest ih =>
    obtain ⟨j, v⟩ := e
    unfold set
    by_cases hj : j = key
    · subst hj
      by_cases h : j = k <;> simp [h]
    · by_cases hk : j = k
      · subst hk
        simp [hj, Ne.symm hj]
      · simp [hj, hk, ih]

/-- A key that was set has its new value, and every other key the value it had. -/
theorem get?_insert (p : Parameters) (key value k : Text) :
    (p.insert key value).get? k = if key = k then some value else p.get? k :=
  find?_set key value k p.entries

theorem contains_eq_isSome (p : Parameters) (key : Text) : p.contains key = (p.get? key).isSome := by
  rw [contains, get?, Option.isSome_map, List.isSome_find?]

end Parameters

end RulesText
