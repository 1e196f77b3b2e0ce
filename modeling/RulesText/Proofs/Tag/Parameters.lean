/-
Parameters as an ordered map. Putting in segment after segment keeps each key once, at the place of
its first segment and with the value of its last, so the parameters say exactly what the segments of
a body say (`Gathered`), and written out they are read again as they are (`parse_gathered`).
-/
import Mathlib.Data.List.Induction
import Mathlib.Data.List.TakeWhile
import RulesText.Tag.Parameters

namespace RulesText.Parameters

/-! ## Segments -/

/-- The segment sets `key` to `value`: its first colon stands between the two, or it has no colon
and is a flag. -/
def Sets (t key value : Text) : Prop :=
  ':' ∉ key ∧ (t = key ++ ':' :: value ∨ t = key ∧ value = [])

theorem bne_colon {key : Text} (h : ':' ∉ key) : ∀ c ∈ key, (c != ':') = true :=
  fun _ mem => bne_iff_ne.2 (ne_of_mem_of_not_mem mem h)

theorem segment_flag {key : Text} (h : ':' ∉ key) : segment key = (key, []) := by
  rw [segment, List.takeWhile_eq_self_iff.2 (bne_colon h),
    List.dropWhile_eq_nil_iff.2 (bne_colon h), List.drop_nil]

theorem segment_valued {key : Text} (h : ':' ∉ key) (value : Text) :
    segment (key ++ ':' :: value) = (key, value) := by
  rw [segment, List.takeWhile_append_of_pos (bne_colon h),
    List.dropWhile_append_of_pos (bne_colon h)]
  simp

theorem segment_eq_iff {t key value : Text} : segment t = (key, value) ↔ Sets t key value := by
  constructor
  · intro h
    cases h
    have key : ':' ∉ t.takeWhile (· != ':') := fun mem => by
      simpa using List.all_eq_true.1 (List.all_takeWhile (l := t)) _ mem
    have whole := List.takeWhile_append_dropWhile (p := (· != ':')) (l := t)
    refine ⟨key, ?_⟩
    rcases e : t.dropWhile (· != ':') with _ | ⟨c, rest⟩
    · rw [e, List.append_nil] at whole
      exact .inr ⟨whole.symm, rfl⟩
    · have colon := List.head?_dropWhile_not (· != ':') t
      rw [e] at colon whole
      obtain rfl : c = ':' := by simpa using colon
      exact .inl whole.symm
  · rintro ⟨key, rfl | ⟨rfl, rfl⟩⟩
    · exact segment_valued key value
    · exact segment_flag key

theorem segment_fst_eq_iff {t key : Text} : (segment t).1 = key ↔ ∃ value, Sets t key value := by
  constructor
  · rintro rfl
    exact ⟨(segment t).2, segment_eq_iff.1 rfl⟩
  · rintro ⟨value, h⟩
    rw [segment_eq_iff.2 h]

/-! ## One segment -/

/-- The keys in order. -/
def keys (p : Parameters) : List Text := p.entries.map (·.1)

theorem contains_iff {p : Parameters} {key : Text} : p.contains key = true ↔ key ∈ p.keys := by
  simp [contains, keys]

theorem map_fst_set (key value : Text) (entries : List (Text × Text)) :
    (set key value entries).map (·.1) =
      if key ∈ entries.map (·.1) then entries.map (·.1) else entries.map (·.1) ++ [key] := by
  induction entries with
  | nil => rfl
  | cons e rest ih =>
    obtain ⟨k, v⟩ := e
    unfold set
    by_cases h : k = key
    · simp [h]
    · rw [if_neg h, List.map_cons, ih]
      simp only [List.map_cons, List.mem_cons, Ne.symm h, false_or]
      split <;> rfl

/-- A key that is there keeps its place, and a new one comes last. -/
theorem keys_insert (p : Parameters) (key value : Text) :
    (p.insert key value).keys = if key ∈ p.keys then p.keys else p.keys ++ [key] :=
  map_fst_set key value p.entries

theorem set_of_not_mem {key : Text} {entries : List (Text × Text)} (h : key ∉ entries.map (·.1))
    (value : Text) : set key value entries = entries ++ [(key, value)] := by
  induction entries with
  | nil => rfl
  | cons e rest ih =>
    rw [List.map_cons, List.mem_cons, not_or] at h
    rw [set, if_neg (Ne.symm h.1), ih h.2, List.cons_append]

theorem mem_set {key value : Text} {entries : List (Text × Text)} {e : Text × Text}
    (h : e ∈ set key value entries) : e = (key, value) ∨ e ∈ entries := by
  induction entries with
  | nil => exact .inl (List.mem_singleton.1 h)
  | cons d rest ih =>
    unfold set at h
    split at h
    · rename_i same
      rw [← same]
      exact (List.mem_cons.1 h).imp_right (List.mem_cons_of_mem d)
    · rcases List.mem_cons.1 h with rfl | mem
      · exact .inr List.mem_cons_self
      · exact (ih mem).imp_right (List.mem_cons_of_mem d)

/-! ## One segment after the other -/

/-- The parameters that segments set. -/
def gather (segments : List Text) : Parameters :=
  segments.foldl (fun p t => p.insert (segment t).1 (segment t).2) ⟨[]⟩

theorem gather_concat (segments : List Text) (t : Text) :
    gather (segments ++ [t]) = (gather segments).insert (segment t).1 (segment t).2 := by
  rw [gather, List.foldl_append]
  rfl

variable {segments : List Text}

theorem mem_keys_gather {key : Text} :
    key ∈ (gather segments).keys ↔ ∃ t ∈ segments, (segment t).1 = key := by
  induction segments using List.reverseRecOn with
  | nil => simp [gather, keys]
  | append_singleton segments t ih =>
    rw [gather_concat, keys_insert]
    simp only [List.mem_append, List.mem_singleton, or_and_right, exists_or, exists_eq_left, ← ih]
    split
    · rename_i known
      constructor
      · exact .inl
      · rintro (mem | rfl)
        · exact mem
        · exact known
    · rw [List.mem_append, List.mem_singleton, @eq_comm _ key]

/-- In front of some segment for the key `j`, and there as well, no segment is one for the key
`k`. -/
def Precedes (segments : List Text) (j k : Text) : Prop :=
  ∃ front t behind, segments = front ++ t :: behind ∧ (segment t).1 = j ∧
    ∀ u ∈ front ++ [t], (segment u).1 ≠ k

theorem Precedes.append {j k : Text} (h : Precedes segments j k) (more : List Text) :
    Precedes (segments ++ more) j k := by
  obtain ⟨front, t, behind, rfl, hj, hk⟩ := h
  exact ⟨front, t, behind ++ more, by simp, hj, hk⟩

/-- The keys come in the order of their first segments. -/
theorem keys_gather_pairwise : (gather segments).keys.Pairwise (Precedes segments) := by
  induction segments using List.reverseRecOn with
  | nil => exact List.Pairwise.nil
  | append_singleton segments t ih =>
    have before := ih.imp fun {j k} h => h.append [t]
    rw [gather_concat, keys_insert]
    split
    · exact before
    · rename_i new
      refine List.pairwise_append.2 ⟨before, List.pairwise_singleton _ _, fun j mem k last => ?_⟩
      obtain rfl := List.mem_singleton.1 last
      obtain ⟨s, hs, hj⟩ := mem_keys_gather.1 mem
      obtain ⟨front, behind, rfl⟩ := List.append_of_mem hs
      refine ⟨front, s, behind ++ [t], by simp, hj, fun u hu same => new ?_⟩
      have known : u ∈ front ++ s :: behind := by
        rw [← List.singleton_append, ← List.append_assoc]
        exact List.mem_append_left behind hu
      exact mem_keys_gather.2 ⟨u, known, same⟩

theorem nodup_keys_gather : (gather segments).keys.Nodup :=
  keys_gather_pairwise.imp fun ⟨_, _, _, _, hj, hk⟩ same => hk _ (by simp) (hj.trans same)

/-- The value of a key is that of its last segment. -/
theorem get?_gather (segments : List Text) (key : Text) :
    (gather segments).get? key =
      (segments.filter fun t => (segment t).1 = key).getLast?.map fun t => (segment t).2 := by
  induction segments using List.reverseRecOn with
  | nil => rfl
  | append_singleton segments t ih =>
    rw [gather_concat, get?_insert, ih, List.filter_append]
    by_cases h : (segment t).1 = key <;> simp [h]

theorem get?_gather_eq_some_iff {key value : Text} :
    (gather segments).get? key = some value ↔ ∃ front t behind, segments = front ++ t :: behind ∧
      segment t = (key, value) ∧ ∀ u ∈ behind, (segment u).1 ≠ key := by
  rw [get?_gather, List.getLast?_filter, Option.map_eq_some_iff]
  constructor
  · rintro ⟨t, found, rfl⟩
    obtain ⟨same, later, earlier, split, others⟩ := List.find?_eq_some_iff_append.1 found
    refine ⟨earlier.reverse, t, later.reverse, ?_, ?_, by simpa using others⟩
    · rw [List.reverse_eq_iff.1 split]
      simp
    · rw [← of_decide_eq_true same]
  · rintro ⟨front, t, behind, rfl, h, others⟩
    have found : (front ++ t :: behind).reverse.find? (fun t => (segment t).1 = key) = some t :=
      List.find?_eq_some_iff_append.2
        ⟨by simp [h], behind.reverse, front.reverse, by simp, by simpa using others⟩
    exact ⟨t, found, by rw [h]⟩

theorem mem_entries_gather {e : Text × Text} (h : e ∈ (gather segments).entries) :
    ∃ t ∈ segments, segment t = e := by
  induction segments using List.reverseRecOn with
  | nil => cases h
  | append_singleton segments t ih =>
    rw [gather_concat] at h
    rcases mem_set h with rfl | mem
    · exact ⟨t, by simp, rfl⟩
    · obtain ⟨s, hs, rfl⟩ := ih mem
      exact ⟨s, List.mem_append_left _ hs, rfl⟩

theorem gather_ne_nil (h : segments ≠ []) : (gather segments).entries ≠ [] := by
  obtain ⟨t, ts, rfl⟩ := List.exists_cons_of_ne_nil h
  have mem : (segment t).1 ∈ (gather (t :: ts)).keys := mem_keys_gather.2 ⟨t, by simp, rfl⟩
  intro nil
  rw [keys, nil] at mem
  cases mem

/-! ## Writing -/

/-- An entry as a segment with a colon. -/
def entryText (e : Text × Text) : Text := e.1 ++ ':' :: e.2

/-- Parameters written out as the body of a tag. -/
def written (p : Parameters) : Text := ['|'].intercalate (p.entries.map entryText)

/-- The entries of a list with different keys, written as segments, are gathered to the list. -/
theorem gather_entryText {entries : List (Text × Text)} (nodup : (entries.map (·.1)).Nodup)
    (plain : ∀ e ∈ entries, ':' ∉ e.1) : gather (entries.map entryText) = ⟨entries⟩ := by
  induction entries using List.reverseRecOn with
  | nil => rfl
  | append_singleton entries e ih =>
    rw [List.map_append, List.map_singleton, List.nodup_append] at nodup
    obtain ⟨front, -, apart⟩ := nodup
    have new : e.1 ∉ entries.map (·.1) := fun mem => apart _ mem _ (by simp) rfl
    rw [List.map_append, List.map_singleton, gather_concat,
      ih front fun d mem => plain d (List.mem_append_left _ mem), entryText,
      segment_valued (plain e (by simp)), insert, set_of_not_mem new]

theorem parse_eq_gather (body : Text) : parse body = gather (Text.fields '|' body) := rfl

/-- Parameters with different keys, none of them with a colon, are read again as they are written if
no bar is in them. -/
theorem parse_written {p : Parameters} (ne : p.entries ≠ []) (nodup : p.keys.Nodup)
    (colons : ∀ e ∈ p.entries, ':' ∉ e.1) (bars : ∀ e ∈ p.entries, '|' ∉ e.1 ∧ '|' ∉ e.2) :
    parse p.written = p := by
  have plain : ∀ t ∈ p.entries.map entryText, '|' ∉ t := by
    intro t mem
    obtain ⟨e, he, rfl⟩ := List.mem_map.1 mem
    simpa [entryText] using bars e he
  rw [parse_eq_gather, written, Text.fields_intercalate (by simpa using ne) plain,
    gather_entryText nodup colons]

/-! ## Bodies -/

/-- The parameters say what the segments say: there is at least one, no key comes twice, the keys
come in the order of their first segments, they are the keys of the segments, and each has the value
of its last segment. -/
structure Gathered (segments : List Text) (p : Parameters) : Prop where
  ne_nil : p.entries ≠ []
  nodup : p.keys.Nodup
  /-- Of two keys the one that comes first is set in front of every segment that sets the other. -/
  ordered : p.keys.Pairwise fun j k => ∃ front t behind, segments = front ++ t :: behind ∧
    (∃ value, Sets t j value) ∧ ∀ u ∈ front ++ [t], ∀ value, ¬ Sets u k value
  contains : ∀ key, p.contains key = true ↔ ∃ t ∈ segments, ∃ value, Sets t key value
  get : ∀ key value, p.get? key = some value ↔ ∃ front t behind, segments = front ++ t :: behind ∧
    Sets t key value ∧ ∀ u ∈ behind, ∀ value, ¬ Sets u key value

theorem gathered_gather (h : segments ≠ []) : Gathered segments (gather segments) where
  ne_nil := gather_ne_nil h
  nodup := nodup_keys_gather
  ordered := by
    refine keys_gather_pairwise.imp fun ⟨front, t, behind, split, hj, hk⟩ => ?_
    exact ⟨front, t, behind, split, segment_fst_eq_iff.1 hj,
      fun u mem value sets => hk u mem (segment_fst_eq_iff.2 ⟨value, sets⟩)⟩
  contains key := by
    simp only [contains_iff, mem_keys_gather, segment_fst_eq_iff]
  get key value := by
    simp only [get?_gather_eq_some_iff, segment_eq_iff, ne_eq, segment_fst_eq_iff, not_exists]

/-- The parameters of a body are gathered from its segments, which are what stands between its
bars; and written out they are read again, the same entries in the same order. -/
theorem parse_gathered (body : Text) :
    (∃ segments, ['|'].intercalate segments = body ∧ (∀ t ∈ segments, '|' ∉ t) ∧
      Gathered segments (parse body)) ∧
    parse (parse body).written = parse body := by
  have ne := Text.fields_ne_nil '|' body
  have bars : ∀ t ∈ Text.fields '|' body, '|' ∉ t := fun t => Text.not_mem_of_mem_fields
  refine ⟨⟨_, Text.intercalate_fields '|' body, bars, gathered_gather ne⟩, ?_⟩
  refine parse_written (gather_ne_nil ne) nodup_keys_gather (fun e mem => ?_) fun e mem => ?_
  all_goals
    obtain ⟨t, ht, same⟩ := mem_entries_gather mem
    obtain ⟨colon, split⟩ := segment_eq_iff.1 same
  · exact colon
  · have bar := bars t ht
    rcases split with rfl | ⟨rfl, empty⟩
    · simpa using bar
    · exact ⟨bar, by simp [empty]⟩

end RulesText.Parameters
