/-
Brackets in a passage. The depth of a text is how many more brackets it opens than it closes; a tag
is closed where the depth from its `[` on first comes back to zero (`closing?_eq_some`), and is
never closed if that does not happen (`closing?_eq_none`). The body of a tag is balanced, so a
bracket opened anywhere in it is closed in it.
-/
import Mathlib.Data.List.Infix
import RulesText.Proofs.Passage.Reading

namespace RulesText

/-! ## Depth -/

/-- The brackets that a text opens, less those that it closes. -/
def Text.depth : Text → Int
  | [] => 0
  | c :: r => (if c = '[' then 1 else if c = ']' then -1 else 0) + depth r

namespace Text

@[simp] theorem depth_nil : depth [] = 0 := rfl

@[simp] theorem depth_open (r : Text) : depth ('[' :: r) = 1 + depth r := rfl

@[simp] theorem depth_close (r : Text) : depth (']' :: r) = -1 + depth r := rfl

theorem sub_depth_open (d : Nat) : (-d : Int) - depth ['['] = -(d + 1 : Nat) := by
  rw [depth_open, depth_nil]
  omega

theorem sub_depth_close (d : Nat) : (-(d + 1 : Nat) : Int) - depth [']'] = -d := by
  rw [depth_close, depth_nil]
  omega

theorem depth_cons_of_ne {c : Char} (ho : c ≠ '[') (hc : c ≠ ']') (r : Text) :
    depth (c :: r) = depth r := by
  simp [depth, ho, hc]

@[simp] theorem depth_append (s t : Text) : depth (s ++ t) = depth s + depth t := by
  induction s with
  | nil => simp
  | cons c s ih => simp only [List.cons_append, depth, ih]; omega

theorem depth_eq_zero {t : Text} (h : ∀ c ∈ t, c ≠ '[' ∧ c ≠ ']') : depth t = 0 := by
  induction t with
  | nil => rfl
  | cons c t ih =>
    have hc := h c (List.mem_cons_self ..)
    rw [depth_cons_of_ne hc.1 hc.2, ih fun d hd => h d (List.mem_cons_of_mem _ hd)]

/-- Nowhere in a text has the depth fallen below `low`. -/
def Above (low : Int) (t : Text) : Prop := ∀ p, p <+: t → low ≤ depth p

theorem above_nil {low : Int} (h : low ≤ 0) : Above low [] := fun p hp => by
  rwa [List.prefix_nil.1 hp, depth_nil]

/-- What the first character of a text adds to the depth is left out of the bound for the others. -/
theorem above_cons {low : Int} {c : Char} {r : Text} (hlow : low ≤ 0)
    (h : Above (low - depth [c]) r) : Above low (c :: r) := fun p hp => by
  rcases List.prefix_cons_iff.1 hp with rfl | ⟨q, rfl, hq⟩
  · exact hlow
  · have hlast := h q hq
    have happend := depth_append [c] q
    rw [List.singleton_append] at happend
    omega

/-- A text that closes every bracket it opens, and no other. -/
structure Balanced (t : Text) : Prop where
  total : depth t = 0
  above : Above 0 t

/-- A text that begins with a bracket and ends where that bracket is closed. -/
structure Bracketed (t : Text) : Prop where
  total : depth t = 0
  pos : ∀ p, p <+: t → p ≠ [] → p ≠ t → 0 < depth p

theorem Balanced.bracketed {t : Text} (h : Balanced t) : Bracketed ('[' :: t ++ [']']) := by
  refine ⟨by simp [h.total], fun p hp hnil hne => ?_⟩
  rcases List.prefix_concat_iff.1 hp with rfl | hp
  · exact absurd rfl hne
  · rcases List.prefix_cons_iff.1 hp with rfl | ⟨q, rfl, hq⟩
    · exact absurd rfl hnil
    · have := h.above q hq
      rw [depth_open]
      omega

end Text

namespace Reader

open Text

/-- The characters of names are no brackets. -/
theorem depth_name {name : Text} (h : name.all isNameChar = true) : depth name = 0 := by
  refine depth_eq_zero fun c hc => ?_
  have := List.all_eq_true.1 h c hc
  constructor <;> rintro rfl <;> exact absurd this (by decide)

/-! ## Where a bracket is closed -/

/-- The text in front of the closing bracket closes `d` brackets more than it opens, and nowhere in
it more than that. -/
theorem closing?_eq_some {d : Nat} {seen body : String} {t rest : Text}
    (h : closing? d seen t = some (body, rest)) :
    ∃ inner, body.toList = seen.toList ++ inner ∧ t = inner ++ ']' :: rest ∧ depth inner = -d ∧
      Above (-d) inner := by
  fun_induction closing? d seen t with
  | case1 => cases h
  | case2 d seen r ih =>
    obtain ⟨inner, hbody, rfl, htotal, habove⟩ := ih h
    refine ⟨'[' :: inner, by simp [hbody], rfl, by rw [depth_open, htotal]; omega, ?_⟩
    refine above_cons (by omega) ?_
    rwa [sub_depth_open]
  | case3 seen r =>
    cases h
    exact ⟨[], by simp, rfl, rfl, above_nil (by omega)⟩
  | case4 seen r d _ ih =>
    obtain ⟨inner, hbody, rfl, htotal, habove⟩ := ih h
    refine ⟨']' :: inner, by simp [hbody], rfl, by rw [depth_close, htotal]; omega, ?_⟩
    refine above_cons (by omega) ?_
    rwa [sub_depth_close]
  | case5 d seen c r ho hc ih =>
    obtain ⟨inner, hbody, rfl, htotal, habove⟩ := ih h
    refine ⟨c :: inner, by simp [hbody], rfl, by rw [depth_cons_of_ne ho hc, htotal], ?_⟩
    refine above_cons (by omega) ?_
    rwa [depth_cons_of_ne ho hc, depth_nil, Int.sub_zero]

/-- A bracket that is never closed: no part of the text from it on closes more than it opens. -/
theorem closing?_eq_none {d : Nat} {seen : String} {t : Text} (h : closing? d seen t = none) :
    Above (-d) t := by
  fun_induction closing? d seen t with
  | case1 => exact above_nil (by omega)
  | case2 d seen r ih =>
    refine above_cons (by omega) ?_
    rw [sub_depth_open]
    exact ih h
  | case3 => cases h
  | case4 seen r d _ ih =>
    refine above_cons (by omega) ?_
    rw [sub_depth_close]
    exact ih h
  | case5 d seen c r ho hc ih =>
    refine above_cons (by omega) ?_
    rw [depth_cons_of_ne ho hc, depth_nil, Int.sub_zero]
    exact ih h

/-- The body of a tag that was read is balanced. -/
theorem next_balanced {s s' : Reader} {span : Span} (h : s.next = .ok (some (.tag span, s'))) :
    Balanced span.body.toList := by
  obtain ⟨-, -, -, -, inner, hclose⟩ := next_tag h
  obtain ⟨body, hbody, -, htotal, habove⟩ := closing?_eq_some hclose
  rw [show span.body.toList = body by simpa using hbody]
  exact ⟨by simpa using htotal, by simpa using habove⟩

/-- In a balanced text every bracket is closed. -/
theorem closing?_of_balanced {read name inner : Text}
    (h : Balanced (read ++ '@' :: name ++ '[' :: inner)) (hname : name.all isNameChar = true) :
    closing? 0 "" inner ≠ none := by
  intro hnone
  -- Neither the text in front of the tag nor that behind its bracket makes up for the bracket.
  have before := h.above read ⟨'@' :: name ++ '[' :: inner, by simp⟩
  have behind := closing?_eq_none hnone inner (List.prefix_refl inner)
  have total := h.total
  rw [depth_append, depth_append, depth_cons_of_ne (by decide) (by decide), depth_name hname,
    depth_open] at total
  omega

end Reader

end RulesText
