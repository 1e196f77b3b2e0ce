/-
Where the faults of a roll lie. All that a reading keeps to blame later, the last token, the name of
the function to be called and the open groups, stands in the roll where the reading says, and so
does the fragment of whatever fault comes of it. The one exception is a wrong number of arguments:
its fragment is the name of the function, its offset that of the parenthesis that ends the call
(`parse_fault_placed`).
-/
import RulesText.Proofs.Roll.Parse
import RulesText.Proofs.Roll.Scanning

namespace RulesText

/-! ## Parts of a text -/

theorem Text.utf8Size_of_isLayout {c : Char} (h : isLayout c = true) : c.utf8Size = 1 := by
  simp only [isLayout, Bool.or_eq_true, decide_eq_true_eq] at h
  rcases h with (((rfl | rfl) | rfl) | rfl) | rfl <;> rfl

/-- The text `part` begins at byte `offset` of the text `t`. -/
def Text.StandsAt (part : Text) (offset : Nat) (t : Text) : Prop :=
  ∃ before after, t = before ++ part ++ after ∧ before.width = offset

namespace Text.StandsAt

variable {part t : Text} {offset : Nat}

theorem whole (t : Text) : StandsAt t 0 t := ⟨[], [], by simp, rfl⟩

theorem empty (t : Text) : StandsAt [] t.width t := ⟨t, [], by simp, rfl⟩

theorem dropBytes (h : StandsAt part offset t) : ∃ after, t.dropBytes offset = part ++ after := by
  obtain ⟨before, after, rfl, rfl⟩ := h
  exact ⟨after, by rw [List.append_assoc, dropBytes_width_append]⟩

/-- All that follows the beginning of a part stands where the part does. -/
theorem rest (h : StandsAt part offset t) : StandsAt (t.dropBytes offset) offset t := by
  obtain ⟨before, after, rfl, rfl⟩ := h
  refine ⟨before, [], ?_, rfl⟩
  rw [List.append_assoc before, dropBytes_width_append, List.append_nil]

/-- Two parts at one place begin with the same character. -/
theorem head_eq {c d : Char} {rest : Text} (h : StandsAt (c :: part) offset t)
    (h' : StandsAt (d :: rest) offset t) : c = d := by
  obtain ⟨after, e⟩ := h.dropBytes
  obtain ⟨after', e'⟩ := h'.dropBytes
  rw [e] at e'
  exact (List.cons.inj e').1

end Text.StandsAt

namespace Roll

/-! ## What a step can be at fault for -/

/-- Every fault of a step has the property `P`. -/
def Faults {α : Type} (P : Fault → Prop) (x : Except Fault α) : Prop := ∀ f, x = .error f → P f

section Faults

variable {α β : Type} {P Q : Fault → Prop} {x : Except Fault α} {g : α → Except Fault β}

theorem faults_ok (a : α) : Faults P (.ok a : Except Fault α) := nofun

theorem faults_error {f : Fault} (h : P f) : Faults P (.error f : Except Fault α) := by
  rintro _ ⟨⟩
  exact h

theorem Faults.imp (h : Faults P x) (imp : ∀ f, P f → Q f) : Faults Q x :=
  fun f e => imp f (h f e)

theorem Faults.bind (first : Faults P x) (second : ∀ a, x = .ok a → Faults P (g a)) :
    Faults P (x >>= g) := by
  cases x with
  | error f => exact faults_error (first f rfl)
  | ok a => exact second a rfl

theorem Faults.map {g : α → β} (h : Faults P x) : Faults P (g <$> x) := by
  cases x with
  | error f => exact faults_error (h f rfl)
  | ok a => exact faults_ok _

theorem Faults.guard {c : Prop} [Decidable c] {f : Fault} {y : Except Fault β}
    {g : α → Except Fault β} (fault : c → P f) (rest : ¬c → Faults P y) :
    Faults P (if c then throw f >>= g else y) := by
  by_cases h : c
  · rw [if_pos h]
    exact faults_error (fault h)
  · rw [if_neg h]
    exact rest h

end Faults

/-- A fault whose fragment stands in the roll at its offset, and which is about something else than
a number of arguments. -/
structure Fault.Placed (source : Text) (f : Fault) : Prop where
  stands : f.fragment.StandsAt f.offset source
  cause : f.cause ≠ .wrongArgumentCount

/-- Whatever but a number of arguments is wrong at a spot, the fault is placed. -/
def Spot (source : Text) (spot : Cause → Fault) : Prop :=
  ∀ cause, cause ≠ .wrongArgumentCount → (spot cause).Placed source

/-- The text of a token stands at the offset of the token. -/
def Token.Stands (source : Text) (t : Token) : Prop := t.text.StandsAt t.offset source

theorem Token.Stands.spot {source : Text} {t : Token} (h : t.Stands source) : Spot source t.fault :=
  fun _ cause => ⟨h, cause⟩

/-! ## Scanning -/

namespace Token

variable {source before r t : Text} {c : Char} {offset : Nat}

theorem placed_of_next (split : source = before ++ c :: r) (width : before.width = offset) :
    Faults (Fault.Placed source) (next offset c r) := by
  unfold next
  split
  · split
    · exact faults_error ⟨⟨before, [], by simpa using split, width⟩, nofun⟩
    · exact faults_ok _
  · repeat' split
    all_goals first
      | exact faults_ok _
      | exact faults_error ⟨⟨before, r, by simpa using split, width⟩, nofun⟩

/-- Behind `before`, the tokens of the rest of a roll stand where they say if those before do, and
so does the fragment of a fault. -/
theorem stands_of_scanFrom {seen : List Token} (split : source = before ++ t)
    (width : before.width = offset) (known : ∀ τ ∈ seen, τ.Stands source) :
    Faults (Fault.Placed source) (scanFrom offset seen t) ∧
      ∀ tokens, scanFrom offset seen t = .ok tokens → ∀ τ ∈ tokens, τ.Stands source := by
  fun_induction scanFrom offset seen t generalizing before with
  | case1 offset seen =>
    refine ⟨faults_ok _, ?_⟩
    rintro _ ⟨⟩ τ mem
    exact known τ (List.mem_reverse.1 mem)
  | case2 offset seen c r layout ih =>
    have behind : source = (before ++ [c]) ++ r := by simpa using split
    refine ih behind ?_ known
    rw [Text.width_append, width, Text.width_cons, Text.width_nil, Text.utf8Size_of_isLayout layout]
  | case3 offset seen c r _ fault e =>
    exact ⟨faults_error (placed_of_next split width fault e), by simp⟩
  | case4 offset seen c r _ l rest e _ ih =>
    rw [next_text e, ← List.append_assoc] at split
    refine ih split (by rw [Text.width_append, width]) fun τ mem => ?_
    rcases List.mem_cons.1 mem with rfl | mem
    · exact ⟨before, rest, split, width⟩
    · exact known τ mem

end Token

namespace Reading

variable {source : Text} {spot : Cause → Fault} {r s : Reading} {t : Token}

/-! ## Settling -/

theorem popOperand_faults (placed : Spot source spot) (o : List Tree) :
    Faults (Fault.Placed source) (popOperand spot o) := by
  cases o with
  | nil => exact faults_error (placed _ nofun)
  | cons t ts => exact faults_ok _

theorem settle_faults (placed : Spot source spot) (binds : Operator → Bool) (m : List Mark)
    (o : List Tree) : Faults (Fault.Placed source) (settle spot binds m o) := by
  fun_induction settle spot binds m o with
  | case1 op m o _ ih =>
    refine Faults.bind ?_ fun p _ => ih p
    exact (popOperand_faults placed o).bind fun p _ => (popOperand_faults placed p.2).map
  | case2 => exact faults_ok _
  | case3 => exact faults_ok _

theorem settleAll_faults (placed : Spot source spot) (r : Reading) :
    Faults (Fault.Placed source) (r.settleAll spot) :=
  (settle_faults placed _ _ _).map

/-- Settling takes operators off the marks and nothing else. -/
theorem settle_suffix {binds : Operator → Bool} {m n : List Mark} {o p : List Tree}
    (h : settle spot binds m o = .ok (n, p)) : n <:+ m := by
  induction m generalizing o with
  | nil =>
    cases h
    exact List.suffix_refl _
  | cons mark m ih =>
    cases mark with
    | group f base offset =>
      cases h
      exact List.suffix_refl _
    | operator op =>
      by_cases hop : binds op = true
      · rw [settle, if_pos hop] at h
        obtain ⟨q, -, h⟩ := bind_eq_ok.1 h
        exact (ih h).trans (List.suffix_cons _ _)
      · rw [settle, if_neg hop] at h
        cases h
        exact List.suffix_refl _

theorem finishTerm_faults (placed : Spot source spot) (fallback : Nat) (type : Option Text)
    (r : Reading) : Faults (Fault.Placed source) (r.finishTerm source spot fallback type) :=
  (popOperand_faults placed _).bind fun _ _ =>
    Faults.guard (fun _ => placed _ nofun) fun _ => faults_ok _

/-! ## What a reading can blame -/

/-- Whatever a reading may name in a fault stands in the roll where the reading says. -/
structure Anchored (source : Text) (r : Reading) : Prop where
  last : ∀ t, r.last = some t → t.Stands source
  callee : ∀ function offset, r.callee = some (function, offset) →
    function.name.StandsAt offset source
  group : ∀ function base offset, .group function base offset ∈ r.marks →
    Text.StandsAt ['('] offset source

theorem Anchored.start : Anchored source {} := ⟨nofun, nofun, nofun⟩

theorem Anchored.extend (h : Anchored source r) (t : Token) : Anchored source (r.extend t) :=
  ⟨by simpa using h.last, by simpa using h.callee, by simpa using h.group⟩

/-- The innermost open group is at fault with all that follows its parenthesis, or the whole roll if
none is open. -/
theorem unclosedGroup_placed {m : List Mark} (h : ∀ function base offset,
    .group function base offset ∈ m → Text.StandsAt ['('] offset source) :
    (unclosedGroup source m).Placed source := by
  refine ⟨?_, nofun⟩
  unfold unclosedGroup
  generalize found : m.findSome? _ = place
  cases place with
  | none =>
    show Text.StandsAt (Text.dropBytes 0 source) 0 source
    exact Text.StandsAt.rest (.whole source)
  | some offset =>
    obtain ⟨mark, mem, e⟩ := List.exists_of_findSome?_eq_some found
    cases mark with
    | operator op => cases e
    | group function base offset' =>
      cases e
      exact (h function base offset mem).rest

/-! ## One token -/

/-- A `)` behind a number of arguments that the function called does not take. -/
def Miscount (r : Reading) (t : Token) (f : Fault) : Prop :=
  t.lexeme = .closing ∧ r.awaitsOperand = false ∧ ∃ function base offset marks operands,
    settle t.fault (fun _ => true) r.marks r.operands =
      .ok (.group (some function) base offset :: marks, operands) ∧
    operands.length - base ≠ function.arity ∧ f = ⟨.wrongArgumentCount, function.name, t.offset⟩

section Token

variable (anchored : Anchored source r) (stands : t.Stands source)

include stands

theorem atom_faults (a : Text) : Faults (Fault.Placed source) (r.atom t a) := by
  unfold atom
  split
  · split <;> exact faults_ok _
  · split
    · exact (popOperand_faults stands.spot _).map
    · exact faults_error (stands.spot _ nofun)

theorem operator_faults (op : Operator) : Faults (Fault.Placed source) (r.operator t op) :=
  Faults.guard (fun _ => stands.spot _ nofun) fun _ => (settle_faults stands.spot _ _ _).map

theorem closing_faults (ht : t.lexeme = .closing) :
    Faults (fun f => f.Placed source ∨ Miscount r t f) (r.closing t) := by
  refine Faults.guard (fun _ => .inl (stands.spot _ nofun)) fun due => ?_
  refine ((settleAll_faults stands.spot r).imp fun _ => .inl).bind fun q hq => ?_
  obtain ⟨m, o, settled, rfl⟩ := settleAll_ok_iff.1 hq
  split
  · rename_i function base offset rest hm
    obtain rfl : m = _ := hm
    refine Faults.guard (fun count => .inr ⟨ht, by simpa using due, function, base, offset, rest, o,
      settled, by simpa using count, rfl⟩) fun _ => faults_ok _
  · exact Faults.guard (fun _ => .inl (stands.spot _ nofun)) fun _ => faults_ok _
  · exact faults_error (.inl (stands.spot _ nofun))

theorem comma_faults : Faults (Fault.Placed source) (r.comma source t) := by
  unfold comma
  dsimp only
  split
  · split
    · exact faults_ok _
    · exact faults_error (stands.spot _ nofun)
  · refine Faults.guard (fun _ => stands.spot _ nofun) fun _ => ?_
    refine (settleAll_faults stands.spot r).bind fun q _ => ?_
    split
    · exact faults_ok _
    · exact faults_error (stands.spot _ nofun)
    · exact finishTerm_faults stands.spot _ _ _

include anchored

theorem opening_faults : Faults (Fault.Placed source) (r.opening t) := by
  unfold opening
  split
  · exact faults_ok _
  · split
    · rename_i name offset hl
      exact faults_error ⟨anchored.last _ hl, nofun⟩
    · exact faults_error (stands.spot _ nofun)

theorem damageType_faults (type : Text) :
    Faults (Fault.Placed source) (r.damageType source t type) := by
  refine Faults.guard (fun _ => stands.spot _ nofun) fun _ => ?_
  refine (settleAll_faults stands.spot r).bind fun q hq => ?_
  obtain ⟨m, o, settled, rfl⟩ := settleAll_ok_iff.1 hq
  refine Faults.guard (fun _ => unclosedGroup_placed fun function base offset mem => ?_) fun _ =>
    finishTerm_faults stands.spot _ _ _
  exact anchored.group function base offset ((settle_suffix settled).subset mem)

theorem handled_faults :
    Faults (fun f => f.Placed source ∨ Miscount r t f) (r.handled source t) := by
  unfold handled
  split
  · exact (atom_faults stands _).imp fun _ => .inl
  · exact (operator_faults stands _).imp fun _ => .inl
  · exact (opening_faults anchored stands).imp fun _ => .inl
  · rename_i ht
    exact closing_faults stands ht
  · exact (comma_faults stands).imp fun _ => .inl
  · exact (damageType_faults anchored stands _).imp fun _ => .inl

end Token

/-! ## Reading on -/

theorem feed_of_uncalled {function : Builtin} {offset : Nat}
    (callee : r.callee = some (function, offset)) (ht : t.lexeme ≠ .opening) :
    r.feed source t = .error ⟨.uncalledFunction, function.name, offset⟩ := by
  unfold feed
  rw [callee]
  exact if_pos (by simpa using ht)

theorem feed_of_called (callee : r.callee = none ∨ t.lexeme = .opening) :
    r.feed source t =
      if r.afterDamageType && t.lexeme != .comma then .error (t.fault .missingOperator)
      else (fun s => { s with last := some t }) <$> (r.extend t).handled source t := by
  unfold feed handled
  rcases h : r.callee with _ | ⟨function, offset⟩
  · cases ht : t.lexeme <;> rfl
  · rw [callee.resolve_left (by simp [h])]
    rfl

/-- A token is at fault itself, or something that the reading keeps, or the call that it closes. -/
theorem feed_faults (anchored : Anchored source r) (stands : t.Stands source) :
    Faults (fun f => f.Placed source ∨ Miscount r t f) (r.feed source t) := by
  by_cases callee : r.callee = none ∨ t.lexeme = .opening
  · rw [feed_of_called callee]
    split
    · exact faults_error (.inl (stands.spot _ nofun))
    · simpa [Miscount] using (handled_faults (anchored.extend t) stands).map
  · obtain ⟨uncalled, ht⟩ := not_or.1 callee
    obtain ⟨⟨function, offset⟩, hc⟩ := Option.ne_none_iff_exists'.1 uncalled
    rw [feed_of_uncalled hc ht]
    exact faults_error (.inl ⟨anchored.callee _ _ hc, nofun⟩)

/-- What a token adds to what can be blamed: its own name as the callee, its own place as that of a
group. -/
theorem handled_adds (step : r.handled source t = .ok s) :
    (s.callee = none ∨ s.callee = r.callee ∨
      ∃ function, t.lexeme = .atom function.name ∧ s.callee = some (function, t.offset)) ∧
    ∀ function base offset, .group function base offset ∈ s.marks →
      .group function base offset ∈ r.marks ∨ t.lexeme = .opening ∧ offset = t.offset := by
  unfold handled at step
  split at step
  · rename_i a ht
    rcases atom_ok_iff.1 step with ⟨-, f, hf, rfl⟩ | ⟨-, -, rfl⟩ | ⟨-, -, -, u, o, -, rfl⟩
    · exact ⟨.inr (.inr ⟨f, by rw [ht, Builtin.name_of_ofName? hf], rfl⟩), fun _ _ _ => .inl⟩
    · exact ⟨.inr (.inl rfl), fun _ _ _ => .inl⟩
    · exact ⟨.inr (.inl rfl), fun _ _ _ => .inl⟩
  · obtain ⟨-, m, o, settled, rfl⟩ := operator_ok_iff.1 step
    refine ⟨.inr (.inl rfl), fun function base offset mem => .inl ?_⟩
    exact (settle_suffix settled).subset (by simpa using mem)
  · rename_i ht
    obtain ⟨-, rfl⟩ := opening_ok_iff.1 step
    refine ⟨.inl rfl, fun function base offset mem => ?_⟩
    rcases List.mem_cons.1 mem with e | mem
    · cases e
      exact .inr ⟨ht, rfl⟩
    · exact .inl mem
  · obtain ⟨-, m, o, settled, ⟨f, base, offset, rest, rfl, -, rfl⟩ |
      ⟨base, offset, rest, rfl, -, rfl⟩⟩ := closing_ok_iff.1 step
    all_goals
      refine ⟨.inr (.inl rfl), fun function base offset mem => .inl ?_⟩
      exact (settle_suffix settled).subset (List.mem_cons_of_mem _ mem)
  · rcases comma_ok_iff.1 step with ⟨-, -, -, rfl⟩ |
      ⟨-, -, m, o, settled, ⟨f, base, offset, rest, -, rfl⟩ | ⟨-, u, -, rfl⟩⟩
    · exact ⟨.inr (.inl rfl), fun _ _ _ => .inl⟩
    · exact ⟨.inr (.inl rfl), fun _ _ _ mem => .inl ((settle_suffix settled).subset mem)⟩
    · exact ⟨.inr (.inl rfl), by simp⟩
  · obtain ⟨-, u, -, rfl⟩ := damageType_ok_iff.1 step
    exact ⟨.inr (.inl rfl), by simp⟩

theorem Anchored.feed (anchored : Anchored source r) (stands : t.Stands source)
    (fed : r.feed source t = .ok s) : Anchored source s := by
  obtain ⟨-, -, q, step, rfl⟩ := feed_ok_iff.1 fed
  obtain ⟨callee, groups⟩ := handled_adds step
  have own {l : Lexeme} (ht : t.lexeme = l) : l.text.StandsAt t.offset source := ht ▸ stands
  constructor
  case last =>
    rintro τ ⟨⟩
    exact stands
  case callee =>
    intro function offset h
    rcases callee with none | kept | ⟨f, ht, named⟩
    · cases none.symm.trans h
    · exact anchored.callee function offset (by simpa using kept.symm.trans h)
    · cases named.symm.trans h
      exact own ht
  case group =>
    intro function base offset mem
    rcases groups function base offset mem with mem | ⟨ht, rfl⟩
    · exact anchored.group function base offset (by simpa using mem)
    · exact own ht

theorem closeLast_faults (anchored : Anchored source r) :
    Faults (Fault.Placed source) (r.closeLast source) := by
  have empty : ∀ q : Reading, Faults (Fault.Placed source) (do
      if q.terms.isEmpty then throw ⟨.emptyRoll, source, 0⟩
      return q.terms.reverse) := fun q =>
    Faults.guard (fun _ => ⟨.whole source, nofun⟩) fun _ => faults_ok _
  have placed : Spot source fun cause => ⟨cause, [], source.width⟩ :=
    fun cause h => ⟨.empty source, h⟩
  unfold closeLast
  dsimp only
  split
  · exact empty r
  · refine Faults.guard (fun _ => ⟨.whole source, nofun⟩) fun _ => ?_
    refine (settleAll_faults placed r).bind fun q hq => ?_
    obtain ⟨m, o, settled, rfl⟩ := settleAll_ok_iff.1 hq
    refine Faults.guard (fun _ => unclosedGroup_placed fun function base offset mem => ?_) fun _ =>
      (finishTerm_faults placed _ _ _).bind fun q _ => empty q
    exact anchored.group function base offset ((settle_suffix settled).subset mem)

theorem finish_faults (anchored : Anchored source r) :
    Faults (Fault.Placed source) (r.finish source) := by
  rcases hc : r.callee with _ | ⟨function, offset⟩
  · obtain ⟨offset, last, e⟩ := finish_of_called source hc
    rw [e]
    split
    · rename_i comma
      exact faults_error ⟨anchored.last _ (last comma.1), nofun⟩
    · exact closeLast_faults anchored
  · rw [finish_of_uncalled hc]
    exact faults_error ⟨anchored.callee _ _ hc, nofun⟩

/-- A reading goes on to a fault that is placed, or to a call with the wrong number of arguments. -/
theorem feedAll_faults {us ts : List Token} (traced : Traced source us r)
    (anchored : Anchored source r) (stands : ∀ t ∈ ts, t.Stands source) :
    Faults (fun f => f.Placed source ∨ ∃ read t behind q, us ++ ts = read ++ t :: behind ∧
      Traced source read q ∧ Miscount q t f) (feedAll source r ts) ∧
    ∀ s, feedAll source r ts = .ok s → Anchored source s := by
  induction ts generalizing us r with
  | nil =>
    refine ⟨faults_ok r, ?_⟩
    rintro _ ⟨⟩
    exact anchored
  | cons t ts ih =>
    have ht := stands t List.mem_cons_self
    have behind (q : Reading) (fed : r.feed source t = .ok q) :=
      ih (traced.feed fed) (anchored.feed ht fed) fun τ mem => stands τ (List.mem_cons_of_mem _ mem)
    constructor
    · refine Faults.bind ?_ fun q fed => ?_
      · exact (feed_faults anchored ht).imp fun f h =>
          h.imp_right fun miscount => ⟨us, t, ts, r, rfl, traced, miscount⟩
      · simpa using (behind q fed).1
    · intro s run
      obtain ⟨q, fed, run⟩ := bind_eq_ok.1 run
      exact (behind q fed).2 s run

end Reading

/-! ## The whole roll -/

/-- The fault that keeps a roll from being read. -/
def fault? (source : Text) : Option Fault :=
  match parse source with
  | .error f => some f
  | .ok _ => none

theorem fault?_eq_some_iff {source : Text} {f : Fault} :
    fault? source = some f ↔ parse source = .error f := by
  unfold fault?
  split <;> simp [*]

theorem Token.stands_of_scan (source : Text) :
    Faults (Fault.Placed source) (scan source) ∧
      ∀ tokens, scan source = .ok tokens → ∀ t ∈ tokens, t.Stands source :=
  stands_of_scanFrom (List.nil_append source).symm rfl (by simp)

/-- Among the tokens of the roll is a call with another number of arguments than its function takes.
The fault is about the name of the function, and its offset is that of the closing parenthesis. -/
def Miscounted (source : Text) (f : Fault) : Prop :=
  ∃ (front inner behind : List Token) (name opening closing : Token) (function : Builtin)
    (arguments : List Tree),
    Token.scan source = .ok (front ++ name :: opening :: inner ++ closing :: behind) ∧
    name.lexeme = .atom function.name ∧ opening.lexeme = .opening ∧ closing.lexeme = .closing ∧
    Grammar.Arguments (inner.map (·.lexeme)) arguments ∧ arguments.length ≠ function.arity ∧
    f = ⟨.wrongArgumentCount, function.name, closing.offset⟩

theorem Miscounted.cause {source : Text} {f : Fault} (h : Miscounted source f) :
    f.cause = .wrongArgumentCount := by
  obtain ⟨_, _, _, _, _, _, _, _, -, -, -, -, -, -, rfl⟩ := h
  rfl

/-- Where a call ends no name of a function stands, for names do not begin with a parenthesis. -/
theorem Miscounted.not_standsAt {source : Text} {f : Fault} (h : Miscounted source f) :
    ¬ f.fragment.StandsAt f.offset source := by
  obtain ⟨front, inner, behind, name, opening, closing, function, arguments, scan, -, -, hclosing,
    -, -, rfl⟩ := h
  have parenthesis : Text.StandsAt [')'] closing.offset source := by
    simpa [Token.Stands, Token.text, hclosing, Lexeme.text] using
      (Token.stands_of_scan source).2 _ scan closing (by simp)
  intro stands
  cases function <;> exact absurd (stands.head_eq parenthesis) (by decide)

/-- The open group that a miscounted call closes is that of a function, and its arguments are what
was read behind the parenthesis. -/
theorem miscounted_of_traced {source : Text} {read behind : List Token} {t : Token} {r : Reading}
    {f : Fault} (traced : Reading.Traced source read r) (miscount : Reading.Miscount r t f)
    (scan : Token.scan source = .ok (read ++ t :: behind)) : Miscounted source f := by
  obtain ⟨ht, due, function, base, offset, marks, operands, settled, count, rfl⟩ := miscount
  obtain ⟨arguments, called, total, -⟩ := traced.call due settled
  rw [total, Nat.add_sub_cancel_left] at count
  cases called with
  | @mk front inner name opening _ hname hopening harguments =>
    exact ⟨front, inner, behind, name, opening, t, function, arguments, by simpa using scan, hname,
      hopening, ht, harguments, count, rfl⟩

/-- The fragment of a fault that reading a roll ends with stands in the roll at the offset of the
fault, except if a call has the wrong number of arguments: then the offset is that of the
parenthesis behind them, where the name of the function never stands. -/
theorem parse_fault_placed {source : Text} {f : Fault} (h : parse source = .error f) :
    (f.cause ≠ .wrongArgumentCount → f.fragment.StandsAt f.offset source) ∧
    (f.cause = .wrongArgumentCount →
      Miscounted source f ∧ ¬ f.fragment.StandsAt f.offset source) := by
  have faults : Faults (fun f => f.Placed source ∨ Miscounted source f) (parse source) := by
    have scanned := Token.stands_of_scan source
    refine (scanned.1.imp fun _ => .inl).bind fun tokens scan => ?_
    have run := Reading.feedAll_faults .start .start (scanned.2 tokens scan)
    refine (run.1.imp fun f hf => ?_).bind fun r fed =>
      (Reading.finish_faults (run.2 r fed)).imp fun _ => .inl
    refine hf.imp_right fun ⟨read, t, behind, q, split, traced, miscount⟩ => ?_
    rw [List.nil_append] at split
    exact miscounted_of_traced traced miscount (split ▸ scan)
  rcases faults f h with placed | miscounted
  · exact ⟨fun _ => placed.stands, fun cause => absurd cause placed.cause⟩
  · exact ⟨fun cause => absurd miscounted.cause cause,
      fun _ => ⟨miscounted, miscounted.not_standsAt⟩⟩

/-- A call of `max` with one argument is reported at its end, byte 5, and a group that is not closed
where it opens. -/
theorem fault_at_call_end :
    (parse "max(1)".toList = .error ⟨.wrongArgumentCount, "max".toList, 5⟩ ∧
      Miscounted "max(1)".toList ⟨.wrongArgumentCount, "max".toList, 5⟩ ∧
      ¬ Text.StandsAt "max".toList 5 "max(1)".toList) ∧
    parse "1+(2d6 [fire]".toList = .error ⟨.unclosedGroup, "(2d6 [fire]".toList, 2⟩ ∧
      Text.StandsAt "(2d6 [fire]".toList 2 "1+(2d6 [fire]".toList := by
  have miscount : parse "max(1)".toList = .error ⟨.wrongArgumentCount, "max".toList, 5⟩ :=
    fault?_eq_some_iff.1 (by decide +kernel)
  have unclosed : parse "1+(2d6 [fire]".toList = .error ⟨.unclosedGroup, "(2d6 [fire]".toList, 2⟩ :=
    fault?_eq_some_iff.1 (by decide +kernel)
  exact ⟨⟨miscount, (parse_fault_placed miscount).2 rfl⟩, unclosed,
    (parse_fault_placed unclosed).1 nofun⟩

/-- The name `max` does not stand at the byte that its fault names. -/
theorem call_fault_displaced :
    parse "max(1)".toList = .error ⟨.wrongArgumentCount, "max".toList, 5⟩ ∧
      ¬ Text.StandsAt "max".toList 5 "max(1)".toList := by
  refine ⟨fault?_eq_some_iff.1 (by decide +kernel), fun stands => ?_⟩
  have parenthesis : Text.StandsAt [')'] 5 "max(1)".toList := ⟨"max(1".toList, [], rfl, rfl⟩
  exact absurd (stands.head_eq parenthesis) (by decide)

end Roll

end RulesText
