/-
Reading a roll from its tokens with two stacks, one of operands and one of operators and open
groups. A reading takes one token at a time; an operator waits until the next one shows that it
binds at least as tightly, and a closing parenthesis, a comma or the end settles all that wait.
-/
import RulesText.Roll.Token
import RulesText.Roll.Tree

namespace RulesText.Roll

/-- An operator that waits for its right operand, or an open parenthesis. -/
inductive Mark
  | operator (op : Operator)
  /-- A `(` at `offset`, with the function it calls and the number of operands before it. -/
  | group (function : Option Builtin) (base : Nat) (offset : Nat)
  deriving DecidableEq, Repr

/-- A roll that has been read up to some token. Stacks and terms are newest first. -/
structure Reading where
  operands : List Tree := []
  marks : List Mark := []
  terms : List Term := []
  /-- Whether an operand is due, not an operator. -/
  awaitsOperand : Bool := true
  /-- The function whose name was read last, and the byte at which the name begins. -/
  callee : Option (Builtin × Nat) := none
  last : Option Token := none
  /-- The byte at which the open term begins, if any of its tokens was read. -/
  start : Option Nat := none
  /-- The byte behind the last token that belongs to a term. -/
  stop : Nat := 0

namespace Reading

/-! ## Settling operators -/

/-- The newest operand and the others; `spot` is at fault if there is none. -/
def popOperand (spot : Cause → Fault) : List Tree → Except Fault (Tree × List Tree)
  | [] => .error (spot .missingOperand)
  | t :: ts => .ok (t, ts)

/-- Joins the two newest operands by an operator. -/
def join (spot : Cause → Fault) (op : Operator) (operands : List Tree) :
    Except Fault (List Tree) := do
  let (right, operands) ← popOperand spot operands
  let (left, operands) ← popOperand spot operands
  return .binary op left right :: operands

/-- Joins operands by the waiting operators that `binds` selects, down to the first mark that is
none of them. -/
def settle (spot : Cause → Fault) (binds : Operator → Bool) :
    List Mark → List Tree → Except Fault (List Mark × List Tree)
  | .operator op :: marks, operands =>
    if binds op then do
      let operands ← join spot op operands
      settle spot binds marks operands
    else .ok (.operator op :: marks, operands)
  | marks, operands => .ok (marks, operands)

/-- A reading with all operators above the innermost open group joined. -/
def settleAll (spot : Cause → Fault) (r : Reading) : Except Fault Reading := do
  let (marks, operands) ← settle spot (fun _ => true) r.marks r.operands
  return { r with marks, operands }

/-! ## Terms and groups -/

/-- Whether the last token is the damage type that closed its term. -/
def afterDamageType (r : Reading) : Bool :=
  match r.last with
  | some ⟨.damageType _, _⟩ => true
  | _ => false

/-- Makes the one operand a term of the roll `source`; `fallback` is the offset of an empty one. -/
def finishTerm (source : Text) (spot : Cause → Fault) (fallback : Nat) (damageType : Option Text)
    (r : Reading) : Except Fault Reading := do
  let (expression, operands) ← popOperand spot r.operands
  if !operands.isEmpty then throw (spot .missingOperator)
  let start := r.start.getD fallback
  let term : Term := ⟨expression, damageType, source.slice start (max r.stop start), start⟩
  return { r with operands, terms := term :: r.terms, awaitsOperand := true, start := none }

/-- The fault of the innermost group that is open at the end of a term of the roll `source`. -/
def unclosedGroup (source : Text) (marks : List Mark) : Fault :=
  let offset := (marks.findSome? fun
    | .group _ _ offset => some offset
    | .operator _ => none).getD 0
  ⟨.unclosedGroup, source.dropBytes offset, offset⟩

/-! ## One token -/

/-- Reads an atom: an operand, the name of a function, or the die size behind a group. -/
def atom (t : Token) (text : Text) (r : Reading) : Except Fault Reading :=
  if r.awaitsOperand then
    match Builtin.ofName? text with
    | some function => .ok { r with callee := some (function, t.offset) }
    | none => .ok { r with operands := Tree.leaf text :: r.operands, awaitsOperand := false }
  else if r.last.map (·.lexeme) = some .closing && Tree.isDie text then do
    let (count, operands) ← popOperand t.fault r.operands
    return { r with operands := .dice count text :: operands }
  else .error (t.fault .missingOperator)

/-- Reads an operator, after which an operand is due. -/
def operator (t : Token) (op : Operator) (r : Reading) : Except Fault Reading := do
  if r.awaitsOperand then throw (t.fault .missingOperand)
  let (marks, operands) ← settle t.fault (fun top => op.strength ≤ top.strength) r.marks r.operands
  return { r with marks := .operator op :: marks, operands, awaitsOperand := true }

/-- Reads `(`, which opens the arguments of the function named before it, or a group. -/
def opening (t : Token) (r : Reading) : Except Fault Reading :=
  if r.awaitsOperand then
    let group := Mark.group (r.callee.map (·.1)) r.operands.length t.offset
    .ok { r with marks := group :: r.marks, callee := none }
  else
    match r.last with
    | some ⟨.atom name, offset⟩ => .error ⟨.unknownFunction, name, offset⟩
    | _ => .error (t.fault .missingOperator)

/-- Reads `)`, which makes a call of the operands above the base of its group, or leaves the one
operand that a plain group has. -/
def closing (t : Token) (r : Reading) : Except Fault Reading := do
  if r.awaitsOperand then throw (t.fault .missingOperand)
  let r ← r.settleAll t.fault
  match r.marks with
  | .group (some function) base _ :: marks =>
    let count := r.operands.length - base
    if count != function.arity then throw ⟨.wrongArgumentCount, function.name, t.offset⟩
    let arguments := (r.operands.take count).reverse
    return { r with marks, operands := .call function arguments :: r.operands.drop count }
  | .group none base _ :: marks =>
    if r.operands.length != base + 1 then throw (t.fault .missingOperator)
    return { r with marks }
  | _ => throw (t.fault .unmatchedClosing)

/-- Reads `,`, which ends an argument inside a call and a term outside of all groups. -/
def comma (source : Text) (t : Token) (r : Reading) : Except Fault Reading := do
  if r.operands.isEmpty && r.marks.isEmpty then
    if r.afterDamageType then return r
    throw (t.fault .emptyTerm)
  if r.awaitsOperand then throw (t.fault .missingOperand)
  let r ← r.settleAll t.fault
  match r.marks with
  | .group (some _) _ _ :: _ => return { r with awaitsOperand := true }
  | .group none _ _ :: _ => throw (t.fault .unexpectedComma)
  | _ => r.finishTerm source t.fault t.offset none

/-- Reads a damage type, which ends its term. -/
def damageType (source : Text) (t : Token) (type : Text) (r : Reading) :
    Except Fault Reading := do
  if r.awaitsOperand then throw (t.fault .missingRoll)
  let r ← r.settleAll t.fault
  if !r.marks.isEmpty then throw (unclosedGroup source r.marks)
  r.finishTerm source t.fault t.offset (some type)

/-- A reading whose open term reaches up to the end of a token; commas and damage types belong to
no term. -/
def extend (t : Token) (r : Reading) : Reading :=
  match t.lexeme with
  | .comma | .damageType _ => r
  | _ => { r with start := some (r.start.getD t.offset), stop := t.stop }

/-- Reads one token of the roll `source`. A function has to be called at once, and only a comma can
follow a damage type. -/
def feed (source : Text) (r : Reading) (t : Token) : Except Fault Reading := do
  if let some (function, offset) := r.callee then
    if t.lexeme != .opening then throw ⟨.uncalledFunction, function.name, offset⟩
  if r.afterDamageType && t.lexeme != .comma then throw (t.fault .missingOperator)
  let r := r.extend t
  let r ← match t.lexeme with
    | .atom text => r.atom t text
    | .operator op => r.operator t op
    | .opening => r.opening t
    | .closing => r.closing t
    | .comma => r.comma source t
    | .damageType type => r.damageType source t type
  return { r with last := some t }

/-! ## The whole roll -/

/-- Closes the term that is open at the end, if there is one, and gives the terms in order. -/
def closeLast (source : Text) (r : Reading) : Except Fault (List Term) := do
  let r ←
    if r.operands.isEmpty && r.marks.isEmpty then pure r
    else do
      if r.awaitsOperand then throw ⟨.missingOperand, source, 0⟩
      let spot : Cause → Fault := fun cause => ⟨cause, [], source.width⟩
      let r ← r.settleAll spot
      if !r.marks.isEmpty then throw (unclosedGroup source r.marks)
      r.finishTerm source spot source.width none
  if r.terms.isEmpty then throw ⟨.emptyRoll, source, 0⟩
  return r.terms.reverse

/-- Ends a reading. It can end neither at the name of a function nor at a comma outside of all
groups. -/
def finish (source : Text) (r : Reading) : Except Fault (List Term) := do
  if let some (function, offset) := r.callee then
    throw ⟨.uncalledFunction, function.name, offset⟩
  if let some ⟨.comma, offset⟩ := r.last then
    if r.marks.isEmpty then throw ⟨.emptyTerm, [','], offset⟩
  r.closeLast source

/-- Reads tokens one after the other. -/
def feedAll (source : Text) (r : Reading) : List Token → Except Fault Reading
  | [] => .ok r
  | t :: ts => do
    let r ← r.feed source t
    feedAll source r ts

end Reading

/-- The terms of a roll. -/
def parse (source : Text) : Except Fault (List Term) := do
  let tokens ← Token.scan source
  let r ← Reading.feedAll source {} tokens
  r.finish source

end RulesText.Roll
