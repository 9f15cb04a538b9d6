import ComplexFormula.Postfix
import ComplexFormula.Proofs.Guarded.Scan

/-!
Postfix order on a single stack, on which operators and open parentheses lie together, with a count
of the parentheses. The count is the number of parentheses on the stack: one is counted off only
where a `(` is found.
-/

namespace ComplexFormula

/-- Another operand at a term. -/
def Term.map {α β : Type} (f : α → β) : Term α → Term β
  | operand a => .operand (f a)
  | operator o => .operator o

namespace Postfix

variable {α β : Type}

/-- A token where it stands. -/
abbrev Standing (α : Type) := Spanned (Token α)

/-- Takes the operators off the stack that take the operand in front of another. -/
def popBefore (o : Operator) : List (Standing α) → List (Standing α) × List (Standing α)
  | ⟨.operator top, start, stop⟩ :: stack =>
    if top.bindsBefore o then
      let (popped, stack) := popBefore o stack
      (⟨.operator top, start, stop⟩ :: popped, stack)
    else ([], ⟨.operator top, start, stop⟩ :: stack)
  | stack => ([], stack)

/-- Takes off the stack what lies on its uppermost `(`, and the `(` with it. -/
def popGroup (closing : Nat) : List (Standing α) → Guarded (List (Standing α) × List (Standing α))
  | [] => Guarded.refuse .unbalancedParentheses closing
  | ⟨.opening, _, _⟩ :: stack => .ok ([], stack)
  | top :: stack => do
    let (popped, stack) ← popGroup closing stack
    pure (top :: popped, stack)

/-- Takes off the stack all that lies on it. -/
def popAll : List (Standing α) → Guarded (List (Standing α))
  | [] => .ok []
  | ⟨.opening, start, _⟩ :: _ => Guarded.refuse .unbalancedParentheses start
  | ⟨.closing, start, _⟩ :: _ => Guarded.refuse .unbalancedParentheses start
  | top :: stack => (top :: ·) <$> popAll stack

/-- A run of tokens in postfix order, given the stack and the count of the parentheses on it. -/
def convert (limit : Nat) (stack : List (Standing α)) (depth : Nat) :
    List (Standing α) → Guarded (List (Standing α))
  | [] => popAll stack
  | ⟨.operand a, start, stop⟩ :: rest =>
    (⟨.operand a, start, stop⟩ :: ·) <$> convert limit stack depth rest
  | ⟨.operator o, start, stop⟩ :: rest =>
    let (popped, stack) := popBefore o stack
    (popped ++ ·) <$> convert limit (⟨.operator o, start, stop⟩ :: stack) depth rest
  | ⟨.opening, start, stop⟩ :: rest =>
    let depth := depth + 1
    if limit < depth then Guarded.refuse (.nestingTooDeep limit) start
    else convert limit (⟨.opening, start, stop⟩ :: stack) depth rest
  | ⟨.closing, start, _⟩ :: rest => do
    let (popped, stack) ← popGroup start stack
    let depth ← Guarded.pred .depthAtBottom depth
    (popped ++ ·) <$> convert limit stack depth rest

/-! ### The stack and the parentheses on it -/

/-- The stack holds the operators that wait, and below them each open parenthesis with the operators
that wait outside it. -/
inductive Stacked : List (Standing α) → List (Spanned Operator) → List Frame → Prop
  | empty : Stacked [] [] []
  | operator {stack : List (Standing α)} {waiting : List (Spanned Operator)} {frames : List Frame}
      (h : Stacked stack waiting frames) (w : Spanned Operator) :
      Stacked (w.map .operator :: stack) (w :: waiting) frames
  | opening {stack : List (Standing α)} {waiting : List (Spanned Operator)} {frames : List Frame}
      (h : Stacked stack waiting frames) (start stop : Nat) :
      Stacked (⟨.opening, start, stop⟩ :: stack) [] (⟨start, waiting⟩ :: frames)

/-- Terms as tokens. -/
def standing (terms : List (Spanned (Term α))) : List (Standing α) :=
  terms.map (Spanned.map Term.toToken)

theorem standing_append (us vs : List (Spanned (Term α))) :
    standing (us ++ vs) = standing us ++ standing vs :=
  List.map_append

variable {stack : List (Standing α)} {waiting : List (Spanned Operator)} {frames : List Frame}

theorem Stacked.popBefore (h : Stacked stack waiting frames) (o : Operator) :
    ∃ below, Postfix.popBefore o stack =
        (standing (release (waiting.takeWhile fun w => w.item.bindsBefore o)), below) ∧
      Stacked below (waiting.dropWhile fun w => w.item.bindsBefore o) frames := by
  induction h with
  | empty => exact ⟨[], rfl, .empty⟩
  | @operator stack waiting frames h w ih =>
    rw [Spanned.map, Postfix.popBefore]
    by_cases hbinds : w.item.bindsBefore o = true
    · obtain ⟨below, hbelow, hstacked⟩ := ih
      rw [List.takeWhile_cons, if_pos hbinds, List.dropWhile_cons, if_pos hbinds, if_pos hbinds,
        hbelow]
      exact ⟨below, rfl, hstacked⟩
    · rw [List.takeWhile_cons, if_neg hbinds, List.dropWhile_cons, if_neg hbinds, if_neg hbinds]
      exact ⟨_, rfl, h.operator w⟩
  | opening h start stop => exact ⟨_, rfl, h.opening start stop⟩

theorem popGroup_operator (w : Spanned Operator) (stack : List (Standing α)) (closing : Nat) :
    popGroup closing (w.map .operator :: stack) =
      popGroup closing stack >>= fun (popped, below) => pure (w.map .operator :: popped, below) :=
  rfl

theorem popAll_operator (w : Spanned Operator) (stack : List (Standing α)) :
    popAll (w.map .operator :: stack) = (w.map .operator :: ·) <$> popAll stack := rfl

/-- No `(` is found where none is open. -/
theorem Stacked.popGroup_nil (h : Stacked stack waiting []) (closing : Nat) :
    popGroup closing stack = Guarded.refuse .unbalancedParentheses closing := by
  generalize hframes : ([] : List Frame) = frames at h
  induction h with
  | empty => rfl
  | operator h w ih =>
    rw [popGroup_operator, ih hframes]
    rfl
  | opening => cases hframes

/-- The innermost parenthesis is closed. -/
theorem Stacked.popGroup_cons {innermost : Frame}
    (h : Stacked stack waiting (innermost :: frames)) (closing : Nat) :
    ∃ below, popGroup closing stack = .ok (standing (release waiting), below) ∧
      Stacked below innermost.outer frames := by
  generalize hframes : innermost :: frames = all at h
  induction h with
  | empty => cases hframes
  | operator h w ih =>
    obtain ⟨below, hbelow, hstacked⟩ := ih hframes
    refine ⟨below, ?_, hstacked⟩
    rw [popGroup_operator, hbelow]
    rfl
  | opening h start stop =>
    cases hframes
    exact ⟨_, rfl, h⟩

theorem Stacked.popAll_nil (h : Stacked stack waiting []) :
    popAll stack = .ok (standing (release waiting)) := by
  generalize hframes : ([] : List Frame) = frames at h
  induction h with
  | empty => rfl
  | operator h w ih =>
    rw [popAll_operator, ih hframes]
    rfl
  | opening => cases hframes

theorem Stacked.popAll_cons {innermost : Frame}
    (h : Stacked stack waiting (innermost :: frames)) :
    popAll stack = Guarded.refuse .unbalancedParentheses innermost.start := by
  generalize hframes : innermost :: frames = all at h
  induction h with
  | empty => cases hframes
  | operator h w ih =>
    rw [popAll_operator, ih hframes]
    rfl
  | opening =>
    cases hframes
    rfl

/-- Converting is never broken, and puts the tokens in the order in which they are arranged. -/
theorem convert_eq (limit : Nat) (h : Stacked stack waiting frames) (ts : List (Standing α)) :
    convert limit stack frames.length ts =
      Guarded.lift (standing <$> arrange limit waiting frames ts) := by
  induction ts generalizing stack waiting frames with
  | nil =>
    cases frames with
    | nil => exact h.popAll_nil
    | cons innermost frames => exact h.popAll_cons
  | cons t rest ih =>
    obtain ⟨a | o | _ | _, start, stop⟩ := t
    case operand =>
      rw [convert, arrange, ih h]
      cases arrange limit waiting frames rest <;> rfl
    case operator =>
      obtain ⟨below, hbelow, hstacked⟩ := h.popBefore o
      have hrest := ih (hstacked.operator ⟨o, start, stop⟩)
      rw [Spanned.map] at hrest
      rw [convert, arrange, hbelow]
      dsimp only
      rw [hrest]
      cases arrange limit _ frames rest with
      | error e => rfl
      | ok terms => exact congrArg Except.ok (standing_append _ _).symm
    case opening =>
      rw [convert, arrange]
      by_cases hlimit : limit ≤ frames.length
      · rw [if_pos hlimit, if_pos (Nat.lt_succ_of_le hlimit)]
        rfl
      · rw [if_neg hlimit, if_neg (by omega)]
        exact ih (h.opening start stop)
    case closing =>
      rw [convert]
      cases frames with
      | nil =>
        rw [h.popGroup_nil, arrange]
        rfl
      | cons innermost frames =>
        obtain ⟨below, hbelow, hstacked⟩ := h.popGroup_cons start
        rw [hbelow, arrange]
        change (_ ++ ·) <$> convert limit below frames.length rest = _
        rw [ih hstacked]
        cases arrange limit innermost.outer frames rest with
        | error e => rfl
        | ok terms => exact congrArg Except.ok (standing_append _ _).symm

/-- The order does not depend on what the operands are. -/
theorem arrange_map (f : α → β) (limit : Nat) (waiting : List (Spanned Operator))
    (frames : List Frame) (ts : List (Standing α)) :
    arrange limit waiting frames (ts.map (Spanned.map (Token.map f))) =
      List.map (Spanned.map (Term.map f)) <$> arrange limit waiting frames ts := by
  have hrelease (operators : List (Spanned Operator)) :
      (release operators).map (Spanned.map (Term.map f)) = release operators := by
    rw [release, release, List.map_map]
    rfl
  induction ts generalizing waiting frames with
  | nil =>
    cases frames with
    | nil => exact congrArg Except.ok (hrelease waiting).symm
    | cons innermost frames => rfl
  | cons t rest ih =>
    obtain ⟨a | o | _ | _, start, stop⟩ := t <;> rw [List.map_cons, Spanned.map, Token.map]
    case operand =>
      rw [arrange, arrange, ih]
      cases arrange limit waiting frames rest <;> rfl
    case operator =>
      rw [arrange, arrange, ih]
      cases arrange limit _ frames rest with
      | error e => rfl
      | ok terms => simp [hrelease]
    case opening =>
      rw [arrange, arrange]
      split
      · rfl
      · exact ih _ _
    case closing =>
      cases frames with
      | nil => rfl
      | cons innermost frames =>
        rw [arrange, arrange, ih]
        cases arrange limit innermost.outer frames rest with
        | error e => rfl
        | ok terms => simp [hrelease]

end Postfix

end ComplexFormula
