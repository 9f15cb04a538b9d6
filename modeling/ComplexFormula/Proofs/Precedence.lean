import ComplexFormula.Proofs.Grammar
import ComplexFormula.Proofs.Ordering
import ComplexFormula.Proofs.Success
import ComplexFormula.Proofs.Unfolding

/-!
Every sentence of the infix grammar is read as its tree. What carries the proof is a statement about
a sentence that stands anywhere in a run of tokens: its terms come out in postorder but for a last
few operators, which go on top of those that wait, and whatever stands behind it is read as if these
were the ones that waited all along.
-/

namespace ComplexFormula

variable {α : Type}

/-! ### Which operator leaves for which -/

/-- An operator of the level `level` leaves as soon as `o` arrives. -/
def Level.LeavesFor (level : Level) (o : Operator) : Prop :=
  ∀ p : Operator, level.precedence ≤ p.precedence → p.bindsBefore o = true

/-- An operator `o` stays while operators of the level `level` arrive. -/
def Level.StaysFor (level : Level) (o : Operator) : Prop :=
  ∀ p : Operator, level.precedence ≤ p.precedence → o.bindsBefore p = false

theorem Level.primary_leavesFor (o : Operator) : Level.primary.LeavesFor o := by
  intro p
  cases p <;> simp [Level.precedence, Operator.precedence]

theorem Level.product_leavesFor {o : Operator} (ho : o = .mul ∨ o = .div) :
    Level.product.LeavesFor o := by
  intro p
  rcases ho with rfl | rfl <;> cases p <;> decide

theorem Level.sum_leavesFor {o : Operator} (ho : o = .add ∨ o = .sub) :
    Level.sum.LeavesFor o := by
  intro p
  rcases ho with rfl | rfl <;> cases p <;> decide

theorem Level.power_staysFor {o : Operator} (ho : o = .pow ∨ o = .mul ∨ o = .div) :
    Level.power.StaysFor o := by
  intro p
  rcases ho with rfl | rfl | rfl <;> cases p <;> decide

theorem Level.product_staysFor {o : Operator} (ho : o = .add ∨ o = .sub) :
    Level.product.StaysFor o := by
  intro p
  rcases ho with rfl | rfl <;> cases p <;> decide

theorem Level.product_precedence_le {o : Operator} (ho : o = .mul ∨ o = .div) :
    Level.product.precedence ≤ o.precedence := by
  rcases ho with rfl | rfl <;> decide

theorem Level.sum_precedence_le (o : Operator) : Level.sum.precedence ≤ o.precedence := by
  cases o <;> decide

namespace Postfix

/-- Nothing that waits leaves for an operator of the level `level`. -/
def Undisturbed (level : Level) (waiting : List Operator) : Prop :=
  ∀ w ∈ waiting.head?, level.StaysFor w

theorem undisturbed_nil (level : Level) : Undisturbed level [] := by
  simp [Undisturbed]

theorem Undisturbed.mono {lower upper : Level} (h : lower.precedence ≤ upper.precedence)
    {waiting : List Operator} (hwaiting : Undisturbed lower waiting) :
    Undisturbed upper waiting :=
  fun w hw p hp => hwaiting w hw p (Nat.le_trans h hp)

/-- When an operator arrives on top of pending ones that leave for it, just these leave. -/
theorem takeWhile_bindsBefore {o : Operator} {pending waiting : List Operator}
    (hpending : ∀ p ∈ pending, p.bindsBefore o = true)
    (hwaiting : ∀ w ∈ waiting.head?, w.bindsBefore o = false) :
    (pending ++ waiting).takeWhile (·.bindsBefore o) = pending ∧
      (pending ++ waiting).dropWhile (·.bindsBefore o) = waiting := by
  rw [List.takeWhile_append_of_pos hpending, List.dropWhile_append_of_pos hpending]
  cases waiting with
  | nil => simp
  | cons w waiting =>
    have := hwaiting w rfl
    simp [this]

/-! ### A sentence in the middle of other tokens -/

/-- Some tokens come out as the postorder of a tree but for some operators of the level `level`,
which then wait in front of the others. -/
def Arranges (level : Level) (limit : Nat) (waiting : List Operator)
    (frames : List (List Operator)) (ts : List (Token α)) (t : Tree α) : Prop :=
  ∃ (settled : List (Term α)) (pending : List Operator),
    settled ++ pending.map .operator = t.postorder ∧
    (∀ p ∈ pending, level.precedence ≤ p.precedence) ∧
    ∀ rest, order? limit waiting frames (ts ++ rest) =
      (order? limit (pending ++ waiting) frames rest).map (settled ++ ·)

variable {limit : Nat} {waiting : List Operator} {frames : List (List Operator)}
  {ts us vs : List (Token α)} {l r t : Tree α}

theorem Arranges.mono {lower upper : Level} (hle : lower.precedence ≤ upper.precedence)
    (h : Arranges upper limit waiting frames ts t) :
    Arranges lower limit waiting frames ts t := by
  obtain ⟨settled, pending, hterms, hpending, hrest⟩ := h
  exact ⟨settled, pending, hterms, fun p hp => Nat.le_trans hle (hpending p hp), hrest⟩

theorem arranges_operand (a : α) :
    Arranges .primary limit waiting frames [.operand a] (.leaf a) :=
  ⟨[.operand a], [], rfl, by simp, fun rest => rfl⟩

/-- A sum in parentheses leaves nothing behind that waits. -/
theorem Arranges.group (hlimit : frames.length < limit)
    (h : Arranges .sum limit [] (waiting :: frames) ts t) :
    Arranges .primary limit waiting frames (.opening :: (ts ++ [.closing])) t := by
  obtain ⟨settled, pending, hterms, -, hrest⟩ := h
  refine ⟨settled ++ pending.map .operator, [], by simpa using hterms, by simp, ?_⟩
  intro rest
  rw [List.cons_append, order?, if_neg (Nat.not_le.2 hlimit), List.append_assoc, hrest,
    List.append_nil, List.singleton_append, order?, Option.map_map]
  congr 1
  funext terms
  simp

/-- The terms of the left side have come out when the operator arrives, which then waits for its
right side. -/
theorem Arranges.join {level left right : Level} {o : Operator} (hleaves : left.LeavesFor o)
    (hwaiting : ∀ w ∈ waiting.head?, w.bindsBefore o = false)
    (ho : level.precedence ≤ o.precedence) (hright : level.precedence ≤ right.precedence)
    (hl : Arranges left limit waiting frames us l)
    (hr : Arranges right limit (o :: waiting) frames vs r) :
    Arranges level limit waiting frames (us ++ .operator o :: vs) (.branch o l r) := by
  obtain ⟨lsettled, lpending, lterms, lhigh, lrest⟩ := hl
  obtain ⟨rsettled, rpending, rterms, rhigh, rrest⟩ := hr
  obtain ⟨htake, hdrop⟩ := takeWhile_bindsBefore (fun p hp => hleaves _ (lhigh p hp)) hwaiting
  refine ⟨lsettled ++ lpending.map .operator ++ rsettled, rpending ++ [o], ?_, ?_, ?_⟩
  · rw [Tree.postorder, ← lterms, ← rterms]
    simp
  · intro p hp
    rcases List.mem_append.1 hp with hp | hp
    · exact Nat.le_trans hright (rhigh p hp)
    · rw [List.mem_singleton.1 hp]
      exact ho
  · intro rest
    have hpending : rpending ++ [o] ++ waiting = rpending ++ o :: waiting := by simp
    rw [hpending, List.append_assoc, lrest, List.cons_append, order?, htake, hdrop, rrest,
      Option.map_map, Option.map_map]
    congr 1
    funext terms
    simp

/-- Every sentence is arranged as its tree wherever it stands, as long as nothing that waits leaves
for an operator of its level and there is room for its parentheses. -/
theorem arranges_of_derives {level : Level} (h : Derives level ts t)
    (hlimit : Token.nestingFrom frames.length ts ≤ limit) (hwaiting : Undisturbed level waiting) :
    Arranges level limit waiting frames ts t := by
  -- the left side leaves for an operator, and the operator stays for the right side
  have undisturbed {right : Level} {o : Operator} {waiting : List Operator}
      (hstays : right.StaysFor o) : Undisturbed right (o :: waiting) := by
    rintro _ ⟨⟩
    exact hstays
  induction h generalizing frames waiting with
  | operand a => exact arranges_operand a
  | @group ts t h ih =>
    rw [Token.nestingFrom, h.nestingFrom_append] at hlimit
    have hframes := Token.le_nestingFrom (frames.length + 1) [Token.closing (α := α)]
    have hsum : Arranges .sum limit [] (waiting :: frames) ts t := by
      refine ih ?_ (undisturbed_nil _)
      simp only [List.length_cons]
      omega
    exact hsum.group (by omega)
  | primary h ih => exact (ih hlimit (hwaiting.mono (by decide))).mono (by decide)
  | power h ih => exact (ih hlimit (hwaiting.mono (by decide))).mono (by decide)
  | product h ih => exact (ih hlimit (hwaiting.mono (by decide))).mono (by decide)
  | pow hl hr ihl ihr =>
    rw [hl.nestingFrom_append, Token.nestingFrom_operator] at hlimit
    exact .join (Level.primary_leavesFor _) (fun w hw => hwaiting w hw _ (by decide)) (by decide)
      (by decide) (ihl (by omega) (hwaiting.mono (by decide)))
      (ihr (by omega) (undisturbed (Level.power_staysFor (.inl rfl))))
  | mul ho hl hr ihl ihr =>
    rw [hl.nestingFrom_append, Token.nestingFrom_operator] at hlimit
    have hprecedence := Level.product_precedence_le ho
    exact .join (Level.product_leavesFor ho) (fun w hw => hwaiting w hw _ hprecedence) hprecedence
      (by decide) (ihl (by omega) hwaiting)
      (ihr (by omega) (undisturbed (Level.power_staysFor (.inr ho))))
  | @add us vs l r o ho hl hr ihl ihr =>
    rw [hl.nestingFrom_append, Token.nestingFrom_operator] at hlimit
    have hprecedence := Level.sum_precedence_le o
    exact .join (Level.sum_leavesFor ho) (fun w hw => hwaiting w hw _ hprecedence) hprecedence
      (by decide) (ihl (by omega) hwaiting)
      (ihr (by omega) (undisturbed (Level.product_staysFor ho)))

/-- The terms of a sentence are the postorder of its tree. -/
theorem ofTokens_of_derives {tokens : List (Spanned (Token α))} {t : Tree α}
    (h : Derives .sum (tokens.map (·.item)) t) {limit : Nat}
    (hlimit : Token.nesting (tokens.map (·.item)) ≤ limit) :
    ∃ terms, ofTokens limit tokens = .ok terms ∧ terms.map (·.item) = t.postorder := by
  have hdepth : Token.nestingFrom ([] : List (List Operator)).length (tokens.map (·.item))
      ≤ limit := hlimit
  obtain ⟨settled, pending, hterms, -, hrest⟩ :=
    arranges_of_derives h hdepth (undisturbed_nil _)
  refine ofTokens_of_order? ?_
  simpa [order?, hterms] using hrest []

end Postfix

/-- Every sentence of the infix grammar whose parentheses nest within the limit is read, and the
tree that is found at the front of the nodes is the tree of the sentence. -/
theorem unfolds_of_derives {tokens : List (Spanned (Token α))} {t : Tree α}
    (h : Derives .sum (tokens.map (·.item)) t) {limit : Nat}
    (hlimit : Token.nesting (tokens.map (·.item)) ≤ limit) :
    ∃ terms a, Postfix.ofTokens limit tokens = .ok terms ∧ Arena.ofPostfix terms = .ok a ∧
      Node.Unfolds a.breadthFirst 0 t := by
  obtain ⟨terms, hterms, hpostorder⟩ := Postfix.ofTokens_of_derives h hlimit
  refine ⟨terms, Arena.ofTree t, hterms, ?_, ?_⟩
  · rw [Arena.ofPostfix_eq, Tree.ofPostfix_eq_ok_iff.2 hpostorder]
    rfl
  · rw [Arena.breadthFirst_ofTree]
    exact Layout.unfolds_ofTree t

/-- In `a-(b)-c^d^e` differences group to the left and powers to the right. -/
theorem unfolds_of_derives_difference :
    ∃ terms a, Postfix.ofTokens 1
        [⟨.operand 'a', 0, 1⟩, ⟨.operator .sub, 1, 2⟩, ⟨.opening, 2, 3⟩, ⟨.operand 'b', 3, 4⟩,
          ⟨.closing, 4, 5⟩, ⟨.operator .sub, 5, 6⟩, ⟨.operand 'c', 6, 7⟩, ⟨.operator .pow, 7, 8⟩,
          ⟨.operand 'd', 8, 9⟩, ⟨.operator .pow, 9, 10⟩, ⟨.operand 'e', 10, 11⟩] = .ok terms ∧
      Arena.ofPostfix terms = .ok a ∧
      Node.Unfolds a.breadthFirst 0
        (.branch .sub (.branch .sub (.leaf 'a') (.leaf 'b'))
          (.branch .pow (.leaf 'c') (.branch .pow (.leaf 'd') (.leaf 'e')))) := by
  have hgroup : Derives .product [.opening, .operand 'b', .closing] (.leaf 'b') :=
    .power (.primary (.group (.product (.power (.primary (.operand 'b'))))))
  have hleft : Derives .sum
      ([.operand 'a'] ++ .operator .sub :: [.opening, .operand 'b', .closing])
      (.branch .sub (.leaf 'a') (.leaf 'b')) :=
    .add (.inr rfl) (.product (.power (.primary (.operand 'a')))) hgroup
  have hpower : Derives .power
      ([.operand 'c'] ++ .operator .pow :: ([.operand 'd'] ++ .operator .pow :: [.operand 'e']))
      (.branch .pow (.leaf 'c') (.branch .pow (.leaf 'd') (.leaf 'e'))) :=
    .pow (.operand 'c') (.pow (.operand 'd') (.primary (.operand 'e')))
  refine unfolds_of_derives ?_ ?_
  · exact .add (.inr rfl) hleft (.power hpower)
  · decide

end ComplexFormula
