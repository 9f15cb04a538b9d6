import ComplexFormula.Proofs.Grammar

/-!
Sentences told by their neighbours. A run of tokens is a sentence exactly if its parentheses close
and operands alternate with operators: an operand or a `(` stands exactly where an operand is
awaited. Where no operand stands directly behind another, there is at most one operand more than
there are operators, and exactly one more only if they alternate.
-/

namespace ComplexFormula

variable {α : Type}

namespace Token

/-- Whether an operand can begin with the token. -/
def beginsOperand : Token α → Bool
  | .operand _ => true
  | .opening => true
  | _ => false

/-- An operand begins where one is awaited and nowhere else, and none is awaited at the end. Behind
a token one is awaited unless an operand ends with it. -/
def Alternates : Bool → List (Token α) → Prop
  | awaited, [] => awaited = false
  | awaited, t :: rest => t.beginsOperand = awaited ∧ Alternates (!t.endsOperand) rest

/-- No operand begins directly behind the end of another. -/
def Parted : Bool → List (Token α) → Prop
  | _, [] => True
  | awaited, t :: rest => (t.beginsOperand = true → awaited = true) ∧ Parted (!t.endsOperand) rest

/-- The tokens close `depth` parentheses that are open in front of them, and all their own. -/
def Closes : Nat → List (Token α) → Prop
  | depth, [] => depth = 0
  | depth, .opening :: rest => Closes (depth + 1) rest
  | 0, .closing :: _ => False
  | depth + 1, .closing :: rest => Closes depth rest
  | depth, _ :: rest => Closes depth rest

@[simp] theorem closes_operand (depth : Nat) (a : α) (rest : List (Token α)) :
    Closes depth (.operand a :: rest) = Closes depth rest := by
  cases depth <;> rfl

@[simp] theorem closes_operator (depth : Nat) (o : Operator) (rest : List (Token α)) :
    Closes depth (.operator o :: rest) = Closes depth rest := by
  cases depth <;> rfl

/-- How many more operands than operators there are. -/
def surplus : List (Token α) → Int
  | [] => 0
  | .operand _ :: rest => surplus rest + 1
  | .operator _ :: rest => surplus rest - 1
  | _ :: rest => surplus rest

/-- At most one operand more than operators if one is awaited in front, else none. Where it is just
that, operands alternate with operators. -/
theorem surplus_of_parted {awaited : Bool} {ts : List (Token α)} (h : Parted awaited ts) :
    surplus ts ≤ awaited.toNat ∧ (surplus ts = awaited.toNat → Alternates awaited ts) := by
  induction ts generalizing awaited with
  | nil => cases awaited <;> simp [surplus, Alternates]
  | cons t rest ih =>
    obtain ⟨hle, heq⟩ := ih h.2
    have hbegins := h.1
    cases t <;> cases awaited <;>
      simp only [surplus, Alternates, beginsOperand, endsOperand, Bool.not_true, Bool.not_false,
        Bool.toNat_true, Bool.toNat_false] at hbegins hle heq ⊢
    -- the token stands where it should, or where it must not, or what follows cannot make up for it
    all_goals first
      | exact ⟨by omega, fun h => ⟨trivial, heq (by omega)⟩⟩
      | exact (Bool.false_ne_true (hbegins trivial)).elim
      | exact ⟨by omega, fun h => absurd h (by omega)⟩

end Token

/-! ### Sentences alternate and close -/

/-- A sentence stands where an operand is awaited, and behind it none is. -/
theorem Derives.alternates_append {level : Level} {ts : List (Token α)} {t : Tree α}
    (h : Derives level ts t) {rest : List (Token α)} (hrest : Token.Alternates false rest) :
    Token.Alternates true (ts ++ rest) := by
  induction h generalizing rest with
  | operand a => exact ⟨rfl, hrest⟩
  | group h ih =>
    rw [List.cons_append, List.append_assoc]
    exact ⟨rfl, ih ⟨rfl, hrest⟩⟩
  | primary h ih => exact ih hrest
  | power h ih => exact ih hrest
  | product h ih => exact ih hrest
  | pow hl hr ihl ihr | mul ho hl hr ihl ihr | add ho hl hr ihl ihr =>
    rw [List.append_assoc]
    exact ihl ⟨rfl, ihr hrest⟩

/-- A sentence closes what it opens. -/
theorem Derives.closes_append {level : Level} {ts : List (Token α)} {t : Tree α}
    (h : Derives level ts t) (depth : Nat) {rest : List (Token α)}
    (hrest : Token.Closes depth rest) : Token.Closes depth (ts ++ rest) := by
  induction h generalizing depth rest with
  | operand a => simpa using hrest
  | group h ih =>
    rw [List.cons_append, List.append_assoc]
    exact ih (depth + 1) hrest
  | primary h ih => exact ih depth hrest
  | power h ih => exact ih depth hrest
  | product h ih => exact ih depth hrest
  | pow hl hr ihl ihr | mul ho hl hr ihl ihr | add ho hl hr ihl ihr =>
    rw [List.append_assoc]
    exact ihl depth (by simpa using ihr depth hrest)

/-- An operator and a primary behind a sentence make a longer sentence of the same level. -/
theorem Derives.append_operator {level : Level} {us vs : List (Token α)} {l r : Tree α}
    {o : Operator} (hl : Derives level us l) (ho : level.precedence ≤ o.precedence)
    (hr : Derives .primary vs r) : ∃ t, Derives level (us ++ .operator o :: vs) t := by
  induction hl with
  | operand a => cases o <;> simp [Level.precedence, Operator.precedence] at ho
  | group h _ => cases o <;> simp [Level.precedence, Operator.precedence] at ho
  | primary h _ =>
    obtain rfl : o = .pow := by cases o <;> simp [Level.precedence, Operator.precedence] at ho ⊢
    exact ⟨_, .pow h (.primary hr)⟩
  | pow hl' hr' _ ih =>
    obtain ⟨t, ht⟩ := ih ho
    simpa using ⟨_, Derives.pow hl' ht⟩
  | power h ih =>
    by_cases hpow : Level.power.precedence ≤ o.precedence
    · obtain ⟨t, ht⟩ := ih hpow
      exact ⟨t, .power ht⟩
    · refine ⟨_, .mul ?_ (.power h) (.primary hr)⟩
      cases o <;> simp [Level.precedence, Operator.precedence] at ho hpow ⊢
  | mul ho' hl' hr' _ ih =>
    by_cases hpow : Level.power.precedence ≤ o.precedence
    · obtain ⟨t, ht⟩ := ih hpow
      simpa using ⟨_, Derives.mul ho' hl' ht⟩
    · refine ⟨_, .mul ?_ (.mul ho' hl' hr') (.primary hr)⟩
      cases o <;> simp [Level.precedence, Operator.precedence] at ho hpow ⊢
  | product h ih =>
    by_cases hproduct : Level.product.precedence ≤ o.precedence
    · obtain ⟨t, ht⟩ := ih hproduct
      exact ⟨t, .product ht⟩
    · refine ⟨_, .add ?_ (.product h) (.power (.primary hr))⟩
      cases o <;> simp [Level.precedence, Operator.precedence] at ho hproduct ⊢
  | add ho' hl' hr' _ ih =>
    by_cases hproduct : Level.product.precedence ≤ o.precedence
    · obtain ⟨t, ht⟩ := ih hproduct
      simpa using ⟨_, Derives.add ho' hl' ht⟩
    · refine ⟨_, .add ?_ (.add ho' hl' hr') (.power (.primary hr))⟩
      cases o <;> simp [Level.precedence, Operator.precedence] at ho hproduct ⊢

theorem Derives.sum_of_primary {ts : List (Token α)} {t : Tree α} (h : Derives .primary ts t) :
    Derives .sum ts t :=
  .product (.power (.primary h))

/-! ### What alternates and closes is a sentence -/

/-- A sum that awaits its next operand: nothing, or a sum with an operator behind it. -/
def Awaits (ts : List (Token α)) : Prop :=
  ts = [] ∨ ∃ us l o, Derives .sum us l ∧ ts = us ++ [.operator o]

/-- A primary completes a sum that awaits it. -/
theorem Awaits.complete {ts vs : List (Token α)} {r : Tree α} (h : Awaits ts)
    (hr : Derives .primary vs r) : ∃ t, Derives .sum (ts ++ vs) t := by
  obtain rfl | ⟨us, l, o, hl, rfl⟩ := h
  · exact ⟨r, hr.sum_of_primary⟩
  · have ho : Level.sum.precedence ≤ o.precedence := by cases o <;> decide
    simpa using hl.append_operator ho hr

/-- Tokens up to a `(` that is the innermost of `depth` open ones, or none at depth 0. Each level
outside awaits the group as its next operand. -/
inductive Opened : Nat → List (Token α) → Prop
  | none : Opened 0 []
  | opening {depth : Nat} {before ts : List (Token α)} (h : Opened depth before)
      (hts : Awaits ts) : Opened (depth + 1) (before ++ ts ++ [.opening])

/-- The part of a level that has been read: a sum that awaits an operand, or a sum. -/
def Level.Begun (awaited : Bool) (ts : List (Token α)) : Prop :=
  if awaited then Awaits ts else ∃ t, Derives .sum ts t

/-- Reading on from any point completes the sentence. -/
theorem exists_derives_of_begun {rest : List (Token α)} {depth : Nat} {before ts : List (Token α)}
    {awaited : Bool} (hbefore : Opened depth before) (hts : Level.Begun awaited ts)
    (halternates : Token.Alternates awaited rest) (hcloses : Token.Closes depth rest) :
    ∃ t, Derives .sum (before ++ ts ++ rest) t := by
  induction rest generalizing depth before ts awaited with
  | nil =>
    obtain rfl : awaited = false := halternates
    obtain rfl : depth = 0 := hcloses
    cases hbefore
    simpa [Level.Begun] using hts
  | cons token rest ih =>
    obtain ⟨hbegins, hrest⟩ := halternates
    cases token with
    | operand a =>
      subst hbegins
      have hts : Level.Begun false (ts ++ [.operand a]) := Awaits.complete hts (.operand a)
      simpa using ih hbefore hts hrest (by simpa using hcloses)
    | operator o =>
      subst hbegins
      obtain ⟨t, ht⟩ : ∃ t, Derives .sum ts t := hts
      have hts : Level.Begun true (ts ++ [.operator o]) := .inr ⟨ts, t, o, ht, rfl⟩
      simpa using ih hbefore hts hrest (by simpa using hcloses)
    | opening =>
      subst hbegins
      have hnil : Level.Begun (α := α) true [] := .inl rfl
      simpa using ih (hbefore.opening hts) hnil hrest hcloses
    | closing =>
      subst hbegins
      obtain ⟨t, ht⟩ : ∃ t, Derives .sum ts t := hts
      cases hbefore with
      | none => exact hcloses.elim
      | @opening depth before outer hbefore houter =>
        have hts : Level.Begun false (outer ++ (.opening :: (ts ++ [.closing]))) :=
          Awaits.complete houter (.group ht)
        simpa using ih hbefore hts hrest hcloses

/-- The sentences are the runs of tokens that alternate and close. -/
theorem exists_derives_iff {ts : List (Token α)} :
    (∃ t, Derives .sum ts t) ↔ Token.Alternates true ts ∧ Token.Closes 0 ts := by
  constructor
  · rintro ⟨t, ht⟩
    refine ⟨?_, ?_⟩
    · rw [← List.append_nil ts]
      exact ht.alternates_append rfl
    · rw [← List.append_nil ts]
      exact ht.closes_append 0 rfl
  · rintro ⟨halternates, hcloses⟩
    have hnil : Level.Begun (α := α) true [] := .inl rfl
    exact exists_derives_of_begun .none hnil halternates hcloses

end ComplexFormula
