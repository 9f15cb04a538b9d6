import ComplexFormula.Proofs.Binary64.Exactness
import ComplexFormula.Proofs.Constancy
import ComplexFormula.Proofs.Recognition

/-!
Which expressions are equal to themselves. Expressions are compared with the numbers that their
operands hold, and NaN is unlike itself. No literal is read as NaN, so it is only the values that
calls carry which can set an expression apart from another one of the same formula.
-/

namespace ComplexFormula

open Float.Model (UnpackedFloat)

/-! ### Floats -/

namespace Binary64

/-- Of all floats, only NaN is unlike itself. -/
theorem beq_self (f : Float) : (f == f) = !f.isNaN := by
  rw [Bool.eq_iff_iff, Float.beq_self_iff, Float.isNaN_eq_decide_eq_nan, Bool.not_eq_true',
    decide_eq_false_iff_not]

theorem isNaN_neg (f : Float) : (-f).isNaN = f.isNaN := by
  refine (isNaN_pack f.toModel.unpack.neg).trans ?_
  change _ = f.toModel.unpack.isNaN
  cases f.toModel.unpack <;> rfl

/-- Whether what is unpacked is a number other than zero. -/
def isNonzero : UnpackedFloat → Bool
  | .finite _ _ _ _ => true
  | _ => false

theorem isNaN_roundWithAccuracy (s : UnpackedFloat.Sign) (m : ℕ) (e : ℤ)
    (accuracy : UnpackedFloat.Accuracy) :
    (UnpackedFloat.roundWithAccuracy .binary64 s m e accuracy).isNaN = false := by
  unfold UnpackedFloat.roundWithAccuracy
  dsimp only
  split <;> rfl

/-- A product of numbers may be too great to be one, but it is not NaN. -/
theorem isNaN_mul {u v : UnpackedFloat} (hu : u.isFinite = true) (hv : v.isFinite = true) :
    (u.mul .binary64 v).isNaN = false := by
  cases u with
  | infinity | notANumber => cases hu
  | zero s =>
    cases v with
    | infinity | notANumber => cases hv
    | zero | finite => rfl
  | finite s m e hm =>
    cases v with
    | infinity | notANumber => cases hv
    | zero => rfl
    | finite => exact isNaN_roundWithAccuracy _ _ _ _

/-- And neither is a quotient whose divisor is not zero. -/
theorem isNaN_div {u v : UnpackedFloat} (hu : u.isFinite = true) (hv : isNonzero v = true) :
    (u.div .binary64 v).isNaN = false := by
  cases v with
  | zero | infinity | notANumber => cases hv
  | finite =>
    cases u with
    | infinity | notANumber => cases hu
    | zero => rfl
    | finite => exact isNaN_roundWithAccuracy _ _ _ _

theorem isFinite_of_isNonzero {u : UnpackedFloat} (h : isNonzero u = true) : u.isFinite = true := by
  cases u with
  | finite => rfl
  | zero | infinity | notANumber => cases h

/-- A power of ten that is too great or too small is not even tried. -/
theorem isNaN_ofScientific_unpacked (m : ℕ) (e : ℤ) :
    (UnpackedFloat.ofScientific .binary64 m e).isNaN = false := by
  unfold UnpackedFloat.ofScientific
  repeat' split
  · rfl
  · rfl
  · rfl
  · exact isNaN_mul rfl rfl
  · exact isNaN_div rfl rfl

/-- A decimal is never read as NaN. -/
theorem isNaN_ofScientific (m : ℕ) (negative : Bool) (e : ℕ) :
    (Float.ofScientific m negative e).isNaN = false := by
  unfold Float.ofScientific
  split
  next h =>
    have hpower : Float.exactlyRepresentablePowersOfTen.all
        (fun power => isNonzero power.toModel.unpack) = true := by
      decide +kernel
    have hword : m.toUInt64.toNat < 2 ^ 53 := by
      rw [UInt64.toNat_ofNat_of_lt' (h.1.trans (by decide))]
      exact h.1
    have hwhole := (denotes_toFloat hword).isFinite
    have hnonzero := Array.all_eq_true.1 hpower e (Nat.lt_succ_of_le h.2)
    dsimp only
    split
    · exact (isNaN_pack _).trans (isNaN_div hwhole hnonzero)
    · exact (isNaN_pack _).trans (isNaN_mul hwhole (isFinite_of_isNonzero hnonzero))
  next => exact (isNaN_pack _).trans (isNaN_ofScientific_unpacked _ _)

end Binary64

theorem Decimal.isNaN_of_read? {cs : List Char} {v : Float} (h : read? cs = some v) :
    v.isNaN = false := by
  unfold read? at h
  dsimp only at h
  split at h
  · split at h
    · cases h
    · cases h
      exact Binary64.isNaN_ofScientific _ _ _
  · split at h
    · cases h
      exact Binary64.isNaN_ofScientific _ _ _
    · cases h

/-! ### Numbers that are written -/

/-- Whether a component is NaN. -/
def ComplexFloat.isNaN (z : ComplexFloat) : Bool :=
  z.re.isNaN || z.im.isNaN

theorem ComplexFloat.beq_self (z : ComplexFloat) : (z == z) = !z.isNaN := by
  change (z.re == z.re && z.im == z.im) = _
  rw [Binary64.beq_self, Binary64.beq_self, isNaN, Bool.not_or]

namespace Atom

/-- None of the numbers that stand in the operand is NaN. -/
def WithoutNaN (a : Atom) : Prop :=
  ∀ z, Within (.number z) a → z.isNaN = false

variable {a b : Atom} {z : ComplexFloat}

theorem withoutNaN_number : (number z).WithoutNaN ↔ z.isNaN = false := by
  constructor
  · exact fun h => h z .self
  · rintro h _ ⟨⟩
    exact h

theorem withoutNaN_free : free.WithoutNaN := by
  rintro _ ⟨⟩

theorem withoutNaN_unary {f : Builtin.Unary} : (unary f a).WithoutNaN ↔ a.WithoutNaN := by
  constructor
  · exact fun h z hz => h z (.argument f hz)
  · rintro h z (_ | ⟨_, hz⟩)
    exact h z hz

theorem withoutNaN_binary {f : Builtin.Binary} :
    (binary f a b).WithoutNaN ↔ a.WithoutNaN ∧ b.WithoutNaN := by
  constructor
  · exact fun h => ⟨fun z hz => h z (.left f b hz), fun z hz => h z (.right f a hz)⟩
  · rintro ⟨ha, hb⟩ z (_ | _ | ⟨_, _, hz⟩ | ⟨_, _, hz⟩)
    · exact ha z hz
    · exact hb z hz

theorem isNaN_signed (negative : Bool) (v : Float) : (signed negative v).isNaN = v.isNaN := by
  cases negative with
  | false => rfl
  | true => exact Binary64.isNaN_neg v

theorem withoutNaN_of_call {name : String} {arguments : List Atom} {position : Position}
    (h : call name arguments position = .ok a) (harguments : ∀ b ∈ arguments, b.WithoutNaN) :
    a.WithoutNaN := by
  rcases Builtin.call_eq_ok_iff.1 h with ⟨f, b, -, rfl, rfl⟩ | ⟨f, b, c, -, rfl, rfl⟩
  · exact withoutNaN_unary.2 (harguments b (.head _))
  · exact withoutNaN_binary.2 ⟨harguments b (.head _), harguments c (.tail _ (.head _))⟩

/-- What is written has no NaN in it. -/
theorem Written.withoutNaN {cs : List Char} (h : Written cs a) : a.WithoutNaN := by
  have hzero : (0 : Float).isNaN = false := Binary64.isNaN_ofScientific 0 false 0
  have hvalue {digits : List Char} (h : Decimal.IsLiteral digits) : h.value.isNaN = false :=
    Decimal.isNaN_of_read? h.read?_eq
  induction h with
  | free => exact withoutNaN_free
  | imaginaryUnit => exact withoutNaN_number.2 (by decide +kernel)
  | real negative h =>
    rw [withoutNaN_number, ComplexFloat.isNaN, isNaN_signed, hvalue, hzero]
    rfl
  | imaginary negative h =>
    rw [withoutNaN_number, ComplexFloat.isNaN, isNaN_signed, hvalue, hzero]
    rfl
  | unary f _ ih => exact withoutNaN_unary.2 ih
  | binary f _ _ iha ihb => exact withoutNaN_binary.2 ⟨iha, ihb⟩

end Atom

namespace Lexeme

variable {limit levels : Nat} {inner : Option Reader} {before : Option Glyph} {g : Glyph}
  {gs rest : List Glyph} {r : Reading} {ls : List Lexeme}

/-- None of the numbers that are read is NaN. -/
def WithoutNaN (ls : List Lexeme) : Prop :=
  ∀ a ∈ Token.operands (ls.map (·.item)), a.WithoutNaN

theorem withoutNaN_singleton {l : Lexeme} :
    WithoutNaN [l] ↔ ∀ a, l.item = .operand a → a.WithoutNaN := by
  simp [WithoutNaN, Token.operands, Token.operand?_eq_some_iff]

theorem withoutNaN_append {ms : List Lexeme} :
    WithoutNaN (ls ++ ms) ↔ WithoutNaN ls ∧ WithoutNaN ms := by
  simp only [WithoutNaN, Token.operands, List.map_append, List.filterMap_append,
    List.forall_mem_append]

theorem withoutNaN_of_readOne
    (hinner : ∀ reader ∈ inner, ∀ gs ls, reader gs = .ok ls → WithoutNaN ls)
    (h : readOne limit inner before g rest = .ok r) : WithoutNaN r.lexemes := by
  cases stepRead_of_readOne h with
  | literal _ _ h =>
    obtain ⟨used, a, stop, -, hr, hwritten⟩ := written_of_readLiteral h
    rw [hr, withoutNaN_singleton]
    rintro _ ⟨⟩
    exact hwritten.withoutNaN
  | free =>
    refine withoutNaN_singleton.2 ?_
    rintro _ ⟨⟩
    exact Atom.withoutNaN_free
  | imaginaryUnit =>
    refine withoutNaN_singleton.2 ?_
    rintro _ ⟨⟩
    exact Atom.Written.imaginaryUnit.withoutNaN
  | opening | closing | operator => exact withoutNaN_singleton.2 nofun
  | negation =>
    rintro a ha
    obtain rfl : a = .number .minusOne := by
      simpa [Token.operands, Spanned.map, Token.operand?] using ha
    exact Atom.withoutNaN_number.2 (by decide +kernel)
  | call _ h =>
    obtain ⟨_, _, reader, _, atoms, a, -, -, hreader, -, hatoms, ha, rfl⟩ :=
      readCall_eq_ok_iff.1 h
    rw [withoutNaN_singleton]
    rintro _ ⟨⟩
    refine Atom.withoutNaN_of_call ha fun b hb => ?_
    obtain ⟨argument, -, l, hl, hitem⟩ := exists_of_mem_of_mapM hatoms hb
    exact withoutNaN_singleton.1 (hinner reader hreader argument [l] hl) b hitem

theorem Scans.withoutNaN
    (hinner : ∀ reader ∈ inner, ∀ gs ls, reader gs = .ok ls → WithoutNaN ls)
    (h : Scans limit inner before gs ls) : WithoutNaN ls := by
  induction h with
  | nil => nofun
  | cons h _ ih => exact withoutNaN_append.2 ⟨withoutNaN_of_readOne hinner h, ih⟩

theorem withoutNaN_of_read (h : read limit levels gs = .ok ls) : WithoutNaN ls := by
  induction levels generalizing gs ls with
  | zero =>
    obtain ⟨scanned, hscans, rfl⟩ := read_eq_ok_iff.1 h
    have hinner : ∀ reader ∈ innerReader limit 0, ∀ gs ls, reader gs = .ok ls → WithoutNaN ls :=
      nofun
    rw [WithoutNaN, operands_multiply]
    exact hscans.withoutNaN hinner
  | succ levels ih =>
    obtain ⟨scanned, hscans, rfl⟩ := read_eq_ok_iff.1 h
    have hinner : ∀ reader ∈ innerReader limit (levels + 1),
        ∀ gs ls, reader gs = .ok ls → WithoutNaN ls := by
      rintro _ ⟨⟩ _ _
      exact ih
    rw [WithoutNaN, operands_multiply]
    exact hscans.withoutNaN hinner

end Lexeme

/-! ### Equality -/

namespace Operand

/-- A call in the operand, the operand itself or one in an argument, carries the value. -/
inductive Carries (z : ComplexFloat) : Operand → Prop
  | unary (f : Builtin.Unary) (a : Operand) (changing : Bool) :
      Carries z (.unary f a ⟨changing, some z⟩)
  | binary (f : Builtin.Binary) (a b : Operand) (changing : Bool) :
      Carries z (.binary f a b ⟨changing, some z⟩)
  | argument (f : Builtin.Unary) {a : Operand} (memo : Memo) (h : Carries z a) :
      Carries z (.unary f a memo)
  | left (f : Builtin.Binary) {a : Operand} (b : Operand) (memo : Memo) (h : Carries z a) :
      Carries z (.binary f a b memo)
  | right (f : Builtin.Binary) (a : Operand) {b : Operand} (memo : Memo) (h : Carries z b) :
      Carries z (.binary f a b memo)

/-- No call in the operand carries a NaN. -/
def CarriesNoNaN (a : Operand) : Prop :=
  ∀ z, a.Carries z → z.isNaN = false

variable {a b : Operand} {memo : Memo}

theorem carriesNoNaN_number (z : ComplexFloat) : (number z).CarriesNoNaN := by
  intro w hw
  cases hw

theorem carriesNoNaN_free : free.CarriesNoNaN := by
  intro w hw
  cases hw

theorem carriesNoNaN_unary {f : Builtin.Unary} : (unary f a memo).CarriesNoNaN ↔
    a.CarriesNoNaN ∧ ∀ z ∈ memo.value?, z.isNaN = false := by
  rcases memo with ⟨changing, value?⟩
  constructor
  · refine fun h => ⟨fun z hz => h z (.argument f _ hz), ?_⟩
    rintro z ⟨⟩
    exact h z (.unary f a changing)
  · rintro ⟨ha, hvalue⟩ z hz
    cases hz with
    | unary => exact hvalue z rfl
    | argument _ _ hz => exact ha z hz

theorem carriesNoNaN_binary {f : Builtin.Binary} : (binary f a b memo).CarriesNoNaN ↔
    (a.CarriesNoNaN ∧ b.CarriesNoNaN) ∧ ∀ z ∈ memo.value?, z.isNaN = false := by
  rcases memo with ⟨changing, value?⟩
  constructor
  · refine fun h => ⟨⟨fun z hz => h z (.left f b _ hz), fun z hz => h z (.right f a _ hz)⟩, ?_⟩
    rintro z ⟨⟩
    exact h z (.binary f a b changing)
  · rintro ⟨⟨ha, hb⟩, hvalue⟩ z hz
    cases hz with
    | binary => exact hvalue z rfl
    | left _ _ _ hz => exact ha z hz
    | right _ _ _ hz => exact hb z hz

theorem beq_self_memo (memo : Memo) :
    (memo == memo) = true ↔ ∀ z ∈ memo.value?, z.isNaN = false := by
  rcases memo with ⟨changing, _ | z⟩
  · change (changing == changing && true) = true ↔ _
    simp
  · change (changing == changing && z == z) = true ↔ _
    rw [ComplexFloat.beq_self]
    simp

/-- An operand is equal to itself if neither a number in it nor a value that is carried in it is
NaN. -/
theorem beq_self_iff (a : Operand) :
    (a == a) = true ↔ a.toAtom.WithoutNaN ∧ a.CarriesNoNaN := by
  induction a with
  | number z =>
    change (z == z) = true ↔ _
    rw [ComplexFloat.beq_self, Bool.not_eq_true', toAtom, Atom.withoutNaN_number,
      and_iff_left (carriesNoNaN_number z)]
  | free => exact iff_of_true rfl ⟨Atom.withoutNaN_free, carriesNoNaN_free⟩
  | unary f a memo ih =>
    change (f == f && (a == a && memo == memo)) = true ↔ _
    rw [beq_self_eq_true, Bool.true_and, Bool.and_eq_true, ih, beq_self_memo, carriesNoNaN_unary,
      toAtom, Atom.withoutNaN_unary, and_assoc]
  | binary f a b memo iha ihb =>
    change (f == f && (a == a && (b == b && memo == memo))) = true ↔ _
    rw [beq_self_eq_true, Bool.true_and, Bool.and_eq_true, Bool.and_eq_true, iha, ihb,
      beq_self_memo, carriesNoNaN_binary, toAtom, Atom.withoutNaN_binary, ← and_assoc,
      and_and_and_comm, and_assoc]

end Operand

namespace Expression

theorem beq_self_nodes (nodes : List (Node Operand)) :
    (nodes == nodes) = true ↔ ∀ a ∈ Node.operands nodes, (a == a) = true := by
  induction nodes with
  | nil => exact iff_of_true rfl nofun
  | cons node nodes ih =>
    change (node == node && nodes == nodes) = true ↔ _
    rw [Bool.and_eq_true, ih]
    cases node with
    | leaf a =>
      change (a == a) = true ∧ _ ↔ ∀ b ∈ a :: Node.operands nodes, (b == b) = true
      rw [List.forall_mem_cons]
    | branch o l r =>
      change (o == o && (l == l && r == r)) = true ∧ _ ↔ ∀ b ∈ Node.operands nodes, (b == b) = true
      simp

theorem beq_self_iff (e : Expression) :
    (e == e) = true ↔ ∀ a ∈ e.operands, a.toAtom.WithoutNaN ∧ a.CarriesNoNaN := by
  change (e.nodes == e.nodes) = true ↔ _
  simp only [beq_self_nodes, operands, Operand.beq_self_iff]

end Expression

namespace Formula

variable {f : Formula}

/-- No number of a formula that is read is NaN. -/
theorem withoutNaN_of_build {e : Expression} (h : f.build = .ok e) {a : Operand}
    (ha : a ∈ e.operands) : a.toAtom.WithoutNaN := by
  obtain ⟨ls, hls, hperm⟩ := operands_of_build h
  obtain ⟨b, hb, rfl⟩ := List.mem_map.1 (hperm.mem_iff.1 ha)
  rw [Atom.toAtom_fold]
  exact Lexeme.withoutNaN_of_read hls b hb

/-- Two expressions of one formula are equal exactly if no call in them carries a NaN, in whatever
leaf and however deep it stands. -/
theorem beq_iff_of_build {a b : Expression} (ha : f.build = .ok a) (hb : f.build = .ok b) :
    (a == b) = true ↔ ¬ ∃ o ∈ a.operands, ∃ z, o.Carries z ∧ z.isNaN = true := by
  obtain rfl : a = b := Except.ok.inj (ha.symm.trans hb)
  rw [Expression.beq_self_iff]
  constructor
  · rintro h ⟨o, ho, z, hz, hnan⟩
    rw [(h o ho).2 z hz] at hnan
    cases hnan
  · intro h o ho
    refine ⟨withoutNaN_of_build ha ho, fun z hz => Bool.eq_false_iff.2 fun hnan => ?_⟩
    exact h ⟨o, ho, z, hz, hnan⟩

/-- A literal of 310 digits is infinite. Both components of its root are, if it is marked as
imaginary, and the exponential of that has a NaN. The call carries it. -/
theorem beq_iff_of_build_infinite : ∃ e,
    (Formula.mk ("exp(sqrt(1" ++ String.ofList (List.replicate 309 '0') ++ "i))") 2).build = .ok e ∧
      (e == e) = false := by
  have hliteral : Decimal.IsLiteral ('1' :: List.replicate 309 '0') :=
    Decimal.isSome_read?_iff.1 (by decide +kernel)
  have hvalue : hliteral.value = 1 / 0 := by
    have hread : Decimal.read? ('1' :: List.replicate 309 '0') = some (1 / 0) := by decide +kernel
    exact Option.some.inj (hliteral.read?_eq.symm.trans hread)
  have hzeros :
      Text.spelling (String.ofList (List.replicate 309 '0')) = List.replicate 309 '0' := by
    have hzero : (!Text.isBlank '0') = true := by decide
    rw [Text.spelling, String.toList_ofList,
      List.filter_replicate_of_pos (p := fun c => !Text.isBlank c) hzero, List.map_replicate]
    rfl
  generalize List.replicate 309 '0' = zeros at hliteral hvalue hzeros ⊢
  have hwritten := ((Atom.Written.imaginary false hliteral (.inl rfl)).unary .sqrt).unary .exp
  rw [Atom.signed, if_neg Bool.false_ne_true, hvalue] at hwritten
  have hspelling : Text.spelling ("exp(sqrt(1" ++ String.ofList zeros ++ "i))") =
      Builtin.Unary.exp.name.toList ++ '(' :: (Builtin.Unary.sqrt.name.toList ++
        '(' :: (Atom.sign false ++ ('1' :: zeros ++ ['i']) ++ [')']) ++ [')']) := by
    have hfront : Text.spelling "exp(sqrt(1" = "exp(sqrt(1".toList := by decide
    have hback : Text.spelling "i))" = "i))".toList := by decide
    simp [Text.spelling_append, hzeros, hfront, hback, Builtin.Unary.name, Atom.sign]
  rw [← hspelling] at hwritten
  have hdepth : (Atom.unary .exp (.unary .sqrt (.number ⟨0, 1 / 0⟩))).callDepth ≤ 2 := by decide
  have hcarries : ∃ z,
      (Atom.unary .exp (.unary .sqrt (.number ⟨0, 1 / 0⟩))).fold.Carries z ∧ z.isNaN = true := by
    rw [Atom.fold_unary]
    exact ⟨_, .unary _ _ _, by decide +kernel⟩
  generalize Atom.unary .exp (.unary .sqrt (.number ⟨0, 1 / 0⟩)) = a at hwritten hdepth hcarries
  have hbuild := build_of_tree (tree_of_written hwritten hdepth)
  refine ⟨_, hbuild, Bool.eq_false_iff.2 fun hequal => ?_⟩
  have hoperand : a.fold ∈ (Expression.ofTree (.leaf a)).operands :=
    (Expression.operands_ofTree_perm _).mem_iff.2 (.head _)
  exact (beq_iff_of_build hbuild hbuild).1 hequal ⟨a.fold, hoperand, hcarries⟩

end Formula

end ComplexFormula
