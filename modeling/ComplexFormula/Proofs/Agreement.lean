import ComplexFormula.Formula
import Mathlib.Data.List.Forall2

/-!
Two runs side by side, on the same tokens at other offsets. Which offsets correspond is left open:
an offset is carried along from a token to the position of an error and decides nothing, so the
converter and the tree builder come to the same end in both runs, at positions that correspond.
-/

namespace List

variable {α β : Type} {R : α → β → Prop} {as : List α} {bs : List β} {p : α → Bool} {q : β → Bool}

theorem Forall₂.takeWhile (h : Forall₂ R as bs) (hpq : ∀ {a b}, R a b → q b = p a) :
    Forall₂ R (as.takeWhile p) (bs.takeWhile q) := by
  induction h with
  | nil => exact .nil
  | cons hab _ ih =>
    rw [takeWhile_cons, takeWhile_cons, hpq hab]
    split
    · exact .cons hab ih
    · exact .nil

theorem Forall₂.dropWhile (h : Forall₂ R as bs) (hpq : ∀ {a b}, R a b → q b = p a) :
    Forall₂ R (as.dropWhile p) (bs.dropWhile q) := by
  induction h with
  | nil => exact .nil
  | cons hab h ih =>
    rw [dropWhile_cons, dropWhile_cons, hpq hab]
    split
    · exact ih
    · exact .cons hab h

end List

namespace ComplexFormula

open List (Forall₂)

variable {α β γ δ : Type} {R : Nat → Nat → Prop} {S : α → β → Prop} {T : γ → δ → Prop}

/-- The same item, at offsets that correspond. Where the two end is not compared. -/
structure Spanned.Alike (R : Nat → Nat → Prop) (s s' : Spanned α) : Prop where
  item : s'.item = s.item
  start : R s.start s'.start

/-- Both runs succeed, with results that correspond, or both fail of the same fault, at positions
that are unknown or correspond. -/
inductive Agree (R : Nat → Nat → Prop) (S : α → β → Prop) :
    Except ParseError α → Except ParseError β → Prop
  | ok {a : α} {b : β} (h : S a b) : Agree R S (.ok a) (.ok b)
  | unplaced (fault : Fault) : Agree R S (.error ⟨fault, .unknown⟩) (.error ⟨fault, .unknown⟩)
  | placed (fault : Fault) {p q : Nat} (h : R p q) :
      Agree R S (.error ⟨fault, .offset p⟩) (.error ⟨fault, .offset q⟩)

namespace Agree

variable {u : Except ParseError α} {v : Except ParseError β}

theorem bind (h : Agree R S u v) {f : α → Except ParseError γ} {g : β → Except ParseError δ}
    (hfg : ∀ {a b}, S a b → Agree R T (f a) (g b)) : Agree R T (u >>= f) (v >>= g) := by
  cases h with
  | ok h => exact hfg h
  | unplaced fault => exact .unplaced fault
  | placed fault h => exact .placed fault h

theorem map (h : Agree R S u v) {f : α → γ} {g : β → δ} (hfg : ∀ {a b}, S a b → T (f a) (g b)) :
    Agree R T (f <$> u) (g <$> v) := by
  cases h with
  | ok h => exact .ok (hfg h)
  | unplaced fault => exact .unplaced fault
  | placed fault h => exact .placed fault h

theorem mapM {as : List α} {bs : List β} (h : Forall₂ S as bs) {f : α → Except ParseError γ}
    {g : β → Except ParseError δ} (hfg : ∀ {a b}, S a b → Agree R T (f a) (g b)) :
    Agree R (Forall₂ T) (as.mapM f) (bs.mapM g) := by
  induction h with
  | nil => exact .ok .nil
  | cons hab _ ih =>
    rw [List.mapM_cons, List.mapM_cons]
    exact (hfg hab).bind fun hcd => ih.bind fun hcds => .ok (.cons hcd hcds)

end Agree

/-! ### Postfix order -/

namespace Postfix

/-- Parentheses that were opened at offsets that correspond, outside the same operators. -/
structure Frame.Alike (R : Nat → Nat → Prop) (f f' : Frame) : Prop where
  start : R f.start f'.start
  outer : Forall₂ (Spanned.Alike R) f.outer f'.outer

variable {waiting waiting' : List (Spanned Operator)} {frames frames' : List Frame}
  {ts ts' : List (Spanned (Token α))}

theorem release_alike (h : Forall₂ (Spanned.Alike R) waiting waiting') :
    Forall₂ (Spanned.Alike R) (release waiting : List (Spanned (Term α))) (release waiting') := by
  simp only [release, List.forall₂_map_left_iff, List.forall₂_map_right_iff]
  exact h.imp fun _ _ h => ⟨congrArg Term.operator h.item, h.start⟩

theorem arrange_agree (limit : Nat) (hwaiting : Forall₂ (Spanned.Alike R) waiting waiting')
    (hframes : Forall₂ (Frame.Alike R) frames frames') (h : Forall₂ (Spanned.Alike R) ts ts') :
    Agree R (Forall₂ (Spanned.Alike R)) (arrange limit waiting frames ts)
      (arrange limit waiting' frames' ts') := by
  induction h generalizing waiting waiting' frames frames' with
  | nil =>
    cases hframes with
    | nil => exact .ok (release_alike hwaiting)
    | cons hframe _ => exact .placed _ hframe.start
  | @cons t t' rest rest' ht _ ih =>
    obtain ⟨item, start, stop⟩ := t
    obtain ⟨item', start', stop'⟩ := t'
    obtain rfl : item = item' := ht.item.symm
    have hstart : R start start' := ht.start
    cases item with
    | operand a => exact (ih hwaiting hframes).map fun hrest => .cons ⟨rfl, hstart⟩ hrest
    | operator o =>
      have hgoesFirst {w w' : Spanned Operator} (hw : w.Alike R w') :
          w'.item.bindsBefore o = w.item.bindsBefore o := by
        rw [hw.item]
      have ho : Spanned.Alike R ⟨o, start, stop⟩ ⟨o, start', stop'⟩ := ⟨rfl, hstart⟩
      exact (ih (.cons ho (hwaiting.dropWhile hgoesFirst)) hframes).map fun hrest =>
        List.rel_append (release_alike (hwaiting.takeWhile hgoesFirst)) hrest
    | opening =>
      simp only [arrange, ← hframes.length_eq]
      split
      · exact .placed _ hstart
      · exact ih .nil (.cons ⟨hstart, hwaiting⟩ hframes)
    | closing =>
      cases hframes with
      | nil => exact .placed _ hstart
      | cons hframe hframes =>
        exact (ih hframe.outer hframes).map fun hrest =>
          List.rel_append (release_alike hwaiting) hrest

end Postfix

/-! ### Trees -/

namespace Tree

/-- The same tree, from terms at offsets that correspond. -/
structure Pending.Alike (R : Nat → Nat → Prop) (w w' : Pending α) : Prop where
  tree : w'.tree = w.tree
  start : R w.start w'.start

theorem build_agree {stack stack' : List (Pending α)} {terms terms' : List (Spanned (Term α))}
    (hstack : Forall₂ (Pending.Alike R) stack stack')
    (h : Forall₂ (Spanned.Alike R) terms terms') :
    Agree R Eq (build stack terms) (build stack' terms') := by
  induction h generalizing stack stack' with
  | nil =>
    rw [build, build]
    have hreverse := List.rel_reverse hstack
    generalize stack.reverse = bottomUp, stack'.reverse = bottomUp' at hreverse ⊢
    cases hreverse with
    | nil => exact .unplaced _
    | cons hroot hrest =>
      cases hrest with
      | nil => exact .ok hroot.tree.symm
      | cons hextra _ => exact .placed _ hextra.start
  | @cons t t' rest rest' ht _ ih =>
    obtain ⟨item, start, stop⟩ := t
    obtain ⟨item', start', stop'⟩ := t'
    obtain rfl : item = item' := ht.item.symm
    have hstart : R start start' := ht.start
    cases item with
    | operand a => exact ih (.cons ⟨rfl, hstart⟩ hstack)
    | operator o =>
      cases hstack with
      | nil => exact .placed _ hstart
      | cons hright hrest =>
        cases hrest with
        | nil => exact .placed _ hstart
        | cons hleft hbelow =>
          refine ih (.cons ⟨?_, hstart⟩ hbelow)
          rw [hleft.tree, hright.tree]

end Tree

end ComplexFormula
