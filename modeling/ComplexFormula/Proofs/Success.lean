import Mathlib.Control.Monad.Basic
import Mathlib.Data.List.Forall2

/-!
When a computation that can fail has succeeded, so have its parts.
-/

namespace Except

variable {ε α β : Type}

theorem map_eq_ok_iff {f : α → β} {e : Except ε α} {b : β} :
    f <$> e = .ok b ↔ ∃ a, e = .ok a ∧ f a = b := by
  cases e <;> simp [Functor.map, Except.map]

theorem bind_eq_ok_iff {f : α → Except ε β} {e : Except ε α} {b : β} :
    e >>= f = .ok b ↔ ∃ a, e = .ok a ∧ f a = .ok b := by
  cases e <;> simp [bind, Except.bind]

/-- Doing something with each item succeeds if it does with all of them. -/
theorem mapM_eq_ok_iff {f : α → Except ε β} {as : List α} {bs : List β} :
    as.mapM f = .ok bs ↔ List.Forall₂ (fun a b => f a = .ok b) as bs := by
  induction as generalizing bs with
  | nil =>
    rw [List.mapM_nil, List.forall₂_nil_left_iff]
    exact ⟨fun h => (Except.ok.inj h).symm, fun h => h ▸ rfl⟩
  | cons a as ih =>
    rw [List.mapM_cons, bind_eq_ok_iff, List.forall₂_cons_left_iff]
    refine exists_congr fun b => ?_
    simp only [bind_eq_ok_iff, ih]
    constructor
    · rintro ⟨ha, bs, has, h⟩
      exact ⟨bs, ha, has, (Except.ok.inj h).symm⟩
    · rintro ⟨bs, ha, has, rfl⟩
      exact ⟨ha, bs, has, rfl⟩

/-- What has succeeded with all items has succeeded with each of them. -/
theorem exists_mem_of_mapM_eq_ok {f : α → Except ε β} {as : List α} {bs : List β}
    (h : as.mapM f = .ok bs) {a : α} (ha : a ∈ as) : ∃ b ∈ bs, f a = .ok b := by
  have hall := mapM_eq_ok_iff.1 h
  induction hall with
  | nil => cases ha
  | cons hab htail ih =>
    rcases List.mem_cons.1 ha with rfl | ha
    · exact ⟨_, .head _, hab⟩
    · obtain ⟨b, hb, hab⟩ := ih (mapM_eq_ok_iff.2 htail) ha
      exact ⟨b, .tail _ hb, hab⟩

@[simp] theorem ok_bind (f : α → Except ε β) (a : α) : (.ok a : Except ε α) >>= f = f a := rfl

/-- Of the items with which something fails, the first one decides. -/
theorem mapM_append_cons_error {f : α → Except ε β} {as more : List α} {a : α} {e : ε}
    (h : ∀ b ∈ as, ∃ c, f b = .ok c) (ha : f a = .error e) :
    (as ++ a :: more).mapM f = .error e := by
  induction as with
  | nil =>
    rw [List.nil_append, List.mapM_cons, ha]
    rfl
  | cons b as ih =>
    obtain ⟨c, hc⟩ := h b (.head _)
    rw [List.cons_append, List.mapM_cons, hc, ok_bind, ih fun d hd => h d (.tail _ hd)]
    rfl

/-- What succeeds with each item succeeds with all of them. -/
theorem exists_mapM_eq_ok {f : α → Except ε β} {as : List α} (h : ∀ a ∈ as, ∃ b, f a = .ok b) :
    ∃ bs, as.mapM f = .ok bs := by
  induction as with
  | nil => exact ⟨[], rfl⟩
  | cons a as ih =>
    obtain ⟨b, hb⟩ := h a (.head _)
    obtain ⟨bs, hbs⟩ := ih fun c hc => h c (.tail _ hc)
    exact ⟨b :: bs, by rw [List.mapM_cons, hb, ok_bind, hbs]; rfl⟩

end Except
