import SuiteRunner.Event

/-!
# Histories at each place

A law about what must have happened before something happens is a law about each place of a
history: what stands before it, and what stands there.

* `Each`: a law holds at each place of a list;
* `each_append`: in a longer history it is a law about each part, with the parts before it.
-/

namespace SuiteRunner

section Each

variable {α : Type} {P Q : List α → α → Prop} {as bs : List α} {a : α}

/-- At each place of `l`, `P` holds of what stands before and what stands there. -/
def Each (P : List α → α → Prop) (l : List α) : Prop :=
  ∀ pre a post, l = pre ++ a :: post → P pre a

theorem each_nil : Each P [] := by
  intro pre a post h
  exact absurd h.symm (List.append_ne_nil_of_right_ne_nil _ (List.cons_ne_nil a post))

theorem each_cons : Each P (a :: as) ↔ P [] a ∧ Each (fun pre => P (a :: pre)) as := by
  constructor
  · intro h
    refine ⟨h [] a as rfl, fun pre b post hs => h (a :: pre) b post ?_⟩
    rw [hs, List.cons_append]
  · rintro ⟨h0, h⟩ pre b post hs
    cases pre with
    | nil =>
      cases hs
      exact h0
    | cons c pre =>
      cases hs
      exact h pre b post rfl

/-- **A law about a longer history is a law about its parts.** -/
theorem each_append :
    Each P (as ++ bs) ↔ Each P as ∧ Each (fun pre => P (as ++ pre)) bs := by
  induction as generalizing P with
  | nil => exact ⟨fun h => ⟨each_nil, h⟩, fun h => h.2⟩
  | cons a as ih => rw [List.cons_append, each_cons, each_cons, ih, and_assoc]; rfl

theorem Each.imp (h : Each P as) (hpq : ∀ pre a, P pre a → Q pre a) : Each Q as :=
  fun pre a post hs => hpq pre a (h pre a post hs)

/-- What holds wherever it stands is a law. -/
theorem each_of_mem (h : ∀ a ∈ as, ∀ pre, P pre a) : Each P as := by
  rintro pre a post rfl
  exact h a (List.mem_append_right pre List.mem_cons_self) pre

end Each

/-! ## What is done to one child -/

theorem doneTo_split {c : Nat} {event : ChildEvent} {es pre post : List Event}
    (h : es = pre ++ .child c event :: post) :
    doneTo c es = doneTo c pre ++ event :: doneTo c post := by
  rw [h, doneTo_append, doneTo_cons, Event.doneTo?, if_pos rfl]
  rfl

theorem doneTo_split_of_ne {c d : Nat} {event : ChildEvent} {es pre post : List Event}
    (h : es = pre ++ .child c event :: post) (hd : c ≠ d) :
    doneTo d es = doneTo d pre ++ doneTo d post := by
  rw [h, doneTo_append, doneTo_cons, Event.doneTo?, if_neg hd]
  rfl

theorem doneTo_eq_nil_iff {c : Nat} {es : List Event} :
    doneTo c es = [] ↔ ∀ event, .child c event ∉ es := by
  simp only [List.eq_nil_iff_forall_not_mem, mem_doneTo]

end SuiteRunner
